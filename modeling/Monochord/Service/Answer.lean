import Monochord.Service.Request
import Monochord.Keyboard
import Monochord.Export

/-! # Answers

What the chord service answers. An answer is either a response or a rejection, and on the way
records are written to the journal.

- **`ChordReport`**: a resolved chord as it is sent; **`ChordReport.make`** copies its tones one by
  one and refuses a frequency that is not positive.
- **`Response`**: the responses; **`Response.ofChords`** counts the chords that are reported.
- **`Rejection`**: the body is wrong, the chord text is wrong, or a failure that is not handled.
- **`answer`**: the answer to a request. -/

namespace Monochord.Service

open Midi

/-! ## Responses -/

/-- A resolved chord as it is sent. -/
structure ChordReport where
  /-- The fundamental as written. -/
  fundamental : String
  /-- The frequency of the fundamental in Hz. -/
  frequency : Float
  /-- The intervals as written. -/
  intervals : List String
  /-- The duration as a double. -/
  duration : Float
  /-- The Pythagorean tones, all of positive frequency and ratio. -/
  pure : List PureTone
  /-- The equal-tempered tones, all of positive frequency. -/
  tempered : List TemperedTone
  /-- The tones side by side. -/
  comparisons : List Comparison

/-- A file as it is sent. -/
structure FileReport where
  /-- The name under which it is offered. -/
  name : String
  /-- Its bytes. -/
  content : Bytes

/-- The kind of file that is sent. -/
def mediaType : String := "audio/midi"

/-- The header that offers a file under its name. -/
def FileReport.disposition (f : FileReport) : String := "attachment; filename=\"" ++ f.name ++ "\""

/-- What the service sends. -/
inductive Response
  /-- It is running. -/
  | health
  /-- Chord text that shows the notation. -/
  | exampleText (text : String)
  /-- Resolved chords, and how many they are. -/
  | chords (count : Nat) (reports : List ChordReport)
  /-- A file. -/
  | file (report : FileReport)
  /-- A line of chord text, and the text that ends with it. -/
  | line (line text : String)

/-- Why the service sends no response. -/
inductive Rejection
  /-- Values are not as they must be. -/
  | invalid (violations : List Violation)
  /-- The chord text cannot be used, for the reason given. -/
  | unprocessable (detail : String)
  /-- A failure that is not handled. -/
  | failed (f : Failure)
deriving Repr, DecidableEq

/-- The status code 422 of chord text that cannot be used. -/
def unprocessableStatus : Nat := 422

/-- The status code 200 of a response. -/
def okStatus : Nat := 200

/-- An answer, with the records written on the way. -/
structure Answer where
  /-- The response or the rejection. -/
  result : Except Rejection Response
  /-- The records. -/
  records : List LogRecord := []

/-! ## Reports -/

/-- A failure as a rejection: `.diagnosed d` makes the chord text `.unprocessable`, other failures
are not handled. -/
def rejection : Failure → Rejection
  | .diagnosed d => .unprocessable d.message
  | f => .failed f

/-- The violation `.tooSmall` of a number that is not above zero. -/
def checkAboveZero (field : String) (x : Float) : List Violation :=
  if 0.0 < x then [] else [⟨[.field field], .tooSmall⟩]

/-- Accepts a tone whose frequency, and whose ratio if it has one, are above zero. -/
def checkTone (frequency : Float) (ratio : Option Float) : Except Rejection Unit :=
  match checkAboveZero "frequency" frequency ++ (ratio.map (checkAboveZero "ratio")).getD [] with
  | [] => .ok ()
  | vs => .error (.invalid vs)

/-- A Pythagorean tone as it is sent, after `checkTone`. -/
def reportPure (t : PureTone) : Except Rejection PureTone := do
  checkTone t.frequency (some t.ratio)
  return ⟨t.interval, t.frequency, t.ratio⟩

/-- An equal-tempered tone as it is sent, after `checkTone`. -/
def reportTempered (t : TemperedTone) : Except Rejection TemperedTone := do
  checkTone t.frequency none
  return ⟨t.interval, t.frequency⟩

/-- The report of a chord: `reportPure` and `reportTempered` of its tones, and then the rows of
`Harmony.compare`. -/
def ChordReport.make (c : ResolvedChord) : Except Rejection ChordReport := do
  let pure ← c.harmony.pure.mapM reportPure
  let tempered ← c.harmony.tempered.mapM reportTempered
  let comparisons ← c.harmony.compare.mapError rejection
  let duration ← (c.duration.number >>= Number.toFloat).mapError rejection
  return {
    fundamental := c.fundamental, frequency := c.harmony.fundamental, intervals := c.intervals
    duration, pure, tempered, comparisons }

/-- The response that reports some chords and counts them. Without a chord the count is
`.belowLimit`. -/
def Response.ofChords (cs : List ResolvedChord) : Except Rejection Response := do
  let reports ← cs.mapM ChordReport.make
  if 1 ≤ cs.length then return .chords cs.length reports
  else throw (.invalid [⟨[.field "count"], .belowLimit⟩])

/-! ## Answering -/

/-- The logger of the service. -/
def serviceLogger : String := "api.routes.chords"

/-- A record of `serviceLogger` at `infoLevel`. -/
def note (message : String) : LogRecord := ⟨serviceLogger, infoLevel, message⟩

/-- Resolves a text and goes on with `next` of its chords. A complaint makes the text
`.unprocessable`, and is recorded. -/
def withChords (text : String) (next : List ResolvedChord → Answer) : Answer :=
  match resolveText text with
  | .ok chords =>
    let a := next chords
    { a with records := ⟨exportLogger, debugLevel, resolvedMessage chords⟩ :: a.records }
  | .error (.diagnosed d) =>
    { result := .error (.unprocessable d.message)
      records := [note ("Rejected chord sequence (" ++ d.kind.code ++ "): " ++ d.message)] }
  | .error f => { result := .error (.failed f) }

/-- Answers a request for chords: `Response.ofChords` of what the text resolves to. -/
def answerText (r : TextRequest) : Answer :=
  withChords r.text fun chords =>
    { result := Response.ofChords chords
      records := [note ("Parsed " ++ chordCount chords.length)] }

/-- Answers a request for a file: `render` of what the text resolves to. -/
def answerFile (r : FileRequest) : Answer :=
  withChords r.text fun chords =>
    match render r.tuning (.float r.base) (.float r.tempo) chords with
    | .error f => { result := .error (.failed f) }
    | .ok content =>
      { result := .ok (.file ⟨r.tuning.fileName, content⟩)
        records := [note ("Rendered " ++ r.tuning.name ++ " MIDI: " ++ chordCount chords.length ++
          ", " ++ byteCount content.length)] }

/-- The selection after `press` for all keys of a request, the fundamental first. -/
def KeyboardRequest.selection (r : KeyboardRequest) : Selection :=
  (r.fundamental :: r.notes).foldl Selection.press {}

/-- The line of a request, and its text with that line at the end. -/
def KeyboardRequest.lines (r : KeyboardRequest) : Except Failure (String × String) := do
  let duration : Value := .quantity (.float r.duration)
  let line ← r.selection.line duration
  let text ← r.selection.appendTo r.text duration
  return (line, text)

/-- Answers a request for a line. -/
def answerKeyboard (r : KeyboardRequest) : Answer :=
  { result := (r.lines.mapError rejection).map fun p => .line p.1 p.2 }

/-- The requests to the service. -/
inductive Route
  /-- Is it running? -/
  | health
  /-- The example text. -/
  | exampleText
  /-- The chords of a text. -/
  | parse
  /-- The file of a text. -/
  | file
  /-- The line of a keyboard selection. -/
  | line
deriving Repr, DecidableEq

/-- The answer `next r` to a checked body, or `.invalid` with its violations. -/
def answerChecked {α : Type} (body : Checked α) (next : α → Answer) : Answer :=
  match body with
  | .ok r => next r
  | .error vs => { result := .error (.invalid vs) }

/-- The answer to a request with the given fields in its body. -/
def answer (route : Route) (fields : List (String × Value)) : Answer :=
  match route with
  | .health => { result := .ok .health }
  | .exampleText => { result := .ok (.exampleText exampleSequence) }
  | .parse => answerChecked (TextRequest.ofFields fields) answerText
  | .file => answerChecked (FileRequest.ofFields fields) answerFile
  | .line => answerChecked (KeyboardRequest.ofFields fields) answerKeyboard

end Monochord.Service
