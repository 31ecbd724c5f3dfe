import Monochord.Midi.Message
import Monochord.Midi.Pitch
import Monochord.Midi.Time
import Monochord.Chord

/-! # Scores

A score is a tempo track and a note track. All notes of a chord start together and end together. The
note with index `i` in its chord sounds on channel `i`, or on the last channel if there are not
enough, so that every note can have a bend of its own.

- **`Tuning`**: Pythagorean, where notes are bent away from their keys, or equal temperament.
- **`Score`**: the messages of both tracks; **`Score.encode`** is the file.
- **`chordMessages`**: the messages of one chord.
- **`compose`**: the score of chords that are given by their frequencies.
- **`render`**: the file of resolved chords in a tuning. -/

namespace Monochord.Midi

/-! ## Tunings -/

/-- How the notes of a file are tuned. -/
inductive Tuning
  /-- Every note is bent to its Pythagorean pitch. -/
  | pythagorean
  /-- The notes are the keys themselves. -/
  | equalTemperament
deriving Repr, DecidableEq

/-- The name of a tuning in requests and reports. -/
def Tuning.name : Tuning → String
  | pythagorean => "pythagorean"
  | equalTemperament => "equal_temperament"

/-- The tuning with a given name. -/
def Tuning.ofName? (s : String) : Option Tuning :=
  [pythagorean, equalTemperament].find? fun t => t.name == s

/-- The name of the file in which a tuning is kept. -/
def Tuning.fileName (t : Tuning) : String := t.name ++ "_chords.mid"

/-- Does a tuning bend its notes? -/
def Tuning.bends : Tuning → Bool
  | pythagorean => true
  | equalTemperament => false

/-! ## Messages -/

/-- A score: the messages of its two tracks. -/
structure Score where
  /-- The track that sets the tempo. -/
  tempoTrack : List Timed
  /-- The track with the notes. -/
  noteTrack : List Timed
deriving Repr, DecidableEq

/-- The file of a score. -/
def Score.encode (s : Score) : Except Failure Bytes :=
  Smf.encodeFile [s.tempoTrack.map Timed.event, s.noteTrack.map Timed.event]
    Smf.ticksPerQuarter Smf.simultaneousFormat

/-- The channel of the note with a given index in its chord. -/
def channel (index : Nat) : Fin 16 := ⟨min index 15, by omega⟩

/-- How hard every key is struck. -/
def strikeVelocity : Fin 128 := 80

/-- How fast every key is released. -/
def releaseVelocity : Fin 128 := 0

/-- The messages that start a note: its bend, if the tuning has bends and the pitch needs one, and
the key. -/
def startNote (tuning : Tuning) (index : Nat) (p : Pitch Number) : Except Failure (List Timed) := do
  let on : Timed := ⟨0, .noteOn (channel index) p.key strikeVelocity⟩
  if tuning.bends && p.needsBend then
    return [⟨0, .bend (channel index) (← bend p.cents)⟩, on]
  else return [on]

/-- The messages that start the notes of a chord, of which the first has the given index. -/
def startNotes (tuning : Tuning) : Nat → List (Pitch Number) → Except Failure (List Timed)
  | _, [] => .ok []
  | index, p :: ps => do
    let first ← startNote tuning index p
    let rest ← startNotes tuning (index + 1) ps
    return first ++ rest

/-- The messages that end the notes of a chord, of which the first has the given index. Only the
first message waits. -/
def endNotes (length : Nat) : Nat → List (Pitch Number) → List Timed
  | _, [] => []
  | index, p :: ps =>
    ⟨length, .noteOff (channel index) p.key releaseVelocity⟩ :: endNotes 0 (index + 1) ps

/-- A chord as a score needs it: frequencies and a duration. -/
structure Voicing where
  /-- The frequencies in Hz, in the order of the notes. -/
  frequencies : List Quantity
  /-- The duration. -/
  duration : Quantity

/-- The messages of one chord. -/
def chordMessages (tuning : Tuning) (base tempo : Quantity) (v : Voicing) :
    Except Failure (List Timed) := do
  let pitches ← v.frequencies.mapM Pitch.ofFrequency
  let starts ← startNotes tuning 0 pitches
  let length ← ticksOf v.duration base tempo
  return starts ++ endNotes length 0 pitches

/-! ## Composing and rendering -/

/-- The track that sets the tempo. -/
def tempoTrack (tempo : Quantity) : Except Failure (List Timed) := do
  let microseconds ← quarterLengthOf tempo
  return [⟨0, .setTempo (tempoField microseconds)⟩, ⟨0, .endOfTrack⟩]

/-- The track with the notes. -/
def noteTrack (tuning : Tuning) (base tempo : Quantity) (vs : List Voicing) :
    Except Failure (List Timed) := do
  let chords ← vs.mapM (chordMessages tuning base tempo)
  return chords.flatten ++ [⟨0, .endOfTrack⟩]

/-- The score of chords in a tuning. -/
def compose (tuning : Tuning) (base tempo : Quantity) (vs : List Voicing) :
    Except Failure Score := do
  let first ← tempoTrack tempo
  let second ← noteTrack tuning base tempo vs
  return ⟨first, second⟩

/-- The file of chords in a tuning. -/
def renderVoicings (tuning : Tuning) (base tempo : Quantity) (vs : List Voicing) :
    Except Failure Bytes := do
  (← compose tuning base tempo vs).encode

/-- A resolved chord as a score in a tuning needs it. -/
def voicing (tuning : Tuning) (c : ResolvedChord) : Voicing :=
  let frequencies := match tuning with
    | .pythagorean => c.pureFrequencies
    | .equalTemperament => c.temperedFrequencies
  ⟨frequencies.map .float, c.duration⟩

/-- The file of resolved chords in a tuning. -/
def render (tuning : Tuning) (base tempo : Quantity) (cs : List ResolvedChord) :
    Except Failure Bytes :=
  renderVoicings tuning base tempo (cs.map (voicing tuning))

end Monochord.Midi
