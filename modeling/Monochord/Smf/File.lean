import Monochord.Smf.Buffer

/-! # Standard MIDI files

A file is a header chunk and one chunk for each track. A chunk is a name of four letters, the length
of its body in four bytes, and the body. The body of a track is a sequence of events: the ticks
since the event before as a variable-length quantity, and then the bytes of the event. All numbers
are big-endian.

- **`Event`**: ticks and bytes; **`Event.make`** refuses negative ticks.
- **`encodeEvents`**: the body of a track.
- **`encodeHeader`** and **`encodeTrack`**: the two kinds of chunk.
- **`encodeFile`**: the whole file. -/

namespace Monochord.Smf

/-! ## Events -/

/-- An event of a track. -/
structure Event where
  /-- The ticks since the event before. -/
  delta : Nat
  /-- The bytes of the event. -/
  data : Bytes
deriving Repr, DecidableEq

/-- An event at an integer distance; `delta < 0` is refused with `.negativeDelta`. -/
def Event.make (delta : Int) (data : Bytes) : Except Failure Event :=
  if delta < 0 then .error (.negativeDelta delta) else .ok ⟨delta.toNat, data⟩

/-- The bytes of an event: `Vlq.encode e.delta`, and then `e.data`. -/
def Event.encode (e : Event) : Bytes := Vlq.encode e.delta ++ e.data

/-- The body of a track. -/
def encodeEvents (events : List Event) : Bytes := events.flatMap Event.encode

@[simp] theorem encodeEvents_nil : encodeEvents [] = [] := rfl

@[simp] theorem encodeEvents_cons (e : Event) (es : List Event) :
    encodeEvents (e :: es) = Vlq.encode e.delta ++ (e.data ++ encodeEvents es) := by
  simp [encodeEvents, Event.encode]

/-! ## Chunks -/

/-- The name of a header chunk, `MThd`. -/
def headerName : Bytes := [0x4D, 0x54, 0x68, 0x64]

/-- The name of a track chunk, `MTrk`. -/
def trackName : Bytes := [0x4D, 0x54, 0x72, 0x6B]

/-- The length of the body of a header chunk. -/
def headerLength : Nat := 6

/-- The ticks in a quarter note. -/
def ticksPerQuarter : Nat := 480

/-- The format 1 of files whose tracks sound at the same time. -/
def simultaneousFormat : Nat := 1

/-- The header chunk: the format, the number of tracks, and the ticks in a quarter note. -/
def encodeHeader (tracks division format : Int) : Except Failure Bytes := do
  let format ← encodeField 2 format
  let tracks ← encodeField 2 tracks
  let division ← encodeField 2 division
  return headerName ++ bigEndian 4 headerLength ++ format ++ tracks ++ division

/-- The chunk of a track: `trackName`, the length of the body in four bytes, and the body. -/
def encodeTrack (events : List Event) : Except Failure Bytes := do
  let body := encodeEvents events
  let length ← encodeField 4 body.length
  return trackName ++ length ++ body

/-- A whole file: `encodeHeader`, and `encodeTrack` of every track. -/
def encodeFile (tracks : List (List Event)) (division format : Int) : Except Failure Bytes := do
  let header ← encodeHeader tracks.length division format
  let chunks ← tracks.mapM encodeTrack
  return header ++ chunks.flatten

end Monochord.Smf
