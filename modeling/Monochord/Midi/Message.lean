import Monochord.Smf.File

/-! # MIDI messages

The messages that a rendered chord sequence consists of. Channel messages have one status byte,
which names the kind and the channel, and two data bytes of seven bits.

- **`Message`**: one message, and **`Message.encode`** its bytes.
- **`Timed`**: a message after some ticks; **`Timed.event`** is its event in a file. -/

namespace Monochord.Midi

/-- A message. -/
inductive Message
  /-- The length of a quarter note in microseconds, three bytes. -/
  | setTempo (microseconds : Fin 16777216)
  /-- The end of a track. -/
  | endOfTrack
  /-- The position of the pitch wheel of a channel; 8192 is the centre. -/
  | bend (channel : Fin 16) (position : Fin 16384)
  /-- A key goes down. -/
  | noteOn (channel : Fin 16) (key : Fin 128) (velocity : Fin 128)
  /-- A key goes up. -/
  | noteOff (channel : Fin 16) (key : Fin 128) (velocity : Fin 128)
deriving Repr, DecidableEq

/-- The bytes of a message. The position of the wheel is sent with its lower seven bits first. -/
def Message.encode : Message → Bytes
  | setTempo t => [0xFF, 0x51, 0x03] ++ bigEndian 3 t
  | endOfTrack => [0xFF, 0x2F, 0x00]
  | bend c p => [.ofNat (0xE0 + c), .ofNat (p % 128), .ofNat (p / 128)]
  | noteOn c k v => [.ofNat (0x90 + c), .ofNat k, .ofNat v]
  | noteOff c k v => [.ofNat (0x80 + c), .ofNat k, .ofNat v]

/-- Is the message a position of the pitch wheel? -/
def Message.isBend : Message → Bool
  | bend _ _ => true
  | _ => false

/-- A message after some ticks. -/
structure Timed where
  /-- The ticks since the message before. -/
  delta : Nat
  /-- The message. -/
  message : Message
deriving Repr, DecidableEq

/-- The event of a timed message. -/
def Timed.event (t : Timed) : Smf.Event := ⟨t.delta, t.message.encode⟩

end Monochord.Midi
