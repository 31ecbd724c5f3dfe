import Monochord.Midi.Score
import Monochord.Proofs.Smf.Container

/-! # Reading a score back

A reader for whole files: the container of `Monochord.Proofs.Smf.Container`, and in the body of
every track one event after another, each with its distance and its own status byte.

* **`Message.read?`** — a channel message with two data bytes of seven bits, or a meta message with
  its kind, its length and its data; `Message.read?_encode` reads back every message.
* **`Timed.read?`**, **`Recording.read?`** — a message after some ticks, and a whole file.
* **`Recording.read?_encode`** — reading undoes `Score.encode`. -/

namespace Monochord.Midi

open Smf

/-! ## Messages -/

/-- The message in the data of a meta event of a given kind, as far as this library knows the
kind. -/
def Message.ofMeta? (kind : UInt8) (data : Bytes) : Option Message :=
  if h : (kind = 0x51 ∧ data.length = 3) ∧ ofBigEndian data < 16777216 then
    some (.setTempo ⟨ofBigEndian data, h.2⟩)
  else if kind = 0x2F ∧ data = [] then some .endOfTrack
  else none

/-- The channel message with a status byte and two data values, as far as this library knows the
upper half of the status byte. -/
def Message.ofStatus? (status : UInt8) (first second : Fin 128) : Option Message :=
  let channel : Fin 16 := ⟨status.toNat % 16, Nat.mod_lt _ (by decide)⟩
  match status.toNat / 16 with
  | 0x8 => some (.noteOff channel first second)
  | 0x9 => some (.noteOn channel first second)
  | 0xE => some (.bend channel ⟨first + 128 * second, by omega⟩)
  | _ => none

/-- Reads a data byte of a channel message, whose high bit is clear. -/
def readData? : Bytes → Option (Fin 128 × Bytes)
  | [] => none
  | b :: bs => if h : b.toNat < 128 then some (⟨b.toNat, h⟩, bs) else none

/-- Reads a message. The status byte `0xFF` announces a meta message: its kind, the length of its
data and the data. Any other status byte is that of a channel message, which has two data bytes. -/
def Message.read? : Bytes → Option (Message × Bytes)
  | [] => none
  | status :: bs =>
    if status = 0xFF then
      match bs with
      | [] => none
      | kind :: bs => do
        let (length, bs) ← Vlq.read? bs
        let (data, bs) ← takeBytes? length bs
        return (← ofMeta? kind data, bs)
    else do
      let (first, bs) ← readData? bs
      let (second, bs) ← readData? bs
      return (← ofStatus? status first second, bs)

/-- `readData? (UInt8.ofNat v :: bs) = some (v, bs)` for `v : Fin 128`. -/
theorem readData?_ofNat (v : Fin 128) (bs : Bytes) :
    readData? (UInt8.ofNat v :: bs) = some (v, bs) := by
  have hb : (UInt8.ofNat v).toNat = v := UInt8.toNat_ofNat_of_lt' (show (v : Nat) < 256 by omega)
  simp only [readData?, hb, v.isLt, dite_true]

/-- `Message.read?` reads a channel message back, if `ofStatus?` knows its status byte. -/
theorem Message.read?_channel (status : Nat) (first second : Fin 128) {m : Message}
    (hs : status < 0xF0) (hm : ofStatus? (UInt8.ofNat status) first second = some m)
    (rest : Bytes) :
    read? (UInt8.ofNat status :: UInt8.ofNat first :: UInt8.ofNat second :: rest) =
      some (m, rest) := by
  -- the status byte of a channel message is not the one that announces a meta message
  have hne : ¬ UInt8.ofNat status = 0xFF := by
    intro h
    have hnat := congrArg UInt8.toNat h
    rw [UInt8.toNat_ofNat_of_lt' (show status < 256 by omega)] at hnat
    have h255 : (0xFF : UInt8).toNat = 255 := rfl
    omega
  rw [read?, if_neg hne, readData?_ofNat]
  simp only [Option.bind_eq_bind, Option.bind_some]
  rw [readData?_ofNat]
  simp only [Option.bind_some]
  rw [hm]
  rfl

/-- `Message.read?` reads a meta message back, if `ofMeta?` knows its kind. -/
theorem Message.read?_meta (kind : UInt8) (length : Nat) (data : Bytes) {m : Message}
    (hlength : length < 128) (hdata : data.length = length) (hm : ofMeta? kind data = some m)
    (rest : Bytes) :
    read? (0xFF :: kind :: UInt8.ofNat length :: (data ++ rest)) = some (m, rest) := by
  rw [read?, if_pos rfl]
  dsimp only
  rw [Vlq.read?, Vlq.readFrom?_stop 0 length hlength, Nat.mul_zero, Nat.zero_add]
  simp only [Option.bind_eq_bind, Option.bind_some]
  rw [takeBytes?_append hdata]
  simp only [Option.bind_some]
  rw [hm]
  rfl

/-- `16 * kind + c` has the upper half `kind` and the lower half `c`. -/
theorem toNat_status (kind : Nat) (hkind : kind < 16) (c : Fin 16) :
    (UInt8.ofNat (16 * kind + c)).toNat / 16 = kind ∧
      (UInt8.ofNat (16 * kind + c)).toNat % 16 = c := by
  rw [UInt8.toNat_ofNat_of_lt' (show 16 * kind + (c : Nat) < 256 by omega)]
  omega

/-- **`Message.read? (m.encode ++ rest) = some (m, rest)`.** -/
theorem Message.read?_encode (m : Message) (rest : Bytes) :
    read? (m.encode ++ rest) = some (m, rest) := by
  cases m with
  | setTempo t =>
    have ht : ofBigEndian (bigEndian 3 t) = t := by
      rw [ofBigEndian_bigEndian]
      exact Nat.mod_eq_of_lt t.isLt
    refine read?_meta 0x51 3 (bigEndian 3 t) (by decide) (length_bigEndian 3 t) ?_ rest
    rw [ofMeta?, dif_pos ⟨⟨rfl, length_bigEndian 3 t⟩, by rw [ht]; exact t.isLt⟩]
    simp only [ht, Fin.eta]
  | endOfTrack => exact read?_meta 0x2F 0 [] (by decide) rfl rfl rest
  | bend c p =>
    obtain ⟨hkind, hchannel⟩ := toNat_status 0xE (by decide) c
    -- the two halves of the position are put together again
    refine read?_channel (0xE0 + c) ⟨p % 128, Nat.mod_lt _ (by decide)⟩ ⟨p / 128, by omega⟩
      (by omega) ?_ rest
    simp only [ofStatus?, hkind, hchannel, Fin.eta, Nat.mod_add_div]
  | noteOn c k v =>
    obtain ⟨hkind, hchannel⟩ := toNat_status 0x9 (by decide) c
    refine read?_channel (0x90 + c) k v (by omega) ?_ rest
    simp only [ofStatus?, hkind, hchannel, Fin.eta]
  | noteOff c k v =>
    obtain ⟨hkind, hchannel⟩ := toNat_status 0x8 (by decide) c
    refine read?_channel (0x80 + c) k v (by omega) ?_ rest
    simp only [ofStatus?, hkind, hchannel, Fin.eta]

/-! ## Tracks and files -/

/-- Reads an event of a track: its distance and its message, whose status byte is never left out. -/
def Timed.read? (bs : Bytes) : Option (Timed × Bytes) := do
  let (delta, bs) ← Vlq.read? bs
  let (message, bs) ← Message.read? bs
  return (⟨delta, message⟩, bs)

/-- `Timed.read? (t.event.encode ++ rest) = some (t, rest)`. -/
theorem Timed.read?_encode (t : Timed) (rest : Bytes) :
    Timed.read? (t.event.encode ++ rest) = some (t, rest) := by
  rw [Timed.read?, Event.encode, event, List.append_assoc, Vlq.read?_encode]
  simp only [Option.bind_eq_bind, Option.bind_some]
  rw [Message.read?_encode]
  rfl

/-- `t.event.encode ≠ []`, so that `readAll?` goes on. -/
theorem Timed.encode_event_ne_nil (t : Timed) : t.event.encode ≠ [] := by
  intro h
  exact Vlq.encode_ne_nil t.delta (List.append_eq_nil_iff.1 h).1

/-- `readAll? Timed.read?` reads the events of a track back from `encodeEvents`. -/
theorem Timed.readAll?_encodeEvents (ts : List Timed) :
    readAll? Timed.read? (encodeEvents (ts.map event)) = some ts := by
  have h := readAll?_flatMap Timed.read? (fun t => t.event.encode) ts
    (fun t _ => t.encode_event_ne_nil) (fun t _ rest => t.read?_encode rest)
  rw [encodeEvents, List.flatMap_map, h]

/-- What a reader finds in a whole file. -/
structure Recording where
  /-- The format. -/
  format : Nat
  /-- The ticks in a quarter note. -/
  division : Nat
  /-- The events of every track. -/
  tracks : List (List Timed)
deriving Repr, DecidableEq

/-- Reads a whole file: its container, and then the body of every track up to its end. The header
must announce as many tracks as there are. -/
def Recording.read? (bs : Bytes) : Option Recording := do
  let contents ← Contents.read? bs
  let tracks ← contents.bodies.mapM (readAll? Timed.read?)
  if contents.announced = tracks.length then some ⟨contents.format, contents.division, tracks⟩
  else none

/-- **`Recording.read?` undoes `Score.encode`**: it finds format 1, 480 ticks in a quarter note, and
the two tracks of the score. -/
theorem Recording.read?_encode {s : Score} {data : Bytes} (h : s.encode = .ok data) :
    Recording.read? data = some ⟨1, 480, [s.tempoTrack, s.noteTrack]⟩ := by
  rw [Recording.read?, Contents.read?_encodeFile h]
  simp only [Option.bind_eq_bind, Option.bind_some, List.map_cons, List.map_nil, List.mapM_cons,
    List.mapM_nil, Timed.readAll?_encodeEvents, Option.pure_def, List.length_cons, List.length_nil,
    if_true]
  rfl

end Monochord.Midi
