import Monochord.Midi.Score
import Monochord.Proofs.Midi.Playable

/-! # What is sent for a chord

A score is composed of messages that are made one after another. Here the same messages are
described chord by chord and note by note, as a musician would count them.

* **`SentNote`**, **`SentChord`** — what remains of a note and of a chord when they are sent: a key
  and perhaps a bend for every note, and a length for the chord.
* **`SentNote.Of`**, **`SentChord.Of`** — which note is sent for a frequency, and which chord for a
  voicing.
* **`SentChord.messages`** — the messages of a chord, told by the index of each note.
* **`noteTrack_eq_ok`** — the note track is the messages of the sent chords, in order.
* **`compose_fifth`**, **`renderVoicings_fifth`** — the score and the file of a bent note and one that
  is not bent. -/

namespace Monochord.Midi

/-! ## Notes and chords -/

/-- A note as it is sent. -/
structure SentNote where
  /-- The key. -/
  key : Fin 128
  /-- The position of the wheel, if one is sent before the key. -/
  bend : Option (Fin 16384)
deriving Repr, DecidableEq

/-- A chord as it is sent. -/
structure SentChord where
  /-- The notes, in the order in which they start and end. -/
  notes : List SentNote
  /-- The ticks from the start of the notes to their end. -/
  length : Nat
deriving Repr, DecidableEq

/-- The note that is sent for a pitch: its key is `p.note % 128`, and `bend p.cents` is sent exactly
if the tuning is `.pythagorean` and `p.needsBend`. -/
def SentNote.OfPitch (tuning : Tuning) (p : Pitch Number) (n : SentNote) : Prop :=
  (n.key : Int) = p.note % 128 ∧
    if tuning = .pythagorean ∧ p.needsBend = true then
      ∃ b, Midi.bend p.cents = .ok b ∧ n.bend = some b
    else n.bend = none

/-- The note that is sent for the pitch of a frequency. -/
def SentNote.Of (tuning : Tuning) (frequency : Quantity) (n : SentNote) : Prop :=
  ∃ p, Pitch.ofFrequency frequency = .ok p ∧ n.OfPitch tuning p

/-- The chord that is sent for a voicing: a note for every frequency, and `ticksOf` for the length.
-/
def SentChord.Of (tuning : Tuning) (base tempo : Quantity) (v : Voicing) (c : SentChord) : Prop :=
  List.Forall₂ (SentNote.Of tuning) v.frequencies c.notes ∧
    ticksOf v.duration base tempo = .ok c.length

/-! ## Messages -/

/-- The messages that start the note with an index in its chord: its bend, if it has one, and its
key. -/
def SentNote.start (index : Nat) (n : SentNote) : List Timed :=
  (n.bend.toList.map fun b => ⟨0, .bend (channel index) b⟩) ++
    [⟨0, .noteOn (channel index) n.key strikeVelocity⟩]

/-- The message that ends the note with an index in its chord, after some ticks. -/
def SentNote.stop (delta index : Nat) (n : SentNote) : Timed :=
  ⟨delta, .noteOff (channel index) n.key releaseVelocity⟩

/-- The messages of a chord: all notes start, and then all notes end, of which only the first one
waits for the length of the chord. -/
def SentChord.messages (c : SentChord) : List Timed :=
  (c.notes.mapIdx SentNote.start).flatten ++
    c.notes.mapIdx fun i n => n.stop (if i = 0 then c.length else 0) i

/-! ## The note track -/

/-- `p.key = p.note % 128`. -/
theorem Pitch.coe_key {α : Type} (p : Pitch α) : ((p.key : Nat) : Int) = p.note % 128 :=
  Int.toNat_of_nonneg (Int.emod_nonneg _ (by decide))

/-- `startNote tuning index p` succeeds only with `n.start index` for a note with
`n.OfPitch tuning p`. -/
theorem startNote_eq_ok {tuning : Tuning} {index : Nat} {p : Pitch Number} {ms : List Timed}
    (h : startNote tuning index p = .ok ms) :
    ∃ n : SentNote, n.OfPitch tuning p ∧ n.key = p.key ∧ ms = n.start index := by
  rw [startNote] at h
  split at h
  · next hbend =>
    obtain ⟨b, hb, h⟩ := bind_eq_ok_iff.1 h
    obtain ⟨htuning, hneeds⟩ := Bool.and_eq_true_iff.1 hbend
    refine ⟨⟨p.key, some b⟩, ⟨p.coe_key, ?_⟩, rfl, (Except.ok.inj h).symm⟩
    -- only pure tuning has bends
    have hpyth : tuning = .pythagorean := by
      cases tuning with
      | pythagorean => rfl
      | equalTemperament => simp [Tuning.bends] at htuning
    rw [if_pos ⟨hpyth, hneeds⟩]
    exact ⟨b, hb, rfl⟩
  · next hbend =>
    refine ⟨⟨p.key, none⟩, ⟨p.coe_key, ?_⟩, rfl, (Except.ok.inj h).symm⟩
    rw [if_neg]
    rintro ⟨rfl, hneeds⟩
    exact hbend (by simp [Tuning.bends, hneeds])

/-- `startNotes` from `index` on succeeds only with `n.start (index + i)` for notes with `OfPitch`.
-/
theorem startNotes_eq_ok {tuning : Tuning} {index : Nat} {ps : List (Pitch Number)}
    {ms : List Timed} (h : startNotes tuning index ps = .ok ms) :
    ∃ ns : List SentNote,
      List.Forall₂ (fun p n => SentNote.OfPitch tuning p n ∧ n.key = p.key) ps ns ∧
        ms = (ns.mapIdx fun i n => n.start (index + i)).flatten := by
  -- the index of a note is the number of notes before it, and it decides on the channel
  induction ps generalizing index ms with
  | nil => exact ⟨[], .nil, (Except.ok.inj h).symm⟩
  | cons p ps ih =>
    obtain ⟨first, hfirst, h⟩ := bind_eq_ok_iff.1 h
    obtain ⟨others, hothers, h⟩ := bind_eq_ok_iff.1 h
    obtain ⟨n, hn, hkey, rfl⟩ := startNote_eq_ok hfirst
    obtain ⟨ns, hns, rfl⟩ := ih hothers
    refine ⟨n :: ns, .cons ⟨hn, hkey⟩ hns, ?_⟩
    rw [← Except.ok.inj h, List.mapIdx_cons, List.flatten_cons]
    simp only [Nat.add_zero, Nat.add_assoc, Nat.add_comm 1]

/-- `endNotes 0` ends all notes at once. -/
theorem endNotes_zero {index : Nat} {ps : List (Pitch Number)} {ns : List SentNote}
    (h : List.Forall₂ (fun p n => SentNote.key n = p.key) ps ns) :
    endNotes 0 index ps = ns.mapIdx fun i n => n.stop 0 (index + i) := by
  induction h generalizing index with
  | nil => rfl
  | cons hkey _ ih =>
    rw [endNotes, ih, List.mapIdx_cons, SentNote.stop, hkey]
    simp only [Nat.add_zero, Nat.add_assoc, Nat.add_comm 1]

/-- `endNotes length 0` ends all notes in order, of which only the first one waits for `length`. -/
theorem endNotes_eq {length : Nat} {ps : List (Pitch Number)} {ns : List SentNote}
    (h : List.Forall₂ (fun p n => SentNote.key n = p.key) ps ns) :
    endNotes length 0 ps = ns.mapIdx fun i n => n.stop (if i = 0 then length else 0) i := by
  -- no induction: the first note is special, and the others are all alike
  cases h with
  | nil => rfl
  | cons hkey hrest =>
    rw [endNotes, endNotes_zero hrest, List.mapIdx_cons, SentNote.stop, hkey, if_pos rfl]
    simp only [Nat.add_comm 1, Nat.succ_ne_zero, if_false, Nat.zero_add]

/-- Notes that are sent for the pitches of `fs` are sent for `fs`. -/
theorem SentNote.forall₂_of {tuning : Tuning} {fs : List Quantity} {ps : List (Pitch Number)}
    {ns : List SentNote} (hps : List.Forall₂ (fun f p => Pitch.ofFrequency f = .ok p) fs ps)
    (hns : List.Forall₂ (fun p n => SentNote.OfPitch tuning p n ∧ n.key = p.key) ps ns) :
    List.Forall₂ (SentNote.Of tuning) fs ns := by
  induction hps generalizing ns with
  | nil =>
    cases hns with
    | nil => exact .nil
  | cons hp _ ih =>
    cases hns with
    | cons hn hns => exact .cons ⟨_, hp, hn.1⟩ (ih hns)

/-- **`chordMessages` succeeds only with `c.messages` of a chord with `c.Of tuning base tempo v`.**
-/
theorem chordMessages_eq_ok {tuning : Tuning} {base tempo : Quantity} {v : Voicing}
    {ms : List Timed} (h : chordMessages tuning base tempo v = .ok ms) :
    ∃ c : SentChord, c.Of tuning base tempo v ∧ ms = c.messages := by
  obtain ⟨ps, hps, h⟩ := bind_eq_ok_iff.1 h
  obtain ⟨starts, hstarts, h⟩ := bind_eq_ok_iff.1 h
  obtain ⟨length, hlength, h⟩ := bind_eq_ok_iff.1 h
  obtain ⟨ns, hns, rfl⟩ := startNotes_eq_ok hstarts
  refine ⟨⟨ns, length⟩, ⟨SentNote.forall₂_of (mapM_eq_ok_iff.1 hps) hns, hlength⟩, ?_⟩
  rw [← Except.ok.inj h, endNotes_eq (hns.imp fun _ _ hn => hn.2), SentChord.messages]
  simp only [Nat.zero_add]

/-- `vs.mapM chordMessages` succeeds only with the messages of chords with `SentChord.Of`. -/
theorem mapM_chordMessages_eq_ok {tuning : Tuning} {base tempo : Quantity} {vs : List Voicing}
    {chords : List (List Timed)} (h : vs.mapM (chordMessages tuning base tempo) = .ok chords) :
    ∃ cs : List SentChord, List.Forall₂ (SentChord.Of tuning base tempo) vs cs ∧
      chords.flatten = cs.flatMap SentChord.messages := by
  rw [mapM_eq_ok_iff] at h
  induction h with
  | nil => exact ⟨[], .nil, rfl⟩
  | cons hchord _ ih =>
    obtain ⟨c, hc, rfl⟩ := chordMessages_eq_ok hchord
    obtain ⟨cs, hcs, hflatten⟩ := ih
    refine ⟨c :: cs, .cons hc hcs, ?_⟩
    rw [List.flatten_cons, hflatten, List.flatMap_cons]

/-- **`noteTrack` succeeds only with the messages of chords with `SentChord.Of`**, in order, and the
end of the track. -/
theorem noteTrack_eq_ok {tuning : Tuning} {base tempo : Quantity} {vs : List Voicing}
    {track : List Timed} (h : noteTrack tuning base tempo vs = .ok track) :
    ∃ cs : List SentChord, List.Forall₂ (SentChord.Of tuning base tempo) vs cs ∧
      track = cs.flatMap SentChord.messages ++ [⟨0, .endOfTrack⟩] := by
  obtain ⟨chords, hchords, h⟩ := bind_eq_ok_iff.1 h
  obtain ⟨cs, hcs, hflatten⟩ := mapM_chordMessages_eq_ok hchords
  refine ⟨cs, hcs, ?_⟩
  rw [← Except.ok.inj h, hflatten]

/-! ## A bent note -/

/-- `chordMessages` of one note is `starts` for its pitch, and the end of its key after `length`. -/
theorem chordMessages_single {tuning : Tuning} {base tempo frequency duration : Quantity}
    {key : Fin 128} {starts : List Timed} {length : ℕ}
    (hnote : (Pitch.ofFrequency frequency).map (fun p => (p.key, startNote tuning 0 p)) =
      .ok (key, .ok starts))
    (hlength : ticksOf duration base tempo = .ok length) :
    chordMessages tuning base tempo ⟨[frequency], duration⟩ =
      .ok (starts ++ [⟨length, .noteOff 0 key releaseVelocity⟩]) := by
  obtain ⟨p, hp, hstart⟩ := map_eq_ok_iff.1 hnote
  obtain ⟨hkey, hstart⟩ := Prod.mk.inj hstart
  rw [chordMessages]
  dsimp only
  rw [List.mapM_cons, List.mapM_nil, hp, ok_bind, hlength]
  simp only [startNotes, hstart, endNotes, hkey, ok_bind, pure_eq_ok, List.append_nil]
  rfl

/-- The messages for 660.0, a fifth above the reference pitch, which is bent up to 8272. The
logarithm may be either of two doubles, and the bend is the same for both. -/
theorem chordMessages_fifth :
    chordMessages .pythagorean (.float 1.0) (.float 120.0) ⟨[.float 660.0], .float 1.0⟩ =
      .ok [⟨0, .bend 0 8272⟩, ⟨0, .noteOn 0 76 80⟩, ⟨960, .noteOff 0 76 0⟩] := by
  have hpitch : HasPitch 660.0 := ⟨by decide, by decide⟩
  have hlength : ticksOf (.float 1.0) (.float 1.0) (.float 120.0) = .ok 960 := by decide +kernel
  have hnote : (Pitch.ofFrequency (.float 660.0)).map
      (fun p => (p.key, startNote .pythagorean 0 p)) =
        .ok (76, .ok [⟨0, .bend 0 8272⟩, ⟨0, .noteOn 0 76 80⟩]) :=
    hpitch.map_ofFrequency (by decide +kernel) (by decide +kernel)
  exact chordMessages_single hnote hlength

/-- The messages for the reference pitch 440.0, which needs no bend. -/
theorem chordMessages_reference :
    chordMessages .pythagorean (.float 1.0) (.float 120.0) ⟨[.float 440.0], .float 1.0⟩ =
      .ok [⟨0, .noteOn 0 69 80⟩, ⟨960, .noteOff 0 69 0⟩] := by
  decide +kernel

/-- The track for 660.0 and then 440.0: the wheel is moved for the first note, and never again. -/
theorem noteTrack_fifth :
    noteTrack .pythagorean (.float 1.0) (.float 120.0)
      [⟨[.float 660.0], .float 1.0⟩, ⟨[.float 440.0], .float 1.0⟩] = .ok
        [⟨0, .bend 0 8272⟩, ⟨0, .noteOn 0 76 80⟩, ⟨960, .noteOff 0 76 0⟩,
          ⟨0, .noteOn 0 69 80⟩, ⟨960, .noteOff 0 69 0⟩, ⟨0, .endOfTrack⟩] := by
  rw [noteTrack, List.mapM_cons, List.mapM_cons, List.mapM_nil, chordMessages_fifth,
    chordMessages_reference]
  rfl

/-- The score with this note track. -/
theorem compose_fifth :
    compose .pythagorean (.float 1.0) (.float 120.0)
      [⟨[.float 660.0], .float 1.0⟩, ⟨[.float 440.0], .float 1.0⟩] = .ok
        ⟨[⟨0, .setTempo 500000⟩, ⟨0, .endOfTrack⟩],
          [⟨0, .bend 0 8272⟩, ⟨0, .noteOn 0 76 80⟩, ⟨960, .noteOff 0 76 0⟩,
            ⟨0, .noteOn 0 69 80⟩, ⟨960, .noteOff 0 69 0⟩, ⟨0, .endOfTrack⟩]⟩ := by
  have htempo : tempoTrack (.float 120.0) = .ok [⟨0, .setTempo 500000⟩, ⟨0, .endOfTrack⟩] := by
    decide
  rw [compose, htempo, noteTrack_fifth]
  rfl

/-- The file of this score. -/
theorem renderVoicings_fifth :
    renderVoicings .pythagorean (.float 1.0) (.float 120.0)
      [⟨[.float 660.0], .float 1.0⟩, ⟨[.float 440.0], .float 1.0⟩] = .ok
        [0x4D, 0x54, 0x68, 0x64, 0, 0, 0, 6, 0, 1, 0, 2, 1, 0xE0,
          0x4D, 0x54, 0x72, 0x6B, 0, 0, 0, 11, 0, 0xFF, 0x51, 3, 7, 0xA1, 0x20, 0, 0xFF, 0x2F, 0,
          0x4D, 0x54, 0x72, 0x6B, 0, 0, 0, 26, 0, 0xE0, 80, 64, 0, 0x90, 76, 80, 0x87, 0x40,
          0x80, 76, 0, 0, 0x90, 69, 80, 0x87, 0x40, 0x80, 69, 0, 0, 0xFF, 0x2F, 0] := by
  rw [renderVoicings, compose_fifth]
  decide +kernel

end Monochord.Midi
