import Mathlib.Logic.Function.Basic
import Monochord.Proofs.Midi.Bending
import Monochord.Proofs.Midi.Sending

/-! # What a receiver hears

A receiver keeps the position of a wheel for every channel until the next bend on that channel. A
note is therefore heard at the position that its channel has when it starts, whether the bend was
sent for this note or for another one.

* **`Wheels`**, **`heard`** — the wheels of a receiver, and the notes of a track at their positions.
* **`placed`**, **`intended`** — the notes of chords on their channels, and at which position each
  is meant to be heard.
* **`heard_flatMap_messages`** — the track of chords, note by note.
* **`strike_eq_iff`** — notes are heard as intended exactly if no bend is left behind for a note
  without one.
* **`heard_eq_intended_iff`** — what that means for rendered chords. -/

namespace Monochord.Midi

open Binary64

/-! ## Receivers -/

/-- The positions of the wheels of all channels. -/
abbrev Wheels : Type := Fin 16 → Fin 16384

/-- All wheels at rest. -/
def Wheels.rest : Wheels := fun _ => centre

/-- The wheels after a message; `.bend c p` moves the wheel of the channel `c` to `p`. -/
def Wheels.after (w : Wheels) : Message → Wheels
  | .bend c p => Function.update w c p
  | _ => w

/-- A note that starts to sound. -/
structure Struck where
  /-- Its channel. -/
  channel : Fin 16
  /-- Its key. -/
  key : Fin 128
  /-- The position of the wheel of its channel. -/
  position : Fin 16384
deriving Repr, DecidableEq

/-- The notes of a track, as a receiver hears them: `.noteOn c k _` sounds at the position `w c` of
its channel. -/
def heard (w : Wheels) : List Timed → List Struck
  | [] => []
  | t :: ts =>
    match t.message with
    | .noteOn c k _ => ⟨c, k, w c⟩ :: heard w ts
    | m => heard (w.after m) ts

/-! ## Notes on their channels -/

/-- The notes of chords on their channels, in the order in which they start. -/
def placed (cs : List SentChord) : List (Fin 16 × SentNote) :=
  cs.flatMap fun c => c.notes.mapIdx fun i n => (channel i, n)

/-- `placed (c :: cs)` begins with the notes of `c` on their channels. -/
theorem placed_cons (c : SentChord) (cs : List SentChord) :
    placed (c :: cs) = (c.notes.mapIdx fun i n => (channel i, n)) ++ placed cs := by
  rw [placed, List.flatMap_cons, placed]

/-- How a note is meant to be heard: at its own bend, or at `centre` if it has none. -/
def intended (a : Fin 16 × SentNote) : Struck := ⟨a.1, a.2.key, a.2.bend.getD centre⟩

/-- The wheels when a note sounds: `a.2.bend = some b` has moved the wheel of its channel to `b`. -/
def Wheels.struck (w : Wheels) (a : Fin 16 × SentNote) : Wheels :=
  match a.2.bend with
  | some b => Function.update w a.1 b
  | none => w

/-- Notes that start one after another, as a receiver hears them. -/
def strike (w : Wheels) : List (Fin 16 × SentNote) → List Struck
  | [] => []
  | a :: as => ⟨a.1, a.2.key, w.struck a a.1⟩ :: strike (w.struck a) as

/-- `strike w (as ++ bs)` is `strike w as`, and then `bs` at the wheels that `as` leave behind. -/
theorem strike_append (w : Wheels) (as bs : List (Fin 16 × SentNote)) :
    strike w (as ++ bs) = strike w as ++ strike (as.foldl Wheels.struck w) bs := by
  induction as generalizing w with
  | nil => rfl
  | cons a as ih => rw [List.cons_append, strike, strike, ih, List.cons_append, List.foldl_cons]

/-- `heard w (n.start i ++ ts)` begins with the note on `channel i`. -/
theorem heard_start_append (w : Wheels) (i : Nat) (n : SentNote) (ts : List Timed) :
    heard w (n.start i ++ ts) =
      strike w [(channel i, n)] ++ heard (w.struck (channel i, n)) ts := by
  obtain ⟨key, bend⟩ := n
  cases bend with
  | none => rfl
  | some b => rfl

/-- The messages that start the notes `ns`, whose indices `g` counts, let them sound one after
another. -/
theorem heard_starts_append (w : Wheels) (g : Nat → Nat) (ns : List SentNote) (ts : List Timed) :
    heard w ((ns.mapIdx fun i n => n.start (g i)).flatten ++ ts) =
      strike w (ns.mapIdx fun i n => (channel (g i), n)) ++
        heard ((ns.mapIdx fun i n => (channel (g i), n)).foldl Wheels.struck w) ts := by
  -- the function that counts shifts with every note that is taken away
  induction ns generalizing w g with
  | nil => rfl
  | cons n ns ih =>
    rw [List.mapIdx_cons, List.mapIdx_cons, List.flatten_cons, List.append_assoc,
      heard_start_append, ih _ fun i => g (i + 1), ← List.append_assoc, List.foldl_cons, strike,
      strike, strike, List.cons_append, List.nil_append]

/-- `SentNote.stop` is not heard and leaves the wheels where they are. -/
theorem heard_stops_append (w : Wheels) (f : Nat → SentNote → Nat) (g : Nat → SentNote → Nat)
    (ns : List SentNote) (ts : List Timed) :
    heard w ((ns.mapIdx fun i n => n.stop (f i n) (g i n)) ++ ts) = heard w ts := by
  induction ns generalizing f g with
  | nil => rfl
  | cons n ns ih =>
    rw [List.mapIdx_cons, List.cons_append]
    exact ih (fun i n => f (i + 1) n) (fun i n => g (i + 1) n)

/-- **The track of `cs` is heard as `strike w (placed cs)`.** -/
theorem heard_flatMap_messages (w : Wheels) (cs : List SentChord) (ts : List Timed) :
    heard w (cs.flatMap SentChord.messages ++ ts) =
      strike w (placed cs) ++ heard ((placed cs).foldl Wheels.struck w) ts := by
  induction cs generalizing w with
  | nil => rfl
  | cons c cs ih =>
    -- all notes of the chord start before any ends, and nothing is heard while they end
    have hstarts := heard_starts_append w (fun i => i) c.notes
    rw [List.flatMap_cons, SentChord.messages, List.append_assoc, List.append_assoc]
    refine (hstarts _).trans ?_
    rw [heard_stops_append, ih, placed_cons, strike_append, List.foldl_append, List.append_assoc]

/-! ## Bends left behind -/

/-- A note leaves no bend behind for a later one on its channel: `b.2.bend ≠ none` if
`a.2.bend ≠ none`. -/
def LeavesNoBend (a b : Fin 16 × SentNote) : Prop :=
  a.1 = b.1 → a.2.bend ≠ none → b.2.bend ≠ none

/-- After a note `a` with a bend, the wheel of a note `b` without one is at rest exactly if
`LeavesNoBend a b` and it was at rest before. -/
theorem update_eq_centre_iff {a b : Fin 16 × SentNote} {p : Fin 16384} (ha : a.2.bend = some p)
    (hp : p ≠ centre) (hb : b.2.bend = none) (w : Wheels) :
    Function.update w a.1 p b.1 = centre ↔ LeavesNoBend a b ∧ w b.1 = centre := by
  by_cases hchannel : b.1 = a.1
  · rw [hchannel, Function.update_self]
    refine iff_of_false hp fun h => h.1 hchannel.symm ?_ hb
    rw [ha]
    exact Option.some_ne_none p
  · rw [Function.update_of_ne hchannel]
    exact (and_iff_right fun heq => absurd heq.symm hchannel).symm

/-- **`strike w as = as.map intended` exactly if `LeavesNoBend` holds of every note and any later
one**, and if `w` is at rest for every note without a bend. -/
theorem strike_eq_iff {as : List (Fin 16 × SentNote)} (h : ∀ a ∈ as, a.2.bend ≠ some centre)
    (w : Wheels) :
    strike w as = as.map intended ↔
      as.Pairwise LeavesNoBend ∧ ∀ a ∈ as, a.2.bend = none → w a.1 = centre := by
  -- on the notes, whatever the wheels are: what the first note does to them decides on the rest
  induction as generalizing w with
  | nil => simp [strike]
  | cons a as ih =>
    have hrest := ih fun b hb => h b (List.mem_cons_of_mem a hb)
    rw [strike, List.map_cons, List.cons.injEq, hrest, List.pairwise_cons, List.forall_mem_cons]
    cases ha : a.2.bend with
    | none =>
      -- nothing moves, and the note is heard where the wheel was
      have hstruck : w.struck a = w := by rw [Wheels.struck, ha]
      have hhead : (⟨a.1, a.2.key, w a.1⟩ : Struck) = intended a ↔ w a.1 = centre := by
        rw [intended, ha, Option.getD_none, Struck.mk.injEq]
        exact ⟨fun h => h.2.2, fun h => ⟨rfl, rfl, h⟩⟩
      have hleaves : ∀ b ∈ as, LeavesNoBend a b := fun b _ _ hbend => absurd ha hbend
      rw [hstruck, hhead]
      constructor
      · rintro ⟨hcentre, hpairwise, hall⟩
        exact ⟨⟨hleaves, hpairwise⟩, fun _ => hcentre, hall⟩
      · rintro ⟨⟨-, hpairwise⟩, hcentre, hall⟩
        exact ⟨hcentre rfl, hpairwise, hall⟩
    | some p =>
      -- the wheel moves away from its rest, so that later notes on the channel need a bend
      have hstruck : w.struck a = Function.update w a.1 p := by rw [Wheels.struck, ha]
      have hp : p ≠ centre := fun hp => h a List.mem_cons_self (ha.trans (congrArg some hp))
      have hhead : (⟨a.1, a.2.key, Function.update w a.1 p a.1⟩ : Struck) = intended a := by
        rw [intended, ha, Option.getD_some, Function.update_self]
      rw [hstruck]
      constructor
      · rintro ⟨-, hpairwise, hall⟩
        have hrest (b) (hb : b ∈ as) (hnone : b.2.bend = none) :=
          (update_eq_centre_iff ha hp hnone w).1 (hall b hb hnone)
        exact ⟨⟨fun b hb heq hbend hnone => (hrest b hb hnone).1 heq hbend hnone, hpairwise⟩,
          fun hnone => absurd hnone (by simp), fun b hb hnone => (hrest b hb hnone).2⟩
      · rintro ⟨⟨hleaves, hpairwise⟩, -, hall⟩
        exact ⟨hhead, hpairwise, fun b hb hnone =>
          (update_eq_centre_iff ha hp hnone w).2 ⟨hleaves b hb, hall b hb hnone⟩⟩

/-! ## Rendered chords -/

/-- `n.bend ≠ some centre` for every note that is sent for a frequency. -/
theorem SentNote.bend_ne_centre {frequency : Quantity} {n : SentNote}
    (h : n.Of .pythagorean frequency) : n.bend ≠ some centre := by
  obtain ⟨p, hp, -, hbend⟩ := h
  obtain ⟨note, cents⟩ := p
  obtain ⟨c, rfl⟩ := Pitch.exists_cents_eq hp
  split at hbend
  · next hneeds =>
    obtain ⟨b, hb, hn⟩ := hbend
    rw [hn, ne_eq, Option.some.injEq]
    exact Midi.bend_ne_centre hneeds.2 hb
  · rw [hbend]
    exact (Option.some_ne_none centre).symm

/-- `a.2.bend ≠ some centre` for all notes of chords that are sent in pure tuning. -/
theorem bend_ne_centre_of_mem_placed {base tempo : Quantity} {vs : List Voicing}
    {cs : List SentChord} (h : List.Forall₂ (SentChord.Of .pythagorean base tempo) vs cs) :
    ∀ a ∈ placed cs, a.2.bend ≠ some centre := by
  intro a ha
  obtain ⟨c, hc, ha⟩ := List.mem_flatMap.1 ha
  obtain ⟨v, -, hv⟩ := exists_of_mem_forall₂ h hc
  obtain ⟨i, hi, rfl⟩ := List.mem_mapIdx.1 ha
  obtain ⟨f, -, hf⟩ := exists_of_mem_forall₂ hv.1 (List.getElem_mem hi)
  exact SentNote.bend_ne_centre hf

/-- **Rendered notes are heard at their own bends exactly if no bend is left behind.** Whenever
`renderVoicings .pythagorean` succeeds, a receiver whose wheels are at rest hears every note as
`intended` exactly if the notes are pairwise `LeavesNoBend`: no note with a bend is followed on its
channel by one without. Nothing moves the wheel back. -/
theorem heard_eq_intended_iff {base tempo : Quantity} {vs : List Voicing} {data : Bytes}
    (h : renderVoicings .pythagorean base tempo vs = .ok data) :
    ∃ (s : Score) (cs : List SentChord),
      compose .pythagorean base tempo vs = .ok s ∧ s.encode = .ok data ∧
      List.Forall₂ (SentChord.Of .pythagorean base tempo) vs cs ∧
      (heard .rest s.noteTrack = (placed cs).map intended ↔
        (placed cs).Pairwise LeavesNoBend) := by
  obtain ⟨s, hs, hdata⟩ := bind_eq_ok_iff.1 h
  obtain ⟨first, -, hscore⟩ := bind_eq_ok_iff.1 hs
  obtain ⟨track, htrack, hscore⟩ := bind_eq_ok_iff.1 hscore
  obtain ⟨cs, hcs, rfl⟩ := noteTrack_eq_ok htrack
  obtain rfl := Except.ok.inj hscore
  refine ⟨_, cs, hs, hdata, hcs, ?_⟩
  -- all wheels are at rest at the beginning, so that only the bends left behind remain
  have hend : ∀ w, heard w [⟨0, .endOfTrack⟩] = [] := fun _ => rfl
  rw [heard_flatMap_messages, hend, List.append_nil,
    strike_eq_iff (bend_ne_centre_of_mem_placed hcs)]
  exact ⟨fun h => h.1, fun h => ⟨h, fun _ _ _ => rfl⟩⟩

/-- A fifth above the reference pitch, twice: the second note has a bend of its own, and so
`LeavesNoBend`. -/
theorem heard_eq_intended_iff_fifths :
    ∃ data, renderVoicings .pythagorean (.float 1.0) (.float 120.0)
        [⟨[.float 660.0], .float 1.0⟩, ⟨[.float 660.0], .float 1.0⟩] = .ok data ∧
      ∃ (s : Score) (cs : List SentChord),
        compose .pythagorean (.float 1.0) (.float 120.0)
          [⟨[.float 660.0], .float 1.0⟩, ⟨[.float 660.0], .float 1.0⟩] = .ok s ∧
        s.encode = .ok data ∧
        List.Forall₂ (SentChord.Of .pythagorean (.float 1.0) (.float 120.0))
          [⟨[.float 660.0], .float 1.0⟩, ⟨[.float 660.0], .float 1.0⟩] cs ∧
        (heard .rest s.noteTrack = (placed cs).map intended ↔
          (placed cs).Pairwise LeavesNoBend) := by
  have h : renderVoicings .pythagorean (.float 1.0) (.float 120.0)
      [⟨[.float 660.0], .float 1.0⟩, ⟨[.float 660.0], .float 1.0⟩] = .ok
        [0x4D, 0x54, 0x68, 0x64, 0, 0, 0, 6, 0, 1, 0, 2, 1, 0xE0,
          0x4D, 0x54, 0x72, 0x6B, 0, 0, 0, 11, 0, 0xFF, 0x51, 3, 7, 0xA1, 0x20, 0, 0xFF, 0x2F, 0,
          0x4D, 0x54, 0x72, 0x6B, 0, 0, 0, 30, 0, 0xE0, 80, 64, 0, 0x90, 76, 80, 0x87, 0x40,
          0x80, 76, 0, 0, 0xE0, 80, 64, 0, 0x90, 76, 80, 0x87, 0x40, 0x80, 76, 0,
          0, 0xFF, 0x2F, 0] := by
    rw [renderVoicings, compose, noteTrack, List.mapM_cons, List.mapM_cons, List.mapM_nil,
      chordMessages_fifth]
    decide +kernel
  exact ⟨_, h, heard_eq_intended_iff h⟩

/-! ## A bend left behind -/

/-- `n.bend = none` for the note that is sent for the reference pitch 440.0. -/
theorem bend_eq_none_of_reference {n : SentNote} (h : n.Of .pythagorean (.float 440.0)) :
    n.bend = none := by
  obtain ⟨p, hp, -, hbend⟩ := h
  have hneeds : (Pitch.ofFrequency (.float 440.0)).map Pitch.needsBend = .ok false := by
    decide +kernel
  rw [hp] at hneeds
  rw [if_neg] at hbend
  · exact hbend
  · rintro ⟨-, hneeds'⟩
    rw [Except.ok.inj hneeds] at hneeds'
    exact Bool.false_ne_true hneeds'

/-- A fifth above the reference pitch, and then the reference pitch itself: the second note is heard
at the bend of the first one, and not at rest. -/
theorem heard_ne_intended_fifth :
    ∃ (vs : List Voicing) (data : Bytes) (s : Score) (cs : List SentChord),
      vs = [⟨[.float 660.0], .float 1.0⟩, ⟨[.float 440.0], .float 1.0⟩] ∧
      (∀ v ∈ vs, v.frequencies.length ≤ 16) ∧
      renderVoicings .pythagorean (.float 1.0) (.float 120.0) vs = .ok data ∧
      compose .pythagorean (.float 1.0) (.float 120.0) vs = .ok s ∧ s.encode = .ok data ∧
      List.Forall₂ (SentChord.Of .pythagorean (.float 1.0) (.float 120.0)) vs cs ∧
      heard .rest s.noteTrack ≠ (placed cs).map intended := by
  obtain ⟨s, hs, hdata⟩ := bind_eq_ok_iff.1 renderVoicings_fifth
  obtain rfl := Except.ok.inj (compose_fifth.symm.trans hs)
  obtain ⟨cs, hcs, -⟩ := noteTrack_eq_ok noteTrack_fifth
  refine ⟨_, _, _, cs, rfl, by simp, renderVoicings_fifth, hs, hdata, hcs, ?_⟩
  -- two chords of one note each are sent, and the second note has no bend of its own
  obtain ⟨⟨notes, length⟩, cs₁, hc, hcs₁, rfl⟩ := List.forall₂_cons_left_iff.1 hcs
  obtain ⟨⟨notes', length'⟩, cs₂, hc', hcs₂, rfl⟩ := List.forall₂_cons_left_iff.1 hcs₁
  obtain rfl := List.forall₂_nil_left_iff.1 hcs₂
  obtain ⟨n, ns, -, hns, rfl⟩ := List.forall₂_cons_left_iff.1 hc.1
  obtain rfl := List.forall₂_nil_left_iff.1 hns
  obtain ⟨n', ns', hn', hns', rfl⟩ := List.forall₂_cons_left_iff.1 hc'.1
  obtain rfl := List.forall₂_nil_left_iff.1 hns'
  intro heq
  have hposition : (8272 : Fin 16384) = n'.bend.getD centre :=
    congrArg Struck.position (List.cons.inj (List.cons.inj heq).2).1
  rw [bend_eq_none_of_reference hn'] at hposition
  exact absurd hposition (by decide)

end Monochord.Midi
