import Mathlib.Algebra.Order.Group.Multiset
import Mathlib.Data.List.Induction
import Monochord.Proofs.Midi.Rendering

/-! # Playing a note track back

A player has a clock, which every message moves on by its ticks, and knows which keys sound. Several
keys of one number may sound on a channel at once, so they are counted. A key can only go up if it
is down.

* **`Player`**, **`Player.next?`** — a player, and what a message does to it.
* **`Player.replay?`** — a track, as a sequence of moments; **`Replays`**: it can be played from one
  player to another, and something is true at every moment.
* **`SentChord.Performed`** — what is true at the moments of a chord that starts at some time.
* **`replays_messages`** — one chord starts and ends in silence; **`replays_flatMap_messages`**: so
  do many.
* **`replays_renderVoicings`** — what that means for rendered chords. -/

namespace Monochord.Midi

/-! ## Players -/

/-- A player of a track. -/
structure Player where
  /-- The ticks since the start. -/
  clock : ℕ
  /-- The keys that sound, each on its channel. -/
  sounding : Multiset (Fin 16 × Fin 128)

/-- A player at the start. -/
def Player.silent : Player := ⟨0, 0⟩

/-- The player after a message. `.noteOn` adds its key to those that sound, and `.noteOff` takes it
away; a key that does not sound cannot go up. -/
def Player.next? (p : Player) (t : Timed) : Option Player :=
  match t.message with
  | .noteOn c k _ => some ⟨p.clock + t.delta, (c, k) ::ₘ p.sounding⟩
  | .noteOff c k _ =>
    if (c, k) ∈ p.sounding then some ⟨p.clock + t.delta, p.sounding.erase (c, k)⟩ else none
  | _ => some ⟨p.clock + t.delta, p.sounding⟩

/-- A message, and the player right after it. -/
structure Moment where
  /-- The message. -/
  message : Message
  /-- The player after it. -/
  player : Player

/-- Plays a track: the moments, and the player at the end. `none` if a key goes up that is not down.
-/
def Player.replay? (p : Player) : List Timed → Option (List Moment × Player)
  | [] => some ([], p)
  | t :: ts =>
    match p.next? t with
    | none => none
    | some q => (q.replay? ts).map fun r => (⟨t.message, q⟩ :: r.1, r.2)

/-- `p` plays the track `ts` and becomes `q`, and `P` holds at every moment. -/
def Replays (P : Moment → Prop) (p : Player) (ts : List Timed) (q : Player) : Prop :=
  ∃ moments, p.replay? ts = some (moments, q) ∧ ∀ m ∈ moments, P m

namespace Replays

variable {P Q : Moment → Prop} {p q r : Player} {t : Timed} {ts us : List Timed}

/-- No message, and the player stays as it is. -/
theorem nil : Replays P p [] p :=
  ⟨[], rfl, fun _ hm => absurd hm List.not_mem_nil⟩

/-- `p.next? t = some q`, and then `q` plays the others. -/
theorem cons (h : p.next? t = some q) (hP : P ⟨t.message, q⟩) (hs : Replays P q ts r) :
    Replays P p (t :: ts) r := by
  obtain ⟨moments, hreplay, hall⟩ := hs
  refine ⟨⟨t.message, q⟩ :: moments, ?_, List.forall_mem_cons.2 ⟨hP, hall⟩⟩
  rw [Player.replay?, h]
  dsimp only
  rw [hreplay, Option.map_some]

/-- `p` plays `ts` and becomes `q`, which plays `us`. -/
theorem append (h : Replays P p ts q) (h' : Replays P q us r) : Replays P p (ts ++ us) r := by
  induction ts generalizing p with
  | nil =>
    obtain ⟨moments, hreplay, -⟩ := h
    obtain ⟨-, rfl⟩ := Prod.mk.inj (Option.some.inj hreplay)
    exact h'
  | cons t ts ih =>
    obtain ⟨moments, hreplay, hall⟩ := h
    rw [Player.replay?] at hreplay
    cases hnext : p.next? t with
    | none =>
      rw [hnext] at hreplay
      exact absurd hreplay (by simp)
    | some p' =>
      rw [hnext] at hreplay
      obtain ⟨⟨rest, q'⟩, hrest, heq⟩ := Option.map_eq_some_iff.1 hreplay
      obtain ⟨rfl, rfl⟩ := Prod.mk.inj heq
      obtain ⟨hm, hall⟩ := List.forall_mem_cons.1 hall
      exact cons hnext hm (ih ⟨rest, hrest, hall⟩)

/-- `P` may be weakened to `Q`. -/
theorem imp (h : Replays P p ts q) (hPQ : ∀ m, P m → Q m) : Replays Q p ts q := by
  obtain ⟨moments, hreplay, hall⟩ := h
  exact ⟨moments, hreplay, fun m hm => hPQ m (hall m hm)⟩

end Replays

/-! ## Starting and ending notes -/

/-- A moment at which notes start, at a given time. No keys sound but some given ones. -/
structure Striking (time : ℕ) (down : Multiset (Fin 16 × Fin 128)) (m : Moment) : Prop where
  /-- The time. -/
  clock : m.player.clock = time
  /-- The keys that may sound. -/
  sounding : m.player.sounding ≤ down
  /-- A wheel moves, or a key goes down. -/
  message : (∃ c p, m.message = .bend c p) ∨ ∃ c k v, m.message = .noteOn c k v

/-- A moment at which notes end, at a given time. No keys sound but some given ones. -/
structure Releasing (time : ℕ) (down : Multiset (Fin 16 × Fin 128)) (m : Moment) : Prop where
  /-- The time. -/
  clock : m.player.clock = time
  /-- The keys that may sound. -/
  sounding : m.player.sounding ≤ down
  /-- A key goes up. -/
  message : ∃ c k v, m.message = .noteOff c k v

section Notes

variable {t : ℕ} {s d : Multiset (Fin 16 × Fin 128)}

/-- `n.start i` lets the key of `n` sound on `channel i`, at once. -/
theorem replays_start (i : ℕ) (n : SentNote) (h : (channel i, n.key) ::ₘ s ≤ d) :
    Replays (Striking t d) ⟨t, s⟩ (n.start i) ⟨t, (channel i, n.key) ::ₘ s⟩ := by
  have hon : Replays (Striking t d) ⟨t, s⟩ [⟨0, .noteOn (channel i) n.key strikeVelocity⟩]
      ⟨t, (channel i, n.key) ::ₘ s⟩ :=
    .cons rfl ⟨rfl, h, .inr ⟨_, _, _, rfl⟩⟩ .nil
  obtain ⟨key, bend⟩ := n
  cases bend with
  | none => exact hon
  | some b => exact .cons rfl ⟨rfl, (Multiset.le_cons_self s _).trans h, .inl ⟨_, _, rfl⟩⟩ hon

/-- The notes `ns`, whose indices `g` counts, start at once, and all of them sound then. -/
theorem replays_starts (g : ℕ → ℕ) (ns : List SentNote)
    (h : ↑(ns.mapIdx fun i n => (channel (g i), n.key)) + s ≤ d) :
    Replays (Striking t d) ⟨t, s⟩ (ns.mapIdx fun i n => n.start (g i)).flatten
      ⟨t, ↑(ns.mapIdx fun i n => (channel (g i), n.key)) + s⟩ := by
  induction ns generalizing g s with
  | nil =>
    rw [List.mapIdx_nil, List.mapIdx_nil, Multiset.coe_nil, zero_add]
    exact .nil
  | cons n ns ih =>
    -- the first key counts among those that sound when the others start
    have hkeys : (↑((n :: ns).mapIdx fun i n => (channel (g i), n.key)) + s :
        Multiset (Fin 16 × Fin 128)) = ↑(ns.mapIdx fun i n => (channel (g (i + 1)), n.key)) +
          (channel (g 0), n.key) ::ₘ s := by
      rw [List.mapIdx_cons, ← Multiset.cons_coe, Multiset.cons_add, Multiset.add_cons]
    rw [hkeys] at h ⊢
    rw [List.mapIdx_cons, List.flatten_cons]
    exact (replays_start (g 0) n ((Multiset.le_add_left _ _).trans h)).append
      (ih (fun i => g (i + 1)) h)

/-- `n.stop delta i` ends the note on `channel i`, `delta` ticks later. -/
theorem next?_stop (i delta : ℕ) (n : SentNote) :
    (Player.mk t ((channel i, n.key) ::ₘ s)).next? (n.stop delta i) = some ⟨t + delta, s⟩ := by
  show (if (channel i, n.key) ∈ (channel i, n.key) ::ₘ s then
    some (⟨t + delta, ((channel i, n.key) ::ₘ s).erase (channel i, n.key)⟩ : Player)
    else none) = _
  rw [if_pos (Multiset.mem_cons_self _ _), Multiset.erase_cons_head]

/-- The notes `ns`, whose indices `g` counts, end at once, and none of them sounds any more. -/
theorem replays_stops (g : ℕ → ℕ) (ns : List SentNote)
    (h : ↑(ns.mapIdx fun i n => (channel (g i), n.key)) + s ≤ d) :
    Replays (Releasing t d) ⟨t, ↑(ns.mapIdx fun i n => (channel (g i), n.key)) + s⟩
      (ns.mapIdx fun i n => n.stop 0 (g i)) ⟨t, s⟩ := by
  induction ns generalizing g with
  | nil =>
    rw [List.mapIdx_nil, List.mapIdx_nil, Multiset.coe_nil, zero_add]
    exact .nil
  | cons n ns ih =>
    rw [List.mapIdx_cons, ← Multiset.cons_coe, Multiset.cons_add] at h ⊢
    rw [List.mapIdx_cons]
    have hrest := (Multiset.le_cons_self _ _).trans h
    exact .cons (next?_stop (g 0) 0 n) ⟨rfl, hrest, _, _, _, rfl⟩
      (ih (fun i => g (i + 1)) hrest)

end Notes

/-! ## Chords -/

/-- The keys of a chord on their channels. -/
def SentChord.keys (c : SentChord) : List (Fin 16 × Fin 128) :=
  c.notes.mapIdx fun i n => (channel i, n.key)

/-- `c.keys` are on different channels if `c.notes.length ≤ 16`. -/
theorem SentChord.nodup_channels {c : SentChord} (h : c.notes.length ≤ 16) :
    (c.keys.map Prod.fst).Nodup := by
  have hchannels : c.keys.map Prod.fst = (List.range c.notes.length).map channel := by
    apply List.ext_getElem
    · simp [SentChord.keys]
    · intro i hi hi'
      simp [SentChord.keys]
  rw [hchannels]
  refine List.nodup_range.map_on fun i hi j hj hij => ?_
  have hval := congrArg Fin.val hij
  simp only [channel] at hval
  rw [List.mem_range] at hi hj
  omega

/-- The ticks for which a chord sounds: `c.length`, but 0 without notes. -/
def SentChord.span (c : SentChord) : ℕ := if c.notes = [] then 0 else c.length

/-- What is true at the moments of a chord that starts at a given time: keys go down then, and they
go up when its length has passed. A chord of up to 16 notes never has two notes on one channel. -/
structure SentChord.Performed (c : SentChord) (start : ℕ) (m : Moment) : Prop where
  /-- The time at which keys go down. -/
  strike : ∀ ch k v, m.message = .noteOn ch k v → m.player.clock = start
  /-- The time at which keys go up. -/
  release : ∀ ch k v, m.message = .noteOff ch k v → m.player.clock = start + c.length
  /-- The track goes on. -/
  goesOn : m.message ≠ .endOfTrack
  /-- No channel has two notes. -/
  apart : c.notes.length ≤ 16 → (m.player.sounding.map Prod.fst).Nodup

namespace SentChord

variable {c : SentChord} {start : ℕ} {m : Moment}

/-- Keys among `c.keys` are on different channels if `c.notes.length ≤ 16`. -/
theorem nodup_of_le_keys {s : Multiset (Fin 16 × Fin 128)} (hs : s ≤ c.keys)
    (h : c.notes.length ≤ 16) : (s.map Prod.fst).Nodup :=
  Multiset.nodup_of_le (Multiset.map_le_map hs) (Multiset.coe_nodup.2 (nodup_channels h))

/-- `c.Performed start` at every moment that is `Striking start c.keys`. -/
theorem performed_of_striking (h : Striking start c.keys m) : c.Performed start m := by
  refine ⟨fun _ _ _ _ => h.clock, ?_, ?_, nodup_of_le_keys h.sounding⟩
  · intro ch k v hoff
    rcases h.message with ⟨_, _, hm⟩ | ⟨_, _, _, hm⟩ <;> exact absurd (hm.symm.trans hoff) (by simp)
  · intro hend
    rcases h.message with ⟨_, _, hm⟩ | ⟨_, _, _, hm⟩ <;> exact absurd (hm.symm.trans hend) (by simp)

/-- `c.Performed start` at every moment that is `Releasing (start + c.length) c.keys`. -/
theorem performed_of_releasing (h : Releasing (start + c.length) c.keys m) :
    c.Performed start m := by
  obtain ⟨_, _, _, hm⟩ := h.message
  refine ⟨?_, fun _ _ _ _ => h.clock, ?_, nodup_of_le_keys h.sounding⟩
  · exact fun ch k v hon => absurd (hm.symm.trans hon) (by simp)
  · exact fun hend => absurd (hm.symm.trans hend) (by simp)

end SentChord

/-- **`c.messages` are played from silence at `start` to silence at `start + c.span`.** -/
theorem replays_messages (c : SentChord) (start : ℕ) :
    Replays (c.Performed start) ⟨start, 0⟩ c.messages ⟨start + c.span, 0⟩ := by
  have hstarts := replays_starts (t := start) (s := 0) (d := c.keys) (fun i => i) c.notes
    (add_zero _).le
  rw [add_zero] at hstarts
  rw [SentChord.messages]
  refine (hstarts.imp fun _ => SentChord.performed_of_striking).append ?_
  obtain ⟨notes, length⟩ := c
  cases notes with
  | nil => exact .nil
  | cons n ns =>
    -- the clock moves on before the first note ends, and then stands still for the others
    have hrest : (↑(ns.mapIdx fun i n => (channel (i + 1), n.key)) + 0 :
        Multiset (Fin 16 × Fin 128)) ≤ (SentChord.mk (n :: ns) length).keys := by
      rw [add_zero, SentChord.keys, List.mapIdx_cons, ← Multiset.cons_coe]
      exact Multiset.le_cons_self _ _
    have hstops := replays_stops (t := start + length) (fun i => i + 1) ns hrest
    rw [add_zero] at hrest hstops
    have hfirst := next?_stop (t := start)
      (s := ↑(ns.mapIdx fun i n => (channel (i + 1), n.key))) 0 length n
    rw [List.mapIdx_cons, List.mapIdx_cons, ← Multiset.cons_coe]
    exact .cons hfirst (SentChord.performed_of_releasing ⟨rfl, hrest, _, _, _, rfl⟩)
      (hstops.imp fun _ hm => SentChord.performed_of_releasing (c := ⟨n :: ns, length⟩) hm)

/-! ## Tracks -/

/-- The ticks for which chords sound, those without notes left aside. -/
def soundingTicks (cs : List SentChord) : ℕ :=
  ((cs.filter fun c => c.notes ≠ []).map SentChord.length).sum

/-- `soundingTicks (cs ++ [c]) = soundingTicks cs + c.span`. -/
theorem soundingTicks_append_singleton (cs : List SentChord) (c : SentChord) :
    soundingTicks (cs ++ [c]) = soundingTicks cs + c.span := by
  rw [soundingTicks, List.filter_append, List.map_append, List.sum_append, ← soundingTicks,
    SentChord.span]
  by_cases h : c.notes = [] <;> simp [h]

/-- **`cs.flatMap SentChord.messages` is played from silence to silence** in `soundingTicks cs`
ticks. -/
theorem replays_flatMap_messages (cs : List SentChord) :
    Replays (fun m => m.message ≠ .endOfTrack) .silent (cs.flatMap SentChord.messages)
      ⟨soundingTicks cs, 0⟩ := by
  induction cs using List.reverseRecOn with
  | nil => exact .nil
  | append_singleton cs c ih =>
    rw [List.flatMap_append, List.flatMap_singleton, soundingTicks_append_singleton]
    exact ih.append ((replays_messages c _).imp fun _ hm => hm.goesOn)

/-- **A rendered note track can be played back.** Whenever `renderVoicings` succeeds, the track that
is read back from the file starts in silence, and no key goes up that is not down.

Every chord `c` finds silence and leaves silence: its keys go down after `soundingTicks before`,
when the chords before it that have notes are over, and they go up exactly `c.length` later. As long
as it has at most 16 notes no channel ever has two. The track ends after `soundingTicks chords`. -/
theorem replays_renderVoicings {tuning : Tuning} {base tempo : Quantity} {vs : List Voicing}
    {data : Bytes} (h : renderVoicings tuning base tempo vs = .ok data) :
    ∃ (first : List Timed) (chords : List SentChord),
      Recording.read? data = some ⟨1, 480, [first, noteEvents chords]⟩ ∧
      List.Forall₂ (SentChord.Of tuning base tempo) vs chords ∧
      (∀ before c after, chords = before ++ c :: after →
        Replays (fun m => m.message ≠ .endOfTrack) .silent (before.flatMap SentChord.messages)
          ⟨soundingTicks before, 0⟩ ∧
        Replays (c.Performed (soundingTicks before)) ⟨soundingTicks before, 0⟩ c.messages
          ⟨soundingTicks (before ++ [c]), 0⟩) ∧
      Replays (fun m => m.message = .endOfTrack → m.player.clock = soundingTicks chords) .silent
        (noteEvents chords) ⟨soundingTicks chords, 0⟩ := by
  obtain ⟨microseconds, chords, -, hchords, hdata⟩ := renderVoicings_eq_ok h
  refine ⟨_, chords, Recording.read?_encode hdata, hchords, fun before c after _ => ?_, ?_⟩
  · rw [soundingTicks_append_singleton]
    exact ⟨replays_flatMap_messages before, replays_messages c _⟩
  · refine ((replays_flatMap_messages chords).imp fun m hm hend => absurd hend hm).append ?_
    exact .cons rfl (fun _ => rfl) .nil

/-- Two notes, a chord without notes, and a note in no time. -/
theorem replays_renderVoicings_octave :
    ∃ data, renderVoicings .pythagorean (.float 1.0) (.int 120)
        [⟨[.float 440.0, .int 880], .float 2.5⟩, ⟨[], .int 1⟩, ⟨[.int 440], .int 0⟩] = .ok data ∧
      ∃ (first : List Timed) (chords : List SentChord),
        Recording.read? data = some ⟨1, 480, [first, noteEvents chords]⟩ ∧
        List.Forall₂ (SentChord.Of .pythagorean (.float 1.0) (.int 120))
          [⟨[.float 440.0, .int 880], .float 2.5⟩, ⟨[], .int 1⟩, ⟨[.int 440], .int 0⟩] chords ∧
        (∀ before c after, chords = before ++ c :: after →
          Replays (fun m => m.message ≠ .endOfTrack) .silent (before.flatMap SentChord.messages)
            ⟨soundingTicks before, 0⟩ ∧
          Replays (c.Performed (soundingTicks before)) ⟨soundingTicks before, 0⟩ c.messages
            ⟨soundingTicks (before ++ [c]), 0⟩) ∧
        Replays (fun m => m.message = .endOfTrack → m.player.clock = soundingTicks chords) .silent
          (noteEvents chords) ⟨soundingTicks chords, 0⟩ := by
  have hok : (renderVoicings .pythagorean (.float 1.0) (.int 120)
      [⟨[.float 440.0, .int 880], .float 2.5⟩, ⟨[], .int 1⟩, ⟨[.int 440], .int 0⟩]).isOk =
        true := by
    decide +kernel
  obtain ⟨data, hdata⟩ := exists_of_isOk hok
  exact ⟨data, hdata, replays_renderVoicings hdata⟩

end Monochord.Midi
