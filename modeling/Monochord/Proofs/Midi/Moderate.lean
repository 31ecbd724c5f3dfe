import Monochord.Proofs.Midi.WellFormed

/-! # Moderate timings

Extreme timings have no file, or one whose distances are too long. Here it is shown that this never
happens to music: for durations, units and tempos of moderate size, every chord that can be heard is
written as it should be.

* **`Number.Bounded`**, **`Quantity.Bounded`** — numbers of bounded magnitude, whose products and
  quotients are bounded, too.
* **`exists_ticksOf_le`** — lengths in ticks are bounded.
* **`trackSize_le`**, **`length_noteEvents_le`** — tracks with legal distances are short.
* **`exists_wellFormed_of_moderate`** — moderate timings lead to well-formed files. -/

namespace Monochord

open Binary64

/-! ## Bounded numbers -/

/-- A number of magnitude at most `2 ^ k`. -/
def Number.Bounded (a : Number) (k : ℕ) : Prop := ∃ r, a.value? = some r ∧ |r| ≤ 2 ^ k

/-- A quantity that counts as a number of magnitude at most `2 ^ k`. -/
def Quantity.Bounded (q : Quantity) (k : ℕ) : Prop := ∃ r, q.value? = some r ∧ |r| ≤ 2 ^ k

/-- `q.Bounded k` only if `q.number = .ok a` with `a.Bounded k`. -/
theorem Quantity.Bounded.exists_number {q : Quantity} {k : ℕ} (h : q.Bounded k) :
    ∃ a, q.number = .ok a ∧ a.Bounded k := by
  obtain ⟨r, hr, hle⟩ := h
  obtain ⟨a, ha, hvalue⟩ := Quantity.value?_eq_some_iff.1 hr
  exact ⟨a, ha, r, hvalue, hle⟩

/-- `Within x k` makes `.float x` bounded. -/
theorem Binary64.Within.bounded {x : Float} {k : ℕ} (h : Within x k) :
    (Number.float x).Bounded k :=
  ⟨toRat x, Number.value?_float_eq_some_iff.2 ⟨h.finite, rfl⟩, h.le⟩

namespace Number.Bounded

variable {a b : Number} {j k : ℕ}

/-- `a.toFloat = .ok x` with `Within x k` if `a.Bounded k`. -/
theorem exists_toFloat (h : a.Bounded k) (hk : k ≤ 1023) :
    ∃ x, a.toFloat = .ok x ∧ Within x k := by
  obtain ⟨r, hr, hle⟩ := h
  obtain ⟨x, hx, -, hrounds⟩ := Number.exists_toFloat hr
    (hle.trans_lt (two_pow_lt_overflowBound hk))
  exact ⟨x, hx, hrounds.within hle hk⟩

/-- `Arithmetic.mul a b` has the bound `2 ^ (j + k)` if `a` has `2 ^ j` and `b` has `2 ^ k`. -/
theorem mul (ha : a.Bounded j) (hb : b.Bounded k) (h : j + k ≤ 1023) :
    ∃ c, Arithmetic.mul a b = .ok c ∧ c.Bounded (j + k) := by
  -- unless both are integers, the factors are rounded first
  have hrounded : ∃ c, (a.toFloat >>= fun x => b.toFloat >>= fun y => .ok (float (x * y))) = .ok c ∧
      c.Bounded (j + k) := by
    obtain ⟨x, hx, hxj⟩ := ha.exists_toFloat (by omega)
    obtain ⟨y, hy, hyk⟩ := hb.exists_toFloat (by omega)
    rw [hx, ok_bind, hy]
    exact ⟨_, rfl, (hxj.mul hyk h).bounded⟩
  cases a with
  | int m =>
    cases b with
    | int n =>
      obtain ⟨r, hr, hrle⟩ := ha
      obtain ⟨s, hs, hsle⟩ := hb
      obtain rfl := Option.some.inj hr
      obtain rfl := Option.some.inj hs
      refine ⟨_, rfl, (m : ℚ) * n, ?_, ?_⟩
      · rw [value?, Int.cast_mul]
      · rw [abs_mul, pow_add]
        exact mul_le_mul hrle hsle (abs_nonneg _) (by positivity)
    | float y => exact hrounded
  | float x => exact hrounded

/-- A sixtieth of `a.Bounded (k + 5)` has the bound `2 ^ k`. -/
theorem div_sixty (ha : a.Bounded (k + 5)) (hk : k + 5 ≤ 1023) :
    ∃ c, Arithmetic.div a (Arithmetic.int 60) = .ok c ∧ c.Bounded k := by
  have hsmall {r : ℚ} (hr : |r| ≤ 2 ^ (k + 5)) : |r / 60| ≤ 2 ^ k := by
    rw [abs_div, div_le_iff₀ (by norm_num)]
    calc |r| ≤ 2 ^ k * 2 ^ 5 := by rw [← pow_add]; exact hr
      _ ≤ 2 ^ k * |60| := by gcongr; norm_num
  have hdiv : Arithmetic.div a (Arithmetic.int 60) = (a.div (.int 60)).map .float := rfl
  rw [hdiv]
  cases a with
  | int m =>
    obtain ⟨r, hr, hle⟩ := ha
    obtain rfl := Option.some.inj hr
    have hbound := hsmall hle
    obtain ⟨x, hx, -, hrounds⟩ := Number.exists_div_int (a := m) (b := 60) (by decide)
      (hbound.trans_lt (two_pow_lt_overflowBound (by omega)))
    rw [hx]
    exact ⟨_, rfl, (hrounds.within hbound (by omega)).bounded⟩
  | float x =>
    obtain ⟨y, hy, hwithin⟩ := ha.exists_toFloat hk
    obtain rfl := Except.ok.inj hy
    obtain ⟨hsixty, hexact⟩ : (60.0 : Float).isFinite = true ∧ toRat 60.0 = (60 : ℕ) :=
      toRat_of_toFloat rfl (by decide)
    have hrounds := rounds_div hwithin.finite hsixty (by decide)
    rw [hexact] at hrounds
    have hzero : ¬((60.0 : Float) == 0.0) = true := by decide
    have hquotient : (Number.float x).div (.int 60) = (Number.int 60).toFloat >>= fun y =>
        if y == 0.0 then .error .divisionByZero else .ok (x / y) := rfl
    have htoFloat : (Number.int 60).toFloat = .ok 60.0 := rfl
    rw [hquotient, htoFloat, ok_bind, if_neg hzero]
    exact ⟨_, rfl, (hrounds.within (hsmall hwithin.le) (by omega)).bounded⟩

/-- `floorHalfUp a = .ok n` with `n ≤ 2 ^ (k + 1)` if `a.Bounded k`. -/
theorem exists_floorHalfUp (ha : a.Bounded k) (hk : k + 1 ≤ 1023) :
    ∃ n, floorHalfUp a = .ok n ∧ n ≤ 2 ^ (k + 1) := by
  have hrounded : floorHalfUp a = a.toFloat >>= fun x => floorHalfUp (float x) := by
    cases a with
    | int n =>
      show ((int n).toFloat >>= fun x => .ok (float (x + 0.5))) >>= Number.floor = _
      cases (int n).toFloat <;> rfl
    | float x => rfl
  obtain ⟨x, hx, hwithin⟩ := ha.exists_toFloat (by omega)
  have hhalf : Within 0.5 0 := Midi.within_of_pattern_le (by decide) (by decide)
  have hsum := hwithin.add (hhalf.mono (Nat.zero_le k)) hk
  refine ⟨⌊toRat (x + 0.5)⌋, ?_, (abs_le.1 (Midi.abs_floor_le hsum.le)).2⟩
  rw [hrounded, hx, ok_bind]
  exact floorHalfUp_float_eq_ok_iff.2 ⟨hwithin.finite, rfl⟩

end Number.Bounded

namespace Midi

/-! ## Lengths -/

/-- **`ticksOf duration base tempo = .ok n` with `n ≤ 2 ^ (i + j + (k + 4) + 1)`**, if the three
have the bounds `2 ^ i`, `2 ^ j` and `2 ^ k`. -/
theorem exists_ticksOf_le {duration base tempo : Quantity} {i j k : ℕ} (hd : duration.Bounded i)
    (hb : base.Bounded j) (ht : tempo.Bounded k) (h : i + j + k ≤ 1000) :
    ∃ n ≤ 2 ^ (i + j + (k + 4) + 1), ticksOf duration base tempo = .ok n := by
  obtain ⟨a, ha, habounded⟩ := hd.exists_number
  obtain ⟨b, hb, hbbounded⟩ := hb.exists_number
  obtain ⟨c, hc, hcbounded⟩ := ht.exists_number
  have hquarter : (Number.int Smf.ticksPerQuarter).Bounded 9 := ⟨480, rfl, by norm_num⟩
  obtain ⟨minute, hminute, hbminute⟩ := hquarter.mul hcbounded (by omega)
  rw [show 9 + k = k + 4 + 5 by omega] at hbminute
  obtain ⟨rate, hrate, hbrate⟩ := hbminute.div_sixty (by omega)
  obtain ⟨seconds, hseconds, hbseconds⟩ := habounded.mul hbbounded (by omega)
  obtain ⟨length, hlength, hblength⟩ := hbseconds.mul hbrate (by omega)
  obtain ⟨n, hn, hle⟩ := hblength.exists_floorHalfUp (by omega)
  have hticks : ticksPerSecond c = .ok rate := by
    rw [ticksPerSecond]
    exact bind_eq_ok_iff.2 ⟨minute, hminute, hrate⟩
  refine ⟨n.toNat, ?_, ?_⟩
  · rw [Int.toNat_le]
    exact_mod_cast hle
  · rw [ticksOf, hc, ok_bind, hticks, ok_bind, ha, ok_bind, hb, ok_bind, ticksAt, hseconds, ok_bind,
      hlength, ok_bind, hn]
    rfl

/-! ## Sizes -/

/-- `m.encode.length ≤ 6`. -/
theorem Message.length_encode_le (m : Message) : m.encode.length ≤ 6 := by
  cases m with
  | setTempo t => rw [encode, List.length_append, length_bigEndian]; rfl
  | endOfTrack => decide
  | bend c p => exact Nat.le_add_right 3 3
  | noteOn c k v => exact Nat.le_add_right 3 3
  | noteOff c k v => exact Nat.le_add_right 3 3

/-- `trackSize ts ≤ 10 * ts.length` if every distance is at most `maxDelta`. -/
theorem trackSize_le {ts : List Timed} (h : ∀ t ∈ ts, t.delta ≤ maxDelta) :
    trackSize ts ≤ 10 * ts.length := by
  induction ts with
  | nil => exact le_rfl
  | cons t ts ih =>
    obtain ⟨ht, hts⟩ := List.forall_mem_cons.1 h
    have hdelta := length_encode_delta_iff.2 ht
    have hmessage := t.message.length_encode_le
    have hrest := ih hts
    rw [trackSize] at hrest ⊢
    rw [List.map_cons, Smf.encodeEvents_cons, List.length_append, List.length_append,
      List.length_cons, Timed.event]
    dsimp only
    omega

/-- `c.messages.length ≤ 3 * c.notes.length`. -/
theorem length_messages_le (c : SentChord) : c.messages.length ≤ 3 * c.notes.length := by
  have hstart (i : ℕ) (n : SentNote) : (n.start i).length ≤ 2 := by
    obtain ⟨key, bend⟩ := n
    cases bend with
    | none => exact Nat.le_succ 1
    | some b => exact le_rfl
  have hstarts : (c.notes.mapIdx SentNote.start).flatten.length ≤ c.notes.length * 2 := by
    have hsum := List.sum_le_card_nsmul ((c.notes.mapIdx SentNote.start).map List.length) 2
      fun l hl => by
        obtain ⟨ms, hms, rfl⟩ := List.mem_map.1 hl
        obtain ⟨i, hi, rfl⟩ := List.mem_mapIdx.1 hms
        exact hstart i _
    rw [List.length_map, List.length_mapIdx, smul_eq_mul] at hsum
    rw [List.length_flatten]
    exact hsum
  rw [SentChord.messages, List.length_append, List.length_mapIdx]
  omega

/-- `noteEvents cs` has at most three messages for each note, and one at the end. -/
theorem length_noteEvents_le (cs : List SentChord) :
    (noteEvents cs).length ≤ 3 * (cs.map fun c => c.notes.length).sum + 1 := by
  rw [noteEvents, List.length_append, List.length_singleton]
  refine Nat.succ_le_succ ?_
  induction cs with
  | nil => exact le_rfl
  | cons c cs ih =>
    have hc := length_messages_le c
    rw [List.flatMap_cons, List.length_append, List.map_cons, List.sum_cons]
    omega

/-! ## Moderate files -/

/-- The number of notes in some voicings. -/
def noteCount (vs : List Voicing) : ℕ := (vs.map fun v => v.frequencies.length).sum

/-- The chords that are sent have `noteCount vs` notes together. -/
theorem sum_length_notes_eq {tuning : Tuning} {base tempo : Quantity} {vs : List Voicing}
    {cs : List SentChord} (h : List.Forall₂ (SentChord.Of tuning base tempo) vs cs) :
    (cs.map fun c => c.notes.length).sum = noteCount vs := by
  induction h with
  | nil => rfl
  | cons hc _ ih => rw [noteCount, List.map_cons, List.map_cons, List.sum_cons, List.sum_cons, ih,
      hc.1.length_eq, noteCount]

/-- **Moderate timings lead to well-formed files.**

Suppose that durations, the unit and the tempo are at most `2 ^ i`, `2 ^ j` and `2 ^ k`, where
`i + j + k ≤ 22`, and that the tempo is at least one. Then `renderVoicings` succeeds with
`WellFormed data` for up to `2 ^ 27` audible notes in either tuning. -/
theorem exists_wellFormed_of_moderate {base tempo : Quantity} {i j k : ℕ} (hijk : i + j + k ≤ 22)
    (hbase : base.Bounded j) (htempo : ∃ r, tempo.value? = some r ∧ 1 ≤ r ∧ r ≤ 2 ^ k)
    {vs : List Voicing} (hvs : ∀ v ∈ vs, ∀ f ∈ v.frequencies, f.Audible)
    (hduration : ∀ v ∈ vs, v.duration.Bounded i) (hcount : noteCount vs ≤ 2 ^ 27)
    (tuning : Tuning) :
    ∃ data, renderVoicings tuning base tempo vs = .ok data ∧ WellFormed data := by
  obtain ⟨r, hr, hone, hrk⟩ := htempo
  have hpos : 0 < r := one_pos.trans_le hone
  have hticks : ∀ v ∈ vs, ∃ n ≤ maxDelta, ticksOf v.duration base tempo = .ok n := by
    intro v hv
    have hbounded : tempo.Bounded k := ⟨r, hr, (abs_of_pos hpos).trans_le hrk⟩
    obtain ⟨n, hn, hticks⟩ := exists_ticksOf_le (hduration v hv) hbase hbounded (by omega)
    refine ⟨n, ?_, hticks⟩
    calc n ≤ 2 ^ (i + j + (k + 4) + 1) := hn
      _ ≤ 2 ^ 27 := Nat.pow_le_pow_right (by decide) (by omega)
      _ ≤ maxDelta := by decide
  have hquarter := (exists_quarterLengthOf_value_iff hr hpos).2 (quarter_lt_overflowBound hone)
  refine exists_wellFormed hvs hquarter hticks fun track htrack => ?_
  obtain ⟨cs, hcs, rfl⟩ := noteTrack_eq_ok htrack
  have hdeltas := forall_delta_noteEvents_iff.2 fun c hc _ => length_le_of_ticksOf hcs hticks c hc
  have hsize := trackSize_le hdeltas
  have hlength := length_noteEvents_le cs
  rw [sum_length_notes_eq hcs] at hlength
  rw [noteEvents] at hsize hlength
  omega

end Midi

end Monochord
