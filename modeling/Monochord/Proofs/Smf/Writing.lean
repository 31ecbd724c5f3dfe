import Mathlib.Data.List.Induction
import Monochord.Proofs.Smf.Canonical
import Monochord.Proofs.Smf.Capacity

/-! # What a buffer holds

Some items cannot be written, and an attempt to write one of them may come at any time. What a buffer
holds is then still made up of whole items only, and what it has handed out is what it held at the
time.

* **`Item.Fits`** — the items that can be written.
* **`Item.ReadsAs`** — the bytes that say what an item says, described by reading them;
  **`Item.encode_eq_ok_iff`**: these are the bytes that are written.
* **`Item.encode_cases`** — an item has an encoding, or else it is refused.
* **`Buffer.Session`** — a buffer in use: items are written, and its bytes are handed out.
* **`Buffer.Session.pieces_after`** — after any use the buffer consists of the items that could be
  written; **`Buffer.Session.views_isPrefix`**: what was handed out stays the same. -/

namespace Monochord

/-! ## Bytes and fields -/

/-- **`encodeByte n = .ok b` exactly if `b.toNat = n`.** -/
theorem encodeByte_eq_ok_iff {n : ℤ} {b : UInt8} :
    encodeByte n = .ok b ↔ (b.toNat : ℤ) = n := by
  have hb := b.toNat_lt
  rw [encodeByte]
  split
  · next h =>
    have hn : (UInt8.ofNat n.toNat).toNat = n.toNat :=
      UInt8.toNat_ofNat_of_lt' (show n.toNat < 256 by omega)
    rw [Except.ok.injEq, ← UInt8.toNat_inj, hn]
    omega
  · next h => exact iff_of_false (by simp) (by omega)

/-- `encodeByte n` succeeds exactly if `0 ≤ n ≤ 255`. -/
theorem exists_encodeByte_iff {n : ℤ} : (∃ b, encodeByte n = .ok b) ↔ 0 ≤ n ∧ n ≤ 255 := by
  rw [encodeByte]
  split
  · next h => exact iff_of_true ⟨_, rfl⟩ (by omega)
  · next h => exact iff_of_false (by simp) (by omega)

/-- `encodeByte` fails with `.undefined` only. -/
theorem eq_undefined_of_encodeByte {n : ℤ} {f : Failure} (h : encodeByte n = .error f) :
    f = .undefined := by
  rw [encodeByte] at h
  split at h
  · exact absurd h (by simp)
  · exact (Except.error.inj h).symm

/-- `bigEndian bs.length` undoes `ofBigEndian`. -/
theorem bigEndian_ofBigEndian (bs : Bytes) : bigEndian bs.length (ofBigEndian bs) = bs := by
  -- the writer makes the last byte first
  induction bs using List.reverseRecOn with
  | nil => rfl
  | append_singleton bs b ih =>
    have hb := b.toNat_lt
    have hdiv : (256 * ofBigEndian bs + b.toNat) / 256 = ofBigEndian bs := by omega
    have hmod : (256 * ofBigEndian bs + b.toNat) % 256 = b.toNat := by omega
    rw [List.length_append, List.length_singleton, ofBigEndian_append_singleton, bigEndian, hdiv,
      hmod, ih, UInt8.ofNat_toNat]

/-- `ofBigEndian bs < 256 ^ bs.length`. -/
theorem ofBigEndian_lt (bs : Bytes) : ofBigEndian bs < 256 ^ bs.length := by
  rw [← bigEndian_ofBigEndian bs, ofBigEndian_bigEndian, length_bigEndian]
  exact Nat.mod_lt _ (Nat.pow_pos (by decide))

/-- **`encodeField width n = .ok bs` exactly if `bs` has `width` bytes and `ofBigEndian bs = n`.**
-/
theorem encodeField_eq_ok_iff_ofBigEndian {width : ℕ} {n : ℤ} {bs : Bytes} :
    encodeField width n = .ok bs ↔ bs.length = width ∧ (ofBigEndian bs : ℤ) = n := by
  rw [encodeField_eq_ok_iff]
  constructor
  · rintro ⟨⟨h0, hn⟩, rfl⟩
    have hfit : n.toNat < 256 ^ width := (Int.toNat_lt h0).2 (by exact_mod_cast hn)
    rw [length_bigEndian, ofBigEndian_bigEndian, Nat.mod_eq_of_lt hfit]
    exact ⟨rfl, Int.toNat_of_nonneg h0⟩
  · rintro ⟨rfl, rfl⟩
    refine ⟨⟨Int.natCast_nonneg _, by exact_mod_cast ofBigEndian_lt bs⟩, ?_⟩
    rw [Int.toNat_natCast, bigEndian_ofBigEndian]

namespace Item

/-! ## Items -/

/-- The items that can be written: any `bytes`, `integers` between 0 and 255, a `field` of `width`
bytes with `0 ≤ n < 256 ^ width`, and a `quantity` with `0 ≤ n`. -/
def Fits : Item → Prop
  | bytes _ => True
  | integers ns => ∀ n ∈ ns, 0 ≤ n ∧ n ≤ 255
  | field width n => 0 ≤ n ∧ n ≤ 2 ^ (8 * width) - 1
  | quantity n => 0 ≤ n

instance : DecidablePred Fits := fun item =>
  match item with
  | bytes _ => inferInstanceAs (Decidable True)
  | integers ns => inferInstanceAs (Decidable (∀ n ∈ ns, 0 ≤ n ∧ n ≤ 255))
  | field width n => inferInstanceAs (Decidable (0 ≤ n ∧ n ≤ 2 ^ (8 * width) - 1))
  | quantity n => inferInstanceAs (Decidable (0 ≤ n))

/-- **The bytes that say what an item says**: the bytes of the item, a byte for each integer, a
big-endian number of the width of the field, or a quantity in its canonical form. -/
def ReadsAs : Item → Bytes → Prop
  | bytes data, bs => bs = data
  | integers ns, bs => bs.map (fun b => (b.toNat : ℤ)) = ns
  | field width n, bs => bs.length = width ∧ (ofBigEndian bs : ℤ) = n
  | quantity n, bs => Vlq.Canonical bs ∧ ∃ m : ℕ, Vlq.read? bs = some (m, []) ∧ (m : ℤ) = n

/-- What an item is refused with: `.undefined` for `integers`, `.fieldOverflow` for a `field`, and
`.negativeQuantity n` for a `quantity`. Any `bytes` are written. -/
def refusal : Item → Failure
  | bytes _ | integers _ => .undefined
  | field _ _ => .fieldOverflow
  | quantity n => .negativeQuantity n

/-- `(integers ns).encode = .ok bs` exactly if `bs` holds the integers `ns`, one byte each. -/
theorem encode_integers_eq_ok_iff {ns : List ℤ} {bs : Bytes} :
    (integers ns).encode = .ok bs ↔ (integers ns).ReadsAs bs := by
  rw [encode, mapM_eq_ok_iff, ReadsAs]
  simp only [encodeByte_eq_ok_iff]
  rw [eq_comm, ← List.forall₂_eq_eq_eq, List.forall₂_map_right_iff]
  simp only [eq_comm]

/-- `(quantity n).encode = .ok bs` exactly if `bs` is canonical and reads as `n`. -/
theorem encode_quantity_eq_ok_iff {n : ℤ} {bs : Bytes} :
    (quantity n).encode = .ok bs ↔ (quantity n).ReadsAs bs := by
  rw [encode, ReadsAs]
  constructor
  · intro h
    obtain ⟨m, rfl, rfl⟩ := Vlq.exists_of_encodeInt h
    have hread := Vlq.read?_encode m []
    rw [List.append_nil] at hread
    exact ⟨Vlq.canonical_encode m, m, hread, rfl⟩
  · rintro ⟨hcanonical, m, hread, rfl⟩
    obtain ⟨k, rfl⟩ := Vlq.exists_encode_eq hcanonical
    have hencode := Vlq.read?_encode k []
    rw [List.append_nil, hread] at hencode
    obtain ⟨rfl, -⟩ := Prod.mk.inj (Option.some.inj hencode)
    exact Vlq.encodeInt_natCast m

/-- **`item.encode = .ok bs` exactly if `item.ReadsAs bs`.** -/
theorem encode_eq_ok_iff {item : Item} {bs : Bytes} :
    item.encode = .ok bs ↔ item.ReadsAs bs := by
  cases item with
  | bytes data =>
    rw [encode, Except.ok.injEq, ReadsAs]
    exact eq_comm
  | integers ns => exact encode_integers_eq_ok_iff
  | field width n => exact encodeField_eq_ok_iff_ofBigEndian
  | quantity n => exact encode_quantity_eq_ok_iff

/-- **`item.encode` succeeds exactly if `item.Fits`.** -/
theorem exists_encode_iff {item : Item} : (∃ bs, item.encode = .ok bs) ↔ item.Fits := by
  cases item with
  | bytes data => exact iff_of_true ⟨data, rfl⟩ trivial
  | integers ns =>
    rw [encode, exists_mapM_eq_ok_iff, Fits]
    simp only [exists_encodeByte_iff]
  | field width n =>
    have hpow : (256 : ℤ) ^ width = 2 ^ (8 * width) := by rw [pow_mul]; norm_num
    rw [encode, exists_encodeField_iff, Fits, hpow, Int.le_sub_one_iff]
  | quantity n =>
    rw [encode, Fits]
    rcases lt_or_ge n 0 with hn | hn
    · rw [Vlq.encodeInt_of_neg hn]
      exact iff_of_false (by simp) hn.not_ge
    · obtain ⟨m, rfl⟩ := Int.eq_ofNat_of_zero_le hn
      exact iff_of_true ⟨_, Vlq.encodeInt_natCast m⟩ hn

/-- `item.encode` fails with `item.refusal` only. -/
theorem eq_refusal_of_encode {item : Item} {f : Failure} (h : item.encode = .error f) :
    f = item.refusal := by
  cases item with
  | bytes data => exact absurd h (by simp [encode])
  | integers ns =>
    obtain ⟨n, -, hn⟩ := exists_of_mapM_eq_error h
    exact eq_undefined_of_encodeByte hn
  | field width n => exact eq_fieldOverflow_of_encodeField h
  | quantity n =>
    rw [encode, Vlq.encodeInt] at h
    split at h
    · exact (Except.error.inj h).symm
    · exact absurd h (by simp)

/-- **Either `item.Fits`, and `item.encode = .ok data` with `item.ReadsAs data`, or not, and
`item.encode = .error item.refusal`.** -/
theorem encode_cases (item : Item) :
    (item.Fits ∧ ∃ data, item.encode = .ok data ∧ item.ReadsAs data) ∨
      (¬item.Fits ∧ item.encode = .error item.refusal) := by
  cases h : item.encode with
  | ok data => exact .inl ⟨exists_encode_iff.1 ⟨data, h⟩, data, rfl, encode_eq_ok_iff.1 h⟩
  | error f =>
    refine .inr ⟨fun hfits => ?_, by rw [eq_refusal_of_encode h]⟩
    obtain ⟨data, hdata⟩ := exists_encode_iff.2 hfits
    exact absurd (h.symm.trans hdata) (by simp)

end Item

namespace Buffer

/-! ## Single writes -/

/-- `b.write item` appends `data` if `item.encode = .ok data`. -/
theorem write_of_encode (b : Buffer) {item : Item} {data : Bytes} (h : item.encode = .ok data) :
    b.write item = .ok ⟨b.bytes ++ data⟩ := by
  rw [write, h]
  rfl

/-- `b.write item` fails as `item.encode` does. -/
theorem write_of_encode_eq_error (b : Buffer) {item : Item} {f : Failure}
    (h : item.encode = .error f) : b.write item = .error f := by
  rw [write, h]
  rfl

/-- `b.attempt item` appends `data` if `item.encode = .ok data`. -/
theorem bytes_attempt_of_encode (b : Buffer) {item : Item} {data : Bytes}
    (h : item.encode = .ok data) : (b.attempt item).bytes = b.bytes ++ data := by
  rw [attempt, b.write_of_encode h]

/-- **`b.attempt item = b` if `item.encode` fails.** -/
theorem attempt_of_encode_eq_error (b : Buffer) {item : Item} {f : Failure}
    (h : item.encode = .error f) : b.attempt item = b := by
  rw [attempt, b.write_of_encode_eq_error h]

/-! ## A buffer in use -/

/-- What can be done with a buffer. -/
inductive Action
  /-- An item is written, if it can be. -/
  | write (item : Item)
  /-- The bytes written so far are handed out. -/
  | view
deriving Repr, DecidableEq

/-- A buffer in use. -/
structure Session where
  /-- The buffer. -/
  buffer : Buffer := {}
  /-- What it has handed out, the first view at the front. -/
  views : List Bytes := []
deriving Repr, DecidableEq

namespace Session

/-- The session after an action; an item that does not fit leaves the buffer as it was. -/
def act (s : Session) : Action → Session
  | .write item => { s with buffer := s.buffer.attempt item }
  | .view => { s with views := s.views ++ [s.buffer.bytes] }

/-- The session after some actions, on an empty buffer. -/
def after (as : List Action) : Session := as.foldl act {}

/-- The items of the actions for which `Fits` holds, in order. -/
def written (as : List Action) : List Item :=
  as.filterMap fun
    | .write item => if item.Fits then some item else none
    | .view => none

@[simp] theorem after_nil : after [] = {} := rfl

@[simp] theorem after_append_singleton (as : List Action) (a : Action) :
    after (as ++ [a]) = (after as).act a := by
  simp [after]

/-- `written` of one more `.write item` with `item.Fits` has `item` at its end. -/
theorem written_append_of_fits (as : List Action) {item : Item} (h : item.Fits) :
    written (as ++ [.write item]) = written as ++ [item] := by
  simp [written, h]

/-- `written` of one more `.write item` without `item.Fits` stays as it is. -/
theorem written_append_of_not_fits (as : List Action) {item : Item} (h : ¬item.Fits) :
    written (as ++ [.write item]) = written as := by
  simp [written, h]

/-- `written` of one more `.view` stays as it is. -/
theorem written_append_view (as : List Action) : written (as ++ [.view]) = written as := by
  simp [written]

/-- **The buffer is `pieces.flatten` of one piece for each item of `written as`**, in order, where
each piece is `item.encode` and has `item.ReadsAs piece`. -/
theorem pieces_after (as : List Action) : ∃ pieces,
    List.Forall₂ (fun item piece => item.encode = .ok piece ∧ item.ReadsAs piece) (written as)
      pieces ∧ (after as).buffer.bytes = pieces.flatten := by
  induction as using List.reverseRecOn with
  | nil => exact ⟨[], .nil, rfl⟩
  | append_singleton as a ih =>
    obtain ⟨pieces, hpieces, hbytes⟩ := ih
    rw [after_append_singleton]
    cases a with
    | view =>
      rw [written_append_view]
      exact ⟨pieces, hpieces, hbytes⟩
    | write item =>
      rcases item.encode_cases with ⟨hfits, data, hdata, hreads⟩ | ⟨hfits, hrefused⟩
      · rw [written_append_of_fits as hfits]
        refine ⟨pieces ++ [data], List.rel_append hpieces (.cons ⟨hdata, hreads⟩ .nil), ?_⟩
        rw [act, (after as).buffer.bytes_attempt_of_encode hdata, hbytes, List.flatten_concat]
      · rw [written_append_of_not_fits as hfits, act,
          (after as).buffer.attempt_of_encode_eq_error hrefused]
        exact ⟨pieces, hpieces, hbytes⟩

/-- `s.views` is a prefix of `(s.act a).views`. -/
theorem views_isPrefix_act (s : Session) (a : Action) : s.views <+: (s.act a).views := by
  cases a with
  | write item => exact List.prefix_rfl
  | view => exact List.prefix_append _ _

/-- **`(after as).views` is a prefix of `(after (as ++ more)).views`.** -/
theorem views_isPrefix (as more : List Action) : (after as).views <+: (after (as ++ more)).views := by
  induction more using List.reverseRecOn with
  | nil => simp
  | append_singleton more a ih =>
    rw [← List.append_assoc, after_append_singleton]
    exact ih.trans (views_isPrefix_act _ a)

/-- The view after `as` is `(after as).buffer.bytes`, whatever comes afterwards. -/
theorem getElem?_views_append_view (as more : List Action) :
    (after (as ++ .view :: more)).views[(after as).views.length]? =
      some (after as).buffer.bytes := by
  have hviews : (after (as ++ [.view])).views = (after as).views ++ [(after as).buffer.bytes] := by
    rw [after_append_singleton]
    rfl
  obtain ⟨later, hlater⟩ := views_isPrefix (as ++ [.view]) more
  rw [List.append_cons, ← hlater, hviews, List.append_assoc, List.getElem?_append_right le_rfl,
    Nat.sub_self]
  rfl

/-- **A buffer holds exactly the encodings of the items that could be written.** `(after as).buffer`
consists of the encodings of `written as` in order, its size is the sum of theirs, and `ReadsAs`
holds of each of them.

Whatever is written next either has `Fits`, and then its encoding is put behind all this; or it has
not, and then it is refused with `item.refusal` and the buffer stays as it was. The bytes that are
handed out are those of the buffer at the time, whatever is done afterwards. -/
theorem holds_exactly_written (as : List Action) :
    (∃ pieces,
      List.Forall₂ (fun item piece => item.encode = .ok piece ∧ item.ReadsAs piece) (written as)
        pieces ∧
      (after as).buffer.bytes = pieces.flatten ∧
      (after as).buffer.size = (pieces.map List.length).sum) ∧
    (∀ item : Item,
      (item.Fits ∧ ∃ data, item.encode = .ok data ∧ item.ReadsAs data ∧
        (after as).buffer.write item = .ok (after (as ++ [.write item])).buffer ∧
        (after (as ++ [.write item])).buffer.bytes = (after as).buffer.bytes ++ data) ∨
      (¬item.Fits ∧ (after as).buffer.write item = .error item.refusal ∧
        (after (as ++ [.write item])).buffer = (after as).buffer)) ∧
    ∀ more, (after as).views <+: (after (as ++ more)).views ∧
      (after (as ++ .view :: more)).views[(after as).views.length]? =
        some (after as).buffer.bytes := by
  refine ⟨?_, fun item => ?_, fun more =>
    ⟨views_isPrefix as more, getElem?_views_append_view as more⟩⟩
  · obtain ⟨pieces, hpieces, hbytes⟩ := pieces_after as
    refine ⟨pieces, hpieces, hbytes, ?_⟩
    rw [size, hbytes, List.length_flatten]
  · rw [after_append_singleton, act]
    rcases item.encode_cases with ⟨hfits, data, hdata, hreads⟩ | ⟨hfits, hrefused⟩
    · have hbytes := (after as).buffer.bytes_attempt_of_encode hdata
      refine .inl ⟨hfits, data, hdata, hreads, ?_, hbytes⟩
      rw [(after as).buffer.write_of_encode hdata, ← hbytes]
    · exact .inr ⟨hfits, (after as).buffer.write_of_encode_eq_error hrefused,
        (after as).buffer.attempt_of_encode_eq_error hrefused⟩

/-- The second write fails in the middle of its bytes. -/
example : after [.write (.field 1 0x4D), .write (.integers [0x54, 256, 0x72]), .view,
    .write (.quantity (-1)), .write (.field 2 0x546B), .view] =
    ⟨⟨[0x4D, 0x54, 0x6B]⟩, [[0x4D], [0x4D, 0x54, 0x6B]]⟩ := by
  decide

end Session

end Buffer

end Monochord
