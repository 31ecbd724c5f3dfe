import Mathlib.Data.List.Induction
import Mathlib.Order.Bounds.Defs
import Monochord.Proofs.Smf.Container

/-! # The canonical form of variable-length quantities

Many byte strings read as the same number, since groups of zeros may be written in front. Only one
of them is written: the one without such groups. Writing and reading are therefore inverse between
the natural numbers and the byte strings of this form.

* **`Vlq.Canonical`** — the byte strings that are written, described by their bytes.
* **`Vlq.canonical_encode`** — what is written has this form; **`Vlq.exists_encode_eq`**: whatever
  has this form is written for some number.
* **`Vlq.length_encode_isLeast`** — the length is the least one whose groups can hold the number.
* **`Vlq.eq_of_append_eq`** — of two written quantities none is the beginning of the other.
* **`Vlq.encodeInt_bijective`** — all this for integers, of which the negative ones are refused. -/

namespace Monochord

namespace Vlq

/-! ## The form -/

/-- `Canonical bs`: exactly the last byte is below 128, and the first one is not `0x80`. -/
structure Canonical (bs : Bytes) : Prop where
  /-- The high bit is set in every byte but the last. -/
  groups : ∃ front last, bs = front ++ [last] ∧ (∀ b ∈ front, 128 ≤ b.toNat) ∧ last.toNat < 128
  /-- The first byte is not a group of zeros that goes on. -/
  head : bs.head? ≠ some 0x80

/-- `leading n = []` for `n = 0` only. -/
theorem leading_eq_nil_iff {n : ℕ} : leading n = [] ↔ n = 0 := by
  rw [leading]
  split
  · next h => exact iff_of_true rfl h
  · next h => exact iff_of_false (by simp) h

/-- Every byte of `leading n` has its high bit set. -/
theorem le_toNat_of_mem_leading {n : ℕ} : ∀ b ∈ leading n, 128 ≤ b.toNat := by
  induction n using leading.induct with
  | case1 =>
    rw [leading, if_pos rfl]
    exact fun b hb => absurd hb List.not_mem_nil
  | case2 n hn ih =>
    rw [leading, if_neg hn]
    intro b hb
    rcases List.mem_append.1 hb with hb | hb
    · exact ih b hb
    · rw [List.mem_singleton.1 hb, toNat_continuation (Nat.mod_lt n (by decide))]
      exact Nat.le_add_right _ _

/-- `leading n` does not begin with `0x80`, a group of zeros that goes on. -/
theorem head?_leading_ne (n : ℕ) : (leading n).head? ≠ some 0x80 := by
  induction n using leading.induct with
  | case1 => simp [leading]
  | case2 n hn ih =>
    rw [leading, if_neg hn, List.head?_append]
    by_cases hzero : n / 128 = 0
    · -- the first group is the number itself
      have hbyte := toNat_continuation (Nat.mod_lt n (show 0 < 128 by decide))
      rw [leading_eq_nil_iff.2 hzero, List.head?_nil, Option.none_or, List.head?_singleton]
      intro h
      rw [Option.some.inj h] at hbyte
      have hdigit : 128 = 128 + n % 128 := hbyte
      omega
    · obtain ⟨b, bs, hcons⟩ := List.exists_cons_of_ne_nil (mt leading_eq_nil_iff.1 hzero)
      rw [hcons] at ih ⊢
      exact ih

/-- **`Canonical (encode n)`.** -/
theorem canonical_encode (n : ℕ) : Canonical (encode n) := by
  have hlast : (UInt8.ofNat (n % 128)).toNat = n % 128 :=
    UInt8.toNat_ofNat_of_lt' (show n % 128 < 256 by omega)
  refine ⟨⟨leading (n / 128), UInt8.ofNat (n % 128), rfl, le_toNat_of_mem_leading, ?_⟩, ?_⟩
  · rw [hlast]
    exact Nat.mod_lt n (by decide)
  · rw [encode, List.head?_append]
    cases hfront : (leading (n / 128)).head? with
    | some b =>
      have hne := head?_leading_ne (n / 128)
      rw [hfront] at hne
      exact hne
    | none =>
      rw [Option.none_or, List.head?_singleton]
      intro h
      rw [Option.some.inj h] at hlast
      have hdigit : 128 = n % 128 := hlast
      omega

/-! ## From bytes to numbers -/

/-- `front = leading n` for some `n`, if all bytes of `front` go on and the first is not `0x80`. -/
theorem exists_leading_eq {front : Bytes} (hgroups : ∀ b ∈ front, 128 ≤ b.toNat)
    (hhead : front.head? ≠ some 0x80) : ∃ n, leading n = front := by
  -- the writer makes the last group first, so that groups are taken away from the end
  induction front using List.reverseRecOn with
  | nil => exact ⟨0, leading_eq_nil_iff.2 rfl⟩
  | append_singleton front b ih =>
    have hb : 128 ≤ b.toNat := hgroups b (List.mem_append_right _ List.mem_cons_self)
    have hlt : b.toNat < 256 := b.toNat_lt
    obtain ⟨n, hn⟩ := ih (fun c hc => hgroups c (List.mem_append_left _ hc)) (by
      cases front with
      | nil => simp
      | cons c cs => exact hhead)
    have hmod : (128 * n + (b.toNat - 128)) % 128 = b.toNat - 128 := by omega
    have hdiv : (128 * n + (b.toNat - 128)) / 128 = n := by omega
    -- the number is not zero: its first group is the first one of all
    have hne : 128 * n + (b.toNat - 128) ≠ 0 := by
      intro hzero
      have hn0 : n = 0 := by omega
      have hb128 : b = 0x80 := UInt8.toNat_inj.1 (show b.toNat = 128 by omega)
      rw [hn0, leading_eq_nil_iff.2 rfl] at hn
      rw [← hn, hb128] at hhead
      exact hhead rfl
    refine ⟨128 * n + (b.toNat - 128), ?_⟩
    rw [leading, if_neg hne, hdiv, hmod, hn, Nat.add_sub_cancel' hb, UInt8.ofNat_toNat]

/-- **`bs = encode n` for some `n`, if `Canonical bs`.** -/
theorem exists_encode_eq {bs : Bytes} (h : Canonical bs) : ∃ n, encode n = bs := by
  obtain ⟨⟨front, last, rfl, hgroups, hlast⟩, hhead⟩ := h
  obtain ⟨n, rfl⟩ := exists_leading_eq hgroups (by
    cases front with
    | nil => simp
    | cons c cs => exact hhead)
  have hmod : (128 * n + last.toNat) % 128 = last.toNat := by omega
  have hdiv : (128 * n + last.toNat) / 128 = n := by omega
  exact ⟨128 * n + last.toNat, by rw [encode, hdiv, hmod, UInt8.ofNat_toNat]⟩

/-! ## Lengths and beginnings -/

/-- **`(encode n).length` is the least `k ≥ 1` with `n < 128 ^ k`.** -/
theorem length_encode_isLeast (n : ℕ) :
    IsLeast {k | 1 ≤ k ∧ n < 128 ^ k} (encode n).length := by
  have hpos : 0 < (encode n).length := List.length_pos_iff.2 (encode_ne_nil n)
  exact ⟨⟨hpos, (length_encode_le_iff hpos).1 le_rfl⟩,
    fun k ⟨hk, hlt⟩ => (length_encode_le_iff hk).2 hlt⟩

/-- **`encode m ++ bs = encode n ++ cs` only if `m = n` and `bs = cs`.** -/
theorem eq_of_append_eq {m n : ℕ} {bs cs : Bytes} (h : encode m ++ bs = encode n ++ cs) :
    m = n ∧ bs = cs := by
  have hread := read?_encode m bs
  rw [h, read?_encode n cs] at hread
  obtain ⟨hmn, hrest⟩ := Prod.mk.inj (Option.some.inj hread)
  exact ⟨hmn.symm, hrest.symm⟩

/-! ## Integers -/

/-- `encodeInt n = .ok (encode n)` for a natural number `n`. -/
theorem encodeInt_natCast (n : ℕ) : encodeInt n = .ok (encode n) := by
  rw [encodeInt, if_neg (Int.natCast_nonneg n).not_gt, Int.toNat_natCast]

/-- `encodeInt z = .error (.negativeQuantity z)` for `z < 0`. -/
theorem encodeInt_of_neg {z : ℤ} (h : z < 0) : encodeInt z = .error (.negativeQuantity z) :=
  if_pos h

/-- `encodeInt z = .ok bs` only if `z` is a natural number `n` with `bs = encode n`. -/
theorem exists_of_encodeInt {z : ℤ} {bs : Bytes} (h : encodeInt z = .ok bs) :
    ∃ n : ℕ, z = n ∧ bs = encode n := by
  rcases lt_or_ge z 0 with hz | hz
  · rw [encodeInt_of_neg hz] at h
    exact absurd h (by simp)
  · obtain ⟨n, rfl⟩ := Int.eq_ofNat_of_zero_le hz
    rw [encodeInt_natCast] at h
    exact ⟨n, rfl, (Except.ok.inj h).symm⟩

/-- **`encodeInt` and `read?` are inverse** between the integers `0 ≤ z` and the byte strings with
`Canonical`.

What `encodeInt n` writes reads back in front of anything, is `Canonical`, has the least `k ≥ 1`
bytes with `n < 128 ^ k`, and is not the beginning of what is written for another number. Every
`Canonical bs` reads as a number for which it is written. `encodeInt z` with `z < 0` is refused with
its message, and leaves a buffer as it was. -/
theorem encodeInt_bijective :
    (∀ n : ℕ, ∃ bs, encodeInt n = .ok bs ∧ (∀ rest, read? (bs ++ rest) = some (n, rest)) ∧
      Canonical bs ∧ IsLeast {k | 1 ≤ k ∧ n < 128 ^ k} bs.length) ∧
    (∀ bs, Canonical bs → ∃ n : ℕ, read? bs = some (n, []) ∧ encodeInt n = .ok bs) ∧
    (∀ (y z : ℤ) (bs cs : Bytes), encodeInt y = .ok bs → encodeInt z = .ok cs → bs <+: cs →
      y = z) ∧
    ∀ z : ℤ, z < 0 → ∃ e, encodeInt z = .error e ∧
      e.message? = some ("VLQ value must be non-negative, got " ++ toString z) ∧
      ∀ b : Buffer, b.attempt (.quantity z) = b := by
  refine ⟨fun n => ?_, fun bs h => ?_, fun y z bs cs hy hz hprefix => ?_, fun z hz => ?_⟩
  · exact ⟨encode n, encodeInt_natCast n, read?_encode n, canonical_encode n,
      length_encode_isLeast n⟩
  · obtain ⟨n, rfl⟩ := exists_encode_eq h
    have hread := read?_encode n []
    rw [List.append_nil] at hread
    exact ⟨n, hread, encodeInt_natCast n⟩
  · obtain ⟨m, rfl, rfl⟩ := exists_of_encodeInt hy
    obtain ⟨n, rfl, rfl⟩ := exists_of_encodeInt hz
    obtain ⟨rest, hrest⟩ := hprefix
    rw [← List.append_nil (encode n)] at hrest
    rw [(eq_of_append_eq hrest).1]
  · refine ⟨_, encodeInt_of_neg hz, rfl, fun b => ?_⟩
    rw [Buffer.attempt, Buffer.write, Item.encode, encodeInt_of_neg hz]
    rfl

/-- `0x81 0x80 0x00` is the least quantity of three bytes, and `-1` the first one that is refused.
-/
theorem encodeInt_bijective_threeBytes :
    Canonical [0x81, 0x80, 0x00] ∧
      (∃ n : ℕ, read? [0x81, 0x80, 0x00] = some (n, []) ∧
        encodeInt n = .ok [0x81, 0x80, 0x00]) ∧
      ∃ e, encodeInt (-1) = .error e ∧
        e.message? = some "VLQ value must be non-negative, got -1" ∧
        ∀ b : Buffer, b.attempt (.quantity (-1)) = b := by
  have hfront : ∀ b ∈ [0x81, 0x80], 128 ≤ UInt8.toNat b :=
    List.forall_mem_cons.2 ⟨by decide, List.forall_mem_singleton.2 (by decide)⟩
  have h : Canonical [0x81, 0x80, 0x00] :=
    ⟨⟨[0x81, 0x80], 0x00, rfl, hfront, by decide⟩, by decide⟩
  exact ⟨h, encodeInt_bijective.2.1 _ h, encodeInt_bijective.2.2.2 (-1) (by decide)⟩

end Vlq

end Monochord
