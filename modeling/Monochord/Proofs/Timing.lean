import Monochord.Proofs.Quantity
import Monochord.Timing

/-! # Which timings are accepted

A timing is checked when it is made. What the check lets through is said here in terms of rational
numbers, whatever kind of number a setting was given as.

* **`Timing.checkSetting_eq_ok_iff`** — a setting is accepted if it is positive and not beyond every
  double.
* **`Timing.make_eq_ok_iff`** — a timing is accepted if both settings are. -/

namespace Monochord.Timing

open Binary64

/-- **`checkSetting setting q = .ok ()` exactly if `0 < r < overflowBound`** for the value `r` of
`q`. -/
theorem checkSetting_eq_ok_iff {setting : Setting} {q : Quantity} :
    checkSetting setting q = .ok () ↔ ∃ r, q.value? = some r ∧ 0 < r ∧ r < overflowBound := by
  have hchecked : checkSetting setting q = .ok () ↔
      ∃ a, q.number = .ok a ∧ (∃ x, a.toFloat = .ok x ∧ x.isFinite = true) ∧
        a.isPositive = true := by
    rw [checkSetting, bind_eq_ok_iff]
    refine exists_congr fun a => and_congr_right fun _ => ?_
    rw [Number.isFinite]
    cases a.toFloat with
    | error f => simp
    | ok x =>
      rw [ok_bind, pure_eq_ok, ok_bind]
      simp only [Except.ok.injEq, exists_eq_left', ← Bool.and_eq_true_iff]
      split
      · next haccepted => exact iff_of_true rfl haccepted
      · next hrefused => exact iff_of_false (by simp) hrefused
  rw [hchecked]
  constructor
  · rintro ⟨a, ha, h⟩
    obtain ⟨r, hr, hbounds⟩ := Number.isPositive_and_finite_iff.1 h
    exact ⟨r, Quantity.value?_eq_some_iff.2 ⟨a, ha, hr⟩, hbounds⟩
  · rintro ⟨r, hr, hbounds⟩
    obtain ⟨a, ha, hr⟩ := Quantity.value?_eq_some_iff.1 hr
    exact ⟨a, ha, Number.isPositive_and_finite_iff.2 ⟨r, hr, hbounds⟩⟩

/-- **`make base tempo` is a timing exactly if `checkSetting` accepts both settings.** -/
theorem make_eq_ok_iff {base tempo : Quantity} {t : Timing} :
    make base tempo = .ok t ↔
      checkSetting .baseDuration base = .ok () ∧ checkSetting .tempo tempo = .ok () ∧
        t = ⟨base, tempo⟩ := by
  rw [make, bind_eq_ok_iff]
  simp only [bind_eq_ok_iff, pure_eq_ok, Except.ok.injEq]
  constructor
  · rintro ⟨⟨⟩, hbase, ⟨⟩, htempo, rfl⟩
    exact ⟨hbase, htempo, rfl⟩
  · rintro ⟨hbase, htempo, rfl⟩
    exact ⟨(), hbase, (), htempo, rfl⟩

end Monochord.Timing
