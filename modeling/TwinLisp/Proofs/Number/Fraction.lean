import TwinLisp.Number.Tower
import Mathlib.Data.Int.GCD
import Mathlib.Tactic.Ring

/-! Fractions in lowest terms. The value of a fraction is the word it equals, or else the only ratio
with coprime parts and a denominator above one that equals it; it has none if these are no words.

* `Fraction`: the value of a fraction, said without its computation.
* `Number.ratio_eq_ok_iff`: the computation finds this value. -/

namespace TwinLisp

/-- The value of the fraction `num / den`. -/
inductive Fraction (num den : Int) : Value → Prop
  | whole {n : Int64} (hd : den ≠ 0) (h : num = n.toInt * den) : Fraction num den (.int n)
  | proper {r : Ratio} (hd : den ≠ 0) (h : num * r.den.toInt = r.num.toInt * den)
    (hone : 1 < r.den.toInt) (hg : Int.gcd r.num.toInt r.den.toInt = 1) :
    Fraction num den (.ratio r)

namespace Number

theorem lowest_cross (num den : Int) : num * (lowest num den).2 = (lowest num den).1 * den := by
  have hnum := Int.ofNat_dvd_left.mpr (Nat.gcd_dvd_left num.natAbs den.natAbs)
  have hden := Int.ofNat_dvd_left.mpr (Nat.gcd_dvd_right num.natAbs den.natAbs)
  rw [lowest, Int.mul_ediv_assoc _ hnum, Int.mul_ediv_assoc _ hden]
  generalize ((Nat.gcd num.natAbs den.natAbs : Nat) : Int) = g at hnum hden
  obtain ⟨n, rfl⟩ := hnum
  obtain ⟨d, rfl⟩ := hden
  by_cases hg : g = 0
  · simp [hg]
  · rw [Int.mul_ediv_cancel_left _ hg, Int.mul_ediv_cancel_left _ hg]
    ring

theorem eq_of_lowest_terms {n d m e : Int} (hd : 0 < d) (he : 0 < e) (hn : Int.gcd n d = 1)
    (hm : Int.gcd m e = 1) (h : n * e = m * d) : n = m ∧ d = e := by
  have hde : d ∣ e := Int.dvd_of_dvd_mul_right_of_gcd_one ⟨m, by rw [h, Int.mul_comm]⟩
    (by rwa [Int.gcd_comm])
  have hed : e ∣ d := Int.dvd_of_dvd_mul_right_of_gcd_one ⟨n, by rw [← h, Int.mul_comm]⟩
    (by rwa [Int.gcd_comm])
  have heq : d = e := Int.le_antisymm (Int.le_of_dvd he hde) (Int.le_of_dvd hd hed)
  subst heq
  exact ⟨Int.eq_of_mul_eq_mul_right (by omega) h, rfl⟩

/-- Lowest terms are the only equal ones with coprime parts and a positive denominator. -/
theorem lowest_eq {num den n d : Int} (hden : den ≠ 0) (hd : 0 < d) (hg : Int.gcd n d = 1)
    (h : num * d = n * den) : lowest num den = (n, d) := by
  have hcross : (lowest num den).1 * d = n * (lowest num den).2 := by
    refine Int.eq_of_mul_eq_mul_right hden ?_
    calc (lowest num den).1 * d * den = (lowest num den).1 * den * d := by ring
      _ = num * d * (lowest num den).2 := by rw [← lowest_cross]; ring
      _ = n * (lowest num den).2 * den := by rw [h]; ring
  obtain ⟨hn, hd⟩ := eq_of_lowest_terms (lowest_pos num hden) hd (gcd_lowest num hden) hg hcross
  exact Prod.ext hn hd

/-- The computation of a fraction finds its value in lowest terms, if there is one. -/
theorem ratio_eq_ok_iff {num den : Int} {v : Value} :
    ratio num den = .ok v ↔ Fraction num den v := by
  unfold ratio
  split
  · next hd => exact ⟨nofun, fun h => by cases h <;> contradiction⟩
  next hd =>
  constructor
  · intro h
    split at h
    · next n d hn hd' =>
      rw [Word.ofInt?_eq_some_iff] at hn hd'
      have hcross := lowest_cross num den
      rw [← hn, ← hd'] at hcross
      split at h
      · next hone =>
        cases h
        subst hone
        exact .whole hd (by simpa using hcross)
      · cases h
        exact .proper hd hcross (Ratio.proper _) (Ratio.coprime _)
    · cases h
  · have fits : ∀ {n d : Int64}, lowest num den = (n.toInt, d.toInt) →
        Word.ofInt? (lowest num den).1 = some n ∧ Word.ofInt? (lowest num den).2 = some d :=
      fun h => by rw [h]; exact ⟨Word.ofInt?_eq_some_iff.mpr rfl, Word.ofInt?_eq_some_iff.mpr rfl⟩
    intro h
    cases h with
    | @whole w _ h =>
      have hl : lowest num den = (w.toInt, (1 : Int64).toInt) :=
        lowest_eq hd (by decide) (Int.gcd_one_right _) (by rw [h]; simp)
      obtain ⟨hn, hone⟩ := fits hl
      split
      · next n d hn' hd' =>
        rw [hn] at hn'
        rw [hone] at hd'
        cases hn'
        cases hd'
        rfl
      · next hno => exact absurd hone (hno _ _ hn)
    | @proper r _ h hpos hg =>
      obtain ⟨hn, hden⟩ := fits (lowest_eq hd (by omega) hg h)
      have hne : r.den ≠ 1 := fun h1 => by simp [h1] at hpos
      split
      · next n d hn' hd' =>
        rw [hn] at hn'
        rw [hden] at hd'
        cases hn'
        cases hd'
        rw [dif_neg hne]
      · next hno => exact absurd hden (hno _ _ hn)

end Number

end TwinLisp
