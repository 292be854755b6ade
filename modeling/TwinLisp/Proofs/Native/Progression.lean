import Mathlib.Tactic.Ring
import Mathlib.Data.List.Basic
import TwinLisp.Native.Collections

/-! Arithmetic progressions of words. The loop ends at the first sum that is no word, and such a sum
is past the end already, so that no term is lost by it.

* `Before`: what stands before the end, among all integers.
* `progressionFrom_terms`: the terms that the loop still finds.
* `range_terms`: what `range` answers. -/

namespace TwinLisp.Answer

/-- An integer stands before `stop` in the direction of a step. -/
def Before (stop step n : Int) : Prop := (0 < step ∧ n < stop) ∨ (step < 0 ∧ stop < n)

/-- Steps lead away from what is not before the end. -/
theorem Before.of_later {stop step n : Int} (k : Nat) (h : Before stop step (n + k * step)) :
    Before stop step n := by
  have hk : (0 : Int) ≤ k := Int.natCast_nonneg k
  rcases h with ⟨hs, h⟩ | ⟨hs, h⟩
  · have : 0 ≤ k * step := Int.mul_nonneg hk hs.le
    exact .inl ⟨hs, by omega⟩
  · have : k * step ≤ 0 := Int.mul_nonpos_of_nonneg_of_nonpos hk hs.le
    exact .inr ⟨hs, by omega⟩

variable {start stop step term : Int64}

/-- A sum of words that is no word is past every word. -/
theorem not_before_of_no_word (h : Word.ofInt? (term.toInt + step.toInt) = none) :
    ¬ Before stop.toInt step.toInt (term.toInt + step.toInt) := by
  have hfits : ¬ Word.Fits (term.toInt + step.toInt) := fun hf => by
    rw [Word.ofInt?, if_pos hf] at h
    cases h
  have hterm := Word.fits_toInt term
  have hstop := Word.fits_toInt stop
  unfold Word.Fits at hfits hterm hstop
  unfold Before
  omega

theorem later_eq (n step : Int) (k : Nat) : n + (k + 1 : Nat) * step = n + step + k * step := by
  push_cast
  ring

/-- The terms that the loop finds from `term` on, behind those it has found: the integers before the
end that are some steps away, all of them words. -/
theorem progressionFrom_terms (stop step : Int64) (found : List Value) (term : Int64) :
    ∃ terms : List Int64,
      progressionFrom stop step found term = found.reverse ++ terms.map .int ∧
      (∀ (k : Nat) n, terms[k]? = some n → n.toInt = term.toInt + k * step.toInt) ∧
      ∀ k : Nat, k < terms.length ↔ Before stop.toInt step.toInt (term.toInt + k * step.toInt) := by
  fun_induction progressionFrom stop step found term with
  | case1 found term h next hn _ ih =>
    obtain ⟨terms, heq, hterms, hlen⟩ := ih
    have hterm : Before stop.toInt step.toInt term.toInt := isBefore_iff.mp h
    have hnext : next.toInt = term.toInt + step.toInt := Word.ofInt?_eq_some_iff.mp hn
    refine ⟨term :: terms, ?_, fun k n hk => ?_, fun k => ?_⟩
    · rw [heq, List.reverse_cons, List.append_assoc]
      rfl
    · cases k with
      | zero =>
        cases hk
        simp
      | succ k => rw [hterms k n hk, hnext, later_eq]
    · cases k with
      | zero => simpa using hterm
      | succ k => rw [later_eq, ← hnext, ← hlen k, List.length_cons, Nat.add_lt_add_iff_right]
  | case2 found term h hn =>
    have hterm : Before stop.toInt step.toInt term.toInt := isBefore_iff.mp h
    refine ⟨[term], by simp, fun k n hk => ?_, fun k => ?_⟩
    · cases k with
      | zero =>
        cases hk
        simp
      | succ k => cases hk
    · cases k with
      | zero => simpa using hterm
      | succ k =>
        rw [later_eq]
        exact iff_of_false (by simp) fun hb => not_before_of_no_word hn hb.of_later
  | case3 found term h =>
    refine ⟨[], by simp, nofun, fun k => ?_⟩
    have hnot : ¬ Before stop.toInt step.toInt term.toInt := fun hb => h (isBefore_iff.mpr hb)
    exact iff_of_false (by simp) fun hb => hnot hb.of_later

/-- The arguments of a progression. What is left out counts from zero in steps of one. -/
inductive Asks : List Value → Int64 → Int64 → Int64 → Prop where
  | upTo (b : Int64) : Asks [.int b] 0 b 1
  | between (a b : Int64) : Asks [.int a, .int b] a b 1
  | inSteps (a b : Int64) {d : Int64} (h : d ≠ 0) : Asks [.int a, .int b, .int d] a b d

theorem Asks.range_eq {args : List Value} (h : Asks args start stop step) :
    range args = .ok (.list (progression start stop step)) := by
  cases h with
  | upTo => rfl
  | between => rfl
  | inSteps _ _ h => exact if_neg h

/-- `range` answers the arithmetic progression: its terms are words, the one at index `k` is `k` steps
from the first, and there is one at `k` exactly if the integer that many steps away stands before the
end. So nothing is left out where a sum is no word, and nothing is there if the first is not before
the end. -/
theorem range_terms {args : List Value} (h : Asks args start stop step) :
    ∃ terms : List Int64, range args = .ok (.list (terms.map .int)) ∧
      (∀ (k : Nat) n, terms[k]? = some n → n.toInt = start.toInt + k * step.toInt) ∧
      (∀ k : Nat, k < terms.length ↔
        Before stop.toInt step.toInt (start.toInt + k * step.toInt)) ∧
      (terms = [] ↔ ¬ Before stop.toInt step.toInt start.toInt) := by
  obtain ⟨terms, heq, hterms, hlen⟩ := progressionFrom_terms stop step [] start
  refine ⟨terms, ?_, hterms, hlen, ?_⟩
  · rw [h.range_eq, progression, heq]
    rfl
  · have hfirst := hlen 0
    rw [Nat.cast_zero, zero_mul, add_zero] at hfirst
    rw [← hfirst, Nat.not_lt, Nat.le_zero, List.length_eq_zero_iff]

/-- The greatest word, and the word as far below it as the least word says; the next sum is no word. -/
theorem range_of_greatest :
    Asks [.int Int64.maxValue, .int Int64.minValue, .int Int64.minValue]
        Int64.maxValue Int64.minValue Int64.minValue ∧
      range [.int Int64.maxValue, .int Int64.minValue, .int Int64.minValue] =
        .ok (.list [.int Int64.maxValue, .int (-1)]) := by
  have hasks : Asks [.int Int64.maxValue, .int Int64.minValue, .int Int64.minValue]
      Int64.maxValue Int64.minValue Int64.minValue := .inSteps _ _ (by decide)
  obtain ⟨terms, heq, hterms, hlen, -⟩ := range_terms hasks
  refine ⟨hasks, ?_⟩
  have htwo : terms.length = 2 := by
    have h₁ := (hlen 1).mpr (.inr (by decide))
    have h₂ := mt (hlen 2).mp (by unfold Before; decide)
    omega
  obtain ⟨x, y, rfl⟩ := List.length_eq_two.mp htwo
  have hx : x = Int64.maxValue := Int64.toInt_inj.mp ((hterms 0 x rfl).trans (by decide))
  have hy : y = -1 := Int64.toInt_inj.mp ((hterms 1 y rfl).trans (by decide))
  rw [heq, hx, hy]
  rfl

end TwinLisp.Answer
