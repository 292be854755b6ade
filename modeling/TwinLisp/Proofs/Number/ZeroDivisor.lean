import Mathlib.Tactic.ByContra
import TwinLisp.Number.Tower

/-! Division by zero where neither number is a double. Quotients by `/` are refused whatever the kinds
are. The operations that cut off a quotient divide words as words and everything else as doubles, and
doubles have a quotient by zero.

* `Number.noDouble`: the kinds of numbers for which zero has no quotient.
* `Number.Integral`: an operation on words that turns other numbers into doubles.
* `Number.zero_divisor`: all four operations. -/

namespace TwinLisp.Number

/-- Words, ratios and decimals. -/
def noDouble : Value → Bool
  | .int _ | .ratio _ | .decimal _ => true
  | _ => false

def AreWords (a b : Value) : Prop := ∃ x y, a = .int x ∧ b = .int y

variable {a b : Value}

theorem zero_cases (hb : noDouble b) (hz : isZero b = .ok true) :
    b = .int 0 ∨ ∃ d : Decimal, b = .decimal d ∧ d.isZero = true := by
  cases b with
  | int n =>
    have hn : (n == 0) = true := Except.ok.inj hz
    exact .inl (by rw [eq_of_beq hn])
  | decimal d => exact .inr ⟨d, rfl, Except.ok.inj hz⟩
  | ratio _ => cases hz
  | _ => cases hb

theorem div_int_zero (ha : noDouble a) : div a (.int 0) = .error .divisionByZero := by
  cases a with
  | int _ | ratio _ | decimal _ => rfl
  | _ => cases ha

theorem div_decimal_zero (ha : noDouble a) {d : Decimal} (hd : d.isZero = true) :
    div a (.decimal d) = .error .divisionByZero := by
  have hrefused : (if d.isZero then .error .divisionByZero
      else onDecimals Decimal.div? a (.decimal d) : Except RuntimeFault Value) =
        .error .divisionByZero := if_pos hd
  cases a with
  | int _ | ratio _ | decimal _ => exact hrefused
  | _ => cases ha

theorem div_zero (ha : noDouble a) (hb : noDouble b) (hz : isZero b = .ok true) :
    div a b = .error .divisionByZero := by
  rcases zero_cases hb hz with rfl | ⟨d, rfl, hd⟩
  · exact div_int_zero ha
  · exact div_decimal_zero ha hd

/-! ## Quotients without fraction -/

/-- An operation that has no answer for a word and zero, and computes with doubles unless both numbers
are words. -/
structure Integral (op : Value → Value → Except RuntimeFault Value) : Prop where
  words : ∀ x, op (.int x) (.int 0) = .error .divisionByZero
  others : ∀ {a b}, ¬ AreWords a b → ∃ (name : String) (f : Float × Float → Float),
    op a b = (doubles name a b).map fun p => .double (f p)

/-- The operations of this kind. -/
def integralOps : List (Value → Value → Except RuntimeFault Value) := [quot, rem, modulo]

theorem integral_of_mem {op : Value → Value → Except RuntimeFault Value} (h : op ∈ integralOps) :
    Integral op := by
  have not_words {x y : Int64} (hw : ¬ AreWords (.int x) (.int y)) : False := hw ⟨x, y, rfl, rfl⟩
  simp only [integralOps, List.mem_cons, List.not_mem_nil, or_false] at h
  rcases h with rfl | rfl | rfl
  · refine ⟨fun x => by simp [quot], fun {a b} hw => ⟨"quot", fun p => Double.truncate (p.1 / p.2), ?_⟩⟩
    unfold quot
    split
    · exact (not_words hw).elim
    · rfl
  · refine ⟨fun x => by simp [rem], fun {a b} hw => ⟨"rem", fun p => Double.remainder p.1 p.2, ?_⟩⟩
    unfold rem
    split
    · exact (not_words hw).elim
    · rfl
  · refine ⟨fun x => by simp [modulo], fun {a b} hw => ⟨"mod", fun p =>
      let r := Double.remainder p.1 p.2
      if r != 0.0 && (decide (r < 0.0) != decide (p.2 < 0.0)) then r + p.2 else r, ?_⟩⟩
    unfold modulo
    split
    · exact (not_words hw).elim
    · rfl

theorem doubles_of_noDouble (name : String) (ha : noDouble a) (hb : noDouble b) :
    ∃ p, doubles name a b = .ok p := by
  have hconverts : ∀ {v : Value}, noDouble v → ∃ x, toDouble? v = some x := by
    intro v hv
    cases v with
    | int _ | ratio _ | decimal _ => exact ⟨_, rfl⟩
    | _ => cases hv
  obtain ⟨x, hx⟩ := hconverts ha
  obtain ⟨y, hy⟩ := hconverts hb
  exact ⟨(x, y), by rw [doubles, hx, hy]⟩

variable {op : Value → Value → Except RuntimeFault Value}

/-- Numbers of which one is no word have an answer, a double. -/
theorem Integral.double (h : Integral op) (ha : noDouble a) (hb : noDouble b)
    (hw : ¬ AreWords a b) : ∃ d, op a b = .ok (.double d) := by
  obtain ⟨name, f, hop⟩ := h.others hw
  obtain ⟨p, hp⟩ := doubles_of_noDouble name ha hb
  exact ⟨f p, by rw [hop, hp]; rfl⟩

theorem Integral.refuses_iff (h : Integral op) (ha : noDouble a) (hb : noDouble b)
    (hz : isZero b = .ok true) : op a b = .error .divisionByZero ↔ AreWords a b := by
  constructor
  · intro he
    by_contra hw
    obtain ⟨d, hd⟩ := h.double ha hb hw
    rw [hd] at he
    cases he
  · rintro ⟨x, y, rfl, rfl⟩
    rcases zero_cases hb hz with hy | ⟨_, hy, _⟩
    · rw [hy]
      exact h.words x
    · cases hy

/-- What becomes of a zero divisor if neither number is a double: `/` is refused with the message for
division by zero, and so are the other three for two words; for all other numbers these answer a
double. -/
theorem zero_divisor (ha : noDouble a) (hb : noDouble b) (hz : isZero b = .ok true) :
    div a b = .error .divisionByZero ∧ RuntimeFault.divisionByZero.text = "Division by zero" ∧
      ∀ op ∈ integralOps, (op a b = .error .divisionByZero ↔ AreWords a b) ∧
        (¬ AreWords a b → ∃ d, op a b = .ok (.double d)) :=
  ⟨div_zero ha hb hz, rfl, fun _ hop =>
    ⟨(integral_of_mem hop).refuses_iff ha hb hz, (integral_of_mem hop).double ha hb⟩⟩

theorem proper_two : 1 < Int64.toInt 2 := by decide

theorem coprime_one_two : Int.gcd (Int64.toInt 1) (Int64.toInt 2) = 1 := by decide

def half : Value := .ratio ⟨1, 2, proper_two, coprime_one_two⟩

/-- A ratio by a decimal zero with places. -/
theorem half_by_zero_places :
    isZero (.decimal ⟨true, 0, 2⟩) = .ok true ∧
      div half (.decimal ⟨true, 0, 2⟩) = .error .divisionByZero ∧
      ∃ d, rem half (.decimal ⟨true, 0, 2⟩) = .ok (.double d) := by
  have h := zero_divisor (a := half) (b := .decimal ⟨true, 0, 2⟩) rfl rfl rfl
  exact ⟨rfl, h.1, (h.2.2 rem (by simp [integralOps])).2 (by rintro ⟨_, _, h, _⟩; cases h)⟩

/-- Half by zero is a double. -/
theorem half_by_zero :
    (∃ d, quot half (.int 0) = .ok (.double d)) ∧
      ¬ ∀ op ∈ div :: integralOps, ∀ a b, noDouble a → noDouble b → isZero b = .ok true →
        op a b = .error .divisionByZero := by
  have hdouble : ∃ d, quot half (.int 0) = .ok (.double d) := ⟨_, rfl⟩
  refine ⟨hdouble, fun hall => ?_⟩
  obtain ⟨d, hd⟩ := hdouble
  have hrefused := hall quot (by simp [integralOps]) half (.int 0) rfl rfl rfl
  rw [hd] at hrefused
  cases hrefused

end TwinLisp.Number
