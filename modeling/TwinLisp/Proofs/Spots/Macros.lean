import TwinLisp.Proofs.Parsing.Failure
import TwinLisp.Proofs.Spots.Actions

/-! Forms as data and macros up to byte offsets. Data have no places; what macros write has the
places of the call.

* `Form.toValue_spots`, `Form.ofValue_spots`: forms as data, and data read back as code.
* `Macro.expandBuiltin_spots`: the macros of the language.
* `Macro.expandUser_spots`: macros that are functions. -/

namespace TwinLisp

open Located (SameSpot)
open Act (Spots Becomes)
open Act.Spots (Outcome)

section Outcomes

variable {ε ζ α β γ δ : Type} {V : α → β → Prop} {U : γ → δ → Prop} {X : ε → ζ → Prop}

theorem Act.Spots.Outcome.map {r : Except ε α} {q : Except ζ β} (h : Outcome V X r q) {f : α → γ}
    {g : β → δ} (hf : ∀ x y, V x y → U (f x) (g y)) : Outcome U X (r.map f) (q.map g) := by
  cases h with
  | ok h => exact .ok (hf _ _ h)
  | error h => exact .error h

end Outcomes

namespace Form

/-! ## Forms as data -/

theorem spotsAll_append (fs gs : List Form) :
    spotsAll (fs ++ gs) = spotsAll fs ++ spotsAll gs := by
  simp only [spotsAll_eq_map, List.map_append]

@[simp] theorem symbol?_spots (f : Form) : f.spots.symbol? = f.symbol? := by
  cases f <;> rfl

mutual

theorem write_spots (out : String) (f : Form) : f.spots.write out = f.write out := by
  cases f with
  | atom | symbol => rfl
  | list items | vector items | map items | set items =>
    rw [spots, write, write, writeAll_spots _ _ items]

theorem writeAll_spots (out : String) (more : Bool) (fs : List Form) :
    writeAll out more (spotsAll fs) = writeAll out more fs := by
  cases fs with
  | nil => rfl
  | cons f rest => rw [spotsAll, writeAll, writeAll, write_spots _ f, writeAll_spots _ _ rest]

end

@[simp] theorem text_spots (f : Form) : f.spots.text = f.text := write_spots "" f

mutual

@[simp] theorem toValue_spots (f : Form) : f.spots.toValue = f.toValue := by
  cases f with
  | atom | symbol => rfl
  | list items | vector items | map items | set items =>
    rw [spots, toValue, toValue, toValuesOnto_spots [] items]

theorem toValuesOnto_spots (acc : List Value) (fs : List Form) :
    toValuesOnto acc (spotsAll fs) = toValuesOnto acc fs := by
  cases fs with
  | nil => rfl
  | cons f rest =>
    rw [spotsAll, toValuesOnto, toValuesOnto, toValue_spots f, toValuesOnto_spots _ rest]

end

theorem toValues_spots (fs : List Form) : toValues (spotsAll fs) = toValues fs :=
  toValuesOnto_spots [] fs

mutual

theorem ofValue_spots (span : Span) (v : Value) :
    Outcome (Becomes spots) SameSpot (ofValue span v) (ofValue span.spot v) := by
  cases v with
  | list items | vector items | set items =>
    simp only [ofValue]
    exact (ofValuesOnto_spots span [] items).map fun fs gs e => by
      rw [Becomes, spots, e]
  | map entries =>
    simp only [ofValue]
    exact (ofEntriesOnto_spots span [] entries).map fun fs gs e => by
      rw [Becomes, spots, e]
  | exInfo | fn | closure | native | var => exact .error (.of_spot _ span)
  | _ => exact .ok rfl

theorem ofValuesOnto_spots (span : Span) (acc : List Form) (vs : List Value) :
    Outcome (Becomes spotsAll) SameSpot (ofValuesOnto span acc vs)
      (ofValuesOnto span.spot (spotsAll acc) vs) := by
  cases vs with
  | nil => exact .ok (spotsAll_reverse acc).symm
  | cons v rest =>
    rw [ofValuesOnto, ofValuesOnto]
    have hv := ofValue_spots span v
    generalize ofValue span v = r at hv
    generalize ofValue span.spot v = q at hv
    cases hv with
    | error h => exact .error h
    | @ok f g h =>
      cases h
      exact ofValuesOnto_spots span (f :: acc) rest

theorem ofEntriesOnto_spots (span : Span) (acc : List Form) (es : List (Value × Value)) :
    Outcome (Becomes spotsAll) SameSpot (ofEntriesOnto span acc es)
      (ofEntriesOnto span.spot (spotsAll acc) es) := by
  match es with
  | [] => exact .ok (spotsAll_reverse acc).symm
  | (k, v) :: rest =>
    rw [ofEntriesOnto, ofEntriesOnto]
    have hk := ofValue_spots span k
    generalize ofValue span k = r at hk
    generalize ofValue span.spot k = q at hk
    cases hk with
    | error h => exact .error h
    | @ok fk gk h =>
      cases h
      have hv := ofValue_spots span v
      generalize ofValue span v = r at hv
      generalize ofValue span.spot v = q at hv
      cases hv with
      | error h => exact .error h
      | @ok fv gv h =>
        cases h
        exact ofEntriesOnto_spots span (fv :: fk :: acc) rest

end

end Form

namespace Macro

open Form (spotsAll)

/-! ## The macros of the language -/

theorem wrongArity_spots (form : String) (args : List Form) (span : Span) :
    SameSpot (wrongArity form args span) (wrongArity form (spotsAll args) span.spot) := by
  rw [wrongArity, wrongArity, Form.length_spotsAll]
  exact .of_spot _ span

theorem dropText_spots (fs : List Form) : dropText (spotsAll fs) = spotsAll (dropText fs) := by
  rcases fs with _ | ⟨f, _ | ⟨g, rest⟩⟩
  · rfl
  · cases f with
    | atom v => cases v <;> rfl
    | _ => rfl
  · cases f with
    | atom v => cases v <;> rfl
    | _ => rfl

theorem dropMap_spots (fs : List Form) : dropMap (spotsAll fs) = spotsAll (dropMap fs) := by
  rcases fs with _ | ⟨f, _ | ⟨g, rest⟩⟩
  · rfl
  · cases f <;> rfl
  · cases f <;> rfl

section Expansions

variable (args : List Form) (span : Span)

theorem defn_spots :
    Outcome (Becomes Form.spots) SameSpot (defn args span) (defn (spotsAll args) span.spot) := by
  rcases args with _ | ⟨name, _ | ⟨first, rest⟩⟩
  · exact .error (.of_spot _ span)
  · exact .error (.of_spot _ span)
  · cases name with
    | symbol text place =>
      have htail : dropMap (dropText (spotsAll (first :: rest))) =
          spotsAll (dropMap (dropText (first :: rest))) := by rw [dropText_spots, dropMap_spots]
      exact .ok <| congrArg (fun tail => headedBy "def" [.symbol text place.spot,
        headedBy "fn" (.symbol text place.spot :: tail) span.spot] span.spot) htail
    | _ => exact .error (.of_spot _ span)

theorem ifNot_spots :
    Outcome (Becomes Form.spots) SameSpot (ifNot args span) (ifNot (spotsAll args) span.spot) := by
  have hwrong := fun args => wrongArity_spots "if-not" args span
  rcases args with _ | ⟨test, _ | ⟨no, _ | ⟨yes, _ | ⟨more, rest⟩⟩⟩⟩
  · exact .error (hwrong [])
  · exact .error (hwrong [test])
  · exact .ok rfl
  · exact .ok rfl
  · exact .error (hwrong (test :: no :: yes :: more :: rest))

theorem cond_spots :
    Outcome (Becomes Form.spots) SameSpot (cond args span) (cond (spotsAll args) span.spot) := by
  unfold cond
  rw [Form.length_spotsAll]
  split
  · exact .error (.of_spot _ span)
  · match args with
    | [] | [_] | _ :: _ :: _ => exact .ok rfl

theorem threadStep_spots (last : Bool) (acc step : Form) :
    threadStep last acc.spots step.spots = (threadStep last acc step).spots := by
  cases step with
  | list items place =>
    cases items with
    | nil => rfl
    | cons head args =>
      cases last with
      | false => rfl
      | true =>
        simp only [threadStep, Form.spots, spotsAll, if_true, List.cons_append,
          Form.spotsAll_append]
  | _ => rfl

theorem threaded_spots (last : Bool) :
    Outcome (Becomes Form.spots) SameSpot (threaded last args span)
      (threaded last (spotsAll args) span.spot) := by
  cases args with
  | nil => exact .error (.of_spot _ span)
  | cons first steps =>
    refine .ok ?_
    induction steps generalizing first with
    | nil => rfl
    | cons step rest ih =>
      have h := ih (threadStep last first step)
      rw [Becomes, ← threadStep_spots] at h
      exact h

theorem logical_spots {ε : Type} {X : ε → ε → Prop} (hX : ∀ e, X e e) (conjunction : Bool) :
    Spots (Becomes Form.spots) X (logical conjunction args span)
      (logical conjunction (spotsAll args) span.spot) := by
  rcases args with _ | ⟨first, _ | ⟨second, rest⟩⟩
  · cases conjunction <;> exact .pure rfl
  · exact .pure rfl
  · have hgensym : ∀ stem, Act.Blind .spots (Act.gensym stem : Act ε String) := fun _ _ => rfl
    refine (Act.Spots.of_blind (hgensym _) (V := Becomes id) (fun _ => rfl) hX).next fun fresh => ?_
    cases conjunction <;> exact .pure rfl

end Expansions

theorem expandBuiltin_spots (f : Form) :
    Spots (Becomes (Option.map Form.spots)) SameSpot (expandBuiltin f) (expandBuiltin f.spots) := by
  have hexpands : ∀ {r q : Except ParseError Form}, Outcome (Becomes Form.spots) SameSpot r q →
      Spots (Becomes (Option.map Form.spots)) SameSpot
        (some <$> Act.ofExcept r : Parse (Option Form)) (some <$> Act.ofExcept q) := fun h => by
    rw [map_eq_pure_bind, map_eq_pure_bind]
    exact (Act.Spots.ofExcept h).bind_pure fun _ _ e => congrArg some e
  have hlogical : ∀ conjunction args span,
      Spots (Becomes (Option.map Form.spots)) SameSpot
        (some <$> logical conjunction args span : Parse (Option Form))
        (some <$> logical conjunction (spotsAll args) span.spot) := fun conjunction args span => by
    rw [map_eq_pure_bind, map_eq_pure_bind]
    exact (logical_spots args span SameSpot.refl conjunction).bind_pure fun _ _ e => congrArg some e
  match f with
  | .atom .. | .symbol .. | .vector .. | .map .. | .set .. | .list [] _ | .list (.atom .. :: _) _
  | .list (.list .. :: _) _ | .list (.vector .. :: _) _ | .list (.map .. :: _) _
  | .list (.set .. :: _) _ => exact .pure rfl
  | .list (.symbol name place :: args) span =>
    by_cases h : name ∈ names
    · simp only [names, List.mem_cons, List.not_mem_nil, or_false] at h
      rcases h with rfl | rfl | rfl | rfl | rfl | rfl | rfl | rfl | rfl | rfl
      · exact hexpands (defn_spots args span)
      · cases args with
        | nil => exact .raise (.of_spot _ span)
        | cons test body => exact .pure rfl
      · cases args with
        | nil => exact .raise (.of_spot _ span)
        | cons test body => exact .pure rfl
      · exact hexpands (ifNot_spots args span)
      · exact hexpands (cond_spots args span)
      · exact hlogical true args span
      · exact hlogical false args span
      · exact hexpands (threaded_spots args span false)
      · exact hexpands (threaded_spots args span true)
      · exact .pure rfl
    · rw [Form.spots, spotsAll, Form.spots, expandBuiltin_of_other h, expandBuiltin_of_other h]
      exact .pure rfl

end Macro

/-! ## Macros that are functions -/

/-- Callers that do without offsets what they do with them. -/
def Caller.Spots (c d : Caller) : Prop :=
  ∀ f args, Act.Spots (Becomes id) SameSpot (c f args) (d f args)

theorem Macro.expandUser_spots {c d : Caller} (hc : Caller.Spots c d) (f : Value) (args : List Form)
    (span : Span) : Spots (Becomes Form.spots) SameSpot (expandUser c f args span)
      (expandUser d f (Form.spotsAll args) span.spot) := by
  unfold expandUser
  rw [Form.toValues_spots]
  refine ((hc f _).within span).next fun result => ?_
  exact .ofExcept (Form.ofValue_spots span result)

end TwinLisp
