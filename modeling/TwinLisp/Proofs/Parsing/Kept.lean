import TwinLisp.Expr.Special
import TwinLisp.Proofs.Names.Table

/-! What the parser does to Vars by itself, without the macros of the program: it makes new ones, in the
current namespace, and marks some as macros. It binds none.

* `State.Kept`: the Vars of a state are kept in a later one, where some are marked.
* `Act.Gentle`: actions that keep all Vars, and mark none; `Gentle.bind` and so on are their rules.
* `Parse.gentle_definedVar` and its kin: the rules of the special forms are such actions. -/

namespace TwinLisp

namespace Store

variable {s : Store} {v w : Var}

theorem varValue?_setMacro (flag : Bool) : (s.setMacro v flag).varValue? w = s.varValue? w := by
  unfold varValue? setMacro
  dsimp only
  rw [Array.getElem?_modify]
  by_cases h : v.id = w.id
  · rw [if_pos h]
    cases s.vars[w.id]? <;> rfl
  · rw [if_neg h]

theorem isMacro_setMacro (flag : Bool) (h : v.id ≠ w.id) :
    (s.setMacro v flag).isMacro w = s.isMacro w := by
  unfold isMacro setMacro
  dsimp only
  rw [Array.getElem?_modify, if_neg h]

theorem isMacro_setMacro_true (h : s.isMacro w = true) : (s.setMacro v true).isMacro w = true := by
  by_cases he : v.id = w.id
  · unfold isMacro setMacro at *
    dsimp only
    rw [Array.getElem?_modify, if_pos he]
    cases hw : s.vars[w.id]? with
    | none => simp [hw] at h
    | some d => rfl
  · rw [isMacro_setMacro true he]
    exact h

theorem varValue?_newVar (ns name : String) (h : w.id < s.vars.size) :
    (s.newVar ns name).2.varValue? w = s.varValue? w := by
  unfold varValue? newVar
  dsimp only
  rw [Array.getElem?_push_lt h, Array.getElem?_eq_getElem h]

theorem isMacro_newVar (ns name : String) : (s.newVar ns name).2.isMacro w = s.isMacro w := by
  unfold isMacro newVar
  dsimp only
  rw [Array.getElem?_push]
  by_cases h : w.id = s.vars.size
  · rw [if_pos h, h, Array.getElem?_eq_none (Nat.le_refl _)]
  · rw [if_neg h]

end Store

/-- All Vars are kept. Macros stay macros, and others are macros only if they are marked. Other Vars are new
and belong to the current namespace. -/
structure State.Kept (marked : List Var) (s t : State) : Prop where
  size : s.store.vars.size ≤ t.store.vars.size
  value : ∀ v : Var, v.id < s.store.vars.size → t.store.varValue? v = s.store.varValue? v
  isMacro : ∀ v : Var, (∀ w ∈ marked, w.id ≠ v.id) → t.store.isMacro v = s.store.isMacro v
  stays : ∀ v : Var, s.store.isMacro v = true → t.store.isMacro v = true
  current : t.names.current = s.names.current
  find? : ∀ ns name v, s.names.find? ns name = some v → t.names.find? ns name = some v
  new : ∀ ns name v, t.names.find? ns name = some v → s.names.find? ns name = some v ∨
    ns = s.names.current ∧ s.store.vars.size ≤ v.id

namespace State.Kept

variable {marked more : List Var} {s t u : State}

theorem of_eq (hn : t.names = s.names) (hs : t.store = s.store) : s.Kept marked t where
  size := Nat.le_of_eq (by rw [hs])
  value v _ := by rw [hs]
  isMacro v _ := by rw [hs]
  stays v h := by rwa [hs]
  current := by rw [hn]
  find? ns name v h := by rwa [hn]
  new ns name v h := .inl (by rwa [hn] at h)

theorem refl (s : State) : s.Kept marked s := of_eq rfl rfl

theorem mono (h : s.Kept marked t) (hm : marked ⊆ more) : s.Kept more t :=
  { h with isMacro := fun v hv => h.isMacro v fun w hw => hv w (hm hw) }

theorem trans (h : s.Kept marked t) (h' : t.Kept marked u) : s.Kept marked u where
  size := Nat.le_trans h.size h'.size
  value v hv := (h'.value v (Nat.lt_of_lt_of_le hv h.size)).trans (h.value v hv)
  isMacro v hv := (h'.isMacro v hv).trans (h.isMacro v hv)
  stays v hv := h'.stays v (h.stays v hv)
  current := h'.current.trans h.current
  find? ns name v hv := h'.find? ns name v (h.find? ns name v hv)
  new ns name v hv := by
    rcases h'.new ns name v hv with hv | ⟨hns, hid⟩
    · exact h.new ns name v hv
    · exact .inr ⟨hns.trans h.current, Nat.le_trans h.size hid⟩

theorem setMacro (v : Var) (hv : v ∈ marked) (s : State) :
    s.Kept marked { s with store := s.store.setMacro v true } where
  size := by simp [Store.setMacro]
  value _ _ := Store.varValue?_setMacro true
  isMacro _ hw := Store.isMacro_setMacro true (hw v hv)
  stays _ hw := Store.isMacro_setMacro_true hw
  current := rfl
  find? _ _ _ h := h
  new _ _ _ h := .inl h

end State.Kept

/-! ## Actions -/

namespace Act

variable {α β : Type}

inductive Gently (s : State) : EStateM.Result (Stop ParseError) State α → Prop
  | ok {x t} (h : s.Kept [] t) : Gently s (.ok x t)
  | raised {e t} (h : s.Kept [] t) : Gently s (.error (.raised e) t)

/-- An action that comes to an end, keeps all Vars and marks none. -/
def Gentle (a : Parse α) : Prop := ∀ s, Gently s (a s)

namespace Gentle

theorem pure (x : α) : Gentle (Pure.pure x : Parse α) := fun s => .ok (.refl s)

theorem raise (e : ParseError) : Gentle (Act.raise e : Parse α) := fun s => .raised (.refl s)

theorem fail (text : String) (span : Span) : Gentle (Parse.fail text span : Parse α) := raise _

theorem bind {a : Parse α} {f : α → Parse β} (h : Gentle a) (hf : ∀ x, Gentle (f x)) :
    Gentle (a >>= f) := by
  intro s
  have hs := h s
  rw [bind_apply]
  generalize a s = r at hs ⊢
  cases hs with
  | @ok x t ht =>
    have hx := hf x t
    dsimp only
    generalize f x t = r at hx ⊢
    cases hx with
    | ok hu => exact .ok (ht.trans hu)
    | raised hu => exact .raised (ht.trans hu)
  | raised ht => exact .raised ht

theorem map {a : Parse α} {f : α → β} (h : Gentle a) : Gentle (f <$> a) := by
  rw [map_eq_pure_bind]
  exact h.bind fun x => .pure (f x)

theorem ask (f : State → α) : Gentle (Act.ask f : Parse α) := fun s => .ok (.refl s)

theorem askStore (f : Store → α) : Gentle (Act.askStore f : Parse α) := fun s => .ok (.refl s)

theorem resolve? (symbol : String) : Gentle (Act.resolve? symbol) := ask _

theorem ofExcept (r : Except ParseError α) : Gentle (Act.ofExcept r) := by
  cases r with
  | ok x => exact .pure x
  | error e => exact .raise e

theorem guard {p : Prop} [Decidable p] {text : String} {span : Span} {f : Unit → Parse α}
    (h : Gentle (f ())) :
    Gentle (if p then Parse.fail text span >>= f else f ()) := by
  split
  · exact (fail text span).bind fun _ => h
  · exact h

theorem gensym (stem : String) : Gentle (Act.gensym stem) := fun _ => .ok (.of_eq rfl rfl)

theorem intern (name : String) : Gentle (Act.intern name) := by
  intro s
  show Gently s (Act.internIn s.names.current name s)
  cases hv : s.names.find? s.names.current name with
  | some v =>
    rw [internIn_of_find? hv]
    exact .ok (.refl s)
  | none =>
    rw [internIn_of_new hv]
    have hspace : ((s.names.ensure s.names.current).space? s.names.current).isSome := by
      rw [Names.space?_ensure, if_pos rfl]
      rfl
    have hfind : ∀ ns name', ((s.names.ensure s.names.current).add
        ⟨s.store.vars.size, s.names.current, name⟩).find? ns name' =
          if s.names.current = ns ∧ name = name' then
            some ⟨s.store.vars.size, s.names.current, name⟩
          else s.names.find? ns name' := by
      intro ns name'
      rw [Names.find?_add hspace, Names.find?_ensure]
    exact .ok {
      size := by simp [Store.newVar]
      value := fun _ hv => Store.varValue?_newVar s.names.current name hv
      isMacro := fun _ _ => Store.isMacro_newVar s.names.current name
      stays := fun _ hw => (Store.isMacro_newVar s.names.current name).trans hw
      current := by simp
      find? := fun ns name' v h => by
        rw [hfind, if_neg]
        · exact h
        · rintro ⟨rfl, rfl⟩
          rw [hv] at h
          cases h
      new := fun ns name' v h => by
        rw [hfind] at h
        split at h
        · next he =>
          cases h
          exact .inr ⟨he.1.symm, Nat.le_refl _⟩
        · exact .inl h }

end Gentle

end Act

/-! ## Rules of the special forms -/

namespace Parse

open Act

theorem gentle_symbolName (expected : String) (f : Form) : Gentle (symbolName expected f) := by
  unfold symbolName
  split
  · exact .pure _
  · exact .raise _

theorem gentle_definedVar (f : Form) : Gentle (definedVar f) := by
  refine (gentle_symbolName "symbol" f).bind fun name => ?_
  split
  · exact .intern _
  · refine (Gentle.ask _).bind fun current => ?_
    exact .guard (.intern _)

theorem gentle_reference (sc : Scopes) (name : String) (span : Span) :
    Gentle (reference sc name span) := by
  unfold reference
  split
  · exact .pure _
  · refine (Gentle.resolve? name).bind fun v => ?_
    cases v with
    | none => exact .raise _
    | some v =>
      refine (Gentle.askStore _).bind fun flag => ?_
      exact .guard (.pure _)

theorem gentle_assignment (sc : Scopes) (name : String) (place : Span) (value : Expr) (span : Span) :
    Gentle (assignment sc name place value span) := by
  unfold assignment
  split
  · exact .pure _
  · refine (Gentle.resolve? name).bind fun v => ?_
    cases v with
    | none => exact .raise _
    | some v => exact .pure _

theorem gentle_theVar (f : Form) (span : Span) : Gentle (theVar f span) := by
  refine (gentle_symbolName "symbol" f).bind fun name => ?_
  refine (Gentle.resolve? name).bind fun v => ?_
  cases v with
  | none => exact .fail _ _
  | some v => exact .pure _

theorem gentle_checkRecur (p : Position) (count : Nat) (span : Span) :
    Gentle (checkRecur p count span) := by
  unfold checkRecur
  split
  · exact .fail _ _
  · split
    · exact .fail _ _
    · split
      · exact .fail _ _
      · exact .pure _

theorem gentle_checkOverload (span : Span) (earlier : List (Arity Expr)) (a : Arity Expr) :
    Gentle (checkOverload span earlier a) := by
  unfold checkOverload
  dsimp only
  refine .guard ?_
  split
  · exact .fail _ _
  · exact .pure _

theorem gentle_distinct (es : List Expr) (span : Span) : Gentle (distinct es span) := by
  unfold distinct
  split
  · exact .fail _ _
  · exact .pure _

theorem gentle_catchClass (f : Form) : Gentle (catchClass f) := by
  refine (gentle_symbolName "exception class" f).bind fun name => ?_
  split
  · exact .pure _
  · exact .pure _
  · exact .pure _
  · exact .pure _
  · exact .fail _ _

end Parse

namespace Macro

open Act

theorem gentle_logical (conjunction : Bool) (args : List Form) (span : Span) :
    Gentle (logical conjunction args span) := by
  unfold logical
  split
  · exact .pure _
  · exact .pure _
  · exact (Gentle.gensym _).bind fun _ => .pure _

/-- The macros of the language make nothing but fresh names. -/
theorem gentle_expandBuiltin (f : Form) : Gentle (expandBuiltin f) := by
  unfold expandBuiltin
  split
  · split
    · exact (Gentle.ofExcept _).map
    · split
      · exact .pure _
      · exact .raise _
    · split
      · exact .pure _
      · exact .raise _
    · exact (Gentle.ofExcept _).map
    · exact (Gentle.ofExcept _).map
    · exact (gentle_logical _ _ _).map
    · exact (gentle_logical _ _ _).map
    · exact (Gentle.ofExcept _).map
    · exact (Gentle.ofExcept _).map
    · exact .pure _
    · exact .pure _
  · exact .pure _

end Macro

end TwinLisp
