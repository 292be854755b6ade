import TwinLisp.Proofs.Coupling.Basic
import TwinLisp.Proofs.Parsing.Kept

/-! What two interpreters have in common: namespaces, Vars, counters and the printed text. The Vars of
the second hold the values of the first with their functions renamed, all else is equal.

* `Coupling.Common`: these parts agree.
* `Coupling.Shared`: related states agree in them, and may change in them together.
* `Shared.deref`, `Shared.assign`, `Shared.internIn` and so on: the actions that use them. -/

namespace TwinLisp

/-- The definition with the functions in its value renamed. -/
def Definition.rename (ρ : Renaming) (d : Definition) : Definition :=
  { d with value := d.value.map (·.rename ρ) }

@[simp] theorem Definition.rename_id : Definition.rename .id = id := by
  funext d
  obtain ⟨value, flag⟩ := d
  cases value <;> simp [Definition.rename]

namespace Store

variable {a b : Store} {ρ : Renaming}

theorem varValue?_of_vars (h : b.vars = a.vars.map (Definition.rename ρ)) (v : Var) :
    b.varValue? v = (a.varValue? v).map (·.rename ρ) := by
  rw [varValue?, varValue?, h, Array.getElem?_map]
  cases a.vars[v.id]? <;> rfl

theorem isMacro_of_vars (h : b.vars = a.vars.map (Definition.rename ρ)) (v : Var) :
    b.isMacro v = a.isMacro v := by
  rw [isMacro, isMacro, h, Array.getElem?_map]
  cases a.vars[v.id]? <;> rfl

theorem map_modify_of_comm {α β : Type} (xs : Array α) (i : Nat) (r : α → β) (f : α → α)
    (g : β → β) (h : ∀ x, g (r x) = r (f x)) :
    (xs.map r).modify i g = (xs.modify i f).map r := by
  apply Array.ext_getElem?
  intro j
  rw [Array.getElem?_modify, Array.getElem?_map, Array.getElem?_map, Array.getElem?_modify]
  split
  · cases xs[j]? with
    | none => rfl
    | some x => simp [h]
  · rfl

theorem setVar_vars_of_vars (h : b.vars = a.vars.map (Definition.rename ρ)) (v : Var) (x : Value) :
    (b.setVar v (x.rename ρ)).vars = (a.setVar v x).vars.map (Definition.rename ρ) := by
  simp only [setVar, h]
  exact map_modify_of_comm a.vars v.id (Definition.rename ρ) _ _ fun d => rfl

theorem setMacro_vars_of_vars (h : b.vars = a.vars.map (Definition.rename ρ)) (v : Var)
    (flag : Bool) :
    (b.setMacro v flag).vars = (a.setMacro v flag).vars.map (Definition.rename ρ) := by
  simp only [setMacro, h]
  exact map_modify_of_comm a.vars v.id (Definition.rename ρ) _ _ fun d => rfl

theorem newVar_of_vars (h : b.vars = a.vars.map (Definition.rename ρ)) (ns name : String) :
    (b.newVar ns name).1 = (a.newVar ns name).1 ∧
      (b.newVar ns name).2.vars = (a.newVar ns name).2.vars.map (Definition.rename ρ) := by
  simp [newVar, h, Definition.rename]

end Store

namespace State

/-- The second state differs from the first in common parts alone. -/
def Besides (s s' : State) : Prop :=
  s' = { s with
    store := { s.store with vars := s'.store.vars, raised := s'.store.raised }
    names := s'.names
    gensyms := s'.gensyms
    output := s'.output }

/-- Vars that have values keep them. -/
def Keeps (s s' : State) : Prop :=
  ∀ v x, s.store.varValue? v = some x → s'.store.varValue? v = some x

theorem keeps_newVar (s : State) (ns name : String) :
    s.Keeps { s with store := (s.store.newVar ns name).2 } := by
  intro v x h
  have hv : v.id < s.store.vars.size := by
    unfold Store.varValue? at h
    by_contra hn
    rw [Array.getElem?_eq_none (Nat.le_of_not_lt hn)] at h
    cases h
  exact (Store.varValue?_newVar ns name hv).trans h

end State

namespace Coupling

variable {C : Coupling}

/-- The common parts of two states agree. -/
structure Common (C : Coupling) (w : C.World) (s t : State) : Prop where
  names : t.names = s.names
  gensyms : t.gensyms = s.gensyms
  output : t.output = s.output
  raised : t.store.raised = s.store.raised
  vars : ∀ ρ, C.ext w ρ → t.store.vars = s.store.vars.map (Definition.rename ρ)

/-- Related states agree in the common parts, which they may change together. -/
structure Shared (C : Coupling) : Prop where
  common : ∀ {w s t}, C.related w s t → C.Common w s t
  change : ∀ {w s t s' t'}, C.related w s t → s.Besides s' → s.Keeps s' → t.Besides t' →
    C.Common w s' t' → C.related w s' t'

namespace Common

variable {w : C.World} {s t : State} (h : C.Common w s t)

include h

theorem isMacro (v : Var) : t.store.isMacro v = s.store.isMacro v := by
  obtain ⟨ρ, hρ⟩ := C.inhabited w
  exact Store.isMacro_of_vars (h.vars ρ hρ) v

theorem setVar (v : Var) {x y : Value} (hx : C.value w x y) :
    C.Common w { s with store := s.store.setVar v x } { t with store := t.store.setVar v y } := by
  refine ⟨h.names, h.gensyms, h.output, h.raised, fun ρ hρ => ?_⟩
  rw [hx ρ hρ]
  exact Store.setVar_vars_of_vars (h.vars ρ hρ) v x

theorem newVar (ns name : String) : (t.store.newVar ns name).1 = (s.store.newVar ns name).1 := by
  obtain ⟨ρ, hρ⟩ := C.inhabited w
  exact (Store.newVar_of_vars (h.vars ρ hρ) ns name).1

end Common

/-! ## Actions on the common parts -/

/-- A value that may be absent. -/
def value? (w : C.World) (x y : Option Value) : Prop :=
  (x = none ∧ y = none) ∨ ∃ u v, x = some u ∧ y = some v ∧ C.value w u v

namespace Shared

variable {ε : Type} {short : Nat → Prop} {X : C.World → ε → ε → Prop} (H : C.Shared) (w : C.World)

include H

theorem resolve? (name : String) :
    C.Follows short C.same X w (Act.resolve? name) fun _ => Act.resolve? name :=
  .ask (fun s t h => by rw [same, (H.common h).names]) fun _ _ => rfl

theorem currentNs : C.Follows short C.same X w (Act.ask fun s => s.names.current) fun _ =>
    Act.ask fun s => s.names.current :=
  .ask (fun s t h => by rw [same, (H.common h).names]) fun _ _ => rfl

theorem isMacro (v : Var) :
    C.Follows short C.same X w (Act.askStore (Store.isMacro v)) fun _ =>
      Act.askStore (Store.isMacro v) :=
  .askStore fun _ _ h => (H.common h).isMacro v

theorem varValue? (v : Var) :
    C.Follows short C.value? X w (Act.askStore (Store.varValue? v)) fun _ =>
      Act.askStore (Store.varValue? v) := by
  refine .askStore fun s t h => ?_
  have hv := fun ρ hρ => Store.varValue?_of_vars ((H.common h).vars ρ hρ) v
  obtain ⟨ρ, hρ⟩ := C.inhabited w
  cases hs : s.store.varValue? v with
  | none => exact .inl ⟨rfl, by rw [hv ρ hρ, hs]; rfl⟩
  | some x =>
    refine .inr ⟨x, x.rename ρ, rfl, by rw [hv ρ hρ, hs]; rfl, fun σ hσ => ?_⟩
    have := (hv ρ hρ).symm.trans (hv σ hσ)
    rw [hs] at this
    exact Option.some.inj this

theorem deref (v : Var) (span : Span) :
    C.Follows short C.value C.fault w (Run.deref v span) fun _ => Run.deref v span := by
  refine (H.varValue? w v).bind fun w' x y _ hx => ?_
  rcases hx with ⟨rfl, rfl⟩ | ⟨x, y, rfl, rfl, hx⟩
  · exact Follows.failAt (RuntimeFault.plain_unboundVar _) span
  · exact .pure hx

theorem update {f g : State → State} (hf : ∀ s : State, s.Besides (f s))
    (hk : ∀ s : State, s.Keeps (f s)) (hg : ∀ t : State, t.Besides (g t))
    (hat : ∀ L t, g (C.at_ L t) = C.at_ L (g t))
    (hc : ∀ s t, C.Common w s t → C.Common w (f s) (g t)) :
    C.Follows short C.same X w (Act.update f) fun _ => Act.update g :=
  .update (fun s t h => ⟨w, C.refl w, H.change h (hf s) (hk s) (hg t) (hc s t (H.common h)), rfl⟩) hat

theorem print (text : String) :
    C.Follows short C.same C.fault w (Run.print text) fun _ => Run.print text :=
  H.update w (fun _ => rfl) (fun _ _ _ h => h) (fun _ => rfl) (fun _ _ => rfl) fun _ _ h =>
    ⟨h.names, h.gensyms, congrArg (· ++ text) h.output, h.raised, h.vars⟩

theorem enterNs (ns : String) :
    C.Follows short C.same X w (Act.update fun s => { s with names := s.names.enter ns }) fun _ =>
      Act.update fun s => { s with names := s.names.enter ns } :=
  H.update w (fun _ => rfl) (fun _ _ _ h => h) (fun _ => rfl) (fun _ _ => rfl) fun _ _ h =>
    ⟨congrArg (Names.enter ns) h.names, h.gensyms, h.output, h.raised, h.vars⟩

theorem assign (v : Var) {x y : Value} (hx : C.value w x y)
    (hset : ∀ {s t}, C.related w s t →
      C.Common w { s with store := s.store.setVar v x } { t with store := t.store.setVar v y } →
      C.related w { s with store := s.store.setVar v x } { t with store := t.store.setVar v y }) :
    C.Follows short C.same X w (Act.updateStore (Store.setVar v x)) fun _ =>
      Act.updateStore (Store.setVar v y) :=
  .of_step fun s t h =>
    ⟨w, (), (), { s with store := s.store.setVar v x }, { t with store := t.store.setVar v y },
      C.refl w, rfl, fun _ _ => rfl, rfl, hset h ((H.common h).setVar v hx)⟩

theorem setMacro (v : Var) (flag : Bool) :
    C.Follows short C.same X w (Act.updateStore (Store.setMacro v flag)) fun _ =>
      Act.updateStore (Store.setMacro v flag) :=
  .of_step fun s t h => by
    refine ⟨w, (), (), { s with store := s.store.setMacro v flag },
      { t with store := t.store.setMacro v flag }, C.refl w, rfl, fun _ _ => rfl, rfl,
      H.change h rfl (fun _ _ => (Store.varValue?_setMacro flag).trans) rfl ?_⟩
    have hc := H.common h
    exact ⟨hc.names, hc.gensyms, hc.output, hc.raised, fun ρ hρ =>
      Store.setMacro_vars_of_vars (hc.vars ρ hρ) v flag⟩

theorem gensym (stem : String) :
    C.Follows short (fun _ x y => y = x ∧ ∃ n : Nat, x = stem ++ "__" ++ toString n ++ "__auto") X w
      (Act.gensym stem) fun _ => Act.gensym stem :=
  .of_step fun s t h => by
    have hc := H.common h
    refine ⟨w, _, stem ++ "__" ++ toString (t.gensyms + 1) ++ "__auto",
      { s with gensyms := s.gensyms + 1 }, { t with gensyms := t.gensyms + 1 },
      C.refl w, rfl, fun _ _ => rfl, ⟨by rw [hc.gensyms], _, rfl⟩,
      H.change h rfl (fun _ _ h => h) rfl ?_⟩
    exact ⟨hc.names, congrArg (· + 1) hc.gensyms, hc.output, hc.raised, hc.vars⟩

theorem internIn (ns name : String) :
    C.Follows short C.same X w (Act.internIn ns name) fun _ => Act.internIn ns name :=
  .of_step fun s t h => by
    have hc := H.common h
    cases hf : (s.names.ensure ns).find? ns name with
    | some v =>
      refine ⟨w, v, v, { s with names := s.names.ensure ns }, { t with names := t.names.ensure ns },
        C.refl w, ?_, fun _ L => ?_, rfl, H.change h rfl (fun _ _ h => h) rfl ?_⟩
      · simp only [Act.internIn, hf]
      · simp only [Act.internIn, at_names, hc.names, hf]
        rfl
      · exact ⟨congrArg (Names.ensure ns) hc.names, hc.gensyms, hc.output, hc.raised, hc.vars⟩
    | none =>
      have hv := hc.newVar ns name
      refine ⟨w, (s.store.newVar ns name).1, (t.store.newVar ns name).1,
        { s with
          store := (s.store.newVar ns name).2
          names := (s.names.ensure ns).add (s.store.newVar ns name).1 },
        { t with
          store := (t.store.newVar ns name).2
          names := (t.names.ensure ns).add (t.store.newVar ns name).1 },
        C.refl w, ?_, fun _ L => ?_, hv,
        H.change h rfl (s.keeps_newVar ns name) rfl ?_⟩
      · simp only [Act.internIn, hf]
      · simp only [Act.internIn, at_names, at_store, hc.names, hf]
        rfl
      · refine ⟨?_, hc.gensyms, hc.output, hc.raised, fun ρ hρ =>
          (Store.newVar_of_vars (hc.vars ρ hρ) ns name).2⟩
        simp only [hv, hc.names]

theorem intern (name : String) :
    C.Follows short C.same X w (Act.intern name) fun _ => Act.intern name := by
  refine (H.currentNs w).bind fun w' ns ns' _ e => ?_
  rw [same] at e
  rw [e]
  exact H.internIn w' ns name

theorem newExInfo (message : String) {x y : Value} (hx : C.value w x y) :
    C.Follows short C.value C.fault w (newExInfo message x) fun _ => newExInfo message y :=
  .of_step fun s t h => by
    have hc := H.common h
    refine ⟨w, .exInfo s.store.raised message x, .exInfo t.store.raised message y,
      { s with store := { s.store with raised := s.store.raised + 1 } },
      { t with store := { t.store with raised := t.store.raised + 1 } }, C.refl w, rfl,
      fun _ _ => rfl, fun ρ hρ => ?_, H.change h rfl (fun _ _ h => h) rfl ?_⟩
    · rw [hx ρ hρ, hc.raised]
      rfl
    · exact ⟨hc.names, hc.gensyms, hc.output, congrArg (· + 1) hc.raised, hc.vars⟩

end Shared

end Coupling

end TwinLisp
