import TwinLisp.Expr.Special
import TwinLisp.Proofs.Names.Table

/-! A history of operations on namespaces and Vars, and what it says about them: a `Ledger` has the pairs
of a namespace and a name in the order in which they were first interned, and what the Var of each holds.
The identity of a Var is the place of its pair among them.

* `Names.Op`, `Names.Runs`: operations, and runs of them.
* `Names.Ledger.of`: what a history says.
* `Names.Ledger.Shows`: a state that is as a ledger says; `Names.Runs.shows`: the one after a run is. -/

namespace TwinLisp.Names

/-! ## Operations -/

/-- An operation on namespaces and Vars; a definition may go without a value. -/
inductive Op where
  | intern (name : String)
  | internIn (ns name : String)
  | enter (ns : String)
  | define (target : Form) (value : Option Value)
  | assign (v : Var) (x : Value)
  | mark (v : Var) (flag : Bool)

namespace Op

def act : Op → Parse Unit
  | intern name => discard (Act.intern name)
  | internIn ns name => discard (Act.internIn ns name)
  | enter ns => Act.update fun s => { s with names := s.names.enter ns }
  | define target value => do
    let v ← Parse.definedVar target
    if let some x := value then Act.updateStore (Store.setVar v x)
  | assign v x => Act.updateStore (Store.setVar v x)
  | mark v flag => Act.updateStore (Store.setMacro v flag)

/-- The state after an operation, which may have been refused. -/
def after (op : Op) (s : State) : State :=
  match op.act s with
  | .ok _ t | .error _ t => t

/-- Vars that are assigned or marked are in the table. -/
def Legal (s : State) : Op → Prop
  | assign v _ | mark v _ => s.names.find? v.ns v.name = some v
  | _ => True

end Op

inductive Runs : State → List Op → State → Prop
  | done {s} : Runs s [] s
  | next {s op ops t} (hop : op.Legal s) (h : Runs (op.after s) ops t) : Runs s (op :: ops) t

/-! ## Histories -/

/-- The name in the current namespace that a definition of a symbol is for. -/
def ownName? (current symbol : String) : Option String :=
  match splitQualified symbol with
  | none => some symbol
  | some (ns, name) => if ns = current then some name else none

/-- What a history says. -/
structure Ledger where
  current : String
  spaces : List String
  keys : List (String × String)
  holds : String × String → Definition

namespace Ledger

def start : Ledger :=
  ⟨userNamespace, [coreNamespace, userNamespace], [], fun _ => ⟨none, false⟩⟩

def ensure (ns : String) (L : Ledger) : Ledger :=
  if ns ∈ L.spaces then L else { L with spaces := L.spaces ++ [ns] }

def intern (key : String × String) (L : Ledger) : Ledger :=
  if key ∈ L.keys then L.ensure key.1
  else ⟨L.current, (L.ensure key.1).spaces, L.keys ++ [key],
    Function.update L.holds key ⟨none, false⟩⟩

def change (key : String × String) (f : Definition → Definition) (L : Ledger) : Ledger :=
  { L with holds := Function.update L.holds key (f (L.holds key)) }

def bind (key : String × String) (x : Value) (L : Ledger) : Ledger :=
  L.change key fun d => { d with value := some x }

def record (L : Ledger) : Op → Ledger
  | .intern name => L.intern (L.current, name)
  | .internIn ns name => L.intern (ns, name)
  | .enter ns => { L.ensure ns with current := ns }
  | .define target value =>
    match target.symbol?.bind (ownName? L.current) with
    | none => L
    | some name =>
      match value with
      | none => L.intern (L.current, name)
      | some x => (L.intern (L.current, name)).bind (L.current, name) x
  | .assign v x => L.bind (v.ns, v.name) x
  | .mark v flag => L.change (v.ns, v.name) fun d => { d with isMacro := flag }

/-- What is said by a history that begins with the empty table. -/
def of (ops : List Op) : Ledger := ops.foldl record start

/-- The Var of a pair, where the first one has a given identity. -/
def var? (base : Nat) (ns name : String) (L : Ledger) : Option Var :=
  if (ns, name) ∈ L.keys then some ⟨base + L.keys.idxOf (ns, name), ns, name⟩ else none

/-- The names of a namespace in the order in which they were first interned. -/
def namesIn (ns : String) (L : Ledger) : List String :=
  (L.keys.filter fun key => key.1 = ns).map Prod.snd

variable {base : Nat} {ns name other : String} {key : String × String} {L : Ledger}

@[simp] theorem current_ensure : (L.ensure ns).current = L.current := by
  unfold ensure
  split <;> rfl

@[simp] theorem keys_ensure : (L.ensure ns).keys = L.keys := by
  unfold ensure
  split <;> rfl

@[simp] theorem holds_ensure : (L.ensure ns).holds = L.holds := by
  unfold ensure
  split <;> rfl

theorem mem_spaces_ensure : other ∈ (L.ensure ns).spaces ↔ other = ns ∨ other ∈ L.spaces := by
  unfold ensure
  split
  · next h =>
    constructor
    · exact Or.inr
    · rintro (rfl | ho)
      · exact h
      · exact ho
  · simp [or_comm]

@[simp] theorem current_intern : (L.intern key).current = L.current := by
  unfold intern
  split <;> simp

theorem mem_keys_intern : key ∈ (L.intern key).keys := by
  unfold intern
  split
  · simpa
  · simp

theorem var?_eq_some_iff {v : Var} : L.var? base ns name = some v ↔
    (ns, name) ∈ L.keys ∧ v = ⟨base + L.keys.idxOf (ns, name), ns, name⟩ := by
  unfold var?
  split
  · next h => simp [h, eq_comm]
  · next h => simp [h]

/-! ## Definitions -/

theorem definedVar_of_own {target : Form} {s : State}
    (h : target.symbol?.bind (ownName? s.names.current) = some name) :
    Parse.definedVar target s = Act.internIn s.names.current name s := by
  obtain ⟨symbol, ht, ho⟩ := Option.bind_eq_some_iff.mp h
  cases target with
  | symbol text span =>
    cases ht
    cases hs : splitQualified symbol with
    | none =>
      rw [ownName?, hs] at ho
      cases ho
      simp only [Parse.definedVar, Parse.symbolName, Form.symbol?, pure_bind, hs]
      rfl
    | some parts =>
      obtain ⟨ns, plain⟩ := parts
      rw [ownName?, hs] at ho
      dsimp only at ho
      split at ho
      · next hns =>
        cases ho
        subst hns
        simp only [Parse.definedVar, Parse.symbolName, Form.symbol?, pure_bind, hs]
        rw [Act.bind_apply]
        simp only [Act.ask, ne_eq, not_true, if_false]
        rfl
      · cases ho
  | _ => cases ht

theorem definedVar_refused {target : Form} {s : State}
    (h : target.symbol?.bind (ownName? s.names.current) = none) :
    ∃ e, Parse.definedVar target s = .error e s := by
  cases target with
  | symbol text span =>
    simp only [Form.symbol?, Option.bind_some] at h
    cases hs : splitQualified text with
    | none =>
      rw [ownName?, hs] at h
      cases h
    | some parts =>
      obtain ⟨ns, plain⟩ := parts
      rw [ownName?, hs] at h
      dsimp only at h
      split at h
      · cases h
      · next hns =>
        refine ⟨.raised ⟨.general ("Can't create defs outside of current ns: " ++ text), span⟩, ?_⟩
        simp only [Parse.definedVar, Parse.symbolName, Form.symbol?, pure_bind, hs]
        rw [Act.bind_apply]
        simp only [Act.ask, ne_eq, hns, not_false_eq_true, if_true]
        rfl
  | _ => exact ⟨_, rfl⟩

/-! ## States and histories -/

/-- A state that is as a ledger says; there may have been other Vars in its store before. -/
structure Shows (base : Nat) (L : Ledger) (s : State) : Prop where
  current : s.names.current = L.current
  find? : ∀ ns name, s.names.find? ns name = L.var? base ns name
  namesIn? : ∀ ns, s.names.namesIn? ns = if ns ∈ L.spaces then some (L.namesIn ns) else none
  holds : ∀ key ∈ L.keys, s.store.vars[base + L.keys.idxOf key]? = some (L.holds key)
  size : s.store.vars.size = base + L.keys.length

namespace Shows

variable {s : State} {v : Var}

theorem bare (store : Store) (config : Config) :
    start.Shows store.vars.size (State.bare store config) where
  current := rfl
  find? ns name := by
    by_cases hc : coreNamespace = ns <;> by_cases hu : userNamespace = ns <;>
      simp [Names.find?, State.bare, Names.start, space?, Namespace.find?, var?, Ledger.start, hc, hu]
  namesIn? ns := by
    by_cases hc : coreNamespace = ns
    · simp [Names.namesIn?, State.bare, Names.start, space?, Ledger.start, namesIn, hc]
    · by_cases hu : userNamespace = ns
      · simp [Names.namesIn?, State.bare, Names.start, space?, Ledger.start, namesIn, hc, hu]
      · simp [Names.namesIn?, State.bare, Names.start, space?, Ledger.start, hc, hu, Ne.symm hc,
          Ne.symm hu]
  holds key h := by cases h
  size := rfl

theorem own (h : L.Shows base s) (hv : s.names.find? ns name = some v) : v.ns = ns ∧ v.name = name := by
  rw [h.find?, var?_eq_some_iff] at hv
  rw [hv.2]
  exact ⟨rfl, rfl⟩

theorem space?_isSome (h : L.Shows base s) : (s.names.space? ns).isSome ↔ ns ∈ L.spaces := by
  have hn := h.namesIn? ns
  rw [Names.namesIn?] at hn
  split at hn
  · next hm =>
    cases hs : s.names.space? ns with
    | some n => simpa using hm
    | none =>
      rw [hs] at hn
      cases hn
  · next hm =>
    rw [Option.map_eq_none_iff] at hn
    simpa [hn] using hm

theorem mem_spaces (h : L.Shows base s) (hk : (ns, name) ∈ L.keys) : ns ∈ L.spaces :=
  h.space?_isSome.mp
    (space?_of_find? ((h.find? ns name).trans (var?_eq_some_iff.mpr ⟨hk, rfl⟩)))

theorem namesIn_of_notMem (h : L.Shows base s) (hns : ns ∉ L.spaces) : L.namesIn ns = [] := by
  rw [namesIn, List.map_eq_nil_iff, List.filter_eq_nil_iff]
  rintro ⟨ns', name⟩ hk he
  have hns' : ns' = ns := by simpa using he
  exact hns (hns' ▸ h.mem_spaces hk)

theorem ensure (h : L.Shows base s) (ns : String) :
    (L.ensure ns).Shows base { s with names := s.names.ensure ns } where
  current := by simpa using h.current
  find? ns' name := by simpa [var?] using h.find? ns' name
  namesIn? ns' := by
    rw [namesIn?_ensure, h.namesIn?, h.namesIn?, show (L.ensure ns).namesIn ns' = L.namesIn ns' by
      rw [namesIn, keys_ensure, namesIn]]
    by_cases hns : ns = ns'
    · subst hns
      rw [if_pos rfl, if_pos (mem_spaces_ensure.mpr (.inl rfl))]
      split
      · rfl
      · next hm => rw [h.namesIn_of_notMem hm, Option.getD_none]
    · rw [if_neg hns]
      simp [mem_spaces_ensure, Ne.symm hns]
  holds key hk := by
    rw [keys_ensure] at hk ⊢
    rw [holds_ensure]
    exact h.holds key hk
  size := by simpa using h.size

theorem enter (h : L.Shows base s) (ns : String) :
    { L.ensure ns with current := ns }.Shows base { s with names := s.names.enter ns } where
  current := rfl
  find? := (h.ensure ns).find?
  namesIn? := (h.ensure ns).namesIn?
  holds := (h.ensure ns).holds
  size := (h.ensure ns).size

/-- The Var of a new pair is another than all before, and it comes last in its namespace. -/
theorem internNew (h : L.Shows base s) (hk : (ns, name) ∉ L.keys) :
    (L.intern (ns, name)).Shows base
      { s with
        store := (s.store.newVar ns name).2
        names := (s.names.ensure ns).add ⟨s.store.vars.size, ns, name⟩ } := by
  have he := h.ensure ns
  have hspace : ((s.names.ensure ns).space? ns).isSome :=
    he.space?_isSome.mpr (mem_spaces_ensure.mpr (.inl rfl))
  have hlast : (L.keys ++ [(ns, name)]).idxOf (ns, name) = L.keys.length := by
    rw [List.idxOf_append_of_notMem hk]
    simp
  rw [intern, if_neg hk]
  exact {
    current := by simpa using h.current
    find? := fun ns' name' => by
      rw [find?_add hspace, he.find?]
      unfold var?
      by_cases heq : ns = ns' ∧ name = name'
      · obtain ⟨rfl, rfl⟩ := heq
        rw [if_pos ⟨rfl, rfl⟩, if_pos (by simp), hlast, h.size]
      · rw [if_neg heq]
        have hne : (ns', name') ≠ (ns, name) := by
          intro e
          cases e
          exact heq ⟨rfl, rfl⟩
        simp only [keys_ensure]
        by_cases hm : (ns', name') ∈ L.keys
        · rw [if_pos hm, if_pos (List.mem_append_left _ hm), List.idxOf_append_of_mem hm]
        · rw [if_neg hm, if_neg (by simpa [hm] using hne)]
    namesIn? := fun ns' => by
      rw [namesIn?_add, he.namesIn?]
      by_cases hns : ns = ns'
      · subst hns
        simp [mem_spaces_ensure, namesIn]
      · by_cases hm : ns' ∈ (L.ensure ns).spaces <;> simp [hm, namesIn, hns]
    holds := fun key hmem => by
      show (s.store.vars.push ⟨none, false⟩)[base + (L.keys ++ [(ns, name)]).idxOf key]? =
        some (Function.update L.holds (ns, name) ⟨none, false⟩ key)
      rcases List.mem_append.mp hmem with hm | hm
      · have hne : key ≠ (ns, name) := fun e => hk (e ▸ hm)
        have hlt := List.idxOf_lt_length_of_mem hm
        rw [List.idxOf_append_of_mem hm, Function.update_of_ne hne, Array.getElem?_push_lt (by
          rw [h.size]; omega), ← Array.getElem?_eq_getElem]
        exact h.holds key hm
      · obtain rfl := List.mem_singleton.mp hm
        rw [hlast, ← h.size, Array.getElem?_push_size, Function.update_self]
    size := by
      show (s.store.vars.push _).size = _
      rw [Array.size_push, h.size, List.length_append, List.length_singleton, Nat.add_assoc] }

theorem intern (h : L.Shows base s) (ε : Type) (ns name : String) :
    ∃ v t, (Act.internIn ns name : Act ε Var) s = .ok v t ∧
      (L.intern (ns, name)).Shows base t ∧ t.names.find? ns name = some v := by
  by_cases hk : (ns, name) ∈ L.keys
  · have hv : s.names.find? ns name = some ⟨base + L.keys.idxOf (ns, name), ns, name⟩ := by
      rw [h.find?, var?, if_pos hk]
    have hL : L.intern (ns, name) = L := by
      rw [Ledger.intern, if_pos hk, Ledger.ensure, if_pos (h.mem_spaces hk)]
    exact ⟨_, s, Act.internIn_of_find? hv, hL.symm ▸ h, hv⟩
  · have hv : s.names.find? ns name = none := by
      rw [h.find?, var?, if_neg hk]
    refine ⟨_, _, Act.internIn_of_new hv, h.internNew hk, ?_⟩
    have hnew := (h.internNew hk).find? ns name
    rw [hnew, var?_eq_some_iff]
    refine ⟨mem_keys_intern, ?_⟩
    rw [h.size, Ledger.intern, if_neg hk, List.idxOf_append_of_notMem hk]
    simp

theorem change (h : L.Shows base s) (hv : s.names.find? v.ns v.name = some v)
    (f : Definition → Definition) :
    (L.change (v.ns, v.name) f).Shows base
      { s with store := { s.store with vars := s.store.vars.modify v.id f } } := by
  rw [h.find?, var?_eq_some_iff] at hv
  obtain ⟨hk, hid⟩ := hv
  have hid : v.id = base + L.keys.idxOf (v.ns, v.name) := congrArg Var.id hid
  exact {
    current := h.current
    find? := h.find?
    namesIn? := h.namesIn?
    holds := fun key hm => by
      show (s.store.vars.modify v.id f)[base + L.keys.idxOf key]? =
        some (Function.update L.holds (v.ns, v.name) (f (L.holds (v.ns, v.name))) key)
      rw [Array.getElem?_modify]
      by_cases he : key = (v.ns, v.name)
      · subst he
        rw [if_pos hid, h.holds _ hm, Function.update_self]
        rfl
      · have hne : v.id ≠ base + L.keys.idxOf key := by
          intro e
          have := (List.idxOf_inj hm).mp (by omega : L.keys.idxOf key = L.keys.idxOf (v.ns, v.name))
          exact he this
        rw [if_neg hne, h.holds _ hm, Function.update_of_ne he]
    size := by
      show (s.store.vars.modify v.id f).size = _
      rw [Array.size_modify]
      exact h.size }

theorem discard_apply {a : Parse Var} {t : State} (h : a s = .ok v t) :
    discard a s = .ok PUnit.unit t := by
  show EStateM.map (fun _ => PUnit.unit) a s = _
  rw [EStateM.map, h]

theorem step (h : L.Shows base s) {op : Op} (hop : op.Legal s) :
    (L.record op).Shows base (op.after s) := by
  cases op with
  | intern name =>
    obtain ⟨v, t, ht, hs, -⟩ := h.intern ParseError s.names.current name
    have hafter : (Op.intern name).after s = t := by
      rw [Op.after, Op.act, discard_apply (show Act.intern name s = .ok v t from ht)]
    rw [hafter, record, ← h.current]
    exact hs
  | internIn ns name =>
    obtain ⟨v, t, ht, hs, -⟩ := h.intern ParseError ns name
    have hafter : (Op.internIn ns name).after s = t := by
      rw [Op.after, Op.act, discard_apply ht]
    rw [hafter]
    exact hs
  | enter ns => exact h.enter ns
  | define target value =>
    cases ho : target.symbol?.bind (ownName? L.current) with
    | none =>
      obtain ⟨e, he⟩ := definedVar_refused (h.current ▸ ho)
      have hafter : (Op.define target value).after s = s := by
        rw [Op.after, Op.act, Act.bind_apply, he]
      simp only [hafter, record, ho]
      exact h
    | some name =>
      obtain ⟨v, t, ht, hs, hv⟩ := h.intern ParseError s.names.current name
      have hd := (definedVar_of_own (h.current ▸ ho)).trans ht
      simp only [Op.after, Op.act, Act.bind_apply, hd, record, ho]
      cases value with
      | none =>
        rw [← h.current]
        exact hs
      | some x =>
        have hkey := hs.own hv
        have hbound := hs.change (by rwa [hkey.1, hkey.2]) fun d => { d with value := some x }
        rw [hkey.1, hkey.2, h.current] at hbound
        exact hbound
  | assign v x => exact h.change hop fun d => { d with value := some x }
  | mark v flag => exact h.change hop fun d => { d with isMacro := flag }

end Shows

end Ledger

/-- After a run, the state is as the history says. -/
theorem Runs.shows {s t : State} {ops : List Op} (h : Runs s ops t) {base : Nat} {L : Ledger}
    (hL : L.Shows base s) : (ops.foldl Ledger.record L).Shows base t := by
  induction h generalizing L with
  | done => exact hL
  | next hop _ ih => exact ih (hL.step hop)

end TwinLisp.Names
