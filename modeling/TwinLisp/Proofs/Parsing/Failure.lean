import TwinLisp.Proofs.Parsing.Termination

/-! What a form leaves behind that does not parse. Of the Vars that were there before, it may have made
some into macros, by the definitions of macros that the parser came upon; it has changed nothing else.

* `State.Kept.resolve?`: what a symbol stands for in a state that keeps the Vars of an earlier one.
* `Parse.Denotes`: a symbol is parsed as an ordinary name.
* `Desk.failure_keeps_vars`: the Vars after a fault, and the symbols that stood for functions. -/

namespace TwinLisp

/-! ## Symbols -/

namespace State.Kept

variable {marked : List Var} {s t : State} {symbol : String} {v w : Var}

/-- A symbol stands for the same Var, or for a new one, which now hides that of the core. -/
theorem resolve? (h : s.Kept marked t) (hv : s.names.resolve? symbol = some v) :
    ∃ w, t.names.resolve? symbol = some w ∧
      (w = v ∨ splitQualified symbol = none ∧ s.names.find? s.names.current symbol = none ∧
        s.store.vars.size ≤ w.id) := by
  unfold Names.resolve? at hv ⊢
  cases hq : splitQualified symbol with
  | some pair =>
    rw [hq] at hv
    exact ⟨v, h.find? _ _ v hv, .inl rfl⟩
  | none =>
    simp only [hq, Names.lookup?] at hv ⊢
    cases hs : s.names.find? s.names.current symbol with
    | some u =>
      rw [hs] at hv
      cases hv
      exact ⟨v, by rw [h.current, h.find? _ _ v hs], .inl rfl⟩
    | none =>
      rw [hs] at hv
      cases ht : t.names.find? t.names.current symbol with
      | none => exact ⟨v, h.find? _ _ v hv, .inl rfl⟩
      | some w =>
        refine ⟨w, rfl, .inr ⟨trivial, rfl, ?_⟩⟩
        rcases h.new _ _ w ht with hw | hw
        · rw [h.current, hs] at hw
          cases hw
        · exact hw.2

theorem ordinary (h : s.Kept marked t) (hw : s.store.isMacro w = false ∨ s.store.vars.size ≤ w.id)
    (hm : ∀ m ∈ marked, m.id ≠ w.id) : t.store.isMacro w = false := by
  rw [h.isMacro w hm]
  rcases hw with hw | hw
  · exact hw
  · rw [Store.isMacro, Array.getElem?_eq_none hw]

end State.Kept

namespace Macro

/-- The names of the macros of the language. -/
def names : List String :=
  ["defn", "when", "when-not", "if-not", "cond", "and", "or", "->", "->>", "comment"]

theorem expandBuiltin_of_other {name : String} (h : name ∉ names) (place : Span) (args : List Form)
    (span : Span) : expandBuiltin (.list (.symbol name place :: args) span) = pure none := by
  simp only [names, List.mem_cons, List.not_mem_nil, or_false, not_or] at h
  unfold expandBuiltin
  dsimp only
  split <;> first | rfl | simp_all

end Macro

namespace Parse

/-- A symbol is parsed as the name of a Var where no scope has it, and at the head of a list it makes that
a call, unless the language has a form of its name. -/
structure Denotes (name : String) (w : Var) (t : State) : Prop where
  reference : ∀ sc place, Parse.reference sc name place t =
    .ok ((local? name sc).elim (.varRef w place) fun b => .localRef b place) t
  call : Special.ofName? name = none → name ∉ Macro.names → ∀ x args sc p place span,
    Form.parse x (.list (.symbol name place :: args) span) sc p t =
      (do
        let callee ← Parse.reference sc name place
        return Expr.call callee (← parseOnto x [] args sc p.nonTail) span) t

theorem denotes {name : String} {w : Var} {t : State} (hw : t.names.resolve? name = some w)
    (hm : t.store.isMacro w = false) : Denotes name w t where
  reference sc place := by
    unfold Parse.reference
    cases local? name sc with
    | some b => rfl
    | none =>
      dsimp only
      rw [Act.bind_apply]
      simp only [Act.resolve?, Act.ask, hw]
      rw [Act.bind_apply]
      simp only [Act.askStore, hm]
      rfl
  call hspecial hbuiltin x args sc p place span := by
    have hrewrite : x.rewrite? (.list (.symbol name place :: args) span) name args sc p t = .ok none t := by
      unfold Expansion.rewrite?
      split
      · rfl
      · rw [Macro.expandBuiltin_of_other hbuiltin, pure_bind]
        dsimp only
        rw [Act.bind_apply]
        simp only [Act.resolve?, Act.ask, hw]
        rw [Act.bind_apply]
        simp only [Act.askStore, hm]
        rfl
    have hhead : Special.ofForm? (.symbol name place) = none := hspecial
    unfold Form.parse
    dsimp only
    rw [hhead]
    dsimp only [Form.symbol?]
    rw [Act.bind_apply, hrewrite]
    dsimp only
    rw [Form.parse]

end Parse

namespace Desk

/-- The record of a whole form: the desk after it was parsed. -/
def record (c : Caller) (f : Form) (s : State) : Desk :=
  match Expr.trackAt c (maxExpansions + 1) f .top (clear, s) with
  | .ok _ q => q.1
  | .error _ q => q.1

variable {c : Caller} {f : Form} {s t : State} {e : ParseError}

/-- After a fault, the Vars are kept if no macro of the program was called. -/
theorem kept_of_failure (h : Expr.ofForm c f s = .error (.raised e) t)
    (hcalled : (record c f s).called = []) : s.Kept (record c f s).marked t := by
  obtain ⟨o, d, t', new, ha, hb, -, hp, -, -⟩ :=
    parse_at c (Nat.lt_succ_self maxExpansions) f .top clear s (Nat.zero_le _)
  have hrecord : record c f s = d := by
    rw [record, ha]
    cases o <;> rfl
  have hform : Expr.ofForm c f s = outcome o t' := hb
  have ht : t' = t := by
    rw [hform] at h
    cases o <;> cases h
    rfl
  rw [hrecord] at hcalled ⊢
  subst ht
  exact hp.kept hcalled

/-- A form that does not parse, and for which no macro of the program is called, leaves each Var with its
value and its flag, but that a Var for which the parser came upon the definition of a macro is one now. A
symbol that stood for a function stands for it, or for a new Var that hides it, and is parsed as before
unless that Var is one of those. -/
theorem failure_keeps_vars (h : Expr.ofForm c f s = .error (.raised e) t)
    (hcalled : (record c f s).called = []) :
    (∀ v : Var, v.id < s.store.vars.size →
      t.store.varValue? v = s.store.varValue? v ∧
      (t.store.isMacro v = s.store.isMacro v ∨
        s.store.isMacro v = false ∧ ∃ m ∈ (record c f s).marked, m.id = v.id)) ∧
    ∀ symbol v, s.names.resolve? symbol = some v → s.store.isMacro v = false →
      ∃ w, t.names.resolve? symbol = some w ∧
        (w = v ∨ splitQualified symbol = none ∧ s.names.find? s.names.current symbol = none ∧
          s.store.vars.size ≤ w.id) ∧
        ((∀ m ∈ (record c f s).marked, m.id ≠ w.id) → Parse.Denotes symbol w t) := by
  have hkept := kept_of_failure h hcalled
  constructor
  · intro v hv
    refine ⟨hkept.value v hv, ?_⟩
    by_cases hm : ∃ m ∈ (record c f s).marked, m.id = v.id
    · cases hflag : s.store.isMacro v with
      | true => exact .inl (hkept.stays v hflag)
      | false => exact .inr ⟨rfl, hm⟩
    · refine .inl (hkept.isMacro v ?_)
      intro m hmem he
      exact hm ⟨m, hmem, he⟩
  · intro symbol v hv hflag
    obtain ⟨w, hw, hsame⟩ := hkept.resolve? hv
    refine ⟨w, hw, hsame, fun hm => Parse.denotes hw (hkept.ordinary ?_ hm)⟩
    rcases hsame with rfl | ⟨-, -, hnew⟩
    · exact .inl hflag
    · exact .inr hnew

/-- The Var of a function of the program. -/
def foo : Var := ⟨0, userNamespace, "foo"⟩

/-- A state in which it has its function. -/
def withFunction : State :=
  { State.bare .empty .standard with
    store := { Store.empty with vars := #[⟨some (.native 0 .add), false⟩] }
    names := Names.start.add foo }

/-- A macro is defined, and what follows does not parse. -/
def halfDefined (name : String) : Form :=
  .list [.symbol "do" .unknown,
    .list [.symbol "defmacro" .unknown, .symbol name .unknown, .vector [.symbol "x" .unknown] .unknown,
      .symbol "x" .unknown] .unknown,
    .symbol "nowhere" .unknown] .unknown

/-- If the macro has another name, the function can still be called. -/
theorem foo_survives : ∃ e t,
    Expr.ofForm doubling (halfDefined "bar") withFunction = .error (.raised e) t ∧
    t.store.varValue? foo = withFunction.store.varValue? foo ∧ t.store.isMacro foo = false ∧
    Parse.Denotes "foo" foo t := by
  obtain ⟨e, t, h⟩ : ∃ e t,
      Expr.ofForm doubling (halfDefined "bar") withFunction = .error (.raised e) t := ⟨_, _, rfl⟩
  have hmarked : (record doubling (halfDefined "bar") withFunction).marked = [⟨1, userNamespace, "bar"⟩] :=
    rfl
  obtain ⟨hvars, hsymbols⟩ := failure_keeps_vars h rfl
  rw [hmarked] at hvars hsymbols
  refine ⟨e, t, h, (hvars foo (by decide)).1, ?_, ?_⟩
  · rcases (hvars foo (by decide)).2 with hflag | ⟨-, hnamed⟩
    · exact hflag
    · exact absurd hnamed (by decide)
  · obtain ⟨w, -, rfl | ⟨-, hnone, -⟩, hdenotes⟩ := hsymbols "foo" foo rfl rfl
    · exact hdenotes (by decide)
    · cases hnone

/-- If it has the name of the function, the function becomes a macro, and cannot be referred to. -/
theorem foo_becomes_macro : ∃ e t,
    Expr.ofForm doubling (halfDefined "foo") withFunction = .error (.raised e) t ∧
    (record doubling (halfDefined "foo") withFunction).called = [] ∧
    withFunction.names.resolve? "foo" = some foo ∧ withFunction.store.isMacro foo = false ∧
    t.store.isMacro foo = true ∧
    Parse.reference [] "foo" .unknown t =
      .error (.raised ⟨.general "Can't take value of a macro: #'user/foo", .unknown⟩) t :=
  ⟨_, _, rfl, rfl, rfl, rfl, rfl, rfl⟩

end Desk

end TwinLisp
