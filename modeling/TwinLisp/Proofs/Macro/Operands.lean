import TwinLisp.Proofs.Coupling.Parsing

/-! How the operands of `and`, `or` and `cond` are parsed. Their expansions are nested: each further
operand of `and` or `or` stands one scope deeper, in which there is a fresh name. Each is parsed all the
same as if it stood where the form stands, if it does not mention the fresh names.

* `Caller.heeding`: calls that yield no code in which certain names occur.
* `Macro.Operands`, `Macro.Clauses`: operands where the form stands.
* `Macro.parse_logical`, `Macro.parse_cond`: the expression of a form. -/

namespace TwinLisp

open Parse Coupling

/-! ## Calls that yield no code with certain names -/

open Classical in
/-- Calls that do not come to an end where their value would be code in which certain names occur. -/
noncomputable def Caller.heeding (avoid : String → Prop) (c : Caller) : Caller := fun u args s =>
  match c u args s with
  | .ok v s =>
    if ∀ span f, Form.ofValue span v = .ok f → f.Avoids avoid then .ok v s else .error .exhausted s
  | .error e s => .error e s

variable {avoid : String → Prop} {c : Caller} {s s' : State}

theorem Caller.eq_of_heeding {u : Value} {args : List Value} {v : Value}
    (h : c.heeding avoid u args s = .ok v s') :
    c u args s = .ok v s' ∧ ∀ span f, Form.ofValue span v = .ok f → f.Avoids avoid := by
  unfold Caller.heeding at h
  split at h
  · next v' t hr =>
    split at h
    · next ha =>
      cases h
      exact ⟨hr, ha⟩
    · cases h
  · cases h

theorem Caller.heedful_heeding (avoid : String → Prop) (c : Caller) :
    Heedful avoid (c.heeding avoid) := fun h _ _ => (Caller.eq_of_heeding h).2 _ _

theorem Caller.heeding_follows (avoid : String → Prop) (c : Caller) :
    alone.Calls (fun _ => False) (c.heeding avoid) fun _ => c := by
  intro w f g xs ys hf hx s t hst
  have hm := calls_alone c w f g xs ys hf hx s t hst
  unfold Caller.heeding
  cases hr : c f xs s with
  | ok v s' =>
    rw [hr] at hm
    dsimp only
    split
    · exact hm
    · exact .exhausted (.inr nofun)
  | error e s' =>
    rw [hr] at hm
    exact hm

/-! ## Forms inside further scopes -/

/-- Places that are further inside than a number of scopes, below more frames. -/
def Binding.deepen (n k : Nat) (b : Binding) : Binding :=
  if b.frame < n then b else { b with frame := b.frame + k }

section Deepen

variable {sc temps : Scopes}

theorem Scopes.find?_append (ht : ∀ names ∈ temps, ∀ name ∈ names, avoid name) {name : String}
    (hn : ¬ avoid name) : Scopes.find? name (temps ++ sc) = sc.find? name := by
  have hslot : ∀ names : List String, (∀ name ∈ names, avoid name) →
      Scopes.slot? name names = none := by
    intro names
    induction names with
    | nil => exact fun _ => rfl
    | cons n rest ih =>
      intro h
      obtain ⟨hfirst, hrest⟩ := List.forall_mem_cons.mp h
      have hne : (n == name) = false := beq_false_of_ne fun e => hn (e ▸ hfirst)
      rw [Scopes.slot?, hne, if_neg Bool.false_ne_true, ih hrest]
  induction temps with
  | nil => rfl
  | cons names rest ih =>
    obtain ⟨hfirst, hrest⟩ := List.forall_mem_cons.mp ht
    rw [List.cons_append, Scopes.find?, hslot names hfirst]
    exact ih hrest

theorem Scopes.covers_append (ht : ∀ names ∈ temps, ∀ name ∈ names, avoid name) :
    Scopes.Covers avoid (Binding.deepen sc.length temps.length) (temps ++ sc) sc where
  find name hn := by
    rw [Scopes.find?_append ht hn]
    cases hf : sc.find? name with
    | none => rfl
    | some b =>
      rw [Option.map_some, Binding.deepen, if_pos (Scopes.frame_lt_of_find? hf)]
  inside name n index := by
    rw [Binding.deepen, if_neg (by simp)]
    simp only [List.length_append, Binding.mk.injEq, true_and, and_true]
    omega

end Deepen

namespace Macro

/-! ## Operands -/

/-- The name of a macro. -/
def logicalName (conjunction : Bool) : String := if conjunction then "and" else "or"

/-- Operands of `and` or `or`, each parsed once, one after the other, where the form stands: only the
last one is where the form itself is, and before each of the others a fresh name is made. -/
inductive Operands (c : Caller) (sc : Scopes) (p : Position) :
    Nat → List Form → State → List Expr → State → Prop
  | none {n s} : Operands c sc p (n + 1) [] s [] s
  | last {n f s y s'} (h : Expr.ofFormAt c n f sc p s = .ok y s') :
    Operands c sc p (n + 1) [f] s [y] s'
  | more {n f f' rest s y s₁ ys s'}
    (h : Expr.ofFormAt c n f sc p.nonTail { s with gensyms := s.gensyms + 1 } = .ok y s₁)
    (hr : Operands c sc p n (f' :: rest) s₁ ys s') :
    Operands c sc p (n + 1) (f :: f' :: rest) s (y :: ys) s'

/-- The tests of operands, one inside the other. The first stands inside as many scopes with fresh
names as there have been operands before it. -/
inductive Nested (conjunction : Bool) (outer : Nat) : Nat → List Expr → Expr → Prop
  | none {k v span} (h : v = if conjunction then .bool true else .nil) :
    Nested conjunction outer k [] (.literal v span)
  | last {k y} : Nested conjunction outer k [y] (y.relocate (Binding.deepen outer k))
  | more {k y y' ys e fresh span} (h : Nested conjunction outer (k + 1) (y' :: ys) e) :
    Nested conjunction outer k (y :: y' :: ys)
      (testing conjunction ⟨fresh, outer + k, 0⟩ (y.relocate (Binding.deepen outer (k + 1))) e span)

/-- Tests and results of `cond`, each parsed once, one after the other, where the form stands: results
are where the form itself is. -/
inductive Clauses (c : Caller) (sc : Scopes) (p : Position) :
    Nat → List Form → State → List (Expr × Expr) → State → Prop
  | none {n s} : Clauses c sc p (n + 1) [] s [] s
  | clause {n test yes rest s a s₁ b s₂ cs s'}
    (ht : Expr.ofFormAt c n test sc p.nonTail s = .ok a s₁)
    (hy : Expr.ofFormAt c n yes sc p s₁ = .ok b s₂) (hr : Clauses c sc p n rest s₂ cs s') :
    Clauses c sc p (n + 1) (test :: yes :: rest) s ((a, b) :: cs) s'

/-- A chain of tests, each in the other branch of the one before. -/
inductive Chain : List (Expr × Expr) → Expr → Prop
  | none {span} : Chain [] (.literal .nil span)
  | clause {a b cs e span} (h : Chain cs e) : Chain ((a, b) :: cs) (.cond a b (some e) span)

/-! ## Parsing -/

variable {n : Nat} {sc temps : Scopes} {p : Position} {e : Expr}

/-- A form inside further scopes, the names of which it does not mention, where macros yield no code
that does. -/
theorem ofFormAt_deeper {f : Form} (hf : f.Fit avoid) (hw : Spares avoid)
    (ht : ∀ names ∈ temps, ∀ name ∈ names, avoid name)
    (h : Expr.ofFormAt (c.heeding avoid) n f (temps ++ sc) p s = .ok e s') :
    ∃ y, Expr.ofFormAt c n f sc p s = .ok y s' ∧
      e = y.relocate (Binding.deepen sc.length temps.length) := by
  obtain ⟨y, hy, he, -⟩ := value_of_alone (ofFormAt_follows shared_alone hw
    (Caller.heeding_follows avoid c) (Caller.heedful_heeding avoid c) n (.plain hf)
    (Scopes.covers_append ht) p ()) h
  exact ⟨y, hy, he⟩

/-- A call of one of these macros is parsed as what it yields. -/
theorem parse_logicalForm (x : Expansion) {conjunction : Bool}
    (hsc : sc.find? (logicalName conjunction) = none) (args : List Form) (place span : Span)
    (p : Position) :
    (Form.list (.symbol (logicalName conjunction) place :: args) span).parse x sc p =
      (do x.parse (← logical conjunction args span) sc p) := by
  cases conjunction with
  | false =>
    have hor : sc.find? "or" = none := hsc
    rw [show logicalName false = "or" from rfl]
    unfold Form.parse
    simp [Special.ofForm?, Form.symbol?, Special.ofName?, Expansion.rewrite?, hor, expandBuiltin]
  | true =>
    have hand : sc.find? "and" = none := hsc
    rw [show logicalName true = "and" from rfl]
    unfold Form.parse
    simp [Special.ofForm?, Form.symbol?, Special.ofName?, Expansion.rewrite?, hand, expandBuiltin]

theorem ofFormAt_atom (v : Value) (span : Span) :
    Expr.ofFormAt c n (.atom v span) sc p = pure (.literal v span) := by
  cases n <;> rw [Expr.ofFormAt, Form.parse]

theorem ofFormAt_logicalForm {conjunction : Bool} (hsc : sc.find? (logicalName conjunction) = none)
    (args : List Form) (place span : Span) :
    Expr.ofFormAt c (n + 1) (.list (.symbol (logicalName conjunction) place :: args) span) sc p =
      (do Expr.ofFormAt c n (← logical conjunction args span) sc p) :=
  parse_logicalForm _ hsc args place span p

theorem ofFormAt_logicalStep {conjunction : Bool} {fresh : String} (ht : Temporary fresh)
    (first : Form) (rest : List Form) (span : Span) :
    Expr.ofFormAt c n (logicalStep conjunction fresh first rest span) sc p = (do
      let first ← Expr.ofFormAt c n first ([] :: sc) p.nonTail
      let more ← Expr.ofFormAt c n (.list (.symbol (logicalName conjunction) span :: rest) span)
        ([fresh] :: sc) p
      return testing conjunction ⟨fresh, sc.length, 0⟩ first more span) := by
  cases n <;> exact parse_logicalStep _ conjunction ht first rest span sc p

theorem logical_nil (conjunction : Bool) (span : Span) :
    (logical conjunction [] span : Parse Form) =
      pure (.atom (if conjunction then .bool true else .nil) span) := by
  cases conjunction <;> rfl

theorem logical_cons (conjunction : Bool) (first second : Form) (rest : List Form) (span : Span)
    (s : State) : ∃ fresh, Temporary fresh ∧
      logical conjunction (first :: second :: rest) span s =
        (.ok (logicalStep conjunction fresh first (second :: rest) span)
          { s with gensyms := s.gensyms + 1 } : EStateM.Result (Stop ParseError) State Form) :=
  ⟨_, ⟨logicalName conjunction, by cases conjunction <;> decide, s.gensyms + 1, rfl⟩, rfl⟩

theorem Operands.exists_cons {f : Form} {fs : List Form} {ys : List Expr}
    (h : Operands c sc p n (f :: fs) s ys s') : ∃ y ys', ys = y :: ys' := by
  cases h with
  | last => exact ⟨_, _, rfl⟩
  | more => exact ⟨_, _, rfl⟩

/-- The operands of `and` and `or` are parsed in turn where the form stands, and their tests are
nested. -/
theorem parse_logical {conjunction : Bool} {args : List Form} (hf : Form.AllFit Temporary args)
    (ht : ∀ names ∈ temps, ∀ name ∈ names, Temporary name)
    (hsc : sc.find? (logicalName conjunction) = none) {place span : Span}
    (h : Expr.ofFormAt (c.heeding Temporary) n
      (.list (.symbol (logicalName conjunction) place :: args) span) (temps ++ sc) p s = .ok e s') :
    ∃ ys, Operands c sc p n args s ys s' ∧ Nested conjunction sc.length temps.length ys e := by
  have hname : ¬ Temporary (logicalName conjunction) :=
    spares_temporary _ (by cases conjunction <;> decide)
  induction n generalizing args temps place span s e with
  | zero =>
    rw [Expr.ofFormAt, parse_logicalForm _ ((Scopes.find?_append ht hname).trans hsc),
      Act.bind_apply] at h
    split at h <;> cases h
  | succ n ih =>
    rw [ofFormAt_logicalForm ((Scopes.find?_append ht hname).trans hsc)] at h
    match args with
    | [] =>
      rw [logical_nil, pure_bind, ofFormAt_atom] at h
      cases h
      exact ⟨[], .none, .none rfl⟩
    | [only] =>
      obtain ⟨y, hy, rfl⟩ := ofFormAt_deeper hf.head spares_temporary ht h
      exact ⟨[y], .last hy, .last⟩
    | first :: second :: rest =>
      obtain ⟨fresh, hfresh, hl⟩ := logical_cons conjunction first second rest span s
      rw [Act.bind_apply, hl] at h
      dsimp only at h
      rw [ofFormAt_logicalStep hfresh, Act.bind_apply] at h
      split at h
      · next e₁ s₁ h₁ =>
        rw [Act.bind_apply] at h
        split at h
        · next e₂ s₂ h₂ =>
          cases h
          have htest : ∀ names ∈ [] :: temps, ∀ name ∈ names, Temporary name :=
            List.forall_mem_cons.mpr ⟨nofun, ht⟩
          have hmore : ∀ names ∈ [fresh] :: temps, ∀ name ∈ names, Temporary name :=
            List.forall_mem_cons.mpr ⟨fun name hm => List.mem_singleton.mp hm ▸ hfresh, ht⟩
          obtain ⟨y, hy, rfl⟩ := ofFormAt_deeper hf.head spares_temporary htest h₁
          obtain ⟨ys, hys, hn⟩ := ih hf.tail hmore h₂
          obtain ⟨y', ys, rfl⟩ := hys.exists_cons
          refine ⟨y :: y' :: ys, .more hy hys, ?_⟩
          rw [List.length_append, Nat.add_comm]
          exact .more hn
        · cases h
      · cases h

theorem parse_condForm (x : Expansion) (hsc : sc.find? "cond" = none) (args : List Form)
    (place span : Span) (p : Position) :
    (Form.list (.symbol "cond" place :: args) span).parse x sc p =
      (do x.parse (← Act.ofExcept (Macro.cond args span)) sc p) := by
  unfold Form.parse
  simp [Special.ofForm?, Form.symbol?, Special.ofName?, Expansion.rewrite?, hsc, expandBuiltin]

theorem ofFormAt_if (test yes no : Form) (span : Span) :
    Expr.ofFormAt c n (headedBy "if" [test, yes, no] span) sc p = (do
      let test ← Expr.ofFormAt c n test sc p.nonTail
      let yes ← Expr.ofFormAt c n yes sc p
      let no ← Expr.ofFormAt c n no sc p
      return .cond test yes (some no) span) := by
  cases n <;> rw [headedBy, Expr.ofFormAt, Form.parse] <;>
    simp only [Special.ofForm?, Form.symbol?, Option.bind_some, Special.ofName?]

/-- The tests and results of `cond` are parsed in turn where the form stands, and become a chain. -/
theorem parse_cond {args : List Form} (hsc : sc.find? "cond" = none) {place span : Span}
    (h : Expr.ofFormAt c n (.list (.symbol "cond" place :: args) span) sc p s = .ok e s') :
    ∃ cs, Clauses c sc p n args s cs s' ∧ Chain cs e := by
  induction n generalizing args place span s e with
  | zero =>
    rw [Expr.ofFormAt, parse_condForm _ hsc, Act.bind_apply] at h
    split at h <;> cases h
  | succ n ih =>
    have hlevel : Expr.ofFormAt c (n + 1) (.list (.symbol "cond" place :: args) span) sc p =
        (do Expr.ofFormAt c n (← Act.ofExcept (Macro.cond args span)) sc p) :=
      parse_condForm _ hsc args place span p
    rw [hlevel] at h
    match args with
    | [] =>
      have hnil : Act.ofExcept (Macro.cond [] span) = (pure (nilAt span) : Parse Form) := rfl
      rw [hnil, pure_bind, nilAt, ofFormAt_atom] at h
      cases h
      exact ⟨[], .none, .none⟩
    | [only] => cases h
    | test :: yes :: rest =>
      by_cases hodd : (test :: yes :: rest).length % 2 = 0
      · have hcond : Act.ofExcept (Macro.cond (test :: yes :: rest) span) =
            (pure (headedBy "if" [test, yes, headedBy "cond" rest span] span) : Parse Form) := by
          rw [Macro.cond, if_neg (not_not.mpr hodd)]
          rfl
        rw [hcond, pure_bind, ofFormAt_if, Act.bind_apply] at h
        split at h
        · next a s₁ ha =>
          rw [Act.bind_apply] at h
          split at h
          · next b s₂ hb =>
            rw [Act.bind_apply] at h
            split at h
            · next e' s₃ he =>
              cases h
              obtain ⟨cs, hcs, hchain⟩ := ih he
              exact ⟨(a, b) :: cs, .clause ha hb hcs, .clause hchain⟩
            · cases h
          · cases h
        · cases h
      · have hcond : Act.ofExcept (Macro.cond (test :: yes :: rest) span) =
            (Act.raise (general "cond requires an even number of forms" span) : Parse Form) := by
          rw [Macro.cond, if_pos hodd]
          rfl
        rw [hcond] at h
        cases h

end Macro

end TwinLisp
