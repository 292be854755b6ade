import TwinLisp.Proofs.Macro.Operands

/-! How long `and`, `or` and `cond` can be. Every operand after the first, and every pair of `cond`, is
expanded within the expansion before it, so that the number of operands counts against the limit on nested
expansions.

* `Form.Plain`: constants and symbols, which are parsed without expansions.
* `Macro.AcceptedIf`: an action that is refused for its depth exactly where a condition fails.
* `Macro.lengths_within_limit`: the lengths that are accepted with a number of expansions left. -/

namespace TwinLisp

open Parse

/-- Constants and symbols. -/
inductive Form.Plain : Form → Prop
  | atom {v span} : Plain (.atom v span)
  | symbol {name span} : Plain (.symbol name span)

theorem Scopes.find?_of_append {name : String} {temps sc : Scopes}
    (h : Scopes.find? name (temps ++ sc) = none) : sc.find? name = none := by
  induction temps with
  | nil => exact h
  | cons names rest ih =>
    rw [List.cons_append, Scopes.find?] at h
    split at h
    · cases h
    · exact ih h

namespace Macro

variable {c : Caller} {n k : Nat} {sc temps : Scopes} {p q : Position} {s t : State} {f : Form}

/-! ## Plain operands -/

/-- A form that has an expression wherever there are at least the names of certain scopes, and leaves the
state as it is. -/
def Fixed (c : Caller) (sc : Scopes) (s : State) (f : Form) : Prop :=
  ∀ n temps p t, t.names = s.names → t.store = s.store →
    ∃ e, Expr.ofFormAt c n f (temps ++ sc) p t = .ok e t

theorem Fixed.as (h : Fixed c sc s f) (hn : t.names = s.names) (hs : t.store = s.store) :
    Fixed c sc t f := fun n temps p u hnu hsu => h n temps p u (hnu.trans hn) (hsu.trans hs)

theorem ofFormAt_symbol (name : String) (span : Span) :
    Expr.ofFormAt c n (.symbol name span) sc p = reference sc name span := by
  cases n <;> rw [Expr.ofFormAt, Form.parse]

theorem reference_deeper {name : String} {span : Span} {e : Expr} {s' : State}
    (h : reference sc name span s = .ok e s') (hn : t.names = s.names) (hs : t.store = s.store) :
    ∃ e, reference (temps ++ sc) name span t = .ok e t := by
  have hresolve : (Act.resolve? name : Parse (Option Var)) t = .ok (s.names.resolve? name) t := by
    rw [← hn]
    rfl
  have hasked : ∀ v, (Act.askStore (Store.isMacro v) : Parse Bool) t = .ok (s.store.isMacro v) t := by
    intro v
    rw [← hs]
    rfl
  cases hd : local? name (temps ++ sc) with
  | some b =>
    refine ⟨.localRef b span, ?_⟩
    rw [reference, hd]
    rfl
  | none =>
    have hl : local? name sc = none := by
      unfold local? at hd ⊢
      split
      · next hbare =>
        rw [if_pos hbare] at hd
        exact Scopes.find?_of_append hd
      · rfl
    simp only [reference, hl] at h
    simp only [reference, hd]
    rw [Act.bind_apply] at h ⊢
    simp only [hresolve]
    have hr : (Act.resolve? name : Parse (Option Var)) s = .ok (s.names.resolve? name) s := rfl
    simp only [hr] at h
    cases hv : s.names.resolve? name with
    | none =>
      rw [hv] at h
      cases h
    | some v =>
      simp only [hv] at h
      rw [Act.bind_apply] at h
      dsimp only
      rw [Act.bind_apply]
      have hm : (Act.askStore (Store.isMacro v) : Parse Bool) s = .ok (s.store.isMacro v) s := rfl
      simp only [hm] at h
      simp only [hasked]
      cases hflag : s.store.isMacro v with
      | true =>
        rw [hflag] at h
        cases h
      | false => exact ⟨.varRef v span, rfl⟩

theorem fixed_of_plain (hf : f.Plain) (h : ∃ e s', Expr.ofFormAt c k f sc p s = .ok e s') :
    Fixed c sc s f := by
  intro n temps q t hn hs
  cases hf with
  | atom =>
    rw [ofFormAt_atom]
    exact ⟨_, rfl⟩
  | symbol =>
    obtain ⟨e, s', h⟩ := h
    rw [ofFormAt_symbol] at h
    rw [ofFormAt_symbol]
    exact reference_deeper h hn hs

theorem parseOnto_fixed {x : Expansion} (hx : ∀ f sc p, Form.parse x f sc p = Expr.ofFormAt c n f sc p)
    {args : List Form} (h : ∀ f ∈ args, Fixed c sc s f) (acc : List Expr) :
    ∃ es, parseOnto x acc args sc p s = .ok es s := by
  induction args generalizing acc with
  | nil => exact ⟨acc.reverse, rfl⟩
  | cons f rest ih =>
    obtain ⟨hfirst, hrest⟩ := List.forall_mem_cons.mp h
    obtain ⟨e, he⟩ := hfirst n [] p s rfl rfl
    obtain ⟨es, hes⟩ := ih hrest (e :: acc)
    refine ⟨es, ?_⟩
    rw [parseOnto, Act.bind_apply, hx, show sc = [] ++ sc from rfl, he]
    exact hes

/-! ## The limit -/

/-- An action that comes to a value under a condition, and without it is refused for its depth. -/
def AcceptedIf (ok : Prop) (a : Parse Expr) (s : State) : Prop :=
  (ok → ∃ e t, a s = .ok e t) ∧
  (¬ ok → ∃ place t, a s = .error (.raised ⟨.general "Macro expansion too deep", place⟩) t)

theorem AcceptedIf.of_iff {a : Parse Expr} {ok ok' : Prop} (h : AcceptedIf ok a s) (hok : ok ↔ ok') :
    AcceptedIf ok' a s := propext hok ▸ h

theorem accepted_of_value {a : Parse Expr} {ok : Prop} (hok : ok) (h : ∃ e t, a s = .ok e t) :
    AcceptedIf ok a s := ⟨fun _ => h, fun hn => absurd hok hn⟩

/-- What is done before with a value does not count. -/
theorem AcceptedIf.after {α : Type} {a : Parse α} {x : α} {g : α → Parse Expr} {ok : Prop}
    (ha : a s = .ok x t) (h : AcceptedIf ok (g x) t) : AcceptedIf ok (a >>= g) s := by
  unfold AcceptedIf at h ⊢
  rw [Act.bind_apply, ha]
  exact h

/-- Neither does what is then made of the expression. -/
theorem AcceptedIf.before {a : Parse Expr} {g : Expr → Expr} {ok : Prop} (h : AcceptedIf ok a s) :
    AcceptedIf ok (do return g (← a)) s := by
  unfold AcceptedIf
  rw [Act.bind_apply]
  constructor
  · intro hok
    obtain ⟨e, t, ha⟩ := h.1 hok
    rw [ha]
    exact ⟨g e, t, rfl⟩
  · intro hok
    obtain ⟨place, t, ha⟩ := h.2 hok
    rw [ha]
    exact ⟨place, t, rfl⟩

theorem spares_logicalName (conjunction : Bool) : ¬ Temporary (logicalName conjunction) :=
  spares_temporary _ (by cases conjunction <;> decide)

/-- Each operand of `and` or `or` takes an expansion within the one before. -/
theorem accepts_logical {conjunction : Bool} {args : List Form} (h : ∀ f ∈ args, Fixed c sc s f)
    (ht : ∀ names ∈ temps, ∀ name ∈ names, Temporary name)
    (hsc : sc.find? (logicalName conjunction) = none) (place span : Span) (p : Position) :
    AcceptedIf (max 1 args.length ≤ n) (Expr.ofFormAt c n
      (.list (.symbol (logicalName conjunction) place :: args) span) (temps ++ sc) p) s := by
  induction n generalizing args temps place s with
  | zero =>
    refine ⟨fun hok => by omega, fun _ => ?_⟩
    rw [Expr.ofFormAt,
      parse_logicalForm _ ((Scopes.find?_append ht (spares_logicalName conjunction)).trans hsc),
      Act.bind_apply]
    rcases args with _ | ⟨first, _ | ⟨second, rest⟩⟩
    · rw [logical_nil]
      exact ⟨_, _, rfl⟩
    · exact ⟨_, _, rfl⟩
    · obtain ⟨fresh, -, hl⟩ := logical_cons conjunction first second rest span s
      rw [hl]
      exact ⟨_, _, rfl⟩
  | succ n ih =>
    rw [ofFormAt_logicalForm ((Scopes.find?_append ht (spares_logicalName conjunction)).trans hsc)]
    rcases args with _ | ⟨first, _ | ⟨second, rest⟩⟩
    · refine accepted_of_value (by simp) ?_
      rw [logical_nil, pure_bind, ofFormAt_atom]
      exact ⟨_, _, rfl⟩
    · refine accepted_of_value (by simp) ?_
      obtain ⟨e, he⟩ := h first (List.mem_singleton_self first) n temps p s rfl rfl
      exact ⟨e, s, he⟩
    · obtain ⟨hfirst, hrest⟩ := List.forall_mem_cons.mp h
      obtain ⟨fresh, hfresh, hl⟩ := logical_cons conjunction first second rest span s
      refine .after hl ?_
      rw [ofFormAt_logicalStep hfresh]
      obtain ⟨e, he⟩ := hfirst n ([] :: temps) p.nonTail { s with gensyms := s.gensyms + 1 } rfl rfl
      refine .after he ?_
      have hmore : ∀ names ∈ [fresh] :: temps, ∀ name ∈ names, Temporary name := by
        intro names hm name hname
        rcases List.mem_cons.mp hm with rfl | hm
        · exact List.mem_singleton.mp hname ▸ hfresh
        · exact ht names hm name hname
      have htail := ih (s := { s with gensyms := s.gensyms + 1 })
        (fun f hf => (hrest f hf).as rfl rfl) hmore span
      refine htail.before.of_iff ?_
      simp only [List.length_cons]
      omega

theorem cond_cons {test yes : Form} {rest : List Form} (heven : rest.length % 2 = 0) (span : Span) :
    Macro.cond (test :: yes :: rest) span =
      .ok (headedBy "if" [test, yes, headedBy "cond" rest span] span) := by
  rw [Macro.cond, if_neg]
  simp only [List.length_cons]
  omega

/-- Each pair of `cond` takes an expansion within the one before, and the end of the chain one more. -/
theorem accepts_cond {args : List Form} (h : ∀ f ∈ args, Fixed c sc s f) (heven : args.length % 2 = 0)
    (hsc : sc.find? "cond" = none) (place span : Span) (p : Position) :
    AcceptedIf (args.length / 2 + 1 ≤ n)
      (Expr.ofFormAt c n (.list (.symbol "cond" place :: args) span) sc p) s := by
  induction n generalizing args place with
  | zero =>
    refine ⟨fun hok => by omega, fun _ => ?_⟩
    rw [Expr.ofFormAt, parse_condForm _ hsc]
    rcases args with _ | ⟨test, _ | ⟨yes, rest⟩⟩
    · exact ⟨_, _, rfl⟩
    · simp at heven
    · rw [cond_cons (by simp only [List.length_cons] at heven; omega)]
      exact ⟨_, _, rfl⟩
  | succ n ih =>
    have hlevel : Expr.ofFormAt c (n + 1) (.list (.symbol "cond" place :: args) span) sc p =
        (do Expr.ofFormAt c n (← Act.ofExcept (Macro.cond args span)) sc p) :=
      parse_condForm _ hsc args place span p
    rw [hlevel]
    rcases args with _ | ⟨test, _ | ⟨yes, rest⟩⟩
    · have hnil : Act.ofExcept (Macro.cond [] span) = (pure (nilAt span) : Parse Form) := rfl
      rw [hnil, pure_bind, nilAt, ofFormAt_atom]
      exact accepted_of_value (by simp) ⟨_, _, rfl⟩
    · simp at heven
    · have hrest : rest.length % 2 = 0 := by
        simp only [List.length_cons] at heven
        omega
      obtain ⟨htest, h⟩ := List.forall_mem_cons.mp h
      obtain ⟨hyes, h⟩ := List.forall_mem_cons.mp h
      rw [cond_cons hrest, Act.ofExcept, pure_bind, ofFormAt_if]
      obtain ⟨a, ha⟩ := htest n [] p.nonTail s rfl rfl
      obtain ⟨b, hb⟩ := hyes n [] p s rfl rfl
      refine .after ha (.after hb ?_)
      refine (ih h hrest span).before.of_iff ?_
      simp only [List.length_cons]
      omega

theorem ofFormAt_eq_parse (c : Caller) (n : Nat) :
    ∃ x : Expansion, ∀ f sc p, Expr.ofFormAt c n f sc p = Form.parse x f sc p := by
  cases n <;> exact ⟨_, fun f sc p => rfl⟩

/-- Where the name of a macro is that of a local, the form is a call, of any length. -/
theorem accepts_shadowed {name : String} (hname : name ∈ ["and", "or", "cond"]) {args : List Form}
    (h : ∀ f ∈ args, Fixed c sc s f) (hsc : (sc.find? name).isSome) (place span : Span) (p : Position) :
    ∃ e, Expr.ofFormAt c n (.list (.symbol name place :: args) span) sc p s = .ok e s := by
  obtain ⟨x, hx⟩ := ofFormAt_eq_parse c n
  obtain ⟨b, hb⟩ := Option.isSome_iff_exists.mp hsc
  obtain ⟨es, hes⟩ := parseOnto_fixed (p := p.nonTail) (fun f sc p => (hx f sc p).symm) h []
  have hbare : ∀ word ∈ ["and", "or", "cond"],
      Special.ofName? word = none ∧ (splitQualified word).isNone = true := by decide
  obtain ⟨hspecial, hplain⟩ := hbare name hname
  have hlocal : local? name sc = some b := by rw [local?, if_pos hplain, hb]
  refine ⟨.call (.localRef b place) es span, ?_⟩
  rw [hx]
  unfold Form.parse
  simp only [Special.ofForm?, Form.symbol?, Option.bind_some, hspecial, Expansion.rewrite?, hsc, if_true,
    pure_bind, Form.parse, reference, hlocal]
  rw [Act.bind_apply, hes]
  rfl

/-! ## Lengths -/

/-- With a number of expansions left, `and` and `or` are accepted with that many plain operands, and
`cond` with one pair less. Longer forms are refused for the depth of their expansions, unless the name of
the macro is that of a local. -/
theorem lengths_within_limit (c : Caller) (n : Nat) (sc : Scopes) (p : Position) (s : State)
    {args : List Form}
    (h : ∀ f ∈ args, f.Plain ∧ ∃ e s', Expr.ofFormAt c n f sc p s = .ok e s') (place span : Span) :
    (∀ name ∈ ["and", "or"], AcceptedIf ((sc.find? name).isSome ∨ max 1 args.length ≤ n)
      (Expr.ofFormAt c n (.list (.symbol name place :: args) span) sc p) s) ∧
    (args.length % 2 = 0 → AcceptedIf ((sc.find? "cond").isSome ∨ args.length / 2 + 1 ≤ n)
      (Expr.ofFormAt c n (.list (.symbol "cond" place :: args) span) sc p) s) := by
  have hfixed : ∀ f ∈ args, Fixed c sc s f := by
    intro f hf
    obtain ⟨hplain, hparse⟩ := h f hf
    exact fixed_of_plain hplain hparse
  have hshadowed : ∀ name ∈ ["and", "or", "cond"], ∀ ok : Prop, (sc.find? name).isSome →
      AcceptedIf ((sc.find? name).isSome ∨ ok)
        (Expr.ofFormAt c n (.list (.symbol name place :: args) span) sc p) s := by
    intro name hname ok hlocal
    obtain ⟨e, he⟩ := accepts_shadowed (n := n) hname hfixed hlocal place span p
    exact accepted_of_value (.inl hlocal) ⟨e, s, he⟩
  constructor
  · intro name hname
    by_cases hlocal : (sc.find? name).isSome
    · exact hshadowed name (List.mem_append_left ["cond"] hname) _ hlocal
    · obtain ⟨conjunction, rfl⟩ : ∃ conjunction, name = logicalName conjunction := by
        rcases List.mem_pair.mp hname with rfl | rfl
        · exact ⟨true, rfl⟩
        · exact ⟨false, rfl⟩
      have hnone : sc.find? (logicalName conjunction) = none := by simpa using hlocal
      have hlong : AcceptedIf (max 1 args.length ≤ n) (Expr.ofFormAt c n
          (.list (.symbol (logicalName conjunction) place :: args) span) ([] ++ sc) p) s :=
        accepts_logical hfixed (by simp) hnone place span p
      exact hlong.of_iff (by simp [hlocal])
  · intro heven
    by_cases hlocal : (sc.find? "cond").isSome
    · exact hshadowed "cond" (by decide) _ hlocal
    · have hnone : sc.find? "cond" = none := by simpa using hlocal
      have hlong := accepts_cond (n := n) hfixed heven hnone place span p
      exact hlong.of_iff (by simp [hlocal])

/-- A program may have a conjunction of 256 operands. -/
theorem longest_conjunction : ∃ e t,
    Expr.ofForm (Engine.ofFuel 1).call
      (.list (.symbol "and" .unknown :: List.replicate 256 (.atom (.bool true) .unknown)) .unknown)
      (State.fresh .empty .standard) = .ok e t := by
  have hplain : ∀ f ∈ List.replicate 256 (Form.atom (.bool true) .unknown), f.Plain ∧ ∃ e s',
      Expr.ofFormAt (Engine.ofFuel 1).call maxExpansions f [] .top (State.fresh .empty .standard) =
        .ok e s' := by
    intro f hf
    obtain rfl := List.eq_of_mem_replicate hf
    exact ⟨.atom, _, _, rfl⟩
  have hlong := (lengths_within_limit (Engine.ofFuel 1).call maxExpansions [] .top
    (State.fresh .empty .standard) hplain .unknown .unknown).1 "and" (by decide)
  exact hlong.1 (.inr (by rw [List.length_replicate]; decide))

/-- One more operand, and it is refused, though each operand is a constant. -/
theorem long_conjunction_refused :
    (∀ f ∈ List.replicate 257 (Form.atom (.bool true) .unknown), f.Plain ∧ ∃ e t,
      Expr.ofForm (Engine.ofFuel 1).call f (State.fresh .empty .standard) = .ok e t) ∧
    ∃ place t, Expr.ofForm (Engine.ofFuel 1).call
      (.list (.symbol "and" .unknown :: List.replicate 257 (.atom (.bool true) .unknown)) .unknown)
      (State.fresh .empty .standard) =
        .error (.raised ⟨.general "Macro expansion too deep", place⟩) t := by
  have hplain : ∀ f ∈ List.replicate 257 (Form.atom (.bool true) .unknown), f.Plain ∧ ∃ e t,
      Expr.ofForm (Engine.ofFuel 1).call f (State.fresh .empty .standard) = .ok e t := by
    intro f hf
    obtain rfl := List.eq_of_mem_replicate hf
    exact ⟨.atom, _, _, rfl⟩
  refine ⟨hplain, ?_⟩
  have hfixed : ∀ f ∈ List.replicate 257 (Form.atom (.bool true) .unknown),
      Fixed (Engine.ofFuel 1).call [] (State.fresh .empty .standard) f := by
    intro f hf
    obtain ⟨hp, hv⟩ := hplain f hf
    exact fixed_of_plain hp hv
  have hlong : AcceptedIf (max 1 (List.replicate 257 (Form.atom (.bool true) .unknown)).length ≤
      maxExpansions) (Expr.ofFormAt (Engine.ofFuel 1).call maxExpansions
        (.list (.symbol (logicalName true) .unknown ::
          List.replicate 257 (.atom (.bool true) .unknown)) .unknown) ([] ++ []) .top)
        (State.fresh .empty .standard) :=
    accepts_logical hfixed (by simp) rfl .unknown .unknown .top
  exact hlong.2 (by rw [List.length_replicate]; decide)

end Macro

end TwinLisp
