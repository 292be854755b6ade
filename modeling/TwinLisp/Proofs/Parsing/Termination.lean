import TwinLisp.Proofs.Parsing.Forms

/-! Parsing ends. Whatever macros yield, the parser comes to an expression or a fault, unless a macro of
the program that it called does not return.

* `Desk.parse_at`: what becomes of a form at any desk, which may be in the middle of a parse.
* `Desk.parsing_ends`: the parser, and each parse within it. -/

namespace TwinLisp

/-- The call comes to a value or a fault. -/
def MacroCall.Returns (c : Caller) (m : MacroCall) : Prop :=
  ∀ t, c m.f m.args m.state ≠ .error .exhausted t

namespace Desk

variable {c : Caller} {fuel : Nat}

/-- A value or a fault, with what is left behind. -/
def outcome {σ : Type} : Except (Stop ParseError) Expr → σ → EStateM.Result (Stop ParseError) σ Expr
  | .ok e, q => .ok e q
  | .error e, q => .error e q

/-- A form at a desk becomes what the parser makes of it, and the stack and the count are left as they were
found. It has no outcome only if a macro that was called on the way has none. -/
theorem parse_at (c : Caller) (hfuel : maxExpansions < fuel) (f : Form) (p : Position) (d : Desk)
    (s : State) (hd : d.nested ≤ maxExpansions) :
    ∃ o d' t new, Expr.trackAt c fuel f p (d, s) = outcome o (d', t) ∧
      Expr.ofFormAt c (maxExpansions - d.nested) f d.scopes p s = outcome o t ∧
      d'.scopes = d.scopes ∧ Progress (d, s) (d', t) ∧ d'.called = new ++ d.called ∧
      ((∀ m ∈ new, m.Returns c) → o ≠ .error .exhausted) := by
  have ha := trackAt_follows c (by omega : maxExpansions - d.nested < fuel) f d.scopes p d s rfl (by omega)
  generalize Expr.trackAt c fuel f p (d, s) = ra at ha ⊢
  generalize Expr.ofFormAt c (maxExpansions - d.nested) f d.scopes p s = rb at ha ⊢
  cases ha with
  | @ok x y d' t hp hk =>
    obtain ⟨rfl, hsc⟩ := hk
    obtain ⟨new, hnew⟩ := hp.called
    exact ⟨.ok y, d', t, new, rfl, rfl, hsc, hp, hnew.symm, fun _ h => nomatch h⟩
  | @raised e d' t hp hsc =>
    obtain ⟨new, hnew⟩ := hp.called
    exact ⟨.error (.raised e), d', t, new, rfl, rfl, hsc, hp, hnew.symm, fun _ h => nomatch h⟩
  | @exhausted d' t hp hsc hs =>
    obtain ⟨m, older, u, hm, ⟨between, hb⟩, hc⟩ := hs
    refine ⟨.error .exhausted, d', t, m :: between, rfl, rfl, hsc, hp, ?_, ?_⟩
    · rw [hm, ← hb, List.cons_append]
    · intro hreturns _
      exact hreturns m List.mem_cons_self u hc

/-- The parser has an expression or a fault for every form, if each macro of the program that it calls
returns; and for every parse within it, which may be in any scopes and within any number of expansions, the
scopes are popped and the expansions are left, of which there are never more than the limit. -/
theorem parsing_ends (c : Caller) (hfuel : maxExpansions < fuel) :
    (∀ f s, ∃ o d t, Expr.trackAt c fuel f .top (clear, s) = outcome o (d, t) ∧
      Expr.ofForm c f s = outcome o t ∧ d.deepest ≤ maxExpansions ∧ d.scopes = [] ∧ d.nested = 0 ∧
      ((∀ m ∈ d.called, m.Returns c) →
        (∃ e, Expr.ofForm c f s = .ok e t) ∨ ∃ e, Expr.ofForm c f s = .error (.raised e) t)) ∧
    ∀ f p d s, d.nested ≤ maxExpansions → d.deepest ≤ maxExpansions →
      ∃ o d' t, Expr.trackAt c fuel f p (d, s) = outcome o (d', t) ∧ d'.scopes = d.scopes ∧
        d'.nested = d.nested ∧ d'.deepest ≤ maxExpansions := by
  constructor
  · intro f s
    obtain ⟨o, d, t, new, ha, hb, hsc, hp, hnew, hends⟩ :=
      parse_at c hfuel f .top clear s (Nat.zero_le _)
    refine ⟨o, d, t, ha, hb, hp.deepest (Nat.zero_le _), hsc, hp.nested, fun hreturns => ?_⟩
    have hform : Expr.ofForm c f s = outcome o t := hb
    rw [hnew, show clear.called = [] from rfl, List.append_nil] at hreturns
    rw [hform]
    match o, hends hreturns with
    | .ok e, _ => exact .inl ⟨e, rfl⟩
    | .error (.raised e), _ => exact .inr ⟨e, rfl⟩
    | .error .exhausted, h => exact absurd rfl h
  · intro f p d s hd hdeep
    obtain ⟨o, d', t, -, ha, -, hsc, hp, -, -⟩ := parse_at c hfuel f p d s hd
    exact ⟨o, d', t, ha, hsc, hp.nested, hp.deepest hdeep⟩

/-- A state with a macro `m` of the program. -/
def withMacro : State :=
  { State.bare .empty .standard with
    store := { Store.empty with vars := #[⟨some .nil, true⟩] }
    names := Names.start.add ⟨0, userNamespace, "m"⟩ }

/-- Calls that yield two calls of `m`. -/
def doubling : Caller := fun _ _ =>
  pure (.list [.symbol "do", .list [.symbol "m"], .list [.symbol "m"]])

/-- A macro that yields two calls of itself is parsed to an end. -/
theorem doubling_ends :
    (∃ e t, Expr.ofForm doubling (.list [.symbol "m" .unknown] .unknown) withMacro = .ok e t) ∨
      ∃ e t, Expr.ofForm doubling (.list [.symbol "m" .unknown] .unknown) withMacro =
        .error (.raised e) t := by
  have hreturns : ∀ m : MacroCall, m.Returns doubling := by
    intro m t h
    cases h
  obtain ⟨o, d, t, -, -, -, -, -, hends⟩ :=
    (parsing_ends doubling (Nat.lt_succ_self maxExpansions)).1 (.list [.symbol "m" .unknown] .unknown)
      withMacro
  rcases hends fun m _ => hreturns m with ⟨e, he⟩ | ⟨e, he⟩
  · exact .inl ⟨e, t, he⟩
  · exact .inr ⟨e, t, he⟩

end Desk

end TwinLisp
