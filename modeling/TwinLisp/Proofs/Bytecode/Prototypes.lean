import TwinLisp.Proofs.Bytecode.Compiled
import TwinLisp.Proofs.Bytecode.Typing
import TwinLisp.Proofs.Coupling.Parsing
import TwinLisp.Proofs.Expr.Literals

/-! What the compiler makes of the parser's programs: well-formed functions, in which every operand
stands in full.

* `Proto.wellFormed_of_ofExpr`, `Proto.wellFormed_of_ofFn`: whole forms and function literals.
* `Proto.compiled_wellFormed`: all that is compiled of a form.
* `Proto.Produced`: the functions the compiler makes, with those inside them.
* `Produced.closing`: cells are closed right before their slots are dropped. -/

namespace TwinLisp

namespace Proto

theorem wellFormed_of_ofExpr {R : Expr.Rules} {name : String} {e : Expr} {sc : Scopes}
    {pos : Position} {p : Proto} (he : e.Parsed R sc pos) (h : ofExpr name e = .ok p) :
    p.WellFormed ∧ p.captures = #[] ∧ p.arity = 0 := by
  obtain ⟨hc, hl, hs⟩ := ofExpr_lays he h
  exact ⟨hl.wellFormed hs, hc, hl.arity⟩

theorem wellFormed_of_ofFn {R : Expr.Rules} {f : FnLiteral Expr} {sc : Scopes} {p : Proto}
    (hf : f.Parsed R sc) (h : ofFn f = .ok p) : p.WellFormed ∧ p.captures = #[] := by
  obtain ⟨-, hc, hl, hs⟩ := ofFn_lays hf h
  exact ⟨(Laid.mk hl hs).wellFormed, hc⟩

/-- The compiler has made a function, of a form, of a function literal or as a part of another
function. -/
inductive Produced : Proto → Prop
  | form {R : Expr.Rules} {name : String} {e : Expr} {sc : Scopes} {pos : Position} {p : Proto}
    (he : e.Parsed R sc pos) (h : ofExpr name e = .ok p) : Produced p
  | literal {R : Expr.Rules} {f : FnLiteral Expr} {sc : Scopes} {p : Proto} (hf : f.Parsed R sc)
    (h : ofFn f = .ok p) : Produced p
  | inner {p q : Proto} (hp : Produced p) (hq : q ∈ p.subs) : Produced q

theorem Produced.wellFormed {p : Proto} (h : p.Produced) : p.WellFormed := by
  induction h with
  | form he h => exact (wellFormed_of_ofExpr he h).1
  | literal hf h => exact (wellFormed_of_ofFn hf h).1
  | inner _ hq ih =>
    cases ih with
    | mk _ hs => exact hs _ hq

theorem Produced.neat {p : Proto} (h : p.Produced) : (∃ S, p.Neat S) ∧ ∀ q ∈ p.subs, q.Laid := by
  induction h with
  | form he h =>
    obtain ⟨-, hl, hs⟩ := ofExpr_lays he h
    exact ⟨hl.neat, hs⟩
  | literal hf h =>
    obtain ⟨-, -, hl, hs⟩ := ofFn_lays hf h
    exact ⟨hl.neat, hs⟩
  | inner _ hq ih =>
    have hq := ih.2 _ hq
    cases hq with
    | mk hl hs => exact ⟨hl.neat, hs⟩

/-- Places to which a function may come. -/
inductive Visits (p : Proto) : Nat → Prop
  | start : Visits p 0
  | step {k t i} (h : Visits p k) (hi : p.chunk.fetch k = .ok i) (ht : t ∈ p.targets i) :
    Visits p t

theorem height_after {o o' : Outline} (h : o'.height = o.height) (i : Instruction) :
    (i.after o').height = (i.after o).height := by
  obtain ⟨op, n, next⟩ := i
  cases op <;> simp [Instruction.after, Outline.closedFrom, h]

/-- At a place to which a function may come, all outlines of the function agree about the height. -/
theorem Visits.height {p : Proto} {S S' : Nat → Outline} {k : Nat} (h : p.Visits k)
    (hS : p.Outlined S) (hS' : p.Outlined S') :
    p.Boundary k ∧ k < p.chunk.size ∧ (S' k).height = (S k).height := by
  induction h with
  | start =>
    obtain ⟨m, -, hm, -⟩ := hS.last
    exact ⟨.refl, by omega, hS'.start.trans hS.start.symm⟩
  | step _ hi ht ih =>
    obtain ⟨hb, hlt, he⟩ := ih
    obtain ⟨i, hf, ha⟩ := hS.admits _ hb hlt
    obtain ⟨i', hf', ha'⟩ := hS'.admits _ hb hlt
    cases hi.symm.trans hf
    cases hi.symm.trans hf'
    obtain ⟨hbt, hltt, hinto⟩ := ha.leads _ ht
    refine ⟨hbt, hltt, ?_⟩
    rw [(ha'.leads _ ht).2.2.height, hinto.height, height_after he]

/-- Where a function may come, the slots whose cells are closed are dropped at once. -/
theorem Produced.closing {p : Proto} (h : p.Produced) {S : Nat → Outline} (hS : p.Outlined S)
    {k n next : Nat} (hk : p.Visits k) (hi : p.chunk.fetch k = .ok ⟨.closeUpvalue, n, next⟩) :
    ∃ m, p.Has next .popN m ∧ (S k).height ≤ n + m + 1 := by
  obtain ⟨S', hS'⟩ := h.neat.1
  obtain ⟨hb, -, he⟩ := hk.height hS'.toOutlined hS
  obtain ⟨m, hm, hle⟩ := hS'.tidy k _ hb hi rfl
  exact ⟨m, hm, he ▸ hle⟩

/-- Whatever the compiler makes of a form that has been parsed is well-formed, with all functions
inside it, and its code is that of the program with every operand in full. -/
theorem compiled_wellFormed {call : Caller} {f : Form} {s s' : State} {e : Expr} (hf : f.Proper)
    (h : Expr.ofForm call f s = .ok e s') :
    (∀ name p, ofExpr name e = .ok p →
      p.WellFormed ∧ LaysForm p e ∧ ∀ q ∈ p.subs, q.Laid) ∧
    ∀ g ∈ e.literals, ∀ p, ofFn g = .ok p →
      p.WellFormed ∧ LaysFn p [] (g.name.getD "") g.arities ∧ ∀ q ∈ p.subs, q.Laid := by
  have he := Expr.parsed_of_ofForm hf h
  refine ⟨fun name p hp => ?_, fun g hg p hp => ?_⟩
  · obtain ⟨_, hl, hs⟩ := ofExpr_lays he hp
    exact ⟨hl.wellFormed hs, hl, hs⟩
  · obtain ⟨sc, hgp⟩ := he.literals e g hg
    obtain ⟨-, _, hl, hs⟩ := ofFn_lays hgp hp
    exact ⟨(Laid.mk hl hs).wellFormed, hl, hs⟩

/-- A function with a condition in it. -/
def choice : Form :=
  .list [.symbol "fn" .unknown, .vector [.symbol "x" .unknown] .unknown,
    .list [.symbol "if" .unknown, .symbol "x" .unknown,
      .vector [.symbol "x" .unknown] .unknown, .atom (.bool false) .unknown] .unknown] .unknown

theorem proper_choice : choice.Proper := by
  have hx : (Form.vector [.symbol "x" .unknown] .unknown).Proper :=
    .vector (Form.AllProper.cons .symbol Form.AllProper.nil)
  have hif : Form.AllProper [.symbol "if" .unknown, .symbol "x" .unknown,
      .vector [.symbol "x" .unknown] .unknown, .atom (.bool false) .unknown] :=
    .cons .symbol (.cons .symbol (.cons hx (.cons (.atom fun _ => rfl) .nil)))
  exact .list (Form.AllProper.cons .symbol (.cons hx (.cons (.list hif) .nil)))

theorem compiled_choice : ∃ e s' p g q,
    Expr.ofForm (fun _ _ => Act.exhausted) choice (State.bare .empty .standard) = .ok e s' ∧
      ofExpr "form" e = .ok p ∧ p.WellFormed ∧ g ∈ e.literals ∧ ofFn g = .ok q ∧ q.WellFormed := by
  have h := @compiled_wellFormed (fun _ _ => Act.exhausted) choice (State.bare .empty .standard) _ _
    proper_choice rfl
  exact ⟨_, _, _, _, _, rfl, rfl, (h.1 "form" _ rfl).1, List.mem_cons_self, rfl,
    (h.2 _ List.mem_cons_self _ rfl).1⟩

end Proto

end TwinLisp
