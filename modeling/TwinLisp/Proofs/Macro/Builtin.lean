import TwinLisp.Expr.OfForm
import TwinLisp.Expr.Special
import TwinLisp.Proofs.Expr.Parsed
import TwinLisp.Proofs.Expr.Relocation
import TwinLisp.Proofs.Form.Symbols
import TwinLisp.Proofs.Text.Digits

/-! The macros of the language keep to proper forms, and their faults are plain. They write no symbols
but a few words of the language, and a fresh one for each operand of `and` and `or` but the last.

* `Macro.words`: these words.
* `Macro.Expands`: the property of an expansion.
* `Macro.expands_defn` and its kin: one for each macro.
* `Macro.Temporary`: the fresh names.
* `Macro.Written`: the forms that macros yield.
* `Macro.testing`, `Macro.parse_logicalStep`: the test of an operand of `and` or `or`, as the parser
  makes it. -/

namespace TwinLisp.Macro

open Form

variable {avoid : String → Prop}

/-- The names of the symbols that macros of the language write, but for those around a fresh name. -/
def words : List String := ["def", "fn", "if", "do", "cond", "and", "or"]

/-- None of the words is one of certain names. -/
def Spares (avoid : String → Prop) : Prop := ∀ name ∈ words, ¬ avoid name

theorem spares_none : Spares fun _ => False := fun _ _ => id

/-- An expansion is a fitting form or a plain fault. -/
def Expands (avoid : String → Prop) (r : Except ParseError Form) : Prop :=
  match r with
  | .ok f => f.Fit avoid
  | .error e => e.cause.Plain

theorem fit_dropText {fs : List Form} (h : AllFit avoid fs) : AllFit avoid (dropText fs) := by
  unfold dropText
  split
  · exact h.tail
  · exact h

theorem fit_dropMap {fs : List Form} (h : AllFit avoid fs) : AllFit avoid (dropMap fs) := by
  unfold dropMap
  split
  · exact h.tail
  · exact h

theorem fit_threadStep (last : Bool) {acc step : Form} (ha : acc.Fit avoid) (hs : step.Fit avoid) :
    (threadStep last acc step).Fit avoid := by
  unfold threadStep
  split
  · have h := fit_list.mp hs
    refine fit_list.mpr ?_
    split
    · exact h.append (AllFit.cons ha AllFit.nil)
    · exact AllFit.cons h.head (AllFit.cons ha h.tail)
  · exact fit_list.mpr (AllFit.cons hs (AllFit.cons ha AllFit.nil))

theorem expands_threaded (last : Bool) {args : List Form} (h : AllFit avoid args) (span : Span) :
    Expands avoid (threaded last args span) := by
  cases args with
  | nil => exact ParseFault.plain_wrongArity _ _
  | cons first steps =>
    show (steps.foldl (threadStep last) first).Fit avoid
    induction steps generalizing first with
    | nil => exact h.head
    | cons s rest ih =>
      exact ih _ (AllFit.cons (fit_threadStep last h.head h.tail.head) h.tail.tail)

section Words

variable (hw : Spares avoid)

include hw

theorem fit_headedBy {name : String} (hn : name ∈ words) {args : List Form} (span : Span)
    (h : AllFit avoid args) : (headedBy name args span).Fit avoid :=
  fit_list.mpr (AllFit.cons (fit_symbol.mpr (hw name hn)) h)

theorem expands_defn {args : List Form} (h : AllFit avoid args) (span : Span) :
    Expands avoid (defn args span) := by
  unfold defn
  split
  · rename_i name first rest
    split
    · refine fit_headedBy hw (by decide) _ (AllFit.cons h.head (AllFit.cons ?_ AllFit.nil))
      exact fit_headedBy hw (by decide) _ (AllFit.cons h.head (fit_dropMap (fit_dropText h.tail)))
    · exact ParseFault.plain_general (by decide) (by decide)
  · exact ParseFault.plain_wrongArity _ _

theorem expands_ifNot {args : List Form} (h : AllFit avoid args) (span : Span) :
    Expands avoid (ifNot args span) := by
  unfold ifNot
  split
  · exact fit_headedBy hw (by decide) _ (AllFit.cons h.head
      (AllFit.cons (fit_nil span) (AllFit.cons h.tail.head AllFit.nil)))
  · exact fit_headedBy hw (by decide) _ (AllFit.cons h.head
      (AllFit.cons h.tail.tail.head (AllFit.cons h.tail.head AllFit.nil)))
  · exact ParseFault.plain_wrongArity _ _

theorem expands_cond {args : List Form} (h : AllFit avoid args) (span : Span) :
    Expands avoid (Macro.cond args span) := by
  unfold Macro.cond
  split
  · exact ParseFault.plain_general (by decide) (by decide)
  · split
    · exact fit_headedBy hw (by decide) _ (AllFit.cons h.head (AllFit.cons h.tail.head
        (AllFit.cons (fit_headedBy hw (by decide) _ h.tail.tail) AllFit.nil)))
    · exact fit_nil span

end Words

/-! ## Fresh names -/

/-- A name of the kind that `and` and `or` give to the values of their operands. -/
def Temporary (name : String) : Prop :=
  ∃ stem ∈ ["and", "or"], ∃ n : Nat, name = stem ++ "__" ++ toString n ++ "__auto"

theorem not_temporary_of_short {name : String} (h : name.length < 8) : ¬ Temporary name := by
  rintro ⟨stem, -, n, rfl⟩
  rw [String.length_append, String.length_append, String.length_append] at h
  have hmark : "__".length = 2 ∧ "__auto".length = 6 := by decide
  omega

theorem spares_temporary : Spares Temporary := by
  have hshort : ∀ word ∈ words, word.length < 8 := by decide
  exact fun name hn => not_temporary_of_short (hshort name hn)

theorem splitSlash_of_not_mem {cs : List Char} (h : '/' ∉ cs) : splitSlash cs = none := by
  induction cs with
  | nil => rfl
  | cons c rest ih =>
    obtain ⟨hc, hrest⟩ := not_or.mp (mt List.mem_cons.mpr h)
    rw [splitSlash, if_neg (Ne.symm hc), ih hrest]
    rfl

theorem isBindable_of_temporary {name : String} (h : Temporary name) :
    Parse.isBindable name = true := by
  obtain ⟨stem, hs, n, rfl⟩ := h
  have hstem : '/' ∉ stem.toList ∧ 0 < stem.toList.length := by
    rcases List.mem_pair.mp hs with rfl | rfl <;> decide
  have htext : (stem ++ "__" ++ toString n ++ "__auto").toList =
      stem.toList ++ "__".toList ++ Nat.toDigits 10 n ++ "__auto".toList := by
    simp only [String.toList_append]
    congr 2
    exact Nat.toList_repr
  have hslash : '/' ∉ stem.toList ++ "__".toList ++ Nat.toDigits 10 n ++ "__auto".toList := by
    intro hmem
    rcases List.mem_append.mp hmem with hmem | hmem
    · rcases List.mem_append.mp hmem with hmem | hmem
      · rcases List.mem_append.mp hmem with hmem | hmem
        · exact hstem.1 hmem
        · exact absurd hmem (by decide)
      · exact absurd (Text.isDigit_of_mem_digits hmem) (by decide)
    · exact absurd hmem (by decide)
  have hamp : stem ++ "__" ++ toString n ++ "__auto" ≠ "&" := by
    intro e
    have := congrArg String.length e
    rw [String.length_append, String.length_append, String.length_append] at this
    have hmark : "__".length = 2 ∧ "__auto".length = 6 ∧ "&".length = 1 := by decide
    omega
  rw [Parse.isBindable, splitQualified, htext, splitSlash_of_not_mem hslash]
  simpa using hamp

/-! ## Steps of conjunctions and disjunctions -/

theorem proper_logicalStep (conjunction : Bool) (fresh : String) {first : Form} {rest : List Form}
    (span : Span) (h : first.Proper) (hr : AllProper rest) :
    (logicalStep conjunction fresh first rest span).Proper := by
  have hm : ∀ name, (headedBy name rest span).Proper := fun name => .list (AllProper.cons .symbol hr)
  have hb : AllProper [.symbol fresh span, first] :=
    AllProper.cons .symbol (AllProper.cons h AllProper.nil)
  refine .list (AllProper.cons .symbol (AllProper.cons (.vector hb) (AllProper.cons ?_ AllProper.nil)))
  refine .list (AllProper.cons .symbol (AllProper.cons .symbol ?_))
  cases conjunction
  · exact AllProper.cons .symbol (AllProper.cons (hm _) AllProper.nil)
  · exact AllProper.cons (hm _) (AllProper.cons .symbol AllProper.nil)

/-- What macros yield: a fitting form, or the test of a fitting operand, which a fresh name holds, before
others. -/
inductive Written (avoid : String → Prop) : Form → Prop
  | plain {f} (h : f.Fit avoid) : Written avoid f
  | step {conjunction fresh first rest span} (ht : Temporary fresh) (hf : first.Fit avoid)
    (hr : AllFit avoid rest) :
    Written avoid (logicalStep conjunction fresh first rest span)

theorem Written.proper {f : Form} (h : Written avoid f) : f.Proper := by
  cases h with
  | plain h => exact h.proper
  | step _ hf hr => exact proper_logicalStep _ _ _ hf.proper hr.proper

/-! ## The test of an operand -/

open Form Parse

variable {avoid : String → Prop} {g : Binding → Binding} {deep sc : Scopes}

/-- The test of an operand that a fresh name holds, with other operands in one of the branches. -/
def testing (conjunction : Bool) (b : Binding) (first more : Expr) (span : Span) : Expr :=
  .letIn [⟨b.name, first⟩] [.cond (.localRef b span) (if conjunction then more else .localRef b span)
    (some (if conjunction then .localRef b span else more)) span] span

/-- The fresh name is known where it is used, whatever the scopes around. -/
theorem parse_logicalStep (x : Expansion) (conjunction : Bool) {fresh : String}
    (ht : Temporary fresh) (first : Form) (rest : List Form) (span : Span) (sc : Scopes)
    (p : Position) :
    (logicalStep conjunction fresh first rest span).parse x sc p = (do
      let first ← first.parse x ([] :: sc) p.nonTail
      let more ← (headedBy (if conjunction then "and" else "or") rest span).parse x
        ([fresh] :: sc) p
      return testing conjunction ⟨fresh, sc.length, 0⟩ first more span) := by
  have hname : Act.ofExcept (bindingName (.symbol fresh span)) = (pure fresh : Parse String) := by
    rw [bindingName, if_pos (isBindable_of_temporary ht)]
    rfl
  have hheld : ∀ q, (Form.symbol fresh span).parse x ([fresh] :: sc) q =
      pure (.localRef ⟨fresh, sc.length, 0⟩ span) := by
    intro q
    have hbare : (splitQualified fresh).isNone = true :=
      ((Bool.and_eq_true _ _).mp (isBindable_of_temporary ht)).1
    rw [Form.parse, reference, Parse.local?, if_pos hbare, Scopes.find?_cons_cons, beq_self_eq_true]
    rfl
  have hif : ∀ yes no : Form, (headedBy "if" [.symbol fresh span, yes, no] span).parse x
      ([fresh] :: sc) p = (do
        let yes ← yes.parse x ([fresh] :: sc) p
        let no ← no.parse x ([fresh] :: sc) p
        return .cond (.localRef ⟨fresh, sc.length, 0⟩ span) yes (some no) span) := by
    intro yes no
    rw [headedBy, Form.parse]
    simp only [Special.ofForm?, Form.symbol?, Option.bind_some, Special.ofName?, hheld, pure_bind]
  have hlet : ∀ body : Form, (headedBy "let" [.vector [.symbol fresh span, first] span, body]
      span).parse x sc p = (do
        let first ← first.parse x ([] :: sc) p.nonTail
        let body ← body.parse x ([fresh] :: sc) p
        return .letIn [⟨fresh, first⟩] [body] span) := by
    intro body
    rw [headedBy, Form.parse]
    simp [Special.ofForm?, Form.symbol?, Special.ofName?, parseBindings, parseBody, hname,
      Scopes.declare]
  rw [logicalStep, hlet]
  cases conjunction <;> simp [hif, hheld, testing]

theorem relocate_testing (hs : Scopes.Covers avoid g deep sc) (conjunction : Bool) (fresh : String)
    (first more : Expr) (span : Span) :
    (testing conjunction ⟨fresh, sc.length, 0⟩ first more span).relocate g =
      testing conjunction ⟨fresh, deep.length, 0⟩ (first.relocate g) (more.relocate g) span := by
  have hb : g ⟨fresh, sc.length, 0⟩ = ⟨fresh, deep.length, 0⟩ := hs.inside fresh 0 0
  cases conjunction <;>
    simp only [testing, Expr.relocate, relocateBindings, relocateAll, relocateOption, hb,
      Bool.false_eq_true, if_true, if_false]

theorem parsed_testing {p : Position} (conjunction : Bool) (fresh : String) {first more : Expr}
    (hf : first.Parsed .bare ([] :: sc) p.nonTail) (hm : more.Parsed .bare ([fresh] :: sc) p)
    (span : Span) : (testing conjunction ⟨fresh, sc.length, 0⟩ first more span).Parsed .bare sc p := by
  have hheld : ∀ q, (Expr.localRef ⟨fresh, sc.length, 0⟩ span).Parsed .bare ([fresh] :: sc) q :=
    fun q => .localRef (by rw [Scopes.find?_cons_cons, beq_self_eq_true]; rfl)
  refine .letIn (.cons hf .nil) (.last (.cond (hheld _) ?_ fun e he => ?_))
  · cases conjunction
    · exact hheld p
    · exact hm
  · cases conjunction
    · cases he
      exact hm
    · cases he
      exact hheld p

theorem parsed_of_testing {R : Expr.Rules} {p : Position} {conjunction : Bool} {fresh : String}
    {b : Nat} {first more : Expr} {span : Span}
    (h : (testing conjunction ⟨fresh, b, 0⟩ first more span).Parsed R sc p) :
    first.Parsed R ([] :: sc) p.nonTail ∧ more.Parsed R ([fresh] :: sc) p := by
  cases h with
  | letIn hb hbody =>
    cases hb with
    | cons hf hb =>
      cases hb
      cases hbody with
      | last h =>
        cases h with
        | cond _ hy hn =>
          refine ⟨hf, ?_⟩
          cases conjunction
          · exact hn _ rfl
          · exact hy

end TwinLisp.Macro
