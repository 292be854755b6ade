import TwinLisp.Proofs.Coupling.Calls
import TwinLisp.Session

/-! Texts of programs in two interpreters whose engines are coupled. A form is parsed and evaluated in
both; in bytecode mode it may be run on the machine as a whole.

* `Coupling.Texts`: what is left open, which is the machine and the reports of the compiler.
* `Coupling.evalForm_follows`, `Coupling.evalSource_follows`: a form and the text of a program.
* `Coupling.Literal.failure`: failures of interpreters with the same values are the same. -/

namespace TwinLisp

namespace Coupling

open Machine

variable {C : Coupling} {short : Nat → Prop} {S : Scoped C} {E : Engine} {F : Nat → Engine}
  {w : C.World}

def failure (w : C.World) : Failure → Failure → Prop
  | .parser e, .parser e' => C.parseFault w e e'
  | .runtime e, .runtime e' => C.fault w e e'
  | f, f' => f' = f

theorem Literal.failure (h : C.Literal) (hx : C.exact) {f f' : Failure} (hf : C.failure w f f') :
    f' = f ∧ ∀ e, f = .runtime e → C.allowed e.cause := by
  match f, f', hf with
  | .runtime e, .runtime e', hf =>
    obtain ⟨rfl, ha⟩ := (h.fault_iff hx).mp hf
    exact ⟨rfl, fun _ e => by cases e; exact ha⟩
  | .parser ⟨_, _⟩, .parser ⟨_, _⟩, ⟨_, hc, hs⟩ =>
    cases hc
    cases hs hx
    exact ⟨rfl, nofun⟩
  | .lexer _, _, rfl | .reader _, _, rfl | .compile _, _, rfl | .exhausted, _, rfl =>
    exact ⟨rfl, nofun⟩

/-- What whole texts need besides the engines, from a world on. -/
structure Texts (C : Coupling) (short : Nat → Prop) (E : Engine) (F : Nat → Engine)
    (w : C.World) : Prop where
  /-- Forms that are run on the machine. -/
  form : ∀ {w' e p}, C.le w w' → e.Parsed .bare [] .top → Proto.ofExpr "top-level" e = .ok p →
    C.Follows short C.value C.fault w' (onParked (executeFormBy E.cycle E.rounds p)) fun m =>
      onParked (executeFormBy (F m).cycle (F m).rounds p)
  report : ∀ w' e, C.Follows short C.same C.fault w' (Session.reportFallback e) fun _ =>
    Session.reportFallback e

theorem Texts.mono (h : C.Texts short E F w) {w' : C.World} (hw : C.le w w') :
    C.Texts short E F w' := ⟨fun hw' => h.form (C.trans hw hw'), h.report⟩

section Programs

variable (H : C.Shared) (hE : C.Engines S short E F) (hp : C.Prepares S) (ht : C.Texts short E F w)

include H hE hp ht

theorem evalExpr_follows {e : Expr} (he : e.Parsed .bare [] .top) :
    C.Follows short C.value C.fault w (Session.evalExpr E e) fun m =>
      Session.evalExpr (F m) e := by
  refine (mode_follows hp w).bind fun w₁ m m' hw hm => ?_
  cases hm
  cases m with
  | treeWalk => exact eval_follows H hE (hp.bare he).2 (.inl rfl) (hp.bare he).1 (hp.outermost w₁)
  | hybrid => exact interpreted_follows H hE hp he w₁
  | bytecode =>
    dsimp only
    split
    · cases hc : Proto.ofExpr "top-level" e with
      | ok p => exact ht.form hw he hc
      | error fault =>
        exact (ht.report w₁ fault).bind fun w₂ _ _ _ _ => interpreted_follows H hE hp he w₂
    · exact interpreted_follows H hE hp he w₁

theorem evalForm_follows {f : Form} (hf : f.Proper) :
    C.Follows short C.value C.failure w (Session.evalForm E f) fun m =>
      Session.evalForm (F m) f := by
  have hparse : C.Follows short (C.parsed [] .top) C.failure w (Session.parseBy E f) fun m =>
      Session.parseBy (F m) f := (ofForm_follows H hE.call hf w).mapFault fun _ _ _ h => h
  refine hparse.bind fun w₁ e e' hw he => ?_
  obtain ⟨rfl, he⟩ := he
  exact (evalExpr_follows H hE hp (ht.mono hw) he).mapFault fun _ _ _ h => h

theorem evalForms_follows {fs : List Form} (hf : Form.AllProper fs) {last last' : Value}
    (hl : C.value w last last') :
    C.Follows short C.value C.failure w (Session.evalForms E last fs) fun m =>
      Session.evalForms (F m) last' fs := by
  induction fs generalizing w last last' with
  | nil => exact .pure hl
  | cons f rest ih =>
    refine (evalForm_follows H hE hp ht hf.head).bind fun w₁ x y hw hxy => ?_
    exact ih (ht.mono hw) hf.tail hxy

theorem evalSource_follows (source : String) :
    C.Follows short C.value C.failure w (Session.evalSourceBy E source) fun m =>
      Session.evalSourceBy (F m) source := by
  have hread : C.Follows short (fun _ fs gs => gs = fs ∧ Form.AllProper fs) C.failure w
      (Session.readSource source) fun _ => Session.readSource source := by
    unfold Session.readSource
    cases hf : Form.read source with
    | ok forms => exact .pure ⟨rfl, Form.proper_of_read hf⟩
    | error e => exact .raise (show C.failure w (.reader e) (.reader e) from rfl)
  refine hread.bind fun w₁ fs gs hw hfs => ?_
  obtain ⟨rfl, hfs⟩ := hfs
  exact evalForms_follows H hE hp (ht.mono hw) hfs (value.steady w₁ fun _ => rfl)

end Programs

end Coupling

end TwinLisp
