import TwinLisp.Proofs.Spots.Evaluation
import TwinLisp.Repl
import TwinLisp.Session

/-! Sources and conversations up to byte offsets. Two sources that are read as the same forms at the
same lines and columns have the same value or the same failure, whatever their offsets are, and leave
the same state but for the offsets that interpreted functions remember. What is said in a conversation
does not depend on these.

* `Failure.spot`, `Session.spots`: failures and outcomes up to offsets.
* `Session.evalForms_spots`, `Session.start_of_readSpots`: forms and sources.
* `Repl.spots`, `Reaction.spots`: conversations and reactions up to offsets.
* `Repl.hear_spots`, `Repl.converse_spots`: what a line leads to, and a whole conversation. -/

namespace TwinLisp

open Located (SameSpot)
open Act (Spots Becomes Blind)

namespace Failure

/-- The failure with a line and a column for its place. -/
def spot : Failure → Failure
  | lexer e => .lexer e.spot
  | reader e => .reader e.spot
  | parser e => .parser e.spot
  | compile e => .compile e.spot
  | runtime e => .runtime e.spot
  | exhausted => .exhausted

/-- The message of a failure names no offset. -/
theorem message_spot (e : Failure) : e.spot.message = e.message := by
  cases e <;> rfl

/-- The same failure at the same line and column. -/
def SameSpot (e e' : Failure) : Prop := e'.spot = e.spot

end Failure

namespace Session

variable {α : Type}

/-- An outcome and the state after it, up to offsets. -/
def spots (result : Except Failure α × State) : Except Failure α × State :=
  (result.1.mapError Failure.spot, result.2.spots)

section Forms

variable {E : Engine} (hE : E.Spots)

include hE

omit hE in
theorem reportFallback_spots (e : CompileError) :
    Act.Spots (Becomes id) SameSpot (reportFallback e) (reportFallback e.spot) := by
  have hreport : reportFallback e.spot = reportFallback e := rfl
  rw [hreport]
  exact .blind (blind_reportFallback rfl e)

theorem parseBy_spots (f : Form) :
    Act.Spots (Becomes Expr.spots) Failure.SameSpot (parseBy E f) (parseBy E f.spots) :=
  (Expr.ofForm_spots hE.call f).mapFault fun _ _ h => congrArg Failure.parser h

theorem interpret_spots (e : Expr) :
    Act.Spots (Becomes id) SameSpot (interpret E e) (interpret E e.spots) :=
  (State.prepared_spots e).next fun e => e.eval_spots hE none

theorem evalExpr_spots (e : Expr) :
    Act.Spots (Becomes id) SameSpot (evalExpr E e) (evalExpr E e.spots) := by
  unfold evalExpr
  refine (Act.Spots.blind (.ask fun _ => rfl)).next fun mode => ?_
  rw [e.compilable_spots, Proto.ofExpr_spots]
  cases mode with
  | treeWalk => exact e.eval_spots hE none
  | hybrid => exact interpret_spots hE e
  | bytecode =>
    dsimp only [id]
    split
    · cases Proto.ofExpr "top-level" e with
      | ok p => exact Machine.onParked_spots (Machine.executeFormBy_spots hE.cycle E.rounds p)
      | error fault =>
        exact (reportFallback_spots fault).next fun _ => interpret_spots hE e
    · exact interpret_spots hE e

theorem evalForm_spots (f : Form) :
    Act.Spots (Becomes id) Failure.SameSpot (evalForm E f) (evalForm E f.spots) := by
  refine (parseBy_spots hE f).next fun e => ?_
  exact (evalExpr_spots hE e).mapFault fun _ _ h => congrArg Failure.runtime h

theorem evalForms_spots (last : Value) (fs : List Form) :
    Act.Spots (Becomes id) Failure.SameSpot (evalForms E last fs)
      (evalForms E last (Form.spotsAll fs)) := by
  induction fs generalizing last with
  | nil => exact .pure rfl
  | cons f rest ih =>
    rw [Form.spotsAll, evalForms, evalForms]
    exact (evalForm_spots hE f).next fun v => ih v

end Forms

/-! ## Sources -/

/-- The forms of a source that has been read. -/
def ofRead (r : Except ReadError (List Form)) : Session (List Form) :=
  Act.ofExcept (r.mapError Failure.reader)

theorem readSource_spots (source : String) :
    Act.Spots (Becomes Form.spotsAll) Failure.SameSpot (readSource source)
      (ofRead (Form.readSpots source)) := by
  unfold readSource Form.readSpots
  cases Form.read source with
  | ok forms => exact .pure rfl
  | error e => exact .raise rfl

theorem evalSource_spots (fuel : Nat) (source : String) :
    Act.Spots (Becomes id) Failure.SameSpot (evalSource fuel source) (do
      evalForms (Engine.ofFuel fuel) .nil (← ofRead (Form.readSpots source))) :=
  (readSource_spots source).next fun forms =>
    evalForms_spots (Engine.spots_ofFuel fuel) .nil forms

theorem start_spots {a b : Session α} (h : Act.Spots (Becomes id) Failure.SameSpot a b)
    (s : State) :
    spots (start a s) = ((start b s.spots).1.mapError Failure.spot, (start b s.spots).2) := by
  have hs := h s
  simp only [start]
  generalize a s = r at hs
  generalize b s.spots = q at hs
  cases hs with
  | ok h => rw [h]; rfl
  | raised h => exact congrArg (fun e => (Except.error e, _)) h.symm
  | exhausted => rfl

/-- Actions that are the same without offsets have the same outcome up to offsets. -/
theorem start_congr {a a' b : Session α} (h : Act.Spots (Becomes id) Failure.SameSpot a b)
    (h' : Act.Spots (Becomes id) Failure.SameSpot a' b) {s t : State} (hst : s.spots = t.spots) :
    spots (start a s) = spots (start a' t) := by
  rw [start_spots h, start_spots h', hst]

theorem start_of_readSpots {x y : String} (h : Form.readSpots x = Form.readSpots y) (fuel : Nat)
    {s t : State} (hst : s.spots = t.spots) :
    spots (start (evalSource fuel x) s) = spots (start (evalSource fuel y) t) :=
  -- Both are the evaluation of the same forms without offsets, from the same state without offsets.
  start_congr (evalSource_spots fuel x) (h ▸ evalSource_spots fuel y) hst

end Session

/-! ## Conversations -/

namespace Failure

theorem isIncomplete_spot (e : Failure) : e.spot.isIncomplete = e.isIncomplete := by
  cases e <;> rfl

end Failure

namespace Session

variable {α : Type}

theorem spots_cases {x y : Except Failure α × State} (h : spots x = spots y) :
    (∃ v s t, x = (.ok v, s) ∧ y = (.ok v, t) ∧ s.spots = t.spots) ∨
      ∃ e e' s t, x = (.error e, s) ∧ y = (.error e', t) ∧ e.spot = e'.spot ∧
        s.spots = t.spots := by
  obtain ⟨outcome, s⟩ := x
  obtain ⟨outcome', t⟩ := y
  rw [spots, spots, Prod.mk.injEq] at h
  obtain ⟨houtcome, hst⟩ := h
  cases outcome with
  | ok v =>
    cases outcome' with
    | ok u =>
      cases houtcome
      exact .inl ⟨v, s, t, rfl, rfl, hst⟩
    | error e => cases houtcome
  | error e =>
    cases outcome' with
    | ok u => cases houtcome
    | error e' => exact .inr ⟨e, e', s, t, rfl, rfl, Except.error.inj houtcome, hst⟩

theorem parseForms_spots (fuel : Nat) (acc : List Expr) (fs : List Form) :
    Act.Spots (Becomes Expr.spotsAll) Failure.SameSpot (parseForms fuel acc fs)
      (parseForms fuel (Expr.spotsAll acc) (Form.spotsAll fs)) := by
  induction fs generalizing acc with
  | nil => exact .pure (Expr.spotsAll_reverse acc).symm
  | cons f rest ih =>
    rw [Form.spotsAll, parseForms, parseForms]
    exact (parseBy_spots (Engine.spots_ofFuel fuel) f).next fun e => ih (e :: acc)

theorem parseSource_spots (fuel : Nat) (source : String) :
    Act.Spots (Becomes Expr.spotsAll) Failure.SameSpot (parseSource fuel source) (do
      parseForms fuel [] (← ofRead (Form.readSpots source))) :=
  (readSource_spots source).next fun forms => parseForms_spots fuel [] forms

theorem compileForm_spots (name : String) (e : Expr) :
    Act.Spots (Becomes id) Failure.SameSpot (compileForm name e) (compileForm name e.spots) := by
  unfold compileForm
  rw [Proto.ofExpr_spots]
  cases Proto.ofExpr name e with
  | ok p => exact .pure rfl
  | error e => exact .raise rfl

end Session

/-! ## Reactions -/

/-- The conversation, but for the offsets that interpreted functions remember. -/
def Repl.spots (r : Repl) : Repl := { r with state := r.state.spots }

/-- The reaction, but for the offsets that interpreted functions remember. -/
def Reaction.spots (reaction : Reaction) : Reaction :=
  { reaction with repl := reaction.repl.spots }

theorem Reaction.of_spots {x y : Reaction} (h : x.spots = y.spots) :
    x.output = y.output ∧ x.ended = y.ended ∧ x.repl.spots = y.repl.spots :=
  ⟨(congrArg Reaction.output h :), (congrArg Reaction.ended h :), (congrArg Reaction.repl h :)⟩

theorem Failure.message_of_spot {e e' : Failure} (h : e.spot = e'.spot) :
    e.message = e'.message := by
  rw [← e.message_spot, h, e'.message_spot]

namespace Repl

variable {s t : State}

theorem output_of_spots (h : s.spots = t.spots) : s.output = t.output :=
  (congrArg State.output h :)

theorem drained_of_spots (h : s.spots = t.spots) :
    State.spots { s with output := "" } = State.spots { t with output := "" } :=
  (congrArg (fun u : State => { u with output := "" }) h :)

theorem exists_of_spots {r r' : Repl} (h : r.spots = r'.spots) : ∃ s t history pending,
    r = ⟨s, history, pending⟩ ∧ r' = ⟨t, history, pending⟩ ∧ s.spots = t.spots := by
  obtain ⟨s, history, pending⟩ := r
  obtain ⟨t, history', pending'⟩ := r'
  simp only [spots, Repl.mk.injEq] at h
  obtain ⟨hst, rfl, rfl⟩ := h
  exact ⟨s, t, history, pending, rfl, rfl, hst⟩

variable (fuel : Nat) (p : Palette)

/-- The listing of the first of some programs. -/
def firstListing : List Expr → Session String
  | [] => return ""
  | e :: _ => do
    return (← Session.compileForm "repl" e).listing.foldl (fun out l => out ++ l ++ "\n") ""

theorem firstListing_spots (es : List Expr) :
    Act.Spots (Becomes id) Failure.SameSpot (firstListing es)
      (firstListing (Expr.spotsAll es)) := by
  cases es with
  | nil => exact .pure rfl
  | cons e rest =>
    exact (Session.compileForm_spots "repl" e).bind_pure fun _ _ h => by rw [h]; rfl

theorem listFirst_eq (source : String) :
    listFirst fuel source = Session.parseSource fuel source >>= firstListing := rfl

theorem start_listFirst (source : String) (h : s.spots = t.spots) :
    Session.spots (Session.start (listFirst fuel source) s) =
      Session.spots (Session.start (listFirst fuel source) t) := by
  have hlist : Act.Spots (Becomes id) Failure.SameSpot (listFirst fuel source)
      ((do Session.parseForms fuel [] (← Session.ofRead (Form.readSpots source))) >>=
        firstListing) := by
    rw [listFirst_eq]
    exact (Session.parseSource_spots fuel source).next firstListing_spots
  exact Session.start_congr hlist hlist h

variable {r r' : Repl} (h : r.spots = r'.spots)

include h

theorem submit_spots : (submit fuel p r).spots = (submit fuel p r').spots := by
  obtain ⟨s, t, history, pending, rfl, rfl, hst⟩ := exists_of_spots h
  have hstart := Session.start_of_readSpots (x := pending) rfl fuel hst
  simp only [submit]
  rcases Session.spots_cases hstart with ⟨v, u, u', hx, hy, hu⟩ | ⟨e, e', u, u', hx, hy, he, hu⟩
  · rw [hx, hy]
    simp only [drain, Reaction.spots, spots, output_of_spots hu, drained_of_spots hu]
  · have hinc : e.isIncomplete = e'.isIncomplete := by
      rw [← e.isIncomplete_spot, he, e'.isIncomplete_spot]
    rw [hx, hy]
    simp only [drain, hinc, Failure.message_of_spot he]
    split <;> simp only [Reaction.spots, spots, output_of_spots hu, drained_of_spots hu]

theorem listingCommand_spots (source : String) :
    (listingCommand fuel p source r).spots = (listingCommand fuel p source r').spots := by
  obtain ⟨s, t, history, pending, rfl, rfl, hst⟩ := exists_of_spots h
  have hstart := start_listFirst fuel source hst
  simp only [listingCommand]
  split
  · simp only [Reaction.spots, spots, hst]
  · rcases Session.spots_cases hstart with ⟨v, u, u', hx, hy, hu⟩ | ⟨e, e', u, u', hx, hy, he, hu⟩
    · rw [hx, hy]
      simp only [drain, Reaction.spots, spots, output_of_spots hu, drained_of_spots hu]
    · rw [hx, hy]
      simp only [drain, Reaction.spots, spots, Failure.message_of_spot he, output_of_spots hu,
        drained_of_spots hu]

theorem compilationCommand_spots (arg : String) :
    (compilationCommand p arg r).spots = (compilationCommand p arg r').spots := by
  obtain ⟨s, t, history, pending, rfl, rfl, hst⟩ := exists_of_spots h
  have hdone : ∀ u v : State, u.spots = v.spots →
      (Reaction.mk ⟨u, history, pending⟩ (compilationLine p u) false).spots =
        (Reaction.mk ⟨v, history, pending⟩ (compilationLine p v) false).spots := fun u v huv => by
    have hline : compilationLine p u = compilationLine p v := (congrArg (compilationLine p) huv :)
    simp only [Reaction.spots, spots, huv, hline]
  have hset : ∀ enabled, (setCompilation enabled s).spots = (setCompilation enabled t).spots :=
    fun enabled => (congrArg (setCompilation enabled) hst :)
  unfold compilationCommand
  dsimp only
  split
  · exact hdone _ _ (hset true)
  · exact hdone _ _ (hset false)
  · exact hdone _ _ hst
  · simp only [Reaction.spots, spots, hst]

theorem reaction_of_spots (said : String) (ended : Bool) :
    (Reaction.mk r said ended).spots = (Reaction.mk r' said ended).spots := by
  rw [Reaction.spots, Reaction.spots, h]

theorem command_spots (line : String) :
    (command fuel p line r).spots = (command fuel p line r').spots := by
  have hhistory : r.history = r'.history := (congrArg Repl.history h :)
  unfold command
  dsimp only
  split
  · exact reaction_of_spots h _ _
  · exact compilationCommand_spots p h _
  · exact listingCommand_spots fuel p h _
  · rw [hhistory]
    exact reaction_of_spots h _ _
  · exact reaction_of_spots h _ _

theorem hear_spots (line : Line) : (hear fuel p line r).spots = (hear fuel p line r').spots := by
  cases line with
  | finished | undecodable => exact reaction_of_spots h _ _
  | text raw =>
    obtain ⟨s, t, history, pending, rfl, rfl, hst⟩ := exists_of_spots h
    have hnoted : ∀ history pending,
        (⟨s, history, pending⟩ : Repl).spots = spots ⟨t, history, pending⟩ :=
      fun _ _ => by rw [spots, spots, hst]
    simp only [hear]
    split
    · exact submit_spots fuel p (hnoted _ _)
    · split
      · exact reaction_of_spots (hnoted _ _) _ _
      · split
        · exact reaction_of_spots (hnoted _ _) _ _
        · split
          · exact command_spots fuel p (hnoted _ _) _
          · exact submit_spots fuel p (hnoted _ _)

omit h in
/-- A whole conversation. -/
theorem converse_spots (said : String) {r r' : Repl} (h : r.spots = r'.spots) (lines : List Line) :
    (converse fuel p said r lines).map id spots = (converse fuel p said r' lines).map id spots := by
  have hprompt : ∀ {r r' : Repl}, r.spots = r'.spots → r.prompt p = r'.prompt p :=
    fun h => (congrArg (prompt p) h :)
  induction lines generalizing said r r' with
  | nil =>
    simp only [converse, hear, Prod.map, id, hprompt h, h]
  | cons line rest ih =>
    obtain ⟨houtput, hended, hrepl⟩ := Reaction.of_spots (hear_spots fuel p h line)
    simp only [converse, hprompt h, hended, houtput]
    split
    · exact congrArg (Prod.mk _) hrepl
    · exact ih _ hrepl

end Repl

end TwinLisp
