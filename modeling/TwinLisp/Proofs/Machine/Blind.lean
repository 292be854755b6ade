import TwinLisp.Proofs.Coupling.Basic
import TwinLisp.Session

/-! Actions that do not see certain parts of a state: frames and interpreted functions, the budget of
the machine and its count of instructions, the number of names made, and what has been reported. They do
the same whatever is there, and leave it as it is; so does every instruction, except for the calls that
leave the machine and the counting of the instruction itself.

* `View`: a change of these parts.
* `Act.Blind`: actions that do not see it, with a rule for each way to make actions.
* `Act.blind_intern` and so on: names and Vars.
* `Machine.blind_push` and so on: what instructions are made of. -/

namespace TwinLisp

/-- A change of the parts of a state that instructions do not look at. -/
structure View where
  frames : Array Frame → Array Frame := id
  functions : Array Function → Array Function := id
  budget : Option Nat → Option Nat := id
  steps : Nat → Nat := id
  gensyms : Nat → Nat := id
  reports : List String → List String := id

/-- Other frames and interpreted functions. -/
def View.lexical (F : Array Frame) (G : Array Function) : View where
  frames _ := F
  functions _ := G

/-- The store as it is seen through a view. -/
def Store.seen (ν : View) (s : Store) : Store :=
  { s with frames := ν.frames s.frames, functions := ν.functions s.functions }

namespace State

/-- The state as it is seen through a view. -/
def seen (ν : View) (s : State) : State :=
  { s with
    store := s.store.seen ν
    config := { s.config with
      limits := { s.config.limits with stepBudget := ν.budget s.config.limits.stepBudget } }
    machine := { s.machine with steps := ν.steps s.machine.steps }
    gensyms := ν.gensyms s.gensyms
    reports := ν.reports s.reports }

/-- The state with other frames and interpreted functions. -/
def viewing (F : Array Frame) (G : Array Function) (s : State) : State :=
  { s with store := { s.store with frames := F, functions := G } }

theorem seen_lexical (F : Array Frame) (G : Array Function) (s : State) :
    s.seen (.lexical F G) = s.viewing F G := rfl

end State

namespace Act

variable {ε ζ α β : Type} {ν : View}

/-- The outcome as it is seen through a view. -/
def seen (ν : View) : EStateM.Result (Stop ε) State α → EStateM.Result (Stop ε) State α
  | .ok x s => .ok x (s.seen ν)
  | .error e s => .error e (s.seen ν)

/-- An action that does the same whether or not the view changes the state. -/
def Blind (ν : View) (a : Act ε α) : Prop := ∀ s, a (s.seen ν) = seen ν (a s)

namespace Blind

theorem pure (x : α) : Blind ν (Pure.pure x : Act ε α) := fun _ => rfl

theorem raise (e : ε) : Blind ν (Act.raise e : Act ε α) := fun _ => rfl

theorem bind {a : Act ε α} {f : α → Act ε β} (h : Blind ν a) (hf : ∀ x, Blind ν (f x)) :
    Blind ν (a >>= f) := by
  intro s
  rw [bind_apply, bind_apply, h s]
  cases a s with
  | ok x t => exact hf x t
  | error e t => rfl

theorem discard {a : Act ε α} (h : Blind ν a) : Blind ν (discard a) := h.bind fun _ => pure ()

theorem ask {f : State → α} (h : ∀ s, f (s.seen ν) = f s) :
    Blind ν (Act.ask f : Act ε α) := fun s => by
  rw [Act.ask, h]
  rfl

theorem askStore {f : Store → α} (h : ∀ s : Store, f (s.seen ν) = f s) :
    Blind ν (Act.askStore f : Act ε α) := ask fun s => h s.store

theorem update {f : State → State} (h : ∀ s, f (s.seen ν) = (f s).seen ν) :
    Blind ν (Act.update f : Act ε Unit) := fun s => by
  rw [Act.update, h]
  rfl

theorem onStore {f : Store → α × Store}
    (h : ∀ s : Store, f (s.seen ν) = ((f s).1, (f s).2.seen ν)) :
    Blind ν (Act.onStore f : Act ε α) := fun s => by
  show EStateM.Result.ok (f (s.store.seen ν)).1
    { s.seen ν with store := (f (s.store.seen ν)).2 } = _
  rw [h]
  rfl

theorem updateStore {f : Store → Store} (h : ∀ s : Store, f (s.seen ν) = (f s).seen ν) :
    Blind ν (Act.updateStore f : Act ε Unit) := onStore fun s => congrArg _ (h s)

theorem ite {c : Prop} [Decidable c] {a b : Act ε α} (ha : Blind ν a) (hb : Blind ν b) :
    Blind ν (if c then a else b) := by
  split
  · exact ha
  · exact hb

theorem fail (f : RuntimeFault) : Blind ν (Run.fail f : Run α) := raise _

theorem demand {c : Prop} [Decidable c] {f : RuntimeFault} {k : Unit → Run α} (h : Blind ν (k ())) :
    Blind ν (if c then Run.fail f >>= k else k ()) := ite (fun _ => rfl) h

theorem ofFault (r : Except RuntimeFault α) : Blind ν (Run.ofFault r) := by
  cases r with
  | ok x => exact pure x
  | error f => exact fail f

theorem deref (x : Var) (span : Span) : Blind ν (Run.deref x span) := by
  refine (askStore fun _ => rfl).bind fun o => ?_
  cases o with
  | some x => exact pure x
  | none => exact raise _

theorem assign (x : Var) (y : Value) : Blind ν (Run.assign x y) :=
  updateStore fun _ => rfl

theorem enter (span : Span) : Blind ν (Run.enter span) := by
  intro s
  simp only [Run.enter]
  show (if s.depth ≥ s.config.maxDepth then _ else _) = _
  split <;> rfl

theorem leave : Blind ν Run.leave := update fun _ => rfl

end Blind

/-! ## Names and Vars -/

theorem blind_internIn (ns name : String) : Blind ν (Act.internIn ns name : Act ε Var) := by
  intro s
  have hnames : (s.seen ν).names = s.names := rfl
  unfold Act.internIn
  dsimp only
  rw [hnames]
  cases (s.names.ensure ns).find? ns name <;> rfl

theorem blind_intern (name : String) : Blind ν (Act.intern name : Act ε Var) :=
  (Blind.ask fun _ => rfl).bind fun _ => blind_internIn _ name

theorem blind_resolve? (symbol : String) : Blind ν (Act.resolve? symbol : Act ε (Option Var)) :=
  .ask fun _ => rfl

theorem blind_isMacro (v : Var) : Blind ν (Act.askStore (Store.isMacro v) : Act ε Bool) :=
  .askStore fun _ => rfl

theorem blind_varValue? (v : Var) :
    Blind ν (Act.askStore (Store.varValue? v) : Act ε (Option Value)) := .askStore fun _ => rfl

theorem blind_setMacro (v : Var) (flag : Bool) :
    Blind ν (Act.updateStore (Store.setMacro v flag) : Act ε Unit) := .updateStore fun _ => rfl

end Act

namespace Machine

open Act (Blind)

variable {ν : View}

/-! ## Stack, frames and cells -/

theorem blind_push (v : Value) : Blind ν (push v) := by
  intro s
  simp only [push]
  show (if s.machine.stack.size ≥ s.config.limits.stackMax then _ else _) = _
  split <;> rfl

theorem blind_pop : Blind ν pop := by
  intro s
  have hback : (s.seen ν).machine.stack.back? = s.machine.stack.back? := rfl
  simp only [pop, hback]
  cases s.machine.stack.back? <;> rfl

theorem blind_top : Blind ν top := by
  refine (Blind.ask fun _ => rfl).bind fun o => ?_
  cases o with
  | some v => exact .pure v
  | none => exact .fail _

theorem blind_truncate (height : Nat) : Blind ν (truncate height) := .update fun _ => rfl

theorem blind_drop (count : Nat) : Blind ν (drop count) :=
  (Blind.ask fun _ => rfl).bind fun _ => .demand (blind_truncate _)

theorem blind_popMany (count : Nat) : Blind ν (popMany count) :=
  (Blind.ask fun _ => rfl).bind fun _ => .demand <|
    (Blind.ask fun _ => rfl).bind fun values => (blind_truncate _).bind fun _ => .pure values

theorem blind_append (values : List Value) : Blind ν (append values) := .update fun _ => rfl

theorem blind_slot (index : Nat) : Blind ν (slot index) := by
  refine (Blind.ask fun _ => rfl).bind fun o => ?_
  cases o with
  | some v => exact .pure v
  | none => exact .fail _

theorem blind_setSlot (index : Nat) (v : Value) : Blind ν (setSlot index v) :=
  (Blind.ask fun _ => rfl).bind fun _ => .demand (.update fun _ => rfl)

theorem blind_running : Blind ν running := by
  refine (Blind.ask fun _ => rfl).bind fun o => ?_
  cases o with
  | some a => exact .pure a
  | none => exact .fail _

theorem blind_goTo (ip : Nat) : Blind ν (goTo ip) := .update fun _ => rfl

theorem blind_jump (ip : Nat) (distance : Int) : Blind ν (jump ip distance) :=
  .ite (.fail _) (blind_goTo _)

theorem blind_pushFrame (c : Closure) (base : Nat) (counted : Bool) :
    Blind ν (pushFrame c base counted) := by
  have hframe : Blind ν (do
      let frames ← Act.ask fun s => s.machine.frames.size
      let limit ← Act.ask fun s => s.config.limits.framesMax
      if frames ≥ limit then
        if counted then Run.leave
        Run.fail (.frameOverflow limit)
      Act.update fun s => s.mapMachine fun m =>
        { m with frames := m.frames.push ⟨c, 0, base, counted⟩, peak := max m.peak (frames + 1) }
      : Run Unit) := by
    refine (Blind.ask fun _ => rfl).bind fun frames => (Blind.ask fun _ => rfl).bind fun limit => ?_
    refine .ite ?_ (.update fun _ => rfl)
    cases counted with
    | true => exact Blind.leave.bind fun _ _ => rfl
    | false => exact fun _ => rfl
  unfold pushFrame
  cases counted with
  | true => exact (Blind.enter _).bind fun _ => hframe
  | false => exact hframe

/-- Counting an instruction sees the count and the budget. -/
theorem blind_tick (hb : ν.budget = id) (hn : ν.steps = id) : Blind ν tick := by
  refine (Blind.update fun s => by simp only [State.seen, hn]; rfl).bind fun _ =>
    (Blind.ask fun s => by simp only [State.seen, hb]; rfl).bind fun o => ?_
  cases o with
  | none => exact .pure ()
  | some budget =>
    exact (Blind.ask fun s => by simp only [State.seen, hn]; rfl).bind fun _ =>
      .ite (.fail _) (.pure ())

theorem blind_constant (a : Activation) (index : Nat) : Blind ν (constant a index) := by
  unfold constant
  split
  · exact .pure _
  · exact .fail _

theorem blind_varConstant (a : Activation) (index : Nat) : Blind ν (varConstant a index) := by
  refine (blind_constant a index).bind fun v => ?_
  split
  · exact .pure _
  · exact .fail _

theorem blind_cellOf (a : Activation) (index : Nat) : Blind ν (cellOf a index) := by
  unfold cellOf
  split
  · exact .pure _
  · exact .fail _

theorem blind_readCell (id : Nat) : Blind ν (readCell id) := by
  refine (Blind.askStore fun _ => rfl).bind fun o => ?_
  split
  · exact blind_slot _
  · exact .pure _
  · exact .pure _

theorem blind_writeCell (id : Nat) (v : Value) : Blind ν (writeCell id v) := by
  refine (Blind.askStore fun _ => rfl).bind fun o => ?_
  split
  · exact blind_setSlot _ v
  · exact .updateStore fun _ => rfl
  · exact .pure ()

theorem blind_openCell (index : Nat) : Blind ν (openCell index) := by
  refine (Blind.ask fun _ => rfl).bind fun o => ?_
  cases o with
  | some id => exact .pure id
  | none =>
    exact (Blind.onStore fun _ => rfl).bind fun id =>
      Blind.bind (.update fun _ => rfl) fun _ => .pure id

theorem closeCells_seen (stack : Array Value) (cs : List OpenCell) (s : Store) :
    closeCells stack (s.seen ν) cs = (closeCells stack s cs).seen ν := by
  induction cs generalizing s with
  | nil => rfl
  | cons c rest ih => exact ih (s.setCell c.cell (.closed ((stack[c.slot]?).getD .nil)))

theorem closeFrom_seen (height : Nat) (s : State) :
    (s.seen ν).closeFrom height = (s.closeFrom height).seen ν := by
  simp only [State.closeFrom, State.seen, closeFrom, closeCells_seen]

theorem blind_closeSlots (height : Nat) : Blind ν (closeSlots height) :=
  .update (closeFrom_seen height)

theorem blind_captures (a : Activation) (acc : Array Nat) (count ip : Nat) :
    Blind ν (captures a acc count ip) := by
  induction count generalizing acc ip with
  | zero => exact .pure _
  | succ count ih =>
    unfold captures
    split
    · split
      · exact (blind_cellOf a _).bind fun id => ih _ _
      · exact (blind_openCell _).bind fun id => ih _ _
    · exact .fail _

/-! ## Instructions -/

theorem blind_binary (op : Value → Value → Except RuntimeFault Value) : Blind ν (binary op) :=
  blind_pop.bind fun _ => blind_pop.bind fun _ => (Blind.ofFault _).bind fun v => blind_push v

theorem blind_mapOf (items : List Value) : Blind ν (mapOf items) := by
  unfold mapOf
  dsimp only
  split
  · exact .fail _
  · exact .pure _

theorem blind_setOf (items : List Value) : Blind ν (setOf items) := by
  unfold setOf
  split
  · exact .fail _
  · exact .pure _

theorem blind_closureOf (id : Nat) : Blind ν (closureOf id) := by
  refine (Blind.askStore fun _ => rfl).bind fun o => ?_
  cases o with
  | some c => exact .pure c
  | none => exact .fail _

theorem blind_makeClosure (a : Activation) (i : Instruction) : Blind ν (makeClosure a i) := by
  unfold makeClosure
  split
  · exact .fail _
  · exact (blind_captures a #[] _ _).bind fun _ => (blind_goTo _).bind fun _ =>
      (Blind.onStore fun _ => rfl).bind fun _ => blind_push _

theorem blind_endFrame (a : Activation) (entry : Nat) : Blind ν (endFrame a entry) := by
  have hlast : ∀ result, Blind ν (do
      if (← Act.ask fun s => s.machine.frames.size) ≤ entry then return some result
      push result
      return none : Run (Option Value)) := fun result =>
    (Blind.ask fun _ => rfl).bind fun _ => .ite (.pure _) ((blind_push _).bind fun _ => .pure _)
  unfold endFrame
  refine blind_pop.bind fun result => Blind.bind (.update fun _ => rfl) fun _ =>
    (blind_closeSlots _).bind fun _ => (blind_truncate _).bind fun _ => ?_
  cases a.counted with
  | true => exact Blind.leave.bind fun _ => hlast result
  | false => exact hlast result

/-- Every instruction but a call, whatever calls may do. -/
theorem blind_exec (call : Caller) (entry : Nat) (a : Activation) {i : Instruction}
    (hi : i.op ≠ .call) : Blind ν (exec call entry a i) := by
  have hnone : ∀ {x : Run Unit}, Blind ν x → Blind ν (do x; return none : Run (Option Value)) :=
    fun h => h.bind fun _ => .pure none
  unfold exec
  cases h : i.op with
  | call => exact absurd h hi
  | const => exact (blind_constant a _).bind fun v => hnone (blind_push v)
  | nil | true | false => exact hnone (blind_push _)
  | pop => exact hnone blind_pop.discard
  | popN => exact blind_pop.bind fun v => (blind_drop _).bind fun _ => hnone (blind_push v)
  | getLocal => exact (blind_slot _).bind fun v => hnone (blind_push v)
  | setLocal => exact blind_top.bind fun v => hnone (blind_setSlot _ v)
  | getUpvalue =>
    exact (blind_cellOf a _).bind fun id => (blind_readCell id).bind fun v => hnone (blind_push v)
  | setUpvalue =>
    exact (blind_cellOf a _).bind fun id => blind_top.bind fun v => hnone (blind_writeCell id v)
  | closeUpvalue => exact hnone (blind_closeSlots _)
  | getVar =>
    exact (blind_varConstant a _).bind fun v => (Blind.deref v _).bind fun x => hnone (blind_push x)
  | setVar =>
    exact blind_top.bind fun x => (blind_varConstant a _).bind fun v => hnone (.assign v x)
  | add | subtract | multiply | divide | less | greater | equal => exact hnone (blind_binary _)
  | negate =>
    exact blind_pop.bind fun v => (Blind.ofFault _).bind fun x => hnone (blind_push x)
  | not => exact blind_pop.bind fun v => hnone (blind_push _)
  | jump | loop => exact hnone (blind_jump _ _)
  | jumpIfFalse =>
    refine blind_pop.bind fun v => ?_
    exact .ite (.pure none) (hnone (blind_jump _ _))
  | closure => exact hnone (blind_makeClosure a i)
  | recur =>
    exact (blind_closeSlots _).bind fun _ => (blind_popMany _).bind fun args =>
      (blind_truncate _).bind fun _ => hnone (blind_append args)
  | ret => exact blind_endFrame a entry
  | vector => exact (blind_popMany _).bind fun items => hnone (blind_push _)
  | map =>
    exact (blind_popMany _).bind fun items => (blind_mapOf items).bind fun v => hnone (blind_push v)
  | set =>
    exact (blind_popMany _).bind fun items => (blind_setOf items).bind fun v => hnone (blind_push v)

/-! ## Runs -/

theorem blind_begin (id : Nat) (c : Closure) (args : List Value) (base : Nat) (counted : Bool) :
    Blind ν (begin id c args base counted) := by
  have hargs : Blind ν (args.forM push) := by
    induction args with
    | nil => exact .pure ()
    | cons v rest ih => exact (blind_push v).bind fun _ => ih
  exact (blind_push _).bind fun _ => hargs.bind fun _ => blind_pushFrame c base counted

theorem unwind_seen (base entry depth : Nat) (s : State) :
    unwind base entry depth (s.seen ν) = (unwind base entry depth s).seen ν := by
  simp only [unwind, closeFrom_seen]
  rfl

end Machine

/-! ## Whole forms -/

section Forms

variable {ν : View} (h : ν.reports = id)

include h

/-- Storing bytecode sees what has been reported alone. -/
theorem State.blind_prepared (e : Expr) : (State.prepared e : Run Expr).Blind ν := by
  intro s
  simp only [State.prepared]
  show (if s.config.vmEnabled then _ else _) = _
  by_cases hv : s.config.vmEnabled
  · simp only [if_pos hv, Act.seen, State.seen, h]
    show EStateM.Result.ok _ (if s.config.traced then _ else _) = _
    split <;> rfl
  · simp only [if_neg hv]
    rfl

theorem Session.blind_reportFallback (e : CompileError) :
    (Session.reportFallback e).Blind ν := by
  refine .update fun s => ?_
  simp only [State.seen, h]
  show (if s.config.traced then _ else _) = _
  split <;> rfl

end Forms

end TwinLisp
