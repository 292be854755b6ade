import TwinLisp.Machine.Action
import TwinLisp.Native.Call
import TwinLisp.Number.Tower
/-!
The machine at work. An instruction of the running function is fetched and executed; calls of
compiled functions push a frame, all other calls leave the machine through `call` and may come back
to it: a nested run works above the frames that are there and ends when they are on top again.

* `Machine.step`: one instruction; it has a value when the run is over.
* `Machine.callOut`, `Machine.onParked`: a call that leaves the machine, and a run that takes it up.
* `Machine.execute`, `Machine.executeForm`: a call of a compiled function, and a whole form.
* `Machine.executeBy`, `Machine.executeFormBy`: the same with another way to execute an
  instruction.
-/

namespace TwinLisp.Machine

open Run (fail ofFault)

/-- An operation on the two topmost values. -/
def binary (op : Value → Value → Except RuntimeFault Value) : Run Unit := do
  let b ← pop
  let a ← pop
  push (← ofFault (op a b))

/-- A map of alternating keys and values; equal keys are a fault. -/
def mapOf (items : List Value) : Run Value :=
  let entries := Form.pairUp items
  match Value.repeated? (entries.map Prod.fst) with
  | some k => fail (.general ("Duplicate key: " ++ k.readable))
  | none => pure (.map entries)

/-- A set of values; equal values are a fault. -/
def setOf (items : List Value) : Run Value :=
  match Value.repeated? items with
  | some k => fail (.general ("Duplicate key: " ++ k.readable))
  | none => pure (.set items)

/-- What an identity of a compiled function stands for. -/
def closureOf (id : Nat) : Run Closure := do
  match ← Act.askStore fun s => s.closures[id]? with
  | some c => pure c
  | none => fail (.general ("Unknown function " ++ toString id))

/-- The fault of a call after which no machine is there. -/
def lost : RuntimeFault := .general "VM state lost during a call out of bytecode"

/-- The state after a call that left the machine in the state `s`. -/
def back (s t : State) : State := { t with machine := t.parked.getD .idle, parked := s.parked }

/-- A call that leaves the machine. The machine is parked meanwhile, so that nested runs work on the
same stack, and it has to be there afterwards. -/
def callOut (call : Caller) (callee : Value) (args : List Value) : Run Value := fun s =>
  match call callee args { s with machine := .idle, parked := some s.machine } with
  | .ok v t =>
    if t.parked.isSome then .ok v (back s t) else .error (.raised lost.bare) (back s t)
  | .error (.raised e) t => .error (.raised (if t.parked.isSome then e else lost.bare)) (back s t)
  | .error .exhausted t => .error .exhausted (back s t)

/-- Calls what lies under `count` arguments. -/
def callValue (call : Caller) (count : Nat) : Run Unit := do
  let size ← Act.ask fun s => s.machine.stack.size
  if size < count + 1 then fail .stackUnderflow
  match ← slot (size - (count + 1)) with
  | .closure id _ => do
    let c ← closureOf id
    if count ≠ c.proto.arity then fail (.wrongArity c.proto.name count)
    pushFrame c (size - (count + 1)) true
  | _ => do
    let args ← popMany count
    let callee ← pop
    push (← callOut call callee args)

def makeClosure (a : Activation) (i : Instruction) : Run Unit := do
  match a.closure.proto.subs[i.operand]? with
  | none => fail (.general ("Sub-function " ++ toString i.operand ++ " out of range"))
  | some p =>
    let (cells, next) ← captures a #[] p.captures.size i.next
    goTo next
    let id ← Act.onStore (Store.newClosure ⟨p, cells⟩)
    push (.closure id p.name)

/-- Ends the running function; the value is final once `entry` frames are left. -/
def endFrame (a : Activation) (entry : Nat) : Run (Option Value) := do
  let result ← pop
  Act.update fun s => s.mapMachine (mapFrames Array.pop)
  closeSlots a.base
  truncate a.base
  if a.counted then Run.leave
  if (← Act.ask fun s => s.machine.frames.size) ≤ entry then return some result
  push result
  return none

/-- Executes an instruction of the running function, which has been moved to the next one. -/
def exec (call : Caller) (entry : Nat) (a : Activation) (i : Instruction) : Run (Option Value) := do
  match i.op with
  | .const => push (← constant a i.operand)
  | .nil => push .nil
  | .true => push (.bool true)
  | .false => push (.bool false)
  | .pop => discard pop
  | .popN => do
    let v ← pop
    drop i.operand
    push v
  | .getLocal => push (← slot (a.base + i.operand))
  | .setLocal => setSlot (a.base + i.operand) (← top)
  | .getUpvalue => push (← readCell (← cellOf a i.operand))
  | .setUpvalue => do
    let id ← cellOf a i.operand
    writeCell id (← top)
  | .closeUpvalue => closeSlots (a.base + i.operand)
  | .getVar => do
    let v ← varConstant a i.operand
    push (← Run.deref v .unknown)
  | .setVar => do
    let x ← top
    let v ← varConstant a i.operand
    Run.assign v x
  | .add => binary Number.add
  | .subtract => binary Number.sub
  | .multiply => binary Number.mul
  | .divide => binary Number.div
  | .less => binary Number.less
  | .greater => binary Number.greater
  | .equal => binary fun x y => .ok (.bool (Value.same x y))
  | .negate => do push (← ofFault (Number.negate (← pop)))
  | .not => do push (.bool !(← pop).truthy)
  | .jump => jump i.next (Chunk.signedWord i.operand)
  | .jumpIfFalse => do
    unless (← pop).truthy do jump i.next (Chunk.signedWord i.operand)
  | .loop => jump i.next (-(i.operand : Int))
  | .call => callValue call i.operand
  | .closure => makeClosure a i
  | .recur => do
    closeSlots (a.base + i.second)
    let args ← popMany i.first
    truncate (a.base + i.second)
    append args
  | .ret => return ← endFrame a entry
  | .vector => do push (.vector (← popMany i.operand))
  | .map => do push (← mapOf (← popMany (i.operand * 2)))
  | .set => do push (← setOf (← popMany i.operand))
  return none

/-- One instruction. A fault is placed at the instruction's line. -/
def step (call : Caller) (entry : Nat) : Run (Option Value) := do
  let a ← running
  Act.within (.ofLine (line a)) do
    tick
    let i ← ofFault (a.closure.proto.chunk.fetch a.ip)
    goTo i.next
    exec call entry a i

/-- Instructions, each of them a `cycle`, until `entry` frames are left, but no more than
`rounds`. -/
def run (cycle : Nat → Run (Option Value)) (entry : Nat) : (rounds : Nat) → Run Value
  | 0 => Act.exhausted
  | rounds + 1 => do
    match ← cycle entry with
    | some v => pure v
    | none => run cycle entry rounds

/-- Undoes what a run left behind that has no value. -/
def unwind (base entry depth : Nat) (s : State) : State :=
  let s := (s.closeFrom base).mapMachine fun m =>
    { m with stack := m.stack.shrink base, frames := m.frames.shrink entry }
  { s with depth := depth }

/-- Pushes a function and its arguments, and begins it. -/
def begin (id : Nat) (c : Closure) (args : List Value) (base : Nat) (counted : Bool) :
    Run Unit := do
  push (.closure id c.proto.name)
  args.forM push
  pushFrame c base counted

/-- Runs a function above what is on the machine. Without a value, whatever the run has put there is
taken away and the depth of calls is as before. -/
def start (cycle : Nat → Run (Option Value)) (rounds id : Nat) (c : Closure) (args : List Value)
    (counted : Bool) : Run Value := do
  if args.length ≠ c.proto.arity then fail (.wrongArity c.proto.name args.length)
  let base ← Act.ask fun s => s.machine.stack.size
  let entry ← Act.ask fun s => s.machine.frames.size
  let depth ← Act.ask fun s => s.depth
  if entry = 0 then Act.update fun s => s.mapMachine fun m => { m with steps := 0, peak := 0 }
  Act.onStop (do begin id c args base counted; run cycle entry rounds) (unwind base entry depth)

/-- Takes up the parked machine, or a new one, for a run and parks it again. -/
def onParked {α : Type} (run : Run α) : Run α := fun s =>
  match run { s with machine := s.parked.getD .idle, parked := none } with
  | .ok x t => .ok x { t with machine := s.machine, parked := some t.machine }
  | .error e t => .error e { t with machine := s.machine, parked := some t.machine }

/-- A call of a compiled function on a machine with some way to execute an instruction. -/
def executeBy (cycle : Nat → Run (Option Value)) (rounds id : Nat) (args : List Value) :
    Run Value := do
  start cycle rounds id (← closureOf id) args true

/-- A call of a compiled function. -/
def execute (call : Caller) : (rounds id : Nat) → (args : List Value) → Run Value :=
  executeBy (step call)

/-- Runs a whole form, which is no nested call, on a machine with some way to execute an
instruction. -/
def executeFormBy (cycle : Nat → Run (Option Value)) (rounds : Nat) (p : Proto) : Run Value := do
  let id ← Act.onStore (Store.newClosure ⟨p, #[]⟩)
  start cycle rounds id ⟨p, #[]⟩ [] false

def executeForm (call : Caller) : (rounds : Nat) → Proto → Run Value := executeFormBy (step call)

end TwinLisp.Machine
