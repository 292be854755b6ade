import TwinLisp.Bytecode.Decode
import TwinLisp.State.Basic
/-!
What instructions do to the stack, the frames and the open cells of the machine. Every access is
checked: the stack never grows past its limit, and a missing value is a fault.

* `push`, `pop`, `popMany`, `slot`, `setSlot`: the stack.
* `pushFrame`: a new frame, which counts as a nested call unless it is that of a whole form.
* `openCell`, `closeSlots`: captured variables.
-/

namespace TwinLisp

namespace Machine

@[inline] def mapStack (f : Array Value → Array Value) : Machine → Machine
  | ⟨stack, frames, openCells, steps, peak⟩ => ⟨f stack, frames, openCells, steps, peak⟩

@[inline] def mapFrames (f : Array Activation → Array Activation) : Machine → Machine
  | ⟨stack, frames, openCells, steps, peak⟩ => ⟨stack, f frames, openCells, steps, peak⟩

end Machine

namespace State

@[inline] def mapMachine (f : Machine → Machine) : State → State
  | ⟨store, names, config, mode, machine, parked, depth, gensyms, output, reports⟩ =>
    ⟨store, names, config, mode, f machine, parked, depth, gensyms, output, reports⟩

/-- Closes the cells of all slots from `height` on. -/
def closeFrom (height : Nat) : State → State
  | ⟨store, names, config, mode, machine, parked, depth, gensyms, output, reports⟩ =>
    match machine.closeFrom height store with
    | (machine, store) =>
      ⟨store, names, config, mode, machine, parked, depth, gensyms, output, reports⟩

end State

namespace Machine

open Run (fail)

/-! ## The stack -/

def push (v : Value) : Run Unit := fun s =>
  if s.machine.stack.size ≥ s.config.limits.stackMax then
    .error (.raised (RuntimeFault.bare .stackOverflow)) s
  else .ok () (s.mapMachine (mapStack fun stack => stack.push v))

def pop : Run Value := fun s =>
  match s.machine.stack.back? with
  | none => .error (.raised (RuntimeFault.bare .stackUnderflow)) s
  | some v => .ok v (s.mapMachine (mapStack Array.pop))

/-- The value on top. -/
def top : Run Value := do
  match ← Act.ask fun s => s.machine.stack.back? with
  | some v => pure v
  | none => fail .stackUnderflow

def truncate (height : Nat) : Run Unit :=
  Act.update fun s => s.mapMachine (mapStack fun stack => stack.shrink height)

def drop (count : Nat) : Run Unit := do
  let size ← Act.ask fun s => s.machine.stack.size
  if size < count then fail .stackUnderflow
  truncate (size - count)

/-- Takes the topmost values, in the order they were pushed. -/
def popMany (count : Nat) : Run (List Value) := do
  let size ← Act.ask fun s => s.machine.stack.size
  if size < count then fail .stackUnderflow
  let values ← Act.ask fun s => (s.machine.stack.extract (size - count) size).toList
  truncate (size - count)
  return values

def append (values : List Value) : Run Unit :=
  Act.update fun s => s.mapMachine (mapStack fun stack => stack.appendList values)

def slot (index : Nat) : Run Value := do
  match ← Act.ask fun s => s.machine.stack[index]? with
  | some v => pure v
  | none => fail .stackUnderflow

def setSlot (index : Nat) (v : Value) : Run Unit := do
  let size ← Act.ask fun s => s.machine.stack.size
  if index ≥ size then fail .stackUnderflow
  Act.update fun s => s.mapMachine (mapStack fun stack => stack.setIfInBounds index v)

/-! ## Frames -/

def running : Run Activation := do
  match ← Act.ask fun s => s.machine.frames.back? with
  | some a => pure a
  | none => fail .stackUnderflow

/-- Moves the running function to an offset of its code. -/
def goTo (ip : Nat) : Run Unit :=
  Act.update fun s => s.mapMachine (mapFrames fun frames =>
    frames.modify (frames.size - 1) fun a => { a with ip := ip })

/-- Moves the running function by a distance from an offset. -/
def jump (ip : Nat) (distance : Int) : Run Unit :=
  if (ip : Int) + distance < 0 then fail (.general "Jump before start of chunk")
  else goTo ((ip : Int) + distance).toNat

/-- Begins a function whose slots begin at `base`. -/
def pushFrame (c : Closure) (base : Nat) (counted : Bool) : Run Unit := do
  if counted then Run.enter .unknown
  let frames ← Act.ask fun s => s.machine.frames.size
  let limit ← Act.ask fun s => s.config.limits.framesMax
  if frames ≥ limit then
    if counted then Run.leave
    fail (.frameOverflow limit)
  Act.update fun s => s.mapMachine fun m =>
    { m with frames := m.frames.push ⟨c, 0, base, counted⟩, peak := max m.peak (frames + 1) }

/-- Counts one instruction against the budget. -/
def tick : Run Unit := do
  Act.update fun s => s.mapMachine fun m => { m with steps := m.steps + 1 }
  match ← Act.ask fun s => s.config.limits.stepBudget with
  | none => pure ()
  | some budget =>
    let steps ← Act.ask fun s => s.machine.steps
    if steps > budget then fail (.stepBudgetExhausted budget)

/-! ## Constants and captured variables -/

def constant (a : Activation) (index : Nat) : Run Value :=
  match a.closure.proto.chunk.constants[index]? with
  | some v => pure v
  | none => fail (.general ("Constant " ++ toString index ++ " out of range"))

/-- A constant that is a Var. -/
def varConstant (a : Activation) (index : Nat) : Run Var := do
  match ← constant a index with
  | .var v => pure v
  | other => fail (.general ("Expected a Var constant, found " ++ other.typeName))

/-- The cell of a captured variable. -/
def cellOf (a : Activation) (index : Nat) : Run Nat :=
  match a.closure.cells[index]? with
  | some id => pure id
  | none => fail (.general ("Upvalue " ++ toString index ++ " out of range"))

def readCell (id : Nat) : Run Value := do
  match ← Act.askStore fun s => s.cells[id]? with
  | some (.live i) => slot i
  | some (.closed v) => pure v
  | none => pure .nil

def writeCell (id : Nat) (v : Value) : Run Unit := do
  match ← Act.askStore fun s => s.cells[id]? with
  | some (.live i) => setSlot i v
  | some (.closed _) => Act.updateStore (Store.setCell id (.closed v))
  | none => pure ()

/-- The open cell of a slot, which all functions that capture the slot share. -/
def openCell (index : Nat) : Run Nat := do
  match ← Act.ask fun s => openCell? index s.machine.openCells with
  | some id => pure id
  | none =>
    let id ← Act.onStore (Store.newCell (.live index))
    Act.update fun s => s.mapMachine fun m =>
      { m with openCells := insertOpen ⟨index, id⟩ m.openCells }
    return id

/-- Closes the cells of all slots from `height` on. -/
def closeSlots (height : Nat) : Run Unit := Act.update (State.closeFrom height)

/-- The cells a new function captures, as the pairs of bytes from an offset on say. The answer holds
the offset after them. -/
def captures (a : Activation) (acc : Array Nat) : (count ip : Nat) → Run (Array Nat × Nat)
  | 0, ip => pure (acc, ip)
  | count + 1, ip => do
    match a.closure.proto.chunk.code[ip]?, a.closure.proto.chunk.code[ip + 1]? with
    | some isLocal, some index =>
      let id ← if isLocal = 0 then cellOf a index.toNat else openCell (a.base + index.toNat)
      captures a (acc.push id) count (ip + 2)
    | _, _ => fail Chunk.pastEnd

end Machine

end TwinLisp
