import TwinLisp.Machine.Step
import TwinLisp.Proofs.Bytecode.WellFormed

/-! A machine whose variables are cells and nothing else. Each slot of a running function has a cell of
its own from the moment it has got its value until an instruction takes the slot away; a value that
comes to the slot later is another variable and has another cell. Locals are read and written in their
cells, functions take over the cells of what they capture, and there is nothing to be opened or closed:
the instruction that closes cells does nothing, and whatever becomes of the stack, cells stay.

* `Activation.cell?`: the cell of a slot. The cells of the slots of a function stand behind those that
  the function has captured.
* `Ideal.settle`: slots that have got their values get their cells.
* `Instruction.spares`, `Ideal.release`: slots that are taken away lose theirs.
* `Ideal.step`: one instruction. -/

namespace TwinLisp

/-- How many slots of a frame of some height an instruction does not take away: those below the values
that it takes. Those that write a variable leave the value where it is, and a `recur` takes the
variables it gives new values to. -/
def Instruction.spares (i : Instruction) (height : Nat) : Nat :=
  match i.op with
  | .setLocal | .setUpvalue | .setVar => height
  | .recur => i.second
  | _ => height - i.takes

namespace Activation

def withCells (a : Activation) (cells : Array Nat) : Activation :=
  { a with closure := { a.closure with cells := cells } }

/-- How many slots have a cell. -/
def shown (a : Activation) : Nat := a.closure.cells.size - a.closure.proto.captures.size

/-- Only the first slots keep their cells. -/
def keeping (count : Nat) (a : Activation) : Activation :=
  a.withCells (a.closure.cells.take (a.closure.proto.captures.size + count))

/-- The cell of a slot of the stack. -/
def cell? (a : Activation) (x : Nat) : Option Nat :=
  if a.base ≤ x then a.closure.cells[a.closure.proto.captures.size + (x - a.base)]? else none

end Activation

/-- What a cell holds that is no slot. -/
def Store.content? (store : Store) (id : Nat) : Option Value :=
  match store.cells[id]? with
  | some (.closed v) => some v
  | _ => none

namespace Machine.Ideal

open Run (fail ofFault)

/-- Slots of the running function without a cell get a new one, with their value in it. All slots of the
running function show what is in their cells. -/
def settle (s : State) : State :=
  match s.machine.frames.back? with
  | none => s
  | some a =>
    let values := s.machine.stack.extract (a.base + a.shown) s.machine.stack.size
    let a := a.withCells (a.closure.cells ++ Array.range' s.store.cells.size values.size)
    let store := { s.store with cells := s.store.cells ++ values.map Cell.closed }
    { s with
      store := store
      machine := { s.machine with
        stack := s.machine.stack.mapIdx fun x v => ((a.cell? x).bind store.content?).getD v
        frames := s.machine.frames.pop.push a } }

/-- Only the first slots of the running function keep their cells. -/
def release (count : Nat) : Run Unit :=
  Act.update fun s => s.mapMachine (mapFrames fun frames =>
    frames.modify (frames.size - 1) (Activation.keeping count))

/-- The cell of a slot of a function. -/
def slotCell (a : Activation) (index : Nat) : Run Nat :=
  cellOf a (a.closure.proto.captures.size + index)

/-- The cells a new function captures. Those of slots are taken over. -/
def captures (a : Activation) (acc : Array Nat) : (count ip : Nat) → Run (Array Nat × Nat)
  | 0, ip => pure (acc, ip)
  | count + 1, ip => do
    match a.closure.proto.chunk.code[ip]?, a.closure.proto.chunk.code[ip + 1]? with
    | some isLocal, some index =>
      let id ← if isLocal = 0 then cellOf a index.toNat else slotCell a index.toNat
      captures a (acc.push id) count (ip + 2)
    | _, _ => fail Chunk.pastEnd

def makeClosure (a : Activation) (i : Instruction) : Run Unit := do
  match a.closure.proto.subs[i.operand]? with
  | none => fail (.general ("Sub-function " ++ toString i.operand ++ " out of range"))
  | some p =>
    let (cells, next) ← captures a #[] p.captures.size i.next
    goTo next
    let id ← Act.onStore (Store.newClosure ⟨p, cells⟩)
    push (.closure id p.name)

/-- Executes an instruction of the running function, all of whose slots have cells. -/
def exec (call : Caller) (entry : Nat) (a : Activation) (i : Instruction) : Run (Option Value) :=
  match i.op with
  | .getLocal => do
    push (← readCell (← slotCell a i.operand))
    return none
  | .setLocal => do
    let id ← slotCell a i.operand
    writeCell id (← top)
    return none
  | .closeUpvalue => return none
  | .closure => do
    makeClosure a i
    return none
  | _ => Machine.exec call entry a i

/-- One instruction, once all slots of the running function have cells. -/
def advance (call : Caller) (entry : Nat) : Run (Option Value) := do
  let a ← running
  Act.within (.ofLine (line a)) do
    tick
    let i ← ofFault (a.closure.proto.chunk.fetch a.ip)
    goTo i.next
    let height ← Act.ask fun s => s.machine.stack.size
    release (i.spares (height - a.base))
    exec call entry a i

def step (call : Caller) (entry : Nat) : Run (Option Value) := do
  Act.update settle
  advance call entry

end Machine.Ideal

end TwinLisp
