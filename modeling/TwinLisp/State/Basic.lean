import TwinLisp.Config.Basic
import TwinLisp.Error.Failure
import TwinLisp.Machine.Basic
import TwinLisp.Names.Table
import TwinLisp.Store.Frames
/-!
The state of an interpreter, and actions on it. An action ends in a value or stops; what it did to
the state remains in either case. It stops with a fault of its phase, or because the fuel of the
evaluation ran out, which no program can catch.

* `State`: the store, which interpreters may share, and what belongs to one interpreter.
* `Act ε`: actions that can fail with an `ε`; `Run` and `Parse` are those of two phases.
* `Act.within`: fills in the place of a fault; `Act.caught`: makes a fault a value.
-/

namespace TwinLisp

structure State where
  store : Store
  names : Names
  config : Config
  mode : Mode
  /-- The machine at work; an idle one while no bytecode runs. -/
  machine : Machine
  /-- The interpreter's machine while it is not at work: put aside during calls that leave the
  machine, and taken up again by the runs nested in them. -/
  parked : Option Machine
  /-- Nested function calls in both engines. -/
  depth : Nat
  /-- The number of names made by `gensym`. -/
  gensyms : Nat
  /-- What has been printed. -/
  output : String
  /-- Reports of the compilation, the latest first. -/
  reports : List String

/-- Why an action has no value. -/
inductive Stop (ε : Type) where
  | raised (e : ε)
  | exhausted

/-- Actions that can fail with an `ε`. -/
abbrev Act (ε : Type) := EStateM (Stop ε) State

/-- Actions of a running program. -/
abbrev Run := Act RuntimeError

/-- Actions of the parser, which runs macros. -/
abbrev Parse := Act ParseError

namespace Act

variable {ε ζ α : Type}

def raise (e : ε) : Act ε α := fun s => .error (.raised e) s

def exhausted : Act ε α := fun s => .error .exhausted s

/-- An action whose fault is turned into one of another kind. -/
@[inline] def mapFault (f : ε → ζ) (a : Act ε α) : Act ζ α := fun s =>
  match a s with
  | .ok x s => .ok x s
  | .error (.raised e) s => .error (.raised (f e)) s
  | .error .exhausted s => .error .exhausted s

/-- An action whose fault is placed at `span` unless it has a place. -/
@[inline] def within {κ : Type} (span : Span) (a : Act (Located κ) α) : Act (Located κ) α :=
  mapFault (fun e => e.within span) a

/-- An action whose fault is its value. -/
@[inline] def caught (a : Act ε α) : Act ε (Except ε α) := fun s =>
  match a s with
  | .ok x s => .ok (.ok x) s
  | .error (.raised e) s => .ok (.error e) s
  | .error .exhausted s => .error .exhausted s

/-- Changes the state if the action has no value. -/
@[inline] def onStop (a : Act ε α) (change : State → State) : Act ε α := fun s =>
  match a s with
  | .ok x s => .ok x s
  | .error e s => .error e (change s)

/-- Changes the state whether or not the action has a value. -/
@[inline] def ending (a : Act ε α) (change : State → State) : Act ε α := fun s =>
  match a s with
  | .ok x s => .ok x (change s)
  | .error e s => .error e (change s)

@[inline] def ask (f : State → α) : Act ε α := fun s => .ok (f s) s

@[inline] def askStore (f : Store → α) : Act ε α := fun s => .ok (f s.store) s

@[inline] def update (f : State → State) : Act ε Unit := fun s => .ok () (f s)

@[inline] def onStore (f : Store → α × Store) : Act ε α :=
  fun ⟨store, names, config, mode, machine, parked, depth, gensyms, output, reports⟩ =>
    match f store with
    | (x, store) =>
      .ok x ⟨store, names, config, mode, machine, parked, depth, gensyms, output, reports⟩

@[inline] def updateStore (f : Store → Store) : Act ε Unit := onStore fun s => ((), f s)

/-- A result of computation as an action. -/
@[inline] def ofExcept : Except ε α → Act ε α
  | .ok x => pure x
  | .error e => raise e

end Act

namespace Run

variable {α : Type}

/-- Fails without a place. -/
def fail (f : RuntimeFault) : Run α := Act.raise f.bare

def failAt (f : RuntimeFault) (span : Span) : Run α := Act.raise ⟨f, span⟩

/-- A result of a computation that knows no places. -/
@[inline] def ofFault : Except RuntimeFault α → Run α
  | .ok x => pure x
  | .error f => fail f

/-- Counts one more nested call. -/
def enter (span : Span) : Run Unit := fun s =>
  if s.depth ≥ s.config.maxDepth then .error (.raised ⟨.stackOverflow, span⟩) s
  else .ok () { s with depth := s.depth + 1 }

def leave : Run Unit := Act.update fun s => { s with depth := s.depth - 1 }

def print (text : String) : Run Unit := Act.update fun s => { s with output := s.output ++ text }

/-- The value of a Var, which must be bound. -/
def deref (v : Var) (span : Span) : Run Value := do
  match ← Act.askStore (Store.varValue? v) with
  | some x => pure x
  | none => failAt (.unboundVar v.qualified) span

def assign (v : Var) (x : Value) : Run Unit := Act.updateStore (Store.setVar v x)

def newFrame (parent : Option Nat) (slots : Array Value) : Run Nat :=
  Act.onStore (Store.newFrame parent slots)

end Run

namespace Act

variable {ε : Type}

/-- A symbol name that was not made before: the text, a number and a mark. -/
def gensym (stem : String) : Act ε String := fun s =>
  .ok (stem ++ "__" ++ toString (s.gensyms + 1) ++ "__auto") { s with gensyms := s.gensyms + 1 }

/-- The Var of a name in a namespace, made if need be. -/
def internIn (ns name : String) : Act ε Var := fun s =>
  let names := s.names.ensure ns
  match names.find? ns name with
  | some v => .ok v { s with names := names }
  | none =>
    let (v, store) := s.store.newVar ns name
    .ok v { s with store := store, names := names.add v }

/-- The Var of a name in the current namespace, made if need be. -/
def intern (name : String) : Act ε Var := do internIn (← ask fun s => s.names.current) name

def resolve? (symbol : String) : Act ε (Option Var) := ask fun s => s.names.resolve? symbol

theorem bind_apply {α β : Type} (a : Act ε α) (f : α → Act ε β) (s : State) :
    (a >>= f) s = match a s with
      | .ok x s => f x s
      | .error e s => .error e s := by
  simp only [bind, EStateM.bind]
  cases a s <;> rfl

theorem bind_of_ok {α β : Type} {a : Act ε α} {x : α} {s s' : State} (h : a s = .ok x s')
    (f : α → Act ε β) : (a >>= f) s = f x s' := by
  rw [bind_apply, h]

end Act

namespace State

def bare (store : Store) (config : Config) : State :=
  ⟨store, .start, config, config.mode, .idle, none, 0, 0, "", []⟩

def define (owner : Nat) (s : State) : List Native → State
  | [] => s
  | op :: rest =>
    let (v, store) := s.store.newVar coreNamespace op.text
    let store := store.setVar v (.native owner op)
    define owner { s with store := store, names := s.names.add v } rest

/-- A new interpreter on a store. -/
def fresh (store : Store) (config : Config) : State :=
  let owner := store.owners
  define owner (bare { store with owners := owner + 1 } config) Native.all

end State

end TwinLisp
