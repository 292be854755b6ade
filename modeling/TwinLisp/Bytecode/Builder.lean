import TwinLisp.Bytecode.Chunk
/-!
The state of a compilation. Each function being built is a `Level`; its locals live in stack slots
counted from the frame's base, slot zero holding the function itself. The builder follows the height
of the stack: every expression leaves one value, so a local that is bound while operands are pending
gets the slot above them.

* `Level.declare`: the value on top of the stack becomes a local.
* `Level.closeScope`: the locals of the innermost scope are dropped from under its result; those
  that a nested function captured are closed first.
* `Builder.access`: where a name is found; a name of an outer function is captured by every
  function in between.
-/

namespace TwinLisp

/-- A local variable of a function being built. -/
structure LocalVar where
  name : String
  depth : Nat
  slot : Nat
  captured : Bool
  deriving DecidableEq, Repr

/-- Where `recur` jumps to and which slots it rebinds. -/
structure RecurTarget where
  start : Nat
  firstSlot : Nat
  arity : Nat
  deriving DecidableEq, Repr

/-- A function being built; the latest local is the first of `locals`. -/
structure Level where
  name : String
  arity : Nat
  chunk : Chunk
  locals : List LocalVar
  captures : Array Capture
  depth : Nat
  height : Nat
  target : Option RecurTarget
  subs : Array Proto

/-- How the running function reaches a local name. -/
inductive Access where
  | slot (index : UInt8)
  | capture (index : UInt8)
  deriving DecidableEq, Repr

namespace Level

def maxLocals : Nat := 256

def maxCaptures : Nat := 256

/-- A function without code. Its own name, where it has one, is the local of slot zero. -/
def start (name selfName : String) : Level :=
  ⟨name, 0, .empty, [⟨selfName, 0, 0, false⟩], #[], 0, 1, none, #[]⟩

def finish (l : Level) : Proto := ⟨l.name, l.arity, l.chunk, l.captures, l.subs⟩

@[inline] def mapChunk (f : Chunk → Chunk) : Level → Level
  | ⟨name, arity, chunk, locals, captures, depth, height, target, subs⟩ =>
    ⟨name, arity, f chunk, locals, captures, depth, height, target, subs⟩

/-- The value on top of the stack becomes a local. -/
def declare (name : String) (span : Span) (l : Level) : Except CompileError Level :=
  let slot := l.height - 1
  if l.locals.length ≥ maxLocals ∨ slot > 255 then .error ⟨.tooManyLocals, span⟩
  else .ok { l with locals := ⟨name, l.depth, slot, false⟩ :: l.locals }

/-- The latest local of a name. -/
def find? (name : String) (l : Level) : Option LocalVar :=
  l.locals.find? fun v => v.name == name

/-- Notes that a nested function captures the latest local of a name. -/
def markCaptured (name : String) (l : Level) : Level := { l with locals := mark l.locals }
where
  /-- Marks the first local of the name. -/
  mark : List LocalVar → List LocalVar
    | [] => []
    | v :: rest => if v.name == name then { v with captured := true } :: rest else v :: mark rest

/-- The index of a captured variable, which is added unless it is present. -/
def capture (c : Capture) (span : Span) (l : Level) : Except CompileError (UInt8 × Level) :=
  match l.captures.findIdx? (· == c) with
  | some i => .ok (UInt8.ofNat i, l)
  | none =>
    if l.captures.size ≥ maxCaptures then .error ⟨.tooManyUpvalues, span⟩
    else .ok (UInt8.ofNat l.captures.size, { l with captures := l.captures.push c })

def leastCaptured? (vs : List LocalVar) : Option Nat :=
  ((vs.filter LocalVar.captured).map LocalVar.slot).min?

/-- Leaves a scope: its locals are dropped from under its result. -/
def closeScope (span : Span) (l : Level) : Except CompileError Level :=
  let depth := l.depth - 1
  let removed := l.locals.takeWhile fun v => v.depth > depth
  let kept := l.locals.drop removed.length
  let l := { l with depth := depth, locals := kept }
  if removed.isEmpty then .ok l
  else
    let l := match leastCaptured? removed with
      | some slot => l.mapChunk fun c =>
        (c.writeOp .closeUpvalue span.line).writeByte (UInt8.ofNat slot) span.line
      | none => l
    if removed.length > 255 then .error ⟨.tooManyLocals, span⟩
    else
      let l := l.mapChunk fun c =>
        (c.writeOp .popN span.line).writeByte (UInt8.ofNat removed.length) span.line
      .ok { l with height := l.height - removed.length }

end Level

/-- The function being built and those around it, the innermost first. -/
structure Builder where
  level : Level
  enclosing : List Level

namespace Builder

/-- Looks a name up in the functions around. The answer is what the function inside them has to
capture; each function in between captures it too. -/
def captureFrom (name : String) (span : Span) :
    List Level → Except CompileError (Option Capture × List Level)
  | [] => .ok (none, [])
  | l :: outer =>
    match l.find? name with
    | some v => .ok (some ⟨true, UInt8.ofNat v.slot⟩, l.markCaptured name :: outer)
    | none =>
      match captureFrom name span outer with
      | .error e => .error e
      | .ok (none, outer) => .ok (none, l :: outer)
      | .ok (some c, outer) =>
        match l.capture c span with
        | .error e => .error e
        | .ok (i, l) => .ok (some ⟨false, i⟩, l :: outer)

/-- Where the running function finds a name: among its locals, or else captured from a function
around it. -/
def access (name : String) (span : Span) (b : Builder) : Except CompileError (Access × Builder) :=
  match b.level.find? name with
  | some v => .ok (.slot (UInt8.ofNat v.slot), b)
  | none =>
    match captureFrom name span b.enclosing with
    | .error e => .error e
    | .ok (none, _) => .error ⟨.unresolvedBinding name, span⟩
    | .ok (some c, enclosing) =>
      match b.level.capture c span with
      | .error e => .error e
      | .ok (i, level) => .ok (.capture i, ⟨level, enclosing⟩)

end Builder

/-- A step of a compilation. -/
abbrev Build := StateT Builder (Except CompileError)

namespace Build

@[inline] def onLevel (f : Level → Level) : Build Unit :=
  fun ⟨level, enclosing⟩ => .ok ((), ⟨f level, enclosing⟩)

/-- Changes the function being built, or fails. -/
@[inline] def onLevel? (f : Level → Except CompileError Level) : Build Unit :=
  fun ⟨level, enclosing⟩ =>
    match f level with
    | .ok level => .ok ((), ⟨level, enclosing⟩)
    | .error e => .error e

/-- Reads the function being built. -/
@[noinline] def ask {α : Type} (f : Level → α) : Build α := fun b => .ok (f b.level, b)

/-- Changes the code of the function being built. -/
@[inline] def onChunk (f : Chunk → Chunk) : Build Unit := onLevel (Level.mapChunk f)

def fail {α : Type} (cause : CompileFault) (span : Span) : Build α := fun _ => .error ⟨cause, span⟩

def op (o : Opcode) (span : Span) : Build Unit := onChunk fun c => c.writeOp o span.line

def byte (x : UInt8) (span : Span) : Build Unit := onChunk fun c => c.writeByte x span.line

def word (n : Nat) (span : Span) : Build Unit := onChunk fun c => c.writeWord n span.line

/-- An instruction with an operand of one byte. -/
def opByte (o : Opcode) (x : UInt8) (span : Span) : Build Unit :=
  onChunk fun c => (c.writeOp o span.line).writeByte x span.line

/-- An instruction with an operand of two bytes. -/
def opWord (o : Opcode) (n : Nat) (span : Span) : Build Unit :=
  onChunk fun c => (c.writeOp o span.line).writeWord n span.line

/-- An instruction whose operand is the index of a new constant. -/
def opConstant (o : Opcode) (v : Value) (span : Span) : Build Unit :=
  onLevel? fun ⟨name, arity, chunk, locals, captures, depth, height, target, subs⟩ =>
    match chunk.addConstant v span.line with
    | (.error e, _) => .error e
    | (.ok i, chunk) =>
      .ok ⟨name, arity, (chunk.writeOp o span.line).writeWord i span.line, locals, captures, depth,
        height, target, subs⟩

/-- A forward jump without target; the answer is the offset of its operand. -/
def jump (o : Opcode) (span : Span) : Build Nat := do
  onChunk fun c => (c.emitJump o span.line).2
  ask fun l => l.chunk.size - 2

/-- Lets a forward jump go to the end of the code. -/
def land (placeholder : Nat) : Build Unit :=
  onLevel? fun ⟨name, arity, chunk, locals, captures, depth, height, target, subs⟩ =>
    match chunk.patchJump placeholder with
    | .error e => .error e
    | .ok chunk => .ok ⟨name, arity, chunk, locals, captures, depth, height, target, subs⟩

/-- A jump back to an offset. -/
def loopTo (start : Nat) (span : Span) : Build Unit :=
  onLevel? fun ⟨name, arity, chunk, locals, captures, depth, height, target, subs⟩ =>
    match chunk.emitLoop start span.line with
    | (.error e, _) => .error e
    | (.ok (), chunk) => .ok ⟨name, arity, chunk, locals, captures, depth, height, target, subs⟩

def setHeight (n : Nat) : Build Unit := onLevel fun l => { l with height := n }

/-- Takes into account that one value has been dropped. -/
def dropped : Build Unit := onLevel fun l => { l with height := l.height - 1 }

/-- Runs a step that leaves exactly one value. -/
@[inline] def leavingOne (step : Build Unit) : Build Unit := do
  let base ← ask Level.height
  step
  setHeight (base + 1)

def openScope : Build Unit := onLevel fun l => { l with depth := l.depth + 1 }

def closeScope (span : Span) : Build Unit := onLevel? (Level.closeScope span)

def declare (name : String) (span : Span) : Build Unit := onLevel? (Level.declare name span)

/-- Declares parameters, whose values the caller has pushed. -/
def declareParams (span : Span) : List String → Build Unit
  | [] => pure ()
  | p :: rest => do
    onLevel fun l => { l with height := l.height + 1 }
    declare p span
    declareParams span rest

def setTarget (t : Option RecurTarget) : Build Unit := onLevel fun l => { l with target := t }

def access (name : String) (span : Span) : Build Access := Builder.access name span

def enter (name selfName : String) : Build Unit :=
  fun ⟨level, enclosing⟩ => .ok ((), ⟨Level.start name selfName, level :: enclosing⟩)

def leave : Build Proto := fun ⟨level, enclosing⟩ =>
  match enclosing with
  | outer :: rest => .ok (level.finish, ⟨outer, rest⟩)
  | [] => .ok (level.finish, ⟨level, []⟩)

/-- The pairs of bytes that say what a new closure captures. -/
def writeCaptures (span : Span) : List Capture → Build Unit
  | [] => pure ()
  | c :: rest => do
    byte (if c.isLocal then 1 else 0) span
    byte c.index span
    writeCaptures span rest

/-- Stores a nested function and emits the instruction that makes a closure of it. -/
def closure (p : Proto) (span : Span) : Build Unit := do
  let index ← ask fun l => l.subs.size
  if index > 65535 then fail .tooManyConstants span
  onLevel fun l => { l with subs := l.subs.push p }
  opWord .closure index span
  writeCaptures span p.captures.toList

end Build

end TwinLisp
