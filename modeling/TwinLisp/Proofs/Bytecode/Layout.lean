import TwinLisp.Proofs.Bytecode.WellFormed

/-! How the code of a program lies in finished functions. The relations follow the expressions: the
code of an expression stands between two offsets, begins at some height of the stack and leaves one
more value. All operands are whole numbers here, so a layout also says that none of them was cut to
the width it has in the code.

* `Shape`: the height of the stack above the base of a frame, and the locals in it.
* `Captured`, `Accesses`: where a name is found.
* `Lays` and its companions: the code of an expression, of several, of a body, of bindings. -/

namespace TwinLisp

/-- The frame of a function at some place of its code, the latest local first. -/
structure Shape where
  height : Nat
  locals : List LocalVar

namespace Shape

def up (σ : Shape) (n : Nat) : Shape := ⟨σ.height + n, σ.locals⟩

@[simp] theorem height_up (σ : Shape) (n : Nat) : (σ.up n).height = σ.height + n := rfl

@[simp] theorem locals_up (σ : Shape) (n : Nat) : (σ.up n).locals = σ.locals := rfl

@[simp] theorem up_zero (σ : Shape) : σ.up 0 = σ := rfl

theorem up_up (σ : Shape) (m n : Nat) : (σ.up m).up n = σ.up (m + n) := by
  simp [up, Nat.add_assoc]

/-- The frame after its topmost value has become a local. -/
def bind (σ : Shape) (v : LocalVar) : Shape := ⟨σ.height + 1, v :: σ.locals⟩

end Shape

/-- The names known at a place of a function: the variables it captures and its locals. -/
structure Scene where
  captures : Array Capture
  locals : List LocalVar

def LocalVar.latest? (name : String) (vs : List LocalVar) : Option LocalVar :=
  vs.find? fun v => v.name == name

/-- A name as a variable that a function inside the scenes captures. -/
inductive Captured (name : String) : List Scene → Capture → Prop
  | near {captures locals outer v i} (hf : LocalVar.latest? name locals = some v)
    (hc : v.captured = true) (hi : i.toNat = v.slot) :
    Captured name (⟨captures, locals⟩ :: outer) ⟨true, i⟩
  | far {captures locals outer c i} (hf : LocalVar.latest? name locals = none)
    (hc : captures[i.toNat]? = some c) (h : Captured name outer c) :
    Captured name (⟨captures, locals⟩ :: outer) ⟨false, i⟩

/-- Where `recur` goes, and the locals there. -/
structure Target extends RecurTarget where
  locals : List LocalVar

def Proto.Has (p : Proto) (k : Nat) (op : Opcode) (n : Nat) : Prop :=
  p.chunk.fetch k = .ok ⟨op, n, k + 1 + op.width⟩

/-- The instruction at an offset has the line of a place. -/
def Proto.Placed (p : Proto) (k : Nat) (span : Span) : Prop :=
  p.chunk.lines[k]? = some span.line

/-- An instruction that reads or writes a name, of one kind for locals and of another for captured
variables. -/
inductive Accesses (p : Proto) (outer : List Scene) (locals : List LocalVar) (name : String)
    (near far : Opcode) (k : Nat) : Prop
  | slot {v} (hf : LocalVar.latest? name locals = some v) (h : p.Has k near v.slot)
  | capture {i c} (hf : LocalVar.latest? name locals = none) (hc : p.captures[i]? = some c)
    (hn : Captured name outer c) (h : p.Has k far i)

/-- An instruction that pushes a constant. -/
inductive Loads (p : Proto) (k : Nat) : Value → Nat → Prop
  | nil (h : p.Has k .nil 0) : Loads p k .nil (k + 1)
  | true (h : p.Has k .true 0) : Loads p k (.bool true) (k + 1)
  | false (h : p.Has k .false 0) : Loads p k (.bool false) (k + 1)
  | const {v n} (hn : p.chunk.constants[n]? = some v) (h : p.Has k .const n) : Loads p k v (k + 3)

/-- The end of a scope with some locals: those that were captured are closed first. -/
inductive Leaves (p : Proto) (k : Nat) : List LocalVar → Nat → Prop
  | none : Leaves p k [] k
  | plain {vs} (hn : vs ≠ []) (hc : ∀ v ∈ vs, v.captured = false) (h : p.Has k .popN vs.length) :
    Leaves p k vs (k + 2)
  | closing {vs slot} (hm : ∃ v ∈ vs, v.captured = true ∧ v.slot = slot)
    (hl : ∀ v ∈ vs, v.captured = true → slot ≤ v.slot) (hc : p.Has k .closeUpvalue slot)
    (h : p.Has (k + 2) .popN vs.length) : Leaves p k vs (k + 4)

/-- Values on top of the stack become locals, the lowest of them first. -/
inductive Declares : List String → Shape → Shape → Prop
  | nil {σ} : Declares [] σ σ
  | cons {names σ τ v} (hs : v.slot = σ.height) (h : Declares names (σ.bind v) τ) :
    Declares (v.name :: names) σ τ

mutual

/-- The code of an expression in a function, inside the scenes of those around it. -/
inductive Lays : Proto → List Scene → Option Target → Shape → Expr → Nat → Nat → Prop
  | literal {p outer T σ v span k m} (h : Loads p k v m) :
    Lays p outer T σ (.literal v span) k m
  | quote {p outer T σ v span k m} (h : Loads p k v m) : Lays p outer T σ (.quote v span) k m
  | vector {p outer T σ items span k m} (h : LaysAll p outer T σ items k m)
    (ho : p.Has m .vector items.length) : Lays p outer T σ (.vector items span) k (m + 3)
  | set {p outer T σ items span k m} (h : LaysAll p outer T σ items k m)
    (ho : p.Has m .set items.length) (hs : p.Placed m span) :
    Lays p outer T σ (.set items span) k (m + 3)
  | map {p outer T σ items span k m} (he : items.length % 2 = 0)
    (h : LaysAll p outer T σ items k m) (ho : p.Has m .map (items.length / 2))
    (hs : p.Placed m span) : Lays p outer T σ (.map items span) k (m + 3)
  | localRef {p outer T σ b span k}
    (h : Accesses p outer σ.locals b.name .getLocal .getUpvalue k) :
    Lays p outer T σ (.localRef b span) k (k + 2)
  | varRef {p outer T σ v span k n} (hn : p.chunk.constants[n]? = some (.var v))
    (h : p.Has k .getVar n) (hs : p.Placed k span) : Lays p outer T σ (.varRef v span) k (k + 3)
  | theVar {p outer T σ v span k n} (hn : p.chunk.constants[n]? = some (.var v))
    (h : p.Has k .const n) : Lays p outer T σ (.theVar v span) k (k + 3)
  | cond {p outer T σ test yes no span k a b m d e} (ht : Lays p outer T σ test k a)
    (hj : p.Has a .jumpIfFalse d) (hd : a + 3 + d = b + 3) (hd' : d < 32768)
    (hy : Lays p outer T σ yes (a + 3) b) (hj' : p.Has b .jump e) (he : b + 3 + e = m)
    (he' : e < 32768) (hn : LaysElse p outer T σ no (b + 3) m) :
    Lays p outer T σ (.cond test yes no span) k m
  | block {p outer T σ body span k m} (h : LaysBody p outer T σ body k m) :
    Lays p outer T σ (.block body span) k m
  | letIn {p outer T σ τ vs bindings body span k a b m}
    (hb : LaysBindings p outer T σ bindings k a τ) (hv : τ.locals = vs ++ σ.locals)
    (hl : vs.length = bindings.length) (h : LaysBody p outer T τ body a b) (he : Leaves p b vs m) :
    Lays p outer T σ (.letIn bindings body span) k m
  | loop {p outer T σ τ vs bindings body span k a b m}
    (hb : LaysBindings p outer T σ bindings k a τ) (hv : τ.locals = vs ++ σ.locals)
    (hl : vs.length = bindings.length)
    (h : LaysBody p outer (some ⟨⟨a, σ.height, bindings.length⟩, τ.locals⟩) τ body a b)
    (he : Leaves p b vs m) : Lays p outer T σ (.loop bindings body span) k m
  | recur {p outer t σ args span k m d} (hn : args.length = t.arity)
    (h : LaysAll p outer (some t) σ args k m)
    (hr : p.Has m .recur (args.length * 256 + t.firstSlot)) (hs : t.firstSlot < 256)
    (hl : p.Has (m + 3) .loop d) (hd : t.start + d = m + 6) :
    Lays p outer (some t) σ (.recur args span) k (m + 6)
  | fn {p outer T σ name arities fspan compiled span k n q} (hq : p.subs[n]? = some q)
    (hs : q.name = name.getD "fn")
    (h : LaysFn q (⟨p.captures, σ.locals⟩ :: outer) (name.getD "") arities)
    (hc : ∀ c ∈ q.captures, ∃ x, Captured x (⟨p.captures, σ.locals⟩ :: outer) c)
    (ho : p.Has k .closure n) (hp : p.HasPairs (k + 3) q.captures) :
    Lays p outer T σ (.fn ⟨name, arities, fspan, compiled⟩ span) k (k + 3 + 2 * q.captures.size)
  | declared {p outer T σ v span k n} (hn : p.chunk.constants[n]? = some (.var v))
    (h : p.Has k .const n) : Lays p outer T σ (.define v none span) k (k + 3)
  | define {p outer T σ v e span k m n n'} (h : Lays p outer T σ e k m)
    (hn : p.chunk.constants[n]? = some (.var v)) (hs : p.Has m .setVar n)
    (hp : p.Has (m + 3) .pop 0) (hn' : p.chunk.constants[n']? = some (.var v))
    (hc : p.Has (m + 4) .const n') : Lays p outer T σ (.define v (some e) span) k (m + 7)
  | setLocal {p outer T σ b e span k m} (h : Lays p outer T σ e k m)
    (ha : Accesses p outer σ.locals b.name .setLocal .setUpvalue m) :
    Lays p outer T σ (.setLocal b e span) k (m + 2)
  | setVar {p outer T σ v e span k m n} (h : Lays p outer T σ e k m)
    (hn : p.chunk.constants[n]? = some (.var v)) (hs : p.Has m .setVar n) :
    Lays p outer T σ (.setVar v e span) k (m + 3)
  | intrinsic {p outer T σ callee args span k m o} (hi : intrinsic? callee args.length = some o)
    (h : LaysAll p outer T σ args k m) (ho : p.Has m o 0) (hs : p.Placed m span) :
    Lays p outer T σ (.call callee args span) k (m + 1)
  | call {p outer T σ callee args span k a m} (hi : intrinsic? callee args.length = none)
    (hf : Lays p outer T σ callee k a) (h : LaysAll p outer T (σ.up 1) args a m)
    (ho : p.Has m .call args.length) (hs : p.Placed m span) :
    Lays p outer T σ (.call callee args span) k (m + 2)

/-- The code of expressions whose values stay on the stack. -/
inductive LaysAll : Proto → List Scene → Option Target → Shape → List Expr → Nat → Nat → Prop
  | nil {p outer T σ k} : LaysAll p outer T σ [] k k
  | cons {p outer T σ e rest k a m} (h : Lays p outer T σ e k a)
    (hr : LaysAll p outer T (σ.up 1) rest a m) : LaysAll p outer T σ (e :: rest) k m

/-- The code of a body, of which the last value is kept. -/
inductive LaysBody : Proto → List Scene → Option Target → Shape → List Expr → Nat → Nat → Prop
  | nil {p outer T σ k} (h : p.Has k .nil 0) : LaysBody p outer T σ [] k (k + 1)
  | last {p outer T σ e k m} (h : Lays p outer T σ e k m) : LaysBody p outer T σ [e] k m
  | cons {p outer T σ e e' rest k a m} (h : Lays p outer T σ e k a) (hp : p.Has a .pop 0)
    (hr : LaysBody p outer T σ (e' :: rest) (a + 1) m) :
    LaysBody p outer T σ (e :: e' :: rest) k m

inductive LaysElse : Proto → List Scene → Option Target → Shape → Option Expr → Nat → Nat → Prop
  | none {p outer T σ k} (h : p.Has k .nil 0) : LaysElse p outer T σ none k (k + 1)
  | some {p outer T σ e k m} (h : Lays p outer T σ e k m) : LaysElse p outer T σ (some e) k m

/-- The code of bindings, and the frame after them. -/
inductive LaysBindings :
    Proto → List Scene → Option Target → Shape → List (Bound Expr) → Nat → Nat → Shape → Prop
  | nil {p outer T σ k} : LaysBindings p outer T σ [] k k σ
  | cons {p outer T σ τ init rest v k a m} (h : Lays p outer T σ init k a)
    (hs : v.slot = σ.height) (hr : LaysBindings p outer T (σ.bind v) rest a m τ) :
    LaysBindings p outer T σ (⟨v.name, init⟩ :: rest) k m τ

/-- The code of a function, inside the scenes of those around it. -/
inductive LaysFn : Proto → List Scene → String → List (Arity Expr) → Prop
  | mk {p outer self params body v τ m} (ha : p.arity = params.length) (hv : v.name = self)
    (hs : v.slot = 0) (hd : Declares params ⟨1, [v]⟩ τ)
    (h : LaysBody p outer (some ⟨⟨0, 1, params.length⟩, τ.locals⟩) τ body 0 m)
    (hr : p.Has m .ret 0) (hm : p.chunk.size = m + 1) :
    LaysFn p outer self [⟨params, false, body⟩]

end

/-- The code of a whole form, which is a function without parameters. -/
structure LaysForm (p : Proto) (e : Expr) : Prop where
  arity : p.arity = 0
  code : ∃ v m, v.slot = 0 ∧ Lays p [] none ⟨1, [v]⟩ e 0 m ∧ p.Has m .ret 0 ∧ p.chunk.size = m + 1

/-- A function of a program, with all functions inside it. -/
inductive Proto.Laid : Proto → Prop
  | mk {p : Proto} {outer : List Scene} {self : String} {arities : List (Arity Expr)}
    (h : LaysFn p outer self arities) (hs : ∀ q ∈ p.subs, q.Laid) : p.Laid

end TwinLisp
