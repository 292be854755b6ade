import TwinLisp.Proofs.Expr.Lined
import TwinLisp.Proofs.Parity.Strict

/-! A tree walker beside an interpreter that runs bytecode. The variables of the first are cells by name;
those of the second are such cells as well, or cells of the machine whose slots are cells. The functions
of the first are all interpreted, those of the second may be compiled.

* `Parity.Ties`: which variables and functions correspond, and what else the second relies on.
* `Parity.Bonds`: states that agree with a world.
* `Bonds.link`, `Bonds.pin`, `Bonds.set` and so on: the changes that both make.
* `Parity.coupling`: the coupling. -/

namespace TwinLisp

/-- A cell for a name and its value, as `Locals.named` makes them. -/
def Store.IsNamed (s : Store) (k : Nat) (name : String) (above : Option Nat) (v : Value) : Prop :=
  ∃ f, s.frames[k]? = some f ∧ f.slots = #[.symbol name, v] ∧ f.parent = above

/-- A store with more in it. -/
structure Store.Persists (s s' : Store) : Prop where
  frames : ∀ {k : Nat} {f : Frame}, s.frames[k]? = some f → s'.frames[k]? = some f
  cells : ∀ {k : Nat} {c : Cell}, s.cells[k]? = some c → s'.cells[k]? = some c
  functions : ∀ {k : Nat} {f : Function}, s.functions[k]? = some f → s'.functions[k]? = some f
  closures : ∀ {k : Nat} {c : Closure}, s.closures[k]? = some c → s'.closures[k]? = some c

theorem Store.Persists.refl (s : Store) : s.Persists s := ⟨fun h => h, fun h => h, fun h => h, fun h => h⟩

theorem Store.Persists.trans {s₁ s₂ s₃ : Store} (h : s₁.Persists s₂) (h' : s₂.Persists s₃) : s₁.Persists s₃ :=
  ⟨fun hf => h'.frames (h.frames hf), fun hf => h'.cells (h.cells hf),
    fun hf => h'.functions (h.functions hf), fun hf => h'.closures (h.closures hf)⟩

theorem getElem?_snoc {α : Type} {xs : List α} {y : α} {k : Nat} {x : α}
    (h : (xs ++ [y])[k]? = some x) : xs[k]? = some x ∨ k = xs.length ∧ x = y := by
  rw [List.getElem?_append] at h
  split at h
  · exact .inl h
  · next hk =>
    rw [List.getElem?_singleton] at h
    split at h
    · cases h
      exact .inr ⟨by omega, rfl⟩
    · cases h

theorem Array.getElem?_push_of_some {α : Type} {xs : Array α} {y : α} {k : Nat} {x : α}
    (h : xs[k]? = some x) : (xs.push y)[k]? = some x := by
  obtain ⟨hk, rfl⟩ := Array.getElem?_eq_some_iff.mp h
  rw [Array.getElem?_push_lt hk]

namespace Parity

/-! ## Ties -/

/-- Where the second keeps a variable of the first. -/
inductive Place where
  /-- A cell by name, with the cell before it. -/
  | scope (id : Nat) (above : Option Nat)
  | cell (id : Nat)
  /-- The cell of a running function itself, which it has in all rounds of its body. -/
  | self (id : Nat)

namespace Place

def key : Place → Bool × Nat
  | scope id _ => (false, id)
  | cell id | self id => (true, id)

def Holds (t : Store) (name : String) (v : Value) : Place → Prop
  | scope id above => t.IsNamed id name above v
  | cell id | self id => t.content? id = some v

end Place

/-- A variable of the first: its name, the variable before it, and where the second keeps it. -/
structure Link where
  name : String
  above : Option Nat
  place : Place

/-- What corresponds in both. -/
structure Ties where
  links : List Link
  /-- The functions of the second for those of the first, and what they are shown as. -/
  functions : List ((Bool × Nat) × String)
  distinct : (functions.map Prod.fst).Nodup
  /-- Cells of the second whose values do not change. -/
  pins : List (Nat × Value)
  /-- Vars that hold the natives they were made for. -/
  natives : Var → Prop

namespace Ties

/-- The renamings that send the functions of the first to those of the second. -/
def Ext (w : Ties) (ρ : Renaming) : Prop :=
  ∀ {i : Nat} {b : Bool × Nat} {name : String}, w.functions[i]? = some (b, name) →
    ρ.map (false, i) = b ∧ ρ.label (false, i) name = name

def Sends (w : Ties) (x y : Value) : Prop := ∀ ρ, w.Ext ρ → ρ.Sends x y

structure Le (v w : Ties) : Prop where
  links : v.links <+: w.links
  functions : v.functions <+: w.functions
  pins : ∀ p ∈ v.pins, p ∈ w.pins
  natives : ∀ x, v.natives x → w.natives x

theorem Le.refl (w : Ties) : w.Le w :=
  ⟨List.prefix_rfl, List.prefix_rfl, fun _ h => h, fun _ h => h⟩

theorem Le.trans {u v w : Ties} (h : u.Le v) (h' : v.Le w) : u.Le w :=
  ⟨h.links.trans h'.links, h.functions.trans h'.functions, fun p hp => h'.pins p (h.pins p hp),
    fun x hx => h'.natives x (h.natives x hx)⟩

variable {v w : Ties}

theorem Le.getLink (h : v.Le w) {k : Nat} {l : Link} (hl : v.links[k]? = some l) :
    w.links[k]? = some l := Chart.getElem?_mono h.links hl

theorem Le.getFunction (h : v.Le w) {k : Nat} {p : (Bool × Nat) × String}
    (hp : v.functions[k]? = some p) : w.functions[k]? = some p := Chart.getElem?_mono h.functions hp

theorem Ext.anti (h : v.Le w) {ρ : Renaming} (hρ : w.Ext ρ) : v.Ext ρ := fun hi =>
  hρ (h.getFunction hi)

theorem Sends.mono (h : v.Le w) {x y : Value} (hx : v.Sends x y) : w.Sends x y := fun ρ hρ =>
  hx ρ (hρ.anti h)

/-- Moves the functions that are known to where they are, and all others beyond them. -/
def move (w : Ties) (n : Nat) (i : Bool × Nat) : Bool × Nat :=
  if i.1 then (true, i.2 + n) else (w.functions[i.2]?.map Prod.fst).getD (false, i.2 + n)

theorem exists_beyond (w : Ties) : ∃ n, ∀ p ∈ w.functions, p.1.2 < n := by
  induction w.functions with
  | nil => exact ⟨0, nofun⟩
  | cons p rest ih =>
    obtain ⟨n, hn⟩ := ih
    refine ⟨max n (p.1.2 + 1), fun q hq => ?_⟩
    rcases List.mem_cons.mp hq with rfl | hq
    · omega
    · have := hn q hq
      omega

section Move

variable {n : Nat} (hn : ∀ p ∈ w.functions, p.1.2 < n)

include hn

theorem move_known {i : Nat} {p : (Bool × Nat) × String} (hi : w.functions[i]? = some p) :
    w.move n (false, i) = p.1 ∧ p.1.2 < n := by
  refine ⟨?_, hn p (List.mem_of_getElem? hi)⟩
  simp [move, hi]

omit hn in
theorem move_unknown {i : Bool × Nat} (hi : i.1 = true ∨ w.functions[i.2]? = none) :
    w.move n i = (i.1, i.2 + n) := by
  obtain ⟨engine, i⟩ := i
  rcases hi with rfl | hi
  · rfl
  · cases engine <;> simp_all [move]

theorem injective_move : Function.Injective (w.move n) := by
  have hcase : ∀ i : Bool × Nat, (i.1 = true ∨ w.functions[i.2]? = none) ∨
      ∃ k p, i = (false, k) ∧ w.functions[k]? = some p := by
    rintro ⟨engine, i⟩
    cases engine with
    | true => exact .inl (.inl rfl)
    | false =>
      cases hi : w.functions[i]? with
      | none => exact .inl (.inr rfl)
      | some p => exact .inr ⟨i, p, rfl, hi⟩
  intro i j h
  rcases hcase i with hi | ⟨i, p, rfl, hi⟩ <;> rcases hcase j with hj | ⟨j, q, rfl, hj⟩
  · rw [move_unknown hi, move_unknown hj, Prod.mk.injEq] at h
    exact Prod.ext h.1 (by omega)
  · obtain ⟨e, hlt⟩ := move_known hn hj
    rw [move_unknown hi, e] at h
    rw [← h] at hlt
    exact absurd hlt (by simp)
  · obtain ⟨e, hlt⟩ := move_known hn hi
    rw [move_unknown hj, e] at h
    rw [h] at hlt
    exact absurd hlt (by simp)
  · rw [(move_known hn hi).1, (move_known hn hj).1] at h
    have hi' : (w.functions.map Prod.fst)[i]? = some p.1 := by rw [List.getElem?_map, hi]; rfl
    have hj' : (w.functions.map Prod.fst)[j]? = some p.1 := by rw [List.getElem?_map, hj, h]; rfl
    obtain ⟨hi, ei⟩ := List.getElem?_eq_some_iff.mp hi'
    obtain ⟨hj, ej⟩ := List.getElem?_eq_some_iff.mp hj'
    rw [(List.Nodup.getElem_inj_iff w.distinct).mp (ei.trans ej.symm)]

theorem ext_move (label : Bool × Nat → String → String)
    (hl : ∀ {i b name}, w.functions[i]? = some (b, name) → label (false, i) name = name) :
    w.Ext ⟨w.move n, injective_move hn, label⟩ := fun hi => ⟨(move_known hn hi).1, hl hi⟩

end Move

theorem exists_plain (w : Ties) : ∃ ρ, w.Ext ρ ∧ ρ.Plain :=
  have ⟨_, hn⟩ := w.exists_beyond
  ⟨_, ext_move hn (fun _ name => name) fun _ => rfl, fun _ _ => rfl⟩

/-- A function of the first is known, by the name that it is shown as. -/
theorem Sends.known {i : Nat} {name : String} {y : Value} (h : w.Sends (.fn i name) y) :
    ∃ b, w.functions[i]? = some (b, name) ∧ y = .ofIdentity b name := by
  obtain ⟨n, hn⟩ := w.exists_beyond
  have hplain : y = .ofIdentity (w.move n (false, i)) name :=
    h _ (ext_move hn (fun _ name => name) fun _ => rfl)
  cases hi : w.functions[i]? with
  | none =>
    have hn' : ∀ p ∈ w.functions, p.1.2 < n + 1 := fun p hp => Nat.lt_succ_of_lt (hn p hp)
    have hnext : y = .ofIdentity (w.move (n + 1) (false, i)) name :=
      h _ (ext_move hn' (fun _ name => name) fun _ => rfl)
    rw [move_unknown (.inr hi)] at hplain hnext
    rw [hplain] at hnext
    injection hnext
    omega
  | some p =>
    obtain ⟨b, shown⟩ := p
    rw [(move_known hn hi).1] at hplain
    by_cases hname : name = shown
    · exact ⟨b, by rw [hname], hplain⟩
    · let label : Bool × Nat → String → String := fun j m =>
        if w.functions[j.2]?.map Prod.snd = some m then m else m ++ "x"
      have hlabel : label (false, i) name = name ++ "x" := by
        simp only [label, hi, Option.map_some, Option.some.injEq, Ne.symm hname, if_false]
      have hother : y = .ofIdentity (w.move n (false, i)) (label (false, i) name) :=
        h _ (ext_move hn label fun {j b m} hj => by
          simp only [label, hj, Option.map_some, if_true])
      rw [(move_known hn hi).1, hlabel, hplain] at hother
      have hne : name ≠ name ++ "x" := fun e => by
        have := congrArg String.length e
        rw [String.length_append, show "x".length = 1 from rfl] at this
        omega
      obtain ⟨engine, j⟩ := b
      cases engine <;> (injection hother with _ e; exact absurd e hne)

theorem Sends.closure {i : Nat} {name : String} {y : Value} : ¬ w.Sends (.closure i name) y := by
  intro h
  obtain ⟨n, hn⟩ := w.exists_beyond
  have hn' : ∀ p ∈ w.functions, p.1.2 < n + 1 := fun p hp => Nat.lt_succ_of_lt (hn p hp)
  have hplain : y = .ofIdentity (w.move n (true, i)) name :=
    h _ (ext_move hn (fun _ name => name) fun _ => rfl)
  have hnext : y = .ofIdentity (w.move (n + 1) (true, i)) name :=
    h _ (ext_move hn' (fun _ name => name) fun _ => rfl)
  rw [move_unknown (.inl rfl)] at hplain hnext
  rw [hplain] at hnext
  injection hnext
  omega

/-- A cell about which nothing is known. -/
def Free (w : Ties) (c : Nat) : Prop :=
  (∀ l ∈ w.links, l.place.key ≠ (true, c)) ∧ ∀ p ∈ w.pins, p.1 ≠ c

def link (w : Ties) (l : Link) : Ties := { w with links := w.links ++ [l] }

def pin (w : Ties) (c : Nat) (v : Value) : Ties := { w with pins := (c, v) :: w.pins }

def trust (w : Ties) (good : Var → Bool) : Ties :=
  { w with natives := fun v => w.natives v ∨ good v = true }

def make (w : Ties) (b : Bool × Nat) (name : String) (hb : b ∉ w.functions.map Prod.fst) : Ties :=
  { w with
    functions := w.functions ++ [(b, name)]
    distinct := by
      rw [List.map_append]
      refine List.Nodup.append w.distinct (List.nodup_singleton _) ?_
      simpa using hb }

section Larger

variable (w : Ties)

theorem le_link (l : Link) : w.Le (w.link l) :=
  ⟨List.prefix_append _ _, List.prefix_rfl, fun _ h => h, fun _ h => h⟩

theorem le_pin (c : Nat) (v : Value) : w.Le (w.pin c v) :=
  ⟨List.prefix_rfl, List.prefix_rfl, fun _ h => List.mem_cons_of_mem _ h, fun _ h => h⟩

theorem le_trust (good : Var → Bool) : w.Le (w.trust good) :=
  ⟨List.prefix_rfl, List.prefix_rfl, fun _ h => h, fun _ h => .inl h⟩

theorem le_make {b : Bool × Nat} (hb : b ∉ w.functions.map Prod.fst) (name : String) :
    w.Le (w.make b name hb) :=
  ⟨List.prefix_rfl, List.prefix_append _ _, fun _ h => h, fun _ h => h⟩

theorem sends_make {b : Bool × Nat} (hb : b ∉ w.functions.map Prod.fst) (name : String) :
    (w.make b name hb).Sends (.fn w.functions.length name) (.ofIdentity b name) := fun ρ hρ => by
  obtain ⟨hm, hl⟩ := @hρ w.functions.length b name (by simp [make])
  rw [Renaming.Sends, Value.rename, hm, hl]

end Larger

end Ties

/-! ## What a name stands for -/

/-- The variable that a name stands for, from some variable on. -/
inductive Seek (links : List Link) (name : String) : Option Nat → Nat → Prop
  | here {k l} (hl : links[k]? = some l) (hn : l.name = name) : Seek links name (some k) k
  | above {k j l d} (hl : links[k]? = some l) (hn : l.name ≠ name) (ha : l.above = some j)
    (hj : j < k) (h : Seek links name (some j) d) : Seek links name (some k) d

/-- Scopes of interpreted functions that correspond. -/
inductive Env (w : Ties) : Scopes → Option Nat → Option Nat → Prop
  | outermost : Env w [] none none
  | scope {sc i j} (h : Env w sc i j) : Env w ([] :: sc) i j
  | name {names sc i j d k name} (h : Env w (names :: sc) i j)
    (hd : w.links[d]? = some ⟨name, i, .scope k j⟩) (hi : ∀ i', i = some i' → i' < d)
    (hj : ∀ j', j = some j' → j' < k) : Env w ((name :: names) :: sc) (some d) (some k)

namespace Ties

variable {v w : Ties}

/-- Compiled code finds a variable in a cell. In the cell of a function itself it finds the function by
its own name alone. -/
def Finds (w : Ties) (i : Option Nat) (ks : Owned) (name : String) (c : Nat) : Prop :=
  ∃ d l, Seek w.links name i d ∧ w.links[d]? = some l ∧
    (l.place = .cell c ∨ l.place = .self c ∧ ks.owns name = true)

/-- A function has captured the variables that its code uses. -/
def Captures (w : Ties) (i : Option Nat) (sc : Scopes) (ks : Owned) (outer : List Scene)
    (captures : Array Capture) (cells : Array Nat) : Prop :=
  ∀ {name : String} {b : Binding} {k : Nat} {cap : Capture}, sc.find? name = some b →
    captures[k]? = some cap → Captured name outer cap →
    ∃ c, cells[k]? = some c ∧ w.Finds i ks name c

end Ties

theorem Seek.mono {links links' : List Link} (hle : links <+: links') {name : String}
    {i : Option Nat} {d : Nat} (h : Seek links name i d) : Seek links' name i d := by
  induction h with
  | here hl hn => exact .here (Chart.getElem?_mono hle hl) hn
  | above hl hn ha hj _ ih => exact .above (Chart.getElem?_mono hle hl) hn ha hj ih

theorem Seek.lt {links : List Link} {name : String} {k d : Nat} (h : Seek links name (some k) d) :
    k < links.length := by
  cases h with
  | here hl | above hl => exact (List.getElem?_eq_some_iff.mp hl).1

theorem Env.mono {v w : Ties} (hle : v.Le w) {sc : Scopes} {i j : Option Nat} (h : Env v sc i j) :
    Env w sc i j := by
  induction h with
  | outermost => exact .outermost
  | scope _ ih => exact .scope ih
  | name _ hd hi hj ih => exact .name ih (hle.getLink hd) hi hj

theorem Ties.Finds.mono {v w : Ties} (hle : v.Le w) {i : Option Nat} {ks : Owned} {name : String}
    {c : Nat} (h : v.Finds i ks name c) : w.Finds i ks name c :=
  let ⟨d, l, hs, hl, hp⟩ := h
  ⟨d, l, hs.mono hle.links, hle.getLink hl, hp⟩

theorem Ties.Captures.mono {v w : Ties} (hle : v.Le w) {i : Option Nat} {sc : Scopes} {ks : Owned}
    {outer : List Scene} {captures : Array Capture} {cells : Array Nat}
    (h : v.Captures i sc ks outer captures cells) : w.Captures i sc ks outer captures cells :=
  fun hb hc hn =>
    have ⟨c, hi, hf⟩ := h hb hc hn
    ⟨c, hi, hf.mono hle⟩

/-! ## Functions -/

/-- The rules for the programs of the second: literals have lines, and may have the bytecode that the
compiler makes for them. -/
def rules : Expr.Rules :=
  ⟨fun sc f => (f.Formed ∧ (f.mapBytecode fun _ => none).Lined) ∧ ∀ p, f.compiled = some p →
    FnLiteral.Parsed .bare sc { f with compiled := none } ∧ Proto.ofFn f = .ok p, True⟩

/-- A function of the second that stands for one of the first, which is shown by a name. -/
inductive Twin (w : Ties) (t : Store) (f : Function) (name : String) : Bool × Nat → Prop
  | interpreted {g l sc j} (hg : t.functions[j]? = some ⟨g, l⟩)
    (hf : f.literal = g.mapBytecode fun _ => none) (hp : g.Parsed rules sc)
    (he : Env w sc f.frame l) : Twin w t f name (false, j)
  | compiled {q cells outer sc ks j} (hq : t.closures[j]? = some ⟨q, cells⟩) (hn : q.name = name)
    (hl : LaysFn q outer (f.literal.name.getD "") f.literal.arities)
    (hs : cells.size = q.captures.size) (hp : f.literal.Parsed .bare sc)
    (hc : w.Captures f.frame sc ks outer q.captures cells)
    (hk : ks = [] ∨ ∃ good : Var → Bool, (∀ v, good v = true → w.natives v) ∧
      f.literal.steady good ks = true) (hline : f.literal.Lined) : Twin w t f name (true, j)

theorem Twin.mono {v w : Ties} (hle : v.Le w) {t t' : Store} (ht : t.Persists t') {f : Function}
    {name : String} {b : Bool × Nat} (h : Twin v t f name b) : Twin w t' f name b := by
  cases h with
  | interpreted hg hf hp he => exact .interpreted (ht.functions hg) hf hp (he.mono hle)
  | compiled hq hn hl hs hp hc hk hline =>
    refine .compiled (ht.closures hq) hn hl hs hp (hc.mono hle) ?_ hline
    exact hk.imp_right fun ⟨good, hg, hs⟩ => ⟨good, fun x hx => hle.natives x (hg x hx), hs⟩

/-! ## States -/

/-- A variable of the first is where the link says, with a value that corresponds. -/
def Linked (w : Ties) (s t : Store) (k : Nat) (l : Link) : Prop :=
  ∃ v v', s.IsNamed k l.name l.above v ∧ l.place.Holds t l.name v' ∧ w.Sends v v'

/-- States that agree as a world says. -/
structure Bonds (w : Ties) (s t : State) : Prop where
  frames : s.store.frames.size = w.links.length
  linked : ∀ {k : Nat} {l : Link}, w.links[k]? = some l → Linked w s.store t.store k l
  apart : ∀ {k k' : Nat} {l l' : Link}, w.links[k]? = some l → w.links[k']? = some l' →
    l.place.key = l'.place.key → k = k' ∨ ∃ c, l.place = .self c ∧ l'.place = .self c
  pinned : ∀ {c : Nat} {v : Value}, (c, v) ∈ w.pins →
    t.store.content? c = some v ∧ ∀ l ∈ w.links, l.place ≠ .cell c
  functions : s.store.functions.size = w.functions.length
  function : ∀ {i : Nat} {b : Bool × Nat} {name : String}, w.functions[i]? = some (b, name) →
    ∃ f, s.store.functions[i]? = some f ∧ Twin w t.store f name b
  genuine : ∀ v, w.natives v → s.store.isNative v = true
  names : t.names = s.names
  gensyms : t.gensyms = s.gensyms
  output : t.output = s.output
  raised : t.store.raised = s.store.raised
  vars : ∀ ρ, w.Ext ρ → t.store.vars = s.store.vars.map (Definition.rename ρ)
  config : t.config = s.config

/-- The second has got more, and nothing else has changed but the machine. -/
structure Enlarged (t t' : State) : Prop where
  store : t.store.Persists t'.store
  vars : t'.store.vars = t.store.vars
  raised : t'.store.raised = t.store.raised
  names : t'.names = t.names
  gensyms : t'.gensyms = t.gensyms
  output : t'.output = t.output
  config : t'.config = t.config

section Stores

variable {s s' t t' : Store} {w w' : Ties}

theorem content?_persists (h : t.Persists t') {c : Nat} {v : Value} (hc : t.content? c = some v) :
    t'.content? c = some v := by
  unfold Store.content? at hc ⊢
  cases he : t.cells[c]? with
  | none => simp [he] at hc
  | some x => rw [h.cells he]; simpa [he] using hc

theorem Place.Holds.persists (h : t.Persists t') {p : Place} {name : String} {v : Value}
    (hp : p.Holds t name v) : p.Holds t' name v := by
  cases p with
  | scope => exact let ⟨f, hf, hr⟩ := hp; ⟨f, h.frames hf, hr⟩
  | cell | self => exact content?_persists h hp

theorem Linked.persists (hw : w.Le w') (hs : s.Persists s') (ht : t.Persists t') {k : Nat} {l : Link}
    (h : Linked w s t k l) : Linked w' s' t' k l :=
  let ⟨v, v', ⟨f, hf, hr⟩, hp, hv⟩ := h
  ⟨v, v', ⟨f, hs.frames hf, hr⟩, hp.persists ht, hv.mono hw⟩

end Stores

theorem Enlarged.refl (t : State) : Enlarged t t := ⟨.refl _, rfl, rfl, rfl, rfl, rfl, rfl⟩

theorem Enlarged.trans {t t' t'' : State} (h : Enlarged t t') (h' : Enlarged t' t'') :
    Enlarged t t'' :=
  ⟨h.store.trans h'.store, h'.vars.trans h.vars, h'.raised.trans h.raised, h'.names.trans h.names,
    h'.gensyms.trans h.gensyms, h'.output.trans h.output, h'.config.trans h.config⟩

namespace Bonds

variable {w : Ties} {s t t' : State} (h : Bonds w s t)

include h

theorem enlarge (ht : Enlarged t t') : Bonds w s t' where
  frames := h.frames
  linked hk := (h.linked hk).persists (.refl w) (.refl _) ht.store
  apart := h.apart
  pinned hp := ⟨content?_persists ht.store (h.pinned hp).1, (h.pinned hp).2⟩
  functions := h.functions
  function hi := let ⟨f, hf, hg⟩ := h.function hi; ⟨f, hf, hg.mono (.refl w) ht.store⟩
  genuine := h.genuine
  names := ht.names.trans h.names
  gensyms := ht.gensyms.trans h.gensyms
  output := ht.output.trans h.output
  raised := ht.raised.trans h.raised
  vars ρ hρ := ht.vars.trans (h.vars ρ hρ)
  config := ht.config.trans h.config

omit h in
theorem frame_lt (h : Bonds w s t) {d : Nat} {l : Link} (hl : w.links[d]? = some l) {k : Nat}
    {j : Option Nat} (hp : l.place = .scope k j) : k < t.store.frames.size := by
  obtain ⟨v, v', -, hv, -⟩ := h.linked hl
  rw [hp] at hv
  obtain ⟨f, hf, -⟩ := hv
  exact (Array.getElem?_eq_some_iff.mp hf).1

theorem free {c : Nat} (hc : t.store.cells.size ≤ c) : w.Free c := by
  have hnone : ∀ v, t.store.content? c ≠ some v := fun v hv => by
    rw [Store.content?, Array.getElem?_eq_none hc] at hv
    cases hv
  refine ⟨fun l hl e => ?_, fun p hp e => ?_⟩
  · obtain ⟨k, hk⟩ := List.mem_iff_getElem?.mp hl
    obtain ⟨v, v', -, hv, -⟩ := h.linked hk
    cases hp : l.place with
    | scope => rw [hp] at e; cases e
    | cell d | self d =>
      rw [hp] at hv e
      cases e
      exact hnone _ hv
  · obtain ⟨d, v⟩ := p
    cases e
    exact hnone v (h.pinned hp).1

theorem link (name : String) (i : Option Nat) {x y : Value} {p : Place} (ht : Enlarged t t')
    (hp : p.Holds t'.store name y) (hx : w.Sends x y)
    (hkey : ∀ l ∈ w.links, l.place.key = p.key → ∃ c, l.place = .self c ∧ p = .self c)
    (hpin : ∀ q ∈ w.pins, p ≠ .cell q.1) :
    Bonds (w.link ⟨name, i, p⟩)
      { s with store := (s.store.newFrame i #[.symbol name, x]).2 } t' := by
  have h' := h.enlarge ht
  have hle := w.le_link ⟨name, i, p⟩
  have hs : s.store.Persists (s.store.newFrame i #[.symbol name, x]).2 :=
    ⟨fun hf => Array.getElem?_push_of_some hf, fun h => h, fun h => h, fun h => h⟩
  have hcases : ∀ {k : Nat} {l : Link}, (w.links ++ [⟨name, i, p⟩])[k]? = some l →
      w.links[k]? = some l ∨ k = w.links.length ∧ l = ⟨name, i, p⟩ := fun hk => getElem?_snoc hk
  refine { h' with
    frames := by simp [Store.newFrame, Ties.link, h.frames]
    linked := fun hk => ?_
    apart := fun hk hk' e => ?_
    pinned := fun hq => ⟨(h'.pinned hq).1, fun l hl => ?_⟩
    function := fun hi => let ⟨f, hf, hg⟩ := h'.function hi; ⟨f, hf, hg.mono hle (.refl _)⟩ }
  · rcases hcases hk with hk | ⟨rfl, rfl⟩
    · exact (h'.linked hk).persists hle hs (.refl _)
    · refine ⟨x, y, ⟨⟨#[.symbol name, x], i, s.store.depthBelow i⟩, ?_, rfl, rfl⟩, hp, hx.mono hle⟩
      rw [← h.frames]
      exact Array.getElem?_push_size
  · rcases hcases hk with hk | ⟨rfl, rfl⟩ <;> rcases hcases hk' with hk' | ⟨rfl, rfl⟩
    · exact h.apart hk hk' e
    · exact .inr (hkey _ (List.mem_of_getElem? hk) e)
    · obtain ⟨c, hc, hc'⟩ := hkey _ (List.mem_of_getElem? hk') e.symm
      exact .inr ⟨c, hc', hc⟩
    · exact .inl rfl
  · rcases List.mem_append.mp hl with hl | hl
    · exact (h'.pinned hq).2 l hl
    · cases List.mem_singleton.mp hl
      exact hpin _ hq

theorem pin {c : Nat} {v : Value} (hc : t.store.content? c = some v)
    (hfree : ∀ l ∈ w.links, l.place ≠ .cell c) : Bonds (w.pin c v) s t :=
  { h with
    pinned := fun hp => by
      rcases List.mem_cons.mp hp with e | hp
      · cases e
        exact ⟨hc, hfree⟩
      · exact h.pinned hp
    linked := fun hk => (h.linked hk).persists (w.le_pin c v) (.refl _) (.refl _)
    function := fun hi =>
      let ⟨f, hf, hg⟩ := h.function hi
      ⟨f, hf, hg.mono (w.le_pin c v) (.refl _)⟩ }

theorem trust {good : Var → Bool} (hg : ∀ v, good v = true → s.store.isNative v = true) :
    Bonds (w.trust good) s t :=
  { h with
    genuine := fun v hv => hv.elim (h.genuine v) (hg v)
    linked := fun hk => (h.linked hk).persists (w.le_trust good) (.refl _) (.refl _)
    function := fun hi =>
      let ⟨f, hf, hg⟩ := h.function hi
      ⟨f, hf, hg.mono (w.le_trust good) (.refl _)⟩ }

theorem new {b : Bool × Nat}
    (hb : (if b.1 then t.store.closures.size else t.store.functions.size) ≤ b.2) :
    b ∉ w.functions.map Prod.fst := by
  intro hm
  obtain ⟨⟨b', name⟩, hp, rfl⟩ := List.mem_map.mp hm
  obtain ⟨i, hi⟩ := List.mem_iff_getElem?.mp hp
  obtain ⟨f, -, hg⟩ := h.function hi
  cases hg with
  | interpreted hg =>
    have := (Array.getElem?_eq_some_iff.mp hg).1
    simp only [Bool.false_eq_true, if_false] at hb
    omega
  | compiled hq =>
    have := (Array.getElem?_eq_some_iff.mp hq).1
    simp only [if_true] at hb
    omega

theorem make {b : Bool × Nat} {name : String} (hb : b ∉ w.functions.map Prod.fst) {f : Function}
    (ht : Enlarged t t') (hf : Twin w t'.store f name b) :
    Bonds (w.make b name hb) { s with store := (s.store.newFunction f).2 } t' := by
  have h' := h.enlarge ht
  have hle := w.le_make hb name
  refine { h' with
    linked := fun hk => (h'.linked hk).persists hle (.refl _) (.refl _)
    functions := by simp [Store.newFunction, Ties.make, h.functions]
    function := fun hi => ?_
    vars := fun ρ hρ => h'.vars ρ (hρ.anti hle) }
  rcases getElem?_snoc hi with hi | ⟨rfl, e⟩
  · obtain ⟨g, hg, hgf⟩ := h'.function hi
    exact ⟨g, Array.getElem?_push_of_some hg, hgf.mono hle (.refl _)⟩
  · cases e
    refine ⟨f, ?_, hf.mono hle (.refl _)⟩
    rw [← h.functions]
    exact Array.getElem?_push_size

/-! ### Vars -/

theorem change {s' : State} (hs : s.Besides s')
    (hg : ∀ v, w.natives v → s'.store.isNative v = true) (ht : t.Besides t')
    (hnames : t'.names = s'.names) (hgensyms : t'.gensyms = s'.gensyms)
    (houtput : t'.output = s'.output) (hraised : t'.store.raised = s'.store.raised)
    (hvars : ∀ ρ, w.Ext ρ → t'.store.vars = s'.store.vars.map (Definition.rename ρ)) :
    Bonds w s' t' := by
  have hstore : s'.store = { s.store with vars := s'.store.vars, raised := s'.store.raised } := by
    conv_lhs => rw [hs]
  have hstore' : t'.store = { t.store with vars := t'.store.vars, raised := t'.store.raised } := by
    conv_lhs => rw [ht]
  have hgrows : s.store.Persists s'.store := by
    rw [hstore]
    exact ⟨fun h => h, fun h => h, fun h => h, fun h => h⟩
  have hgrows' : t.store.Persists t'.store := by
    rw [hstore']
    exact ⟨fun h => h, fun h => h, fun h => h, fun h => h⟩
  exact {
    frames := by rw [hstore]; exact h.frames
    linked := fun hk => (h.linked hk).persists (.refl w) hgrows hgrows'
    apart := h.apart
    pinned := fun hp => ⟨content?_persists hgrows' (h.pinned hp).1, (h.pinned hp).2⟩
    functions := by rw [hstore]; exact h.functions
    function := fun hi =>
      let ⟨f, hf, hg⟩ := h.function hi
      ⟨f, hgrows.functions hf, hg.mono (.refl w) hgrows'⟩
    genuine := hg
    names := hnames
    gensyms := hgensyms
    output := houtput
    raised := hraised
    vars := hvars
    config := by rw [hs, ht]; exact h.config }

end Bonds

/-- A Var that holds its native still does so after an assignment that is admitted. -/
theorem isNative_setVar {s : Store} {u v : Var} {x : Value} (hu : s.isNative u = true)
    (hx : v.admits x = true) : (s.setVar v x).isNative u = true := by
  unfold Store.isNative at hu ⊢
  cases ho : u.operator? with
  | none => simp [ho] at hu
  | some op =>
    cases hy : s.varValue? u with
    | none => simp [ho, hy] at hu
    | some y =>
      simp only [ho, hy, Bool.and_eq_true] at hu
      by_cases hid : v.id = u.id
      · have hv : v.operator? = some op := by rw [← ho, Var.operator?, Var.operator?, hid]
        have hset : (s.setVar v x).varValue? u = some x := by
          unfold Store.varValue? at hy ⊢
          cases hd : s.vars[u.id]? with
          | none => simp [hd] at hy
          | some d => simp [Store.setVar, Array.getElem?_modify, hid, hd]
        rw [Var.admits, hv, Option.all_some] at hx
        simp only [hset, hu.1, hx, Bool.and_self]
      · have hset : (s.setVar v x).varValue? u = some y := by
          rw [← hy]
          simp [Store.varValue?, Store.setVar, Array.getElem?_modify, hid]
        simp only [hset, hu.1, hu.2, Bool.and_self]

theorem isNative_of_keeps {s s' : State} (h : s.Keeps s') {v : Var}
    (hv : s.store.isNative v = true) : s'.store.isNative v = true := by
  unfold Store.isNative at hv ⊢
  cases hy : s.store.varValue? v with
  | none => cases ho : v.operator? <;> simp [ho, hy] at hv
  | some y =>
    rw [h v y hy]
    rwa [hy] at hv

/-! ### Assignments -/

theorem isNamed_setSlot {s : Store} {k d : Nat} {name : String} {above : Option Nat} {v : Value}
    (h : s.IsNamed k name above v) (x : Value) :
    (s.setSlot d 1 x).IsNamed k name above (if d = k then x else v) := by
  obtain ⟨f, hf, hs, ha⟩ := h
  by_cases hd : d = k
  · subst hd
    refine ⟨{ f with slots := f.slots.setIfInBounds 1 x }, ?_, ?_, ha⟩
    · simp [Store.setSlot, Array.getElem?_modify, hf]
    · simp [hs]
  · refine ⟨f, ?_, ?_, ha⟩
    · simp [Store.setSlot, Array.getElem?_modify, hd, hf]
    · simp [hs, hd]

def Place.put (y : Value) (t : Store) : Place → Store
  | .scope id _ => t.setSlot id 1 y
  | .cell id | .self id => t.setCell id (.closed y)

theorem content?_setCell {t : Store} {c d : Nat} {v y : Value} (h : t.content? c = some v) :
    (t.setCell d (.closed y)).content? c = some (if d = c then y else v) := by
  unfold Store.content? at h ⊢
  cases hc : t.cells[c]? with
  | none => simp [hc] at h
  | some x =>
    have hlt := (Array.getElem?_eq_some_iff.mp hc).1
    by_cases hd : d = c
    · subst hd
      simp [Store.setCell, hlt]
    · simp only [Store.setCell, Array.getElem?_setIfInBounds, hd, if_false, hc]
      simpa [hc] using h

theorem Place.Holds.put {p q : Place} {t : Store} {name : String} {v : Value} (y : Value)
    (h : p.Holds t name v) : p.Holds (q.put y t) name (if q.key = p.key then y else v) := by
  cases p with
  | scope =>
    cases q with
    | scope =>
      have := isNamed_setSlot h y (d := ‹Nat›)
      simpa [Place.key, Place.put, Place.Holds] using this
    | cell | self => rw [if_neg nofun]; exact h
  | cell | self =>
    cases q with
    | scope => rw [if_neg nofun]; exact h
    | cell | self =>
      have := content?_setCell h (y := y) (d := ‹Nat›)
      simpa [Place.key, Place.put, Place.Holds] using this

theorem persists_put {p : Place} {t : Store} {y : Value} :
    (p.put y t).functions = t.functions ∧ (p.put y t).closures = t.closures ∧
      (p.put y t).vars = t.vars ∧ (p.put y t).raised = t.raised := by
  cases p <;> exact ⟨rfl, rfl, rfl, rfl⟩

theorem Twin.restore {w : Ties} {t t' : Store} (hf : t'.functions = t.functions)
    (hc : t'.closures = t.closures) {f : Function} {name : String} {b : Bool × Nat}
    (h : Twin w t f name b) : Twin w t' f name b := by
  cases h with
  | interpreted hg hl hp he => exact .interpreted (hf ▸ hg) hl hp he
  | compiled hq hn hl hs hp hk hg hline => exact .compiled (hc ▸ hq) hn hl hs hp hk hg hline

theorem Bonds.set {w : Ties} {s t : State} (h : Bonds w s t) {d : Nat} {l : Link}
    (hl : w.links[d]? = some l) (hp : ∀ c, l.place ≠ .self c) {x y : Value} (hx : w.Sends x y) :
    Bonds w { s with store := s.store.setSlot d 1 x } { t with store := l.place.put y t.store } := by
  obtain ⟨hfs, hcs, hvs, hrs⟩ := @persists_put l.place t.store y
  refine { h with
    frames := by simpa [Store.setSlot] using h.frames
    linked := fun {k l'} hk => ?_
    pinned := fun hq => ⟨?_, (h.pinned hq).2⟩
    function := fun hi => let ⟨f, hf, hg⟩ := h.function hi; ⟨f, hf, hg.restore hfs hcs⟩
    raised := hrs.trans h.raised
    vars := fun ρ hρ => hvs.trans (h.vars ρ hρ) }
  · obtain ⟨v, v', hv, hv', hs⟩ := h.linked hk
    refine ⟨_, _, isNamed_setSlot hv x, hv'.put y, ?_⟩
    by_cases hd : d = k
    · subst hd
      cases hl.symm.trans hk
      rwa [if_pos rfl, if_pos rfl]
    · rw [if_neg hd, if_neg]
      · exact hs
      · intro e
        rcases h.apart hl hk e with e | ⟨c, e, -⟩
        · exact hd e
        · exact hp c e
  · have hc := (h.pinned hq).1
    have hkey := (h.pinned hq).2 l (List.mem_of_getElem? hl)
    cases hpl : l.place with
    | scope => exact hc
    | cell c =>
      rw [hpl] at hkey
      have := content?_setCell hc (y := y) (d := c)
      rwa [if_neg fun e => hkey (congrArg Place.cell e)] at this
    | self c => exact absurd hpl (hp c)

/-! ## Looking names up -/

section Names

variable {w : Ties} {s t : State}

theorem Seek.found (h : Bonds w s t) {name : String} {i : Option Nat} {d : Nat}
    (hs : Seek w.links name i d) : s.store.cellOf? name i = some d := by
  have hcell : ∀ {k : Nat} {l : Link}, w.links[k]? = some l → ∃ f, s.store.frames[k]? = some f ∧
      f.isCellOf name = (l.name == name) ∧ f.parent = l.above := fun hl => by
    obtain ⟨v, -, ⟨f, hf, hslots, ha⟩, -⟩ := h.linked hl
    exact ⟨f, hf, by simp [Frame.isCellOf, hslots], ha⟩
  have hnear : ∀ fuel, i.elim 0 Nat.succ ≤ fuel → s.store.nearest? name fuel i = some d := by
    induction hs with
    | here hl hn =>
      intro fuel hfuel
      obtain ⟨fuel, rfl⟩ := Nat.exists_eq_add_of_le' (Nat.lt_of_lt_of_le (Nat.succ_pos _) hfuel)
      obtain ⟨f, hf, hc, -⟩ := hcell hl
      rw [Store.nearest?, hf]
      simp [hc, hn]
    | above hl hn ha hj _ ih =>
      intro fuel hfuel
      obtain ⟨fuel, rfl⟩ := Nat.exists_eq_add_of_le' (Nat.lt_of_lt_of_le (Nat.succ_pos _) hfuel)
      obtain ⟨f, hf, hc, hp⟩ := hcell hl
      rw [Store.nearest?, hf]
      simp only [hc, beq_iff_eq, hn, if_false, hp, ha]
      exact ih fuel (Nat.le_trans hj (Nat.le_of_succ_le_succ hfuel))
  exact hnear _ (Nat.le_refl _)

theorem Env.lt {sc : Scopes} {i : Nat} {j : Option Nat} (he : Env w sc (some i) j) :
    i < w.links.length := by
  generalize hi : some i = i' at he
  induction he with
  | outermost => cases hi
  | scope _ ih => exact ih hi
  | name _ hd =>
    cases hi
    exact (List.getElem?_eq_some_iff.mp hd).1

theorem Env.lt' (h : Bonds w s t) {sc : Scopes} {i : Option Nat} {j : Nat}
    (he : Env w sc i (some j)) : j < t.store.frames.size := by
  generalize hj : some j = j' at he
  induction he with
  | outermost => cases hj
  | scope _ ih => exact ih hj
  | name _ hd =>
    cases hj
    exact h.frame_lt hd rfl

theorem Bonds.slot_of_link (h : Bonds w s t) {d : Nat} {l : Link} (hl : w.links[d]? = some l) :
    ∃ v v', s.store.slot? d 1 = some v ∧ l.place.Holds t.store l.name v' ∧ w.Sends v v' := by
  obtain ⟨v, v', ⟨f, hf, hslots, -⟩, hp, hv⟩ := h.linked hl
  exact ⟨v, v', by simp [Store.slot?, hf, hslots], hp, hv⟩

theorem Env.find (h : Bonds w s t) {sc : Scopes} {i j : Option Nat} (he : Env w sc i j)
    {name : String} {b : Binding} (hb : sc.find? name = some b) :
    ∃ d l k a, Seek w.links name i d ∧ w.links[d]? = some l ∧ l.place = .scope k a ∧
      ∀ fuel, j.elim 0 Nat.succ ≤ fuel → t.store.nearest? name fuel j = some k := by
  induction he generalizing b with
  | outermost => cases hb
  | scope _ ih => exact ih hb
  | @name names sc i j d k n he hd hi hj ih =>
    obtain ⟨v, v', -, ⟨f, hf, hslots, ha⟩, -⟩ := h.linked hd
    have hc : f.isCellOf name = (n == name) := by simp [Frame.isCellOf, hslots]
    have hnext : ∀ fuel, k + 1 ≤ fuel → ∃ fuel', fuel = fuel' + 1 ∧ k ≤ fuel' := fun fuel hfuel =>
      ⟨fuel - 1, by omega, by omega⟩
    rw [Scopes.find?_cons_cons] at hb
    by_cases hn : n = name
    · refine ⟨d, _, k, j, .here hd hn, hd, rfl, fun fuel hfuel => ?_⟩
      obtain ⟨fuel, rfl, -⟩ := hnext fuel hfuel
      rw [Store.nearest?, hf]
      simp [hc, hn]
    · rw [if_neg (by simpa using hn)] at hb
      obtain ⟨d', l, k', a, hs, hl, hp, hnear⟩ := ih hb
      obtain ⟨i', rfl⟩ : ∃ i', i = some i' := by
        cases hs with
        | here | above => exact ⟨_, rfl⟩
      refine ⟨d', l, k', a, .above hd hn rfl (hi i' rfl) hs, hl, hp, fun fuel hfuel => ?_⟩
      obtain ⟨fuel, rfl, hk⟩ := hnext fuel hfuel
      rw [Store.nearest?, hf]
      simp only [hc, beq_iff_eq, hn, if_false, ha]
      refine hnear fuel ?_
      cases j with
      | none => exact Nat.zero_le _
      | some j' => exact Nat.le_trans (hj j' rfl) hk

end Names

end Parity

end TwinLisp
