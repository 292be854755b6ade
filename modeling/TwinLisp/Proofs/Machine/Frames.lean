import TwinLisp.Proofs.Bytecode.Prototypes
import TwinLisp.Proofs.Machine.Alike
import TwinLisp.Proofs.Machine.Regular
import TwinLisp.Proofs.Watch.Basic

/-! The stack of a machine that runs well-formed code. Every frame but the running one waits for a
value: when it comes, the frame is as its outline says. Cells are open for captured slots only, and
whatever lies below a run is left alone, but for slots that have an open cell.

* `Layered`: frames that wait, each for the one above it.
* `Upon`: what a run leaves alone.
* `Stands`: a state at work, with an outline of what is above a base. -/

namespace TwinLisp

/-- The outlines of a well-formed function. -/
noncomputable def Proto.outline (p : Proto) : Nat → Outline :=
  open Classical in if h : ∃ S, p.Outlined S then h.choose else fun _ => ⟨0, []⟩

theorem Proto.WellFormed.outlined {p : Proto} (h : p.WellFormed) : p.Outlined p.outline := by
  cases h with
  | @mk _ S hS _ =>
    have hex : ∃ S, p.Outlined S := ⟨S, hS⟩
    unfold outline
    rw [dif_pos hex]
    exact hex.choose_spec

/-- A compiled function with a cell for each variable it captures. -/
structure Closure.Sound (c : Closure) : Prop where
  code : c.proto.Produced
  cells : c.cells.size = c.proto.captures.size

/-- The frame of a function where it stands. -/
noncomputable def Activation.outline (a : Activation) : Outline := a.closure.proto.outline a.ip

/-- The bytecode of a literal that stands alone. -/
def Compiled (_ : Scopes) (_ : FnLiteral Expr) (p : Proto) : Prop :=
  p.Produced ∧ p.captures = #[]

namespace Machine

open Act

/-! ## Open cells -/

theorem dropWhile_dropWhile_slot {m n : Nat} (h : m ≤ n) (cs : List OpenCell) :
    ((cs.dropWhile fun c => n ≤ c.slot).dropWhile fun c => m ≤ c.slot) =
      cs.dropWhile fun c => m ≤ c.slot := by
  induction cs with
  | nil => rfl
  | cons c rest ih =>
    by_cases hn : n ≤ c.slot
    · rw [List.dropWhile_cons_of_pos (by simpa using hn),
        List.dropWhile_cons_of_pos (by simpa using Nat.le_trans h hn), ih]
    · rw [List.dropWhile_cons_of_neg (by simpa using hn)]

theorem dropWhile_insertOpen {m : Nat} {c : OpenCell} (h : m ≤ c.slot) (cs : List OpenCell) :
    ((insertOpen c cs).dropWhile fun c => m ≤ c.slot) = cs.dropWhile fun c => m ≤ c.slot := by
  induction cs with
  | nil => rw [insertOpen, List.dropWhile_cons_of_pos (by simpa using h)]
  | cons d rest ih =>
    rw [insertOpen]
    split
    · rw [List.dropWhile_cons_of_pos (by simpa using h)]
    · have hd : m ≤ d.slot := by omega
      rw [List.dropWhile_cons_of_pos (by simpa using hd), ih,
        List.dropWhile_cons_of_pos (by simpa using hd)]

theorem dropWhile_of_low {n : Nat} {cs : List OpenCell} (h : ∀ c ∈ cs, c.slot < n) :
    (cs.dropWhile fun c => n ≤ c.slot) = cs := by
  cases cs with
  | nil => rfl
  | cons c rest =>
    have := h c List.mem_cons_self
    exact List.dropWhile_cons_of_neg (by simpa using this)

/-- A cell that lives after others have been closed has lived before and is none of them. -/
theorem live_of_closeCells {stack : Array Value} {store : Store} {cs : List OpenCell} {i slot : Nat}
    (h : (closeCells stack store cs).cells[i]? = some (.live slot)) :
    store.cells[i]? = some (.live slot) ∧ ∀ c ∈ cs, c.cell ≠ i := by
  induction cs generalizing store with
  | nil => exact ⟨h, nofun⟩
  | cons c rest ih =>
    obtain ⟨hl, hr⟩ := ih h
    have hne : c.cell ≠ i := by
      rintro rfl
      simp only [Store.setCell, Array.getElem?_setIfInBounds_self] at hl
      split at hl <;> cases hl
    refine ⟨?_, fun d hd => ?_⟩
    · rwa [Store.setCell, Array.getElem?_setIfInBounds_ne hne] at hl
    · rcases List.mem_cons.mp hd with rfl | hd
      · exact hne
      · exact hr d hd

/-- The open cells are the cells that live in slots. -/
structure Linked (cells : Array Cell) (cs : List OpenCell) : Prop where
  sound : Sound cells cs
  all : ∀ i slot, cells[i]? = some (.live slot) → ⟨slot, i⟩ ∈ cs

namespace Linked

theorem close {store : Store} {cs : List OpenCell} (h : Linked store.cells cs)
    (stack : Array Value) (height : Nat) :
    Linked (closeCells stack store (cs.takeWhile fun c => height ≤ c.slot)).cells
      (cs.dropWhile fun c => height ≤ c.slot) := by
  refine ⟨h.sound.close stack height, fun i slot hi => ?_⟩
  obtain ⟨hl, hne⟩ := live_of_closeCells hi
  have hm := h.all i slot hl
  refine (h.sound.mem_dropWhile height).mpr ⟨hm, ?_⟩
  by_contra hlt
  exact hne _ ((h.sound.mem_takeWhile height).mpr ⟨hm, Nat.not_lt.mp hlt⟩) rfl

theorem insertOpen {cells : Array Cell} {cs : List OpenCell} (h : Linked cells cs) {slot : Nat}
    (hn : openCell? slot cs = none) :
    Linked (cells.push (.live slot)) (Machine.insertOpen ⟨slot, cells.size⟩ cs) := by
  refine ⟨(h.sound.push _).insertOpen Array.getElem?_push_size hn, fun i k hi => ?_⟩
  rw [Array.getElem?_push] at hi
  split at hi
  · next he =>
    cases hi
    cases he
    exact Sound.mem_insertOpen.mpr (.inl rfl)
  · exact Sound.mem_insertOpen.mpr (.inr (h.all i k hi))

theorem setClosed {cells : Array Cell} {cs : List OpenCell} (h : Linked cells cs) {i : Nat}
    {u : Value} (hi : cells[i]? = some (.closed u)) (v : Value) :
    Linked (cells.setIfInBounds i (.closed v)) cs := by
  refine ⟨h.sound.setClosed hi _, fun j k hj => h.all j k ?_⟩
  by_cases hij : i = j
  · subst hij
    rw [Array.getElem?_setIfInBounds_self] at hj
    split at hj <;> cases hj
  · rwa [Array.getElem?_setIfInBounds_ne hij] at hj

end Linked

namespace Typed

/-! ## Frames -/

/-- A function stands between two instructions of its code. -/
structure Between (a : Activation) : Prop where
  sound : a.closure.Sound
  boundary : a.closure.proto.Boundary a.ip
  inside : a.ip < a.closure.proto.chunk.size

/-- A function that waits for a value, which will be put on the stack at `top`. -/
structure Waits (cs : List OpenCell) (a : Activation) (top : Nat) : Prop where
  between : Between a
  height : top + 1 = a.base + a.outline.height
  above : a.base ≤ top
  held : ∀ c ∈ cs, a.base ≤ c.slot → c.slot < top → c.slot - a.base ∈ a.outline.held

/-- Frames that wait: each for the one above it, the last for a value at `top`. -/
inductive Layered (cs : List OpenCell) : Array Activation → Nat → Prop
  | nil {top} : Layered cs #[] top
  | push {fs a top} (h : Layered cs fs a.base) (ha : Waits cs a top) : Layered cs (fs.push a) top

/-- Waiting frames do not mind what happens to cells above them. -/
theorem Layered.mono {cs cs' : List OpenCell} {fs : Array Activation} {top : Nat}
    (h : Layered cs fs top) (hc : ∀ c ∈ cs', c.slot < top → c ∈ cs) : Layered cs' fs top := by
  induction h with
  | nil => exact .nil
  | push _ ha ih =>
    refine .push (ih fun c hm hlt => hc c hm (Nat.lt_of_lt_of_le hlt ha.above)) ?_
    exact ⟨ha.between, ha.height, ha.above, fun c hm hle hlt => ha.held c (hc c hm hlt) hle hlt⟩

/-- What a run leaves alone of the machine it began on: frames apart, that is all below its base, but
for slots that have an open cell. -/
structure Upon (m m' : Machine) : Prop where
  stack : ∀ i < m.stack.size, m'.stack[i]? = m.stack[i]? ∨ ∃ c ∈ m.openCells, c.slot = i
  cells : (m'.openCells.dropWhile fun c => m.stack.size ≤ c.slot) = m.openCells

/-- The depth of calls is the number of interpreted and of counted compiled functions being called,
and no more than a limit. Only the lowest frame may not be counted. -/
structure Tally (calls limit : Nat) (fs : Array Activation) (d : Nat) : Prop where
  depth : d = calls + fs.countP (·.counted)
  bound : d ≤ limit
  frames : fs.size ≤ fs.countP (·.counted) + 1

namespace Tally

variable {calls limit d : Nat} {fs : Array Activation} {a : Activation}

theorem enter (h : Tally calls limit fs d) (hd : d < limit) :
    Tally (calls + 1) limit fs (d + 1) := by
  have := h.depth
  exact ⟨by omega, hd, h.frames⟩

theorem leave (h : Tally (calls + 1) limit fs (d + 1)) : Tally calls limit fs d := by
  have := h.depth
  have := h.bound
  exact ⟨by omega, by omega, h.frames⟩

theorem move (h : Tally calls limit (fs.push a) d) (ip : Nat) :
    Tally calls limit (fs.push { a with ip := ip }) d := by
  have hc : (fs.push { a with ip := ip }).countP (·.counted) = (fs.push a).countP (·.counted) := by
    rw [Array.countP_push, Array.countP_push]
  have hs : (fs.push { a with ip := ip }).size = (fs.push a).size := by
    rw [Array.size_push, Array.size_push]
  exact ⟨hc ▸ h.depth, h.bound, by rw [hc, hs]; exact h.frames⟩

theorem push (h : Tally calls limit fs d) (hd : d + a.counted.toNat ≤ limit)
    (ha : a.counted = false → fs = #[]) : Tally calls limit (fs.push a) (d + a.counted.toNat) := by
  have hdepth := h.depth
  have hframes := h.frames
  refine ⟨?_, hd, ?_⟩
  · rw [Array.countP_push]
    cases a.counted <;> simp <;> omega
  · rw [Array.countP_push, Array.size_push]
    cases hc : a.counted with
    | true => simpa using hframes
    | false =>
      rw [ha hc]
      simp

theorem pop (h : Tally calls limit (fs.push a) d) :
    Tally calls limit fs (d - a.counted.toNat) := by
  have hdepth := h.depth
  have hframes := h.frames
  have hbound := h.bound
  rw [Array.countP_push] at hdepth hframes
  rw [Array.size_push] at hframes
  refine ⟨?_, by omega, ?_⟩
  · cases hc : a.counted <;> simp [hc] at hdepth ⊢ <;> omega
  · cases hc : a.counted <;> simp [hc] at hframes ⊢ <;> omega

end Tally

/-- Where a run began: inside a number of calls of interpreted functions, on a machine and at a depth
of calls. -/
structure Ground where
  limits : Limits
  maxDepth : Nat
  calls : Nat
  machine : Machine
  depth : Nat

/-- The faults that may be raised: none of corrupt bytecode, and none for want of room for frames if
there is room for all nested calls and a whole form. -/
def Sane (limits : Limits) (maxDepth : Nat) (f : RuntimeFault) : Prop :=
  ¬ f.Corrupt ∧ (maxDepth + 1 ≤ limits.framesMax → ∀ n, f ≠ .frameOverflow n)

theorem sane_of_plain {limits : Limits} {maxDepth : Nat} {f : RuntimeFault} (h : f.Plain) :
    Sane limits maxDepth f := ⟨h.sound, fun _ => h.roomy⟩

def Ground.base (G : Ground) : Nat := G.machine.stack.size

/-- A state at work. On the stack of the machine, what lies above `base` is as an outline says, and
the frames of `waiting` wait for a value there. -/
structure Stands (G : Ground) (frames waiting : Array Activation) (base d : Nat) (o : Outline)
    (s : State) : Prop where
  limits : s.config.limits = G.limits
  maxDepth : s.config.maxDepth = G.maxDepth
  parked : s.parked = none
  literate : s.Literate Compiled
  closures : ∀ (i : Nat) c, s.store.closures[i]? = some c → c.Sound
  depth : s.depth = d
  tally : Tally G.calls G.maxDepth frames d
  frames : s.machine.frames = frames
  linked : Linked s.store.cells s.machine.openCells
  upon : Upon G.machine s.machine
  above : G.base ≤ base
  height : s.machine.stack.size = base + o.height
  held : ∀ c ∈ s.machine.openCells, base ≤ c.slot → c.slot - base ∈ o.held
  low : ∀ c ∈ s.machine.openCells, c.slot < s.machine.stack.size
  layered : Layered s.machine.openCells waiting base

/-- A run that has failed somewhere. -/
structure Broken (G : Ground) (s : State) : Prop where
  limits : s.config.limits = G.limits
  maxDepth : s.config.maxDepth = G.maxDepth
  parked : s.parked = none
  literate : s.Literate Compiled
  closures : ∀ (i : Nat) c, s.store.closures[i]? = some c → c.Sound
  frames : ∃ rest : Array Activation, s.machine.frames = G.machine.frames ++ rest
  linked : Linked s.store.cells s.machine.openCells
  upon : Upon G.machine s.machine
  above : G.base ≤ s.machine.stack.size

/-- What a fault leaves behind, and which faults there are. -/
def Fails (G : Ground) (e : RuntimeError) (s : State) : Prop :=
  Sane G.limits G.maxDepth e.cause ∧ Broken G s

variable {G : Ground} {frames waiting : Array Activation} {base d : Nat} {o : Outline}

/-- The frames of the run stand on those that were there before. -/
abbrev Rests (G : Ground) (frames : Array Activation) : Prop :=
  ∃ rest : Array Activation, frames = G.machine.frames ++ rest

namespace Stands

variable {s : State} (h : Stands G frames waiting base d o s)

include h

theorem broken (hr : Rests G frames) : Broken G s :=
  ⟨h.limits, h.maxDepth, h.parked, h.literate, h.closures, h.frames.symm ▸ hr, h.linked, h.upon,
    Nat.le_trans h.above (h.height ▸ Nat.le_add_right _ _)⟩

theorem into {o' : Outline} (ho : o.Into o') : Stands G frames waiting base d o' s :=
  { h with
    height := by rw [h.height, ho.height]
    held := fun c hc hle => ho.held _ (h.held c hc hle) }

theorem mapStack {f : Array Value → Array Value} {n : Nat}
    (hn : (f s.machine.stack).size = base + n) (hk : ∀ c ∈ s.machine.openCells, c.slot < base + n)
    (hv : ∀ i < base, (f s.machine.stack)[i]? = s.machine.stack[i]?) :
    Stands G frames waiting base d ⟨n, o.held⟩ (s.mapMachine (Machine.mapStack f)) :=
  { h with
    upon := ⟨fun i hi => by
      rcases h.upon.stack i hi with he | hc
      · exact .inl ((hv i (Nat.lt_of_lt_of_le hi h.above)).trans he)
      · exact .inr hc, h.upon.cells⟩
    height := hn
    low := fun c hc => by
      change c.slot < (f s.machine.stack).size
      rw [hn]
      exact hk c hc }

/-- Cells are open below a height that all captured slots lie below. -/
theorem slot_lt {n : Nat} (hk : ∀ i ∈ o.held, i < n) :
    ∀ c ∈ s.machine.openCells, c.slot < base + n := by
  intro c hc
  by_cases hb : base ≤ c.slot
  · have := hk _ (h.held c hc hb)
    omega
  · omega

/-- Another value in a slot, which may be lower if it has an open cell. -/
theorem setSlot {i : Nat} (hi : base ≤ i ∨ ∃ c ∈ s.machine.openCells, c.slot = i) (v : Value) :
    Stands G frames waiting base d o
      (s.mapMachine (Machine.mapStack fun stack => stack.setIfInBounds i v)) :=
  { h with
    upon := ⟨fun j hj => by
      change (s.machine.stack.setIfInBounds i v)[j]? = _ ∨ _
      have hj' : j < base := Nat.lt_of_lt_of_le hj h.above
      by_cases hij : i = j
      · subst hij
        rcases hi with hi | ⟨c, hc, rfl⟩
        · omega
        · refine .inr ⟨c, ?_, rfl⟩
          rw [← h.upon.cells]
          exact (h.linked.sound.mem_dropWhile _).mpr ⟨hc, hj⟩
      · rw [Array.getElem?_setIfInBounds_ne hij]
        exact h.upon.stack j hj, h.upon.cells⟩
    height := by
      change (s.machine.stack.setIfInBounds i v).size = _
      rw [Array.size_setIfInBounds, h.height]
    low := fun c hc => by
      change c.slot < (s.machine.stack.setIfInBounds i v).size
      rw [Array.size_setIfInBounds]
      exact h.low c hc }

theorem ofStore {store : Store} (hf : store.functions = s.store.functions)
    (hc : store.cells = s.store.cells)
    (hk : ∀ (i : Nat) c, store.closures[i]? = some c → c.Sound) :
    Stands G frames waiting base d o { s with store := store } :=
  { h with
    literate := fun i g hg => h.literate i g (hf ▸ hg)
    closures := hk
    linked := by
      change Linked store.cells _
      rw [hc]
      exact h.linked }

theorem closeFrom (n : Nat) :
    Stands G frames waiting base d (o.closedFrom n) (s.closeFrom (base + n)) :=
  have hstore : (s.closeFrom (base + n)).store = closeCells s.machine.stack s.store
      (s.machine.openCells.takeWhile fun c => base + n ≤ c.slot) := rfl
  have hmem : ∀ c ∈ (s.closeFrom (base + n)).machine.openCells,
      c ∈ s.machine.openCells ∧ c.slot < base + n := fun c hc =>
    (h.linked.sound.mem_dropWhile (base + n)).mp hc
  { h with
    literate := fun i g hg => h.literate i g (by rwa [hstore, closeCells_eq] at hg)
    closures := fun i c hc => h.closures i c (by rwa [hstore, closeCells_eq] at hc)
    linked := h.linked.close s.machine.stack (base + n)
    upon := ⟨h.upon.stack, (dropWhile_dropWhile_slot (Nat.le_add_right_of_le h.above)
      s.machine.openCells).trans h.upon.cells⟩
    held := fun c hc hle => by
      obtain ⟨hc, hlt⟩ := hmem c hc
      refine List.mem_filter.mpr ⟨h.held c hc hle, ?_⟩
      simp only [decide_eq_true_eq]
      omega
    low := fun c hc => h.low c (hmem c hc).1
    layered := h.layered.mono fun c hc _ => (hmem c hc).1 }

theorem insertOpen {i : Nat} (hi : i ∈ o.held) (hlt : i < o.height)
    (hn : openCell? (base + i) s.machine.openCells = none) :
    Stands G frames waiting base d o
      { s with
        store := (s.store.newCell (.live (base + i))).2
        machine := { s.machine with
          openCells := Machine.insertOpen ⟨base + i, s.store.cells.size⟩ s.machine.openCells } } :=
  { h with
    linked := h.linked.insertOpen hn
    upon := ⟨h.upon.stack, (dropWhile_insertOpen (Nat.le_add_right_of_le h.above) _).trans
      h.upon.cells⟩
    held := fun c hc hle => by
      rcases Sound.mem_insertOpen.mp hc with rfl | hc
      · rw [Nat.add_sub_cancel_left]
        exact hi
      · exact h.held c hc hle
    low := fun c hc => by
      change c.slot < s.machine.stack.size
      rcases Sound.mem_insertOpen.mp hc with rfl | hc
      · rw [h.height]
        exact Nat.add_lt_add_left hlt base
      · exact h.low c hc
    layered := h.layered.mono fun c hc hlt => by
      rcases Sound.mem_insertOpen.mp hc with rfl | hc
      · exact absurd hlt (Nat.not_lt.mpr (Nat.le_add_right base i))
      · exact hc }

end Stands

end Typed

end Machine

end TwinLisp
