import TwinLisp.Proofs.Machine.Instructions
import TwinLisp.Proofs.Variables.Actions

/-! Both machines between two instructions. Each slot that the running function of the ideal machine has
given a cell shows that cell. Cells that have been closed are shown no more, unless their slots are
about to be dropped.

* `Abreast`: the runs of both machines.
* `Work.settle`, `Work.release`: slots get their cells and lose them.
* `Work.arrive`: where a function goes on. -/

namespace TwinLisp

namespace Machine.Ideal

open Act Typed

variable {B : Origin} {ρ ρ' : List Nat} {lim even n m : Nat} {fs fs' : Array Activation}
  {a a' : Activation}

/-! ## The cells of slots -/

theorem cell?_eq_some_iff {x j : Nat} : a.cell? x = some j ↔ a.base ≤ x ∧
    a.closure.cells[a.closure.proto.captures.size + (x - a.base)]? = some j := by
  unfold Activation.cell?
  split
  · next h => exact ⟨fun e => ⟨h, e⟩, And.right⟩
  · next h => exact ⟨nofun, fun e => absurd e.1 h⟩

theorem getElem?_take_eq_some_iff {xs : Array Nat} {k i j : Nat} :
    (xs.take k)[i]? = some j ↔ xs[i]? = some j ∧ i < k := by
  rw [Array.take_eq_extract, Array.getElem?_extract, Nat.zero_add, Nat.sub_zero]
  split
  · next h => exact ⟨fun e => ⟨e, by omega⟩, And.left⟩
  · next h =>
    refine ⟨nofun, fun e => absurd (Array.getElem?_eq_some_iff.mp e.1).1 fun hi => h ?_⟩
    omega

theorem cell?_keeping {count x j : Nat} :
    (a.keeping count).cell? x = some j ↔ a.cell? x = some j ∧ x < a.base + count := by
  rw [cell?_eq_some_iff, cell?_eq_some_iff]
  show a.base ≤ x ∧ (a.closure.cells.take (a.closure.proto.captures.size + count))[
      a.closure.proto.captures.size + (x - a.base)]? = some j ↔ _
  rw [getElem?_take_eq_some_iff]
  constructor
  · rintro ⟨hle, hj, hlt⟩
    exact ⟨⟨hle, hj⟩, by omega⟩
  · rintro ⟨⟨hle, hj⟩, hlt⟩
    exact ⟨hle, hj, by omega⟩

/-- What the slots of frames and of a function above them show. -/
def Showing (fs' : Array Activation) (a : Activation) : Display := fun x j =>
  Shown fs' x j ∨ a.cell? x = some j

theorem showing_keeping {count : Nat} (hs : ∀ x j, Shown fs' x j → x < a.base) (x j : Nat) :
    Showing fs' (a.keeping count) x j ↔ (Showing fs' a).below (a.base + count) x j := by
  rw [Showing, Display.below, Showing, cell?_keeping]
  constructor
  · rintro (h | ⟨h, hx⟩)
    · have := hs x j h
      exact ⟨.inl h, by omega⟩
    · exact ⟨.inr h, hx⟩
  · rintro ⟨h | h, hx⟩
    · exact .inl h
    · exact .inr ⟨h, hx⟩

namespace Twin

/-- Slots lose their cells, captured variables do not. -/
theorem keeping (h : Twin ρ a a') (count : Nat) : Twin ρ a (a'.keeping count) :=
  { h with
    cells := fun i id hi => by
      obtain ⟨j, hj, hc⟩ := h.cells i id hi
      refine ⟨j, hj, getElem?_take_eq_some_iff.mpr ⟨hc, ?_⟩⟩
      have hlt := (Array.getElem?_eq_some_iff.mp hi).1
      rw [h.own] at hlt
      rw [h.proto]
      omega }

theorem move (h : Twin ρ a a') {i : Instruction} (hi : a.closure.proto.chunk.fetch a.ip = .ok i)
    {t : Nat} (ht : t ∈ a.closure.proto.targets i) :
    Twin ρ { a with ip := t } { a' with ip := t } :=
  { h with
    ip := rfl
    visits := .step h.visits hi ht }

end Twin

/-! ## Runs side by side -/

/-- The running function in both machines. -/
structure Level (B : Origin) (ρ : List Nat) (lim : Nat) (fs fs' : Array Activation)
    (a a' : Activation) (n : Nat) (s t : State) : Prop where
  stacked : Stacked ρ fs fs' a.base
  twin : Twin ρ a a'
  origin : Over B ρ (Showing fs' a') lim (fs'.push a')
  above : ∃ rest : Array Activation, fs' = B.frames ++ rest
  base : a.base ≤ n
  /-- Slots whose cells have been closed are about to be dropped. -/
  ready : (∀ x j, Showing fs' a' x j → x < lim) ∨
    ∃ m, a.closure.proto.Has a.ip .popN m ∧ n ≤ lim + (m + 1)
  work : Work ρ (Showing fs' a') lim n (fs.push a) (fs'.push a') n s t

/-- The runs of both machines between two instructions. -/
def Abreast (B : Origin) (s t : State) : Prop :=
  ∃ ρ lim fs fs' a a' n, Level B ρ lim fs fs' a a' n s t

/-- The running function with a cell for each of its slots, whose values are in the cells. -/
structure Settled (B : Origin) (ρ : List Nat) (lim : Nat) (fs fs' : Array Activation)
    (a a' : Activation) (n : Nat) (s t : State) : Prop where
  stacked : Stacked ρ fs fs' a.base
  twin : Twin ρ a a'
  origin : Over B ρ (Showing fs' a') lim (fs'.push a')
  above : ∃ rest : Array Activation, fs' = B.frames ++ rest
  full : a'.closure.cells.size = a.closure.proto.captures.size + (n - a.base)
  ready : n ≤ lim ∨ ∃ m, a.closure.proto.Has a.ip .popN m ∧ n ≤ lim + (m + 1)
  work : Work ρ (Showing fs' a') lim a.base (fs.push a) (fs'.push a') n s t

/-! ## Slots get cells -/

/-- The frame of the running function in which the slots that have got values have cells. -/
def settledFrame (a : Activation) (values : Array Value) (cells : Nat) : Activation :=
  a.withCells (a.closure.cells ++ Array.range' cells values.size)

theorem settle_eq {t : State} (h : t.machine.frames = fs'.push a') {values stack : Array Value}
    {a₁ : Activation} {store : Store}
    (hv : t.machine.stack.extract (a'.base + a'.shown) t.machine.stack.size = values)
    (ha : settledFrame a' values t.store.cells.size = a₁)
    (hk : { t.store with cells := t.store.cells ++ values.map Cell.closed } = store)
    (hs : (t.machine.stack.mapIdx fun x v => ((a₁.cell? x).bind store.content?).getD v) = stack) :
    settle t =
      { t with
        store := store
        machine := { t.machine with stack := stack, frames := fs'.push a₁ } } := by
  subst hv ha hk hs
  unfold settle
  rw [h, Array.back?_push]
  dsimp only
  rw [Array.pop_push]
  rfl

theorem cell?_settledFrame {values : Array Value} {cells x j : Nat}
    (hc : a.closure.proto.captures.size ≤ a.closure.cells.size) :
    (settledFrame a values cells).cell? x = some j ↔ a.cell? x = some j ∨
      a.base + a.shown ≤ x ∧ x - (a.base + a.shown) < values.size ∧
        j = cells + (x - (a.base + a.shown)) := by
  have hshown : a.closure.proto.captures.size + a.shown = a.closure.cells.size :=
    Nat.add_sub_cancel' hc
  rw [cell?_eq_some_iff, cell?_eq_some_iff]
  show a.base ≤ x ∧ (a.closure.cells ++ Array.range' cells values.size)[
      a.closure.proto.captures.size + (x - a.base)]? = some j ↔ _
  rw [Array.getElem?_append]
  split
  · next hlt =>
    refine ⟨.inl, ?_⟩
    rintro (h | ⟨hle, -, -⟩)
    · exact h
    · omega
  · next hlt =>
    rw [Array.getElem?_eq_none (Nat.not_lt.mp hlt)]
    constructor
    · rintro ⟨hle, hj⟩
      obtain ⟨hi, e⟩ := Array.getElem?_eq_some_iff.mp hj
      rw [Array.size_range'] at hi
      rw [Array.getElem_range'] at e
      refine .inr ⟨by omega, by omega, ?_⟩
      omega
    · rintro (⟨-, h⟩ | ⟨hle, hv, rfl⟩)
      · cases h
      · refine ⟨by omega, ?_⟩
        rw [Array.getElem?_eq_some_iff]
        refine ⟨by rw [Array.size_range']; omega, ?_⟩
        rw [Array.getElem_range']
        omega

namespace Level

variable {s t : State} (h : Level B ρ lim fs fs' a a' n s t)

include h

/-- The slots with cells are the first of the running function. -/
theorem lt_of_shown {x j : Nat} (hx : Showing fs' a' x j) : x < a'.base + a'.shown := by
  have hbase := h.twin.base
  rcases hx with hx | hx
  · have := h.stacked.lt_of_shown hx
    omega
  · obtain ⟨hle, hj⟩ := cell?_eq_some_iff.mp hx
    have hlt := (Array.getElem?_eq_some_iff.mp hj).1
    have hdef : a'.shown = a'.closure.cells.size - a'.closure.proto.captures.size := rfl
    omega

theorem shown_le : a'.base + a'.shown ≤ n := by
  have hbase := h.twin.base
  have hle := h.base
  by_contra hlt
  have hdef : a'.shown = a'.closure.cells.size - a'.closure.proto.captures.size := rfl
  have hcap := h.twin.captures_le
  have hget := Array.getElem?_eq_getElem
    (show a'.closure.proto.captures.size + (n - a'.base) < a'.closure.cells.size by omega)
  exact Nat.lt_irrefl n (h.work.lt_of_shown (.inr (cell?_eq_some_iff.mpr ⟨by omega, hget⟩)))

/-- A limit above all slots, or below the slots that are about to be dropped. -/
theorem limit (hb : B.ground.base ≤ a.base) : ∃ lim₁, B.ground.base ≤ lim₁ ∧
    (n ≤ lim₁ ∨ ∃ m, a.closure.proto.Has a.ip .popN m ∧ n ≤ lim₁ + (m + 1)) ∧
    Work ρ (Showing fs' a') lim₁ n (fs.push a) (fs'.push a') n s t := by
  rcases h.ready with hr | hr
  · exact ⟨n, Nat.le_trans hb h.base, .inl (Nat.le_refl n), h.work.relax hr n⟩
  · exact ⟨lim, h.origin.low, .inr hr, h.work⟩

/-- The slots of the running function get their cells. -/
theorem settle (hb : B.ground.base ≤ a.base) :
    ∃ lim₁ a₁, Settled B ρ lim₁ fs fs' a a₁ n s (settle t) := by
  obtain ⟨lim₁, hlow, hready, hw⟩ := h.limit hb
  have hcap := h.twin.captures_le
  have hbase := h.twin.base
  have hfirst := h.shown_le
  have hsize := hw.size'
  obtain ⟨values, hvalues⟩ : ∃ values,
      t.machine.stack.extract (a'.base + a'.shown) t.machine.stack.size = values := ⟨_, rfl⟩
  have hcount : values.size = n - (a'.base + a'.shown) := by
    rw [← hvalues, Array.size_extract, hsize, Nat.min_self]
  obtain ⟨a₁, ha₁⟩ : ∃ a₁, settledFrame a' values t.store.cells.size = a₁ := ⟨_, rfl⟩
  -- the new cells have the values of slots that showed none
  have hshown : ∀ x j, Showing fs' a₁ x j ↔ Showing fs' a' x j ∨
      a'.base + a'.shown ≤ x ∧ x - (a'.base + a'.shown) < values.size ∧
        j = t.store.cells.size + (x - (a'.base + a'.shown)) := by
    intro x j
    rw [Showing, Showing, ← ha₁, cell?_settledFrame hcap, or_assoc]
  have hget : ∀ k v, values[k]? = some v → s.machine.stack[a'.base + a'.shown + k]? = some v := by
    intro k v hk
    rw [← hvalues, Array.getElem?_extract] at hk
    split at hk
    · rw [← hk]
      refine (hw.doubles.stack _ fun j hx => ?_).symm
      have := h.lt_of_shown hx
      omega
    · cases hk
  have hslots := hw.doubles.slots.allot hget (fun x j hx => h.lt_of_shown hx) hshown
  obtain ⟨store, hstore⟩ : ∃ store : Store,
      { t.store with cells := t.store.cells ++ values.map Cell.closed } = store := ⟨_, rfl⟩
  have hcells : store.cells = t.store.cells ++ values.map Cell.closed := by rw [← hstore]
  obtain ⟨stack, hstack⟩ : ∃ stack, (t.machine.stack.mapIdx fun x v =>
      ((a₁.cell? x).bind store.content?).getD v) = stack := ⟨_, rfl⟩
  have hvalue : ∀ x, stack[x]? = t.machine.stack[x]?.map fun v =>
      ((a₁.cell? x).bind store.content?).getD v := fun x => by
    rw [← hstack, Array.getElem?_mapIdx]
  have hnew : ∀ x j, a₁.cell? x = some j → stack[x]? = s.machine.stack[x]? := by
    intro x j hx
    obtain ⟨v, hv, hj⟩ := hslots.shown (.inr hx)
    have hlt : x < t.machine.stack.size := by
      rw [hsize, ← hw.size]
      exact (Array.getElem?_eq_some_iff.mp hv).1
    have hcontent : store.content? j = some v := by
      rw [Store.content?, hcells, hj]
    rw [hvalue, Array.getElem?_eq_getElem hlt, hx, hv, Option.bind_some, hcontent]
    rfl
  have hold : ∀ x, a₁.cell? x = none → stack[x]? = t.machine.stack[x]? := fun x hx => by
    rw [hvalue, hx]
    cases t.machine.stack[x]? <;> rfl
  have hfull : a₁.closure.cells.size = a.closure.proto.captures.size + (n - a.base) := by
    rw [← ha₁]
    show (a'.closure.cells ++ Array.range' t.store.cells.size values.size).size = _
    have hdef : a'.shown = a'.closure.cells.size - a'.closure.proto.captures.size := rfl
    rw [Array.size_append, Array.size_range', hcount, ← h.twin.proto]
    omega
  have htwin : Twin ρ a a₁ := by
    rw [← ha₁]
    exact { h.twin with
      cells := fun i id hi => by
        obtain ⟨j, hj, hc⟩ := h.twin.cells i id hi
        refine ⟨j, hj, ?_⟩
        show (a'.closure.cells ++ Array.range' t.store.cells.size values.size)[i]? = some j
        rw [Array.getElem?_append_left (Array.getElem?_eq_some_iff.mp hc).1, hc] }
  have hsize₁ : stack.size = n := by rw [← hstack, Array.size_mapIdx, hsize]
  have hcell : ∀ x, a.base ≤ x → x < n → ∃ j, a₁.cell? x = some j := fun x hx hn => by
    have hlt : a₁.closure.proto.captures.size + (x - a₁.base) < a₁.closure.cells.size := by
      rw [htwin.proto, htwin.base, hfull]
      omega
    exact ⟨_, cell?_eq_some_iff.mpr ⟨htwin.base.symm ▸ hx, Array.getElem?_eq_getElem hlt⟩⟩
  rw [settle_eq hw.frames' hvalues ha₁ hstore hstack]
  refine ⟨lim₁, a₁, h.stacked, htwin, ⟨h.origin.world, hlow, exists_push h.above a₁, fun x hx j => ?_⟩,
    h.above, hfull, hready, {
      rest := congrArg (fun u : State => { u with
        store := store
        machine := { t.machine with stack := stack, frames := fs'.push a₁ } }) hw.rest
      frames := hw.frames
      frames' := rfl
      size := hw.size
      even := fun x hx => ?_
      doubles := { hw.doubles with
        store := ?_
        size := hsize₁.trans hw.size.symm
        stack := fun x hx => ?_
        functions := by rw [← hstore]; exact hw.doubles.functions
        closures := by rw [← hstore]; exact hw.doubles.closures
        slots := hcells ▸ hslots } }⟩
  · rw [hshown, h.origin.below x hx j]
    refine or_iff_left fun hx' => ?_
    have hle := hx'.1
    omega
  · by_cases hn : x < n
    · obtain ⟨j, hj⟩ := hcell x hx hn
      exact hnew x j hj
    · show stack[x]? = s.machine.stack[x]?
      rw [Array.getElem?_eq_none (by omega), Array.getElem?_eq_none (by rw [hw.size]; omega)]
  · rw [← hstore]
    exact congrArg (fun k : Store => { k with
      cells := t.store.cells ++ values.map Cell.closed
      closures := t.store.closures }) hw.doubles.store
  · have hnone : a₁.cell? x = none := by
      cases he : a₁.cell? x with
      | none => rfl
      | some j => exact absurd (.inr he) (hx j)
    exact (hold x hnone).trans (hw.doubles.stack x fun j hj => hx j ((hshown x j).mpr (.inl hj)))

end Level

end Machine.Ideal

end TwinLisp
