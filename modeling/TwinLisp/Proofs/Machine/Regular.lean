import Mathlib.Tactic.Tauto
import TwinLisp.Config.Basic
import TwinLisp.Machine.Basic

/-! The open cells of the machine. They stand in the order of their slots, no slot has two of them,
and each of them is known in the store as a variable that lives in its slot; opening and closing
cells keeps this.

* `OpenCells.Sound`: a list of open cells beside the cells of the store.
* `Machine.Regular`: a machine within its limits, with sound open cells.
* `Regular.closeFrom`, `Regular.openCell`: what captured variables do to it. -/

namespace TwinLisp

namespace Machine

/-- Open cells, highest slot first, each of which lives in its slot. -/
structure Sound (cells : Array Cell) (cs : List OpenCell) : Prop where
  sorted : cs.Pairwise fun c d => d.slot < c.slot
  live : ∀ c ∈ cs, cells[c.cell]? = some (.live c.slot)

namespace Sound

variable {cells : Array Cell} {cs : List OpenCell}

theorem nil : Sound cells [] := ⟨.nil, nofun⟩

theorem slot_eq (h : Sound cells cs) {c d : OpenCell} (hc : c ∈ cs) (hd : d ∈ cs)
    (he : c.cell = d.cell) : c.slot = d.slot := by
  have hlive := h.live c hc
  rw [he, h.live d hd] at hlive
  injection hlive with hlive
  injection hlive with hlive
  exact hlive.symm

theorem push (h : Sound cells cs) (x : Cell) : Sound (cells.push x) cs := by
  refine ⟨h.sorted, fun c hc => ?_⟩
  have hlt := (Array.getElem?_eq_some_iff.mp (h.live c hc)).1
  rw [Array.getElem?_push, if_neg (by omega), h.live c hc]

theorem setClosed (h : Sound cells cs) {i : Nat} {v : Value} (hi : cells[i]? = some (.closed v))
    (x : Cell) : Sound (cells.setIfInBounds i x) cs := by
  refine ⟨h.sorted, fun c hc => ?_⟩
  have hne : i ≠ c.cell := by
    rintro rfl
    rw [h.live c hc] at hi
    cases hi
  rw [Array.getElem?_setIfInBounds_ne hne, h.live c hc]

/-! ## Opening -/

theorem slot_lt_of_head {c : OpenCell} (h : Sound cells (c :: cs)) {d : OpenCell} (hd : d ∈ cs) :
    d.slot < c.slot := List.rel_of_pairwise_cons h.sorted hd

theorem tail {c : OpenCell} (h : Sound cells (c :: cs)) : Sound cells cs :=
  ⟨h.sorted.of_cons, fun d hd => h.live d (List.mem_cons_of_mem c hd)⟩

/-- The open cell of a slot is found wherever it stands. -/
theorem openCell?_eq_some_iff (h : Sound cells cs) {slot id : Nat} :
    openCell? slot cs = some id ↔ ⟨slot, id⟩ ∈ cs := by
  induction cs with
  | nil => simp [openCell?]
  | cons c rest ih =>
    obtain ⟨k, j⟩ := c
    rw [openCell?, List.mem_cons]
    by_cases hk : k = slot
    · subst hk
      rw [if_pos rfl]
      constructor
      · intro e
        cases e
        exact .inl rfl
      · rintro (e | hm)
        · cases e
          rfl
        · exact absurd (h.slot_lt_of_head hm) (Nat.lt_irrefl k)
    · rw [if_neg hk]
      by_cases hlt : k < slot
      · rw [if_pos hlt]
        constructor
        · nofun
        · rintro (e | hm)
          · cases e
            exact absurd rfl hk
          · exact absurd (h.slot_lt_of_head hm) (Nat.not_lt.mpr (Nat.le_of_lt hlt))
      · rw [if_neg hlt, ih h.tail]
        constructor
        · exact .inr
        · rintro (e | hm)
          · cases e
            exact absurd rfl hk
          · exact hm

theorem mem_insertOpen {c d : OpenCell} : d ∈ insertOpen c cs ↔ d = c ∨ d ∈ cs := by
  induction cs with
  | nil => simp [insertOpen]
  | cons e rest ih =>
    rw [insertOpen]
    split
    · rw [List.mem_cons]
    · rw [List.mem_cons, ih, List.mem_cons]
      tauto

theorem insertOpen (h : Sound cells cs) {c : OpenCell} (hc : cells[c.cell]? = some (.live c.slot))
    (hn : openCell? c.slot cs = none) : Sound cells (insertOpen c cs) := by
  refine ⟨?_, fun d hd => ?_⟩
  · induction cs with
    | nil => exact List.pairwise_singleton _ _
    | cons e rest ih =>
      rw [Machine.insertOpen]
      split
      · rename_i hlt
        refine List.pairwise_cons.mpr ⟨fun d hd => ?_, h.sorted⟩
        rcases List.mem_cons.mp hd with rfl | hd
        · exact hlt
        · exact Nat.lt_trans (h.slot_lt_of_head hd) hlt
      · rename_i hlt
        simp only [openCell?, hlt, if_false] at hn
        split at hn
        · cases hn
        · rename_i hne
          refine List.pairwise_cons.mpr ⟨fun d hd => ?_, ih h.tail hn⟩
          rcases mem_insertOpen.mp hd with rfl | hd
          · omega
          · exact h.slot_lt_of_head hd
  · rcases mem_insertOpen.mp hd with rfl | hd
    · exact hc
    · exact h.live d hd

/-! ## Closing -/

theorem mem_dropWhile (h : Sound cells cs) (height : Nat) {c : OpenCell} :
    c ∈ (cs.dropWhile fun c => height ≤ c.slot) ↔ c ∈ cs ∧ c.slot < height := by
  induction cs with
  | nil => simp
  | cons d rest ih =>
    rw [List.dropWhile_cons, List.mem_cons]
    split
    · rename_i hd
      have hd := of_decide_eq_true hd
      rw [ih h.tail]
      constructor
      · exact fun hc => ⟨.inr hc.1, hc.2⟩
      · rintro ⟨rfl | hc, hlt⟩
        · omega
        · exact ⟨hc, hlt⟩
    · rename_i hd
      have hd : d.slot < height := by simpa using hd
      rw [List.mem_cons]
      refine ⟨fun hc => ⟨hc, ?_⟩, And.left⟩
      rcases hc with rfl | hc
      · exact hd
      · exact Nat.lt_trans (h.slot_lt_of_head hc) hd

theorem mem_takeWhile (h : Sound cells cs) (height : Nat) {c : OpenCell} :
    c ∈ (cs.takeWhile fun c => height ≤ c.slot) ↔ c ∈ cs ∧ height ≤ c.slot := by
  induction cs with
  | nil => simp
  | cons d rest ih =>
    rw [List.takeWhile_cons, List.mem_cons]
    split
    · rename_i hd
      have hd := of_decide_eq_true hd
      rw [List.mem_cons, ih h.tail]
      constructor
      · rintro (rfl | hc)
        · exact ⟨.inl rfl, hd⟩
        · exact ⟨.inr hc.1, hc.2⟩
      · rintro ⟨rfl | hc, hle⟩
        · exact .inl rfl
        · exact .inr ⟨hc, hle⟩
    · rename_i hd
      have hd : d.slot < height := by simpa using hd
      refine ⟨fun hc => absurd hc List.not_mem_nil, ?_⟩
      rintro ⟨rfl | hc, hle⟩
      · omega
      · have := h.slot_lt_of_head hc
        omega

end Sound

theorem closeCells_cells_of_notMem (stack : Array Value) (store : Store) (cs : List OpenCell)
    {i : Nat} (h : ∀ c ∈ cs, c.cell ≠ i) :
    (closeCells stack store cs).cells[i]? = store.cells[i]? := by
  induction cs generalizing store with
  | nil => rfl
  | cons c rest ih =>
    rw [closeCells, ih _ fun d hd => h d (List.mem_cons_of_mem c hd)]
    exact Array.getElem?_setIfInBounds_ne (h c List.mem_cons_self)

theorem closeCells_eq (stack : Array Value) (store : Store) (cs : List OpenCell) :
    closeCells stack store cs = { store with cells := (closeCells stack store cs).cells } := by
  induction cs generalizing store with
  | nil => rfl
  | cons c rest ih =>
    rw [closeCells, ih]
    rfl

theorem size_closeCells (stack : Array Value) (store : Store) (cs : List OpenCell) :
    (closeCells stack store cs).cells.size = store.cells.size := by
  induction cs generalizing store with
  | nil => rfl
  | cons c rest ih =>
    rw [closeCells, ih]
    exact Array.size_setIfInBounds ..

/-- A cell that is closed after others have been closed has been closed before, or has got the value of
its slot. -/
theorem closed_of_closeCells {stack : Array Value} {store : Store} {cs : List OpenCell}
    (hs : Sound store.cells cs) {i : Nat} {v : Value}
    (h : (closeCells stack store cs).cells[i]? = some (.closed v)) :
    store.cells[i]? = some (.closed v) ∨ ∃ c ∈ cs, c.cell = i ∧ v = (stack[c.slot]?).getD .nil := by
  induction cs generalizing store with
  | nil => exact .inl h
  | cons c rest ih =>
    have hlt := (Array.getElem?_eq_some_iff.mp (hs.live c List.mem_cons_self)).1
    have hrest : Sound (store.setCell c.cell (.closed ((stack[c.slot]?).getD .nil))).cells rest := by
      refine ⟨hs.tail.sorted, fun d hd => ?_⟩
      have hne : c.cell ≠ d.cell := fun he => by
        have := hs.slot_lt_of_head hd
        have := hs.slot_eq List.mem_cons_self (List.mem_cons_of_mem c hd) he
        omega
      rw [Store.setCell, Array.getElem?_setIfInBounds_ne hne]
      exact hs.tail.live d hd
    rcases ih hrest h with hc | ⟨d, hd, hdi, hv⟩
    · by_cases hci : c.cell = i
      · subst hci
        rw [Store.setCell, Array.getElem?_setIfInBounds_self, if_pos hlt] at hc
        cases hc
        exact .inr ⟨c, List.mem_cons_self, rfl, rfl⟩
      · rw [Store.setCell, Array.getElem?_setIfInBounds_ne hci] at hc
        exact .inl hc
    · exact .inr ⟨d, List.mem_cons_of_mem c hd, hdi, hv⟩

theorem Sound.close {store : Store} {cs : List OpenCell} (h : Sound store.cells cs)
    (stack : Array Value) (height : Nat) :
    Sound (closeCells stack store (cs.takeWhile fun c => height ≤ c.slot)).cells
      (cs.dropWhile fun c => height ≤ c.slot) := by
  refine ⟨h.sorted.sublist (List.dropWhile_sublist _), fun c hc => ?_⟩
  obtain ⟨hc, hlt⟩ := (h.mem_dropWhile height).mp hc
  rw [closeCells_cells_of_notMem, h.live c hc]
  intro d hd he
  obtain ⟨hd, hle⟩ := (h.mem_takeWhile height).mp hd
  have := h.slot_eq hd hc he
  omega

/-! ## Machines within their limits -/

/-- A machine within its limits whose open cells are sound. -/
structure Regular (limits : Limits) (cells : Array Cell) (m : Machine) : Prop where
  stack : m.stack.size ≤ limits.stackMax
  frames : m.frames.size ≤ limits.framesMax
  sound : Sound cells m.openCells

/-- A machine without any work to do. -/
structure Empty (m : Machine) : Prop where
  stack : m.stack = #[]
  frames : m.frames = #[]
  openCells : m.openCells = []

theorem empty_idle : idle.Empty := ⟨rfl, rfl, rfl⟩

theorem Empty.regular {m : Machine} (h : m.Empty) (limits : Limits) (cells : Array Cell) :
    m.Regular limits cells := by
  obtain ⟨stack, frames, openCells, steps, peak⟩ := m
  obtain ⟨rfl, rfl, rfl⟩ := h
  exact ⟨Nat.zero_le _, Nat.zero_le _, .nil⟩

end Machine

end TwinLisp
