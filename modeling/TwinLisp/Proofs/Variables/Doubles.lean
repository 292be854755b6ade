import Mathlib.Data.List.Nodup
import TwinLisp.Proofs.Machine.Frames
import TwinLisp.Proofs.Variables.Ideal

/-! The machine beside the ideal one. A list says which cell of the ideal machine each cell of the
machine stands for, and slots show cells of the ideal machine. A cell that is open lives in a slot that
shows the cell it stands for; a cell that has been closed stands for one that no slot shows, and both
have the same value.

* `Variables`: the cells of both machines, and the slots.
* `Variables.write`, `Variables.close` and so on: what may happen to them.
* `Doubles`: both machines with their stores.
* `Stacked`: the frames of both machines. -/

namespace TwinLisp

namespace Machine.Ideal

/-- Which slots show which cells. -/
abbrev Display := Nat → Nat → Prop

/-- What the slots of frames show. -/
def Shown (fs : Array Activation) : Display := fun x j => ∃ a ∈ fs, a.cell? x = some j

/-- A function whose cells stand for those of another one. -/
structure Copies (ρ : List Nat) (c c' : Closure) : Prop where
  proto : c'.proto = c.proto
  size : c'.cells.size = c.cells.size
  cells : ∀ (i : Nat) id, c.cells[i]? = some id → ∃ j, ρ[id]? = some j ∧ c'.cells[i]? = some j

theorem getElem?_of_isPrefix {ρ ρ' : List Nat} (h : ρ <+: ρ') {i j : Nat} (hi : ρ[i]? = some j) :
    ρ'[i]? = some j := by
  obtain ⟨rest, rfl⟩ := h
  rwa [List.getElem?_append_left (List.getElem?_eq_some_iff.mp hi).1]

theorem Copies.mono {ρ ρ' : List Nat} {c c' : Closure} (h : Copies ρ c c') (hρ : ρ <+: ρ') :
    Copies ρ' c c' :=
  ⟨h.proto, h.size, fun i id hi =>
    have ⟨j, hj, hc⟩ := h.cells i id hi
    ⟨j, getElem?_of_isPrefix hρ hj, hc⟩⟩

theorem Copies.push {ρ : List Nat} {p : Proto} {cells cells' : Array Nat} {id j : Nat}
    (h : Copies ρ ⟨p, cells⟩ ⟨p, cells'⟩) (hj : ρ[id]? = some j) :
    Copies ρ ⟨p, cells.push id⟩ ⟨p, cells'.push j⟩ := by
  have hsize : cells'.size = cells.size := h.size
  refine ⟨rfl, by rw [Array.size_push, Array.size_push, hsize], fun i id' hi => ?_⟩
  simp only [Array.getElem?_push, hsize] at hi ⊢
  by_cases he : i = cells.size
  · simp only [if_pos he] at hi ⊢
    cases hi
    exact ⟨j, hj, rfl⟩
  · simp only [if_neg he] at hi ⊢
    exact h.cells i id' hi

/-! ## Cells and slots -/

/-- The cells and the stack of the machine, beside the cells of the ideal one. From `lim` on, slots may
still show cells although the machine has closed them. -/
structure Variables (ρ : List Nat) (W : Display) (lim : Nat) (cells : Array Cell)
    (stack : Array Value) (cells' : Array Cell) : Prop where
  length : ρ.length = cells.size
  nodup : ρ.Nodup
  unique : ∀ {x j j'}, W x j → W x j' → j' = j
  apart : ∀ {x y j}, W x j → W y j → y = x
  shown : ∀ {x j}, W x j → ∃ v, stack[x]? = some v ∧ cells'[j]? = some (.closed v)
  live : ∀ {i x : Nat}, cells[i]? = some (.live x) → ∃ j, ρ[i]? = some j ∧ W x j
  closed : ∀ {i : Nat} {v}, cells[i]? = some (.closed v) →
    ∃ j, ρ[i]? = some j ∧ cells'[j]? = some (.closed v) ∧ ∀ x < lim, ¬ W x j

namespace Variables

variable {ρ : List Nat} {W W' : Display} {lim : Nat} {cells cells' : Array Cell}
  {stack stack' : Array Value} {i j x : Nat} {v : Value}

section

variable (h : Variables ρ W lim cells stack cells')

include h

theorem cell_lt (hi : ρ[i]? = some j) : i < cells.size :=
  h.length ▸ (List.getElem?_eq_some_iff.mp hi).1

theorem index_inj {i' : Nat} (hi : ρ[i]? = some j) (hi' : ρ[i']? = some j) : i' = i := by
  have hlt := (List.getElem?_eq_some_iff.mp hi).1
  exact ((List.getElem?_inj hlt h.nodup).mp (hi.trans hi'.symm)).symm

/-- A cell that a slot shows is open, if some cell stands for it, and lives in that slot. -/
theorem live_of_shown (hw : W x j) (hx : x < lim) (hi : ρ[i]? = some j) :
    cells[i]? = some (.live x) := by
  have hlt := h.cell_lt hi
  have hget := Array.getElem?_eq_getElem hlt
  cases hc : cells[i] with
  | live y =>
    rw [hc] at hget
    obtain ⟨j', hj', hw'⟩ := h.live hget
    cases hi.symm.trans hj'
    rw [hget, h.apart hw hw']
  | closed v =>
    rw [hc] at hget
    obtain ⟨j', hj', -, hn⟩ := h.closed hget
    cases hi.symm.trans hj'
    exact absurd hw (hn x hx)

/-- The stack changes where no slot shows a cell. -/
theorem restack (hs : ∀ x j, W x j → stack'[x]? = stack[x]?) :
    Variables ρ W lim cells stack' cells' :=
  { h with shown := fun hw => by rw [hs _ _ hw]; exact h.shown hw }

/-- Slots that no open cell lives in may stop showing cells. -/
theorem restrict {lim' : Nat} (hw : ∀ x j, W' x j → W x j)
    (hl : ∀ (i x j : Nat), cells[i]? = some (.live x) → W x j → W' x j)
    (hlim : ∀ x j, W' x j → x < lim' → x < lim) : Variables ρ W' lim' cells stack cells' where
  length := h.length
  nodup := h.nodup
  unique hx hx' := h.unique (hw _ _ hx) (hw _ _ hx')
  apart hx hy := h.apart (hw _ _ hx) (hw _ _ hy)
  shown hx := h.shown (hw _ _ hx)
  live hi :=
    have ⟨j, hj, hx⟩ := h.live hi
    ⟨j, hj, hl _ _ j hi hx⟩
  closed hi :=
    have ⟨j, hj, hc, hn⟩ := h.closed hi
    ⟨j, hj, hc, fun x hx hw' => hn x (hlim x j hw' hx) (hw x j hw')⟩

theorem write (hw : W x j) (hx : x < lim) (v : Value) :
    Variables ρ W lim cells (stack.setIfInBounds x v) (cells'.setIfInBounds j (.closed v)) := by
  obtain ⟨u, hu, hj⟩ := h.shown hw
  have hxlt := (Array.getElem?_eq_some_iff.mp hu).1
  have hjlt := (Array.getElem?_eq_some_iff.mp hj).1
  refine { h with shown := fun {y l} hy => ?_, closed := fun {i w} hi => ?_ }
  · by_cases hxy : x = y
    · subst hxy
      cases h.unique hw hy
      exact ⟨v, by simp [hxlt], by simp [hjlt]⟩
    · have hjl : j ≠ l := by
        rintro rfl
        exact hxy (h.apart hy hw)
      rw [Array.getElem?_setIfInBounds_ne hxy, Array.getElem?_setIfInBounds_ne hjl]
      exact h.shown hy
  · obtain ⟨l, hl, hc, hn⟩ := h.closed hi
    have hjl : j ≠ l := by
      rintro rfl
      exact hn x hx hw
    exact ⟨l, hl, by rw [Array.getElem?_setIfInBounds_ne hjl, hc], hn⟩

/-- A variable whose slot is gone is written. -/
theorem rewrite {u : Value} (hi : cells[i]? = some (.closed u)) (hj : ρ[i]? = some j)
    (hn : ∀ x, ¬ W x j) (v : Value) :
    Variables ρ W lim (cells.setIfInBounds i (.closed v)) stack
      (cells'.setIfInBounds j (.closed v)) := by
  have hlt := (Array.getElem?_eq_some_iff.mp hi).1
  obtain ⟨j', hj', hc, -⟩ := h.closed hi
  cases hj.symm.trans hj'
  have hjlt := (Array.getElem?_eq_some_iff.mp hc).1
  refine { h with
    length := by rw [Array.size_setIfInBounds, h.length]
    shown := fun {x l} hx => ?_
    live := fun {l x} hl => ?_
    closed := fun {l w} hl => ?_ }
  · have hjl : j ≠ l := by
      rintro rfl
      exact hn x hx
    rw [Array.getElem?_setIfInBounds_ne hjl]
    exact h.shown hx
  · by_cases hil : i = l
    · subst hil
      rw [Array.getElem?_setIfInBounds_self, if_pos hlt] at hl
      cases hl
    · rw [Array.getElem?_setIfInBounds_ne hil] at hl
      exact h.live hl
  · by_cases hil : i = l
    · subst hil
      rw [Array.getElem?_setIfInBounds_self, if_pos hlt] at hl
      cases hl
      exact ⟨j, hj, by simp [hjlt], fun x _ => hn x⟩
    · rw [Array.getElem?_setIfInBounds_ne hil] at hl
      obtain ⟨l', hl', hc', hn'⟩ := h.closed hl
      have hjl : j ≠ l' := by
        rintro rfl
        exact hil (h.index_inj hl' hj)
      exact ⟨l', hl', by rw [Array.getElem?_setIfInBounds_ne hjl, hc'], hn'⟩

theorem openSlot (hw : W x j) (hx : x < lim) (hn : ∀ i : Nat, cells[i]? ≠ some (.live x)) :
    Variables (ρ ++ [j]) W lim (cells.push (.live x)) stack cells' := by
  have hlast : (ρ ++ [j])[cells.size]? = some j := by
    rw [List.getElem?_append_right (Nat.le_of_eq h.length), h.length, Nat.sub_self]
    rfl
  have hnew : j ∉ ρ := fun hj => by
    obtain ⟨i, hi⟩ := List.mem_iff_getElem?.mp hj
    exact hn i (h.live_of_shown hw hx hi)
  have hold : ∀ {i l}, ρ[i]? = some l → (ρ ++ [j])[i]? = some l := fun hi =>
    getElem?_of_isPrefix (List.prefix_append ρ [j]) hi
  refine { h with
    length := by rw [List.length_append, Array.size_push, h.length]; rfl
    nodup := List.nodup_append.mpr ⟨h.nodup, List.nodup_singleton j, fun a ha b hb => ?_⟩
    live := fun {i y} hi => ?_
    closed := fun {i w} hi => ?_ }
  · rintro rfl
    rw [List.mem_singleton.mp hb] at ha
    exact hnew ha
  · rw [Array.getElem?_push] at hi
    split at hi
    · next he =>
      cases hi
      subst he
      exact ⟨j, hlast, hw⟩
    · obtain ⟨l, hl, hw'⟩ := h.live hi
      exact ⟨l, hold hl, hw'⟩
  · rw [Array.getElem?_push] at hi
    split at hi
    · cases hi
    · obtain ⟨l, hl, hc, hn'⟩ := h.closed hi
      exact ⟨l, hold hl, hc, hn'⟩

/-- Slots get new cells with their values. -/
theorem allot {values : Array Value} {first : Nat}
    (hv : ∀ k v, values[k]? = some v → stack[first + k]? = some v)
    (hn : ∀ x j, W x j → x < first)
    (hW : ∀ x j, W' x j ↔ W x j ∨ first ≤ x ∧ x - first < values.size ∧ j = cells'.size + (x - first)) :
    Variables ρ W' lim cells stack (cells' ++ values.map Cell.closed) := by
  have hold : ∀ {j : Nat} {v}, cells'[j]? = some (Cell.closed v) →
      (cells' ++ values.map Cell.closed)[j]? = some (Cell.closed v) := fun hj => by
    rw [Array.getElem?_append_left (Array.getElem?_eq_some_iff.mp hj).1, hj]
  have hlt : ∀ {x j}, W x j → j < cells'.size := fun hx => by
    obtain ⟨v, -, hj⟩ := h.shown hx
    exact (Array.getElem?_eq_some_iff.mp hj).1
  refine { h with
    unique := fun {x j j'} hx hx' => ?_
    apart := fun {x y j} hx hy => ?_
    shown := fun {x j} hx => ?_
    live := fun {i x} hi => ?_
    closed := fun {i v} hi => ?_ }
  · rcases (hW _ _).mp hx with hx | ⟨hx, -, rfl⟩ <;> rcases (hW _ _).mp hx' with hx' | ⟨hx', -, rfl⟩
    · exact h.unique hx hx'
    · have := hn _ _ hx
      omega
    · have := hn _ _ hx'
      omega
    · rfl
  · rcases (hW _ _).mp hx with hx | ⟨hx, -, rfl⟩ <;> rcases (hW _ _).mp hy with hy | ⟨hy, -, he⟩
    · exact h.apart hx hy
    · have := hlt hx
      omega
    · have := hlt hy
      omega
    · omega
  · rcases (hW _ _).mp hx with hx | ⟨hle, hk, rfl⟩
    · obtain ⟨v, hv', hj⟩ := h.shown hx
      exact ⟨v, hv', hold hj⟩
    · have hget := Array.getElem?_eq_getElem hk
      have hx' := hv _ _ hget
      rw [Nat.add_sub_cancel' hle] at hx'
      refine ⟨_, hx', ?_⟩
      rw [Array.getElem?_append_right (Nat.le_add_right _ _), Nat.add_sub_cancel_left,
        Array.getElem?_map, hget]
      rfl
  · obtain ⟨j, hj, hw⟩ := h.live hi
    exact ⟨j, hj, (hW _ _).mpr (.inl hw)⟩
  · obtain ⟨j, hj, hc, hn'⟩ := h.closed hi
    refine ⟨j, hj, hold hc, fun x hx hw => ?_⟩
    have := (Array.getElem?_eq_some_iff.mp hc).1
    rcases (hW _ _).mp hw with hw | ⟨-, -, he⟩
    · exact hn' x hx hw
    · omega

end

theorem close {store : Store} {cs : List OpenCell} (h : Variables ρ W lim store.cells stack cells')
    (hs : Sound store.cells cs) (height : Nat) :
    Variables ρ W (min lim height)
      (closeCells stack store (cs.takeWhile fun c => height ≤ c.slot)).cells stack cells' := by
  have htake : Sound store.cells (cs.takeWhile fun c => height ≤ c.slot) :=
    ⟨hs.sorted.sublist (List.takeWhile_sublist _), fun c hc =>
      hs.live c ((List.takeWhile_sublist _).mem hc)⟩
  refine { h with
    length := by rw [size_closeCells, h.length]
    live := fun hi => h.live (live_of_closeCells hi).1
    closed := fun {i v} hi => ?_ }
  rcases closed_of_closeCells htake hi with hc | ⟨c, hc, rfl, rfl⟩
  · obtain ⟨j, hj, hv, hn⟩ := h.closed hc
    exact ⟨j, hj, hv, fun x hx => hn x (Nat.lt_of_lt_of_le hx (Nat.min_le_left _ _))⟩
  · obtain ⟨hm, hle⟩ := (hs.mem_takeWhile height).mp hc
    obtain ⟨j, hj, hw⟩ := h.live (hs.live c hm)
    obtain ⟨v, hv, hj'⟩ := h.shown hw
    refine ⟨j, hj, by rw [hv]; exact hj', fun x hx hx' => ?_⟩
    have := h.apart hw hx'
    omega

end Variables

/-! ## Machines and stores -/

/-- The machine and its store, beside the ideal machine and its store. The values of slots that show
cells are in the cells. -/
structure Doubles (ρ : List Nat) (W : Display) (lim : Nat) (k k' : Store) (m m' : Machine) :
    Prop where
  store : k' = { k with cells := k'.cells, closures := k'.closures }
  steps : m'.steps = m.steps
  peak : m'.peak = m.peak
  openCells : m'.openCells = []
  linked : Linked k.cells m.openCells
  size : m'.stack.size = m.stack.size
  stack : ∀ x, (∀ j, ¬ W x j) → m'.stack[x]? = m.stack[x]?
  functions : k'.closures.size = k.closures.size
  closures : ∀ (i : Nat) c, k.closures[i]? = some c → ∃ c', k'.closures[i]? = some c' ∧ Copies ρ c c'
  slots : Variables ρ W lim k.cells m.stack k'.cells

namespace Doubles

variable {ρ : List Nat} {W W' : Display} {lim : Nat} {k k' : Store} {m m' : Machine}

theorem as (h : Doubles ρ W lim k k' m m') (hW : ∀ x j, W' x j ↔ W x j) :
    Doubles ρ W' lim k k' m m' := by
  have e : W' = W := funext fun x => funext fun j => propext (hW x j)
  rwa [e]

theorem lt_of_shown (h : Doubles ρ W lim k k' m m') {x j : Nat} (hx : W x j) : x < m.stack.size := by
  obtain ⟨v, hv, -⟩ := h.slots.shown hx
  exact (Array.getElem?_eq_some_iff.mp hv).1

theorem cutStack {lim' : Nat} (h : Doubles ρ W lim k k' m m') {f : Array Value → Array Value}
    (hw : ∀ x j, W' x j → W x j)
    (hl : ∀ (i x j : Nat), k.cells[i]? = some (.live x) → W x j → W' x j)
    (hlim : ∀ x j, W' x j → x < lim' → x < lim)
    (hsize : (f m'.stack).size = (f m.stack).size)
    (hshown : ∀ x j, W' x j → (f m.stack)[x]? = m.stack[x]?)
    (hs : ∀ x, (∀ j, ¬ W' x j) → (f m'.stack)[x]? = (f m.stack)[x]?) :
    Doubles ρ W' lim' k k' (Machine.mapStack f m) (Machine.mapStack f m') :=
  { h with
    size := hsize
    stack := hs
    slots := (h.slots.restrict hw hl hlim).restack hshown }

theorem mapStack (h : Doubles ρ W lim k k' m m') {f : Array Value → Array Value}
    (hsize : (f m'.stack).size = (f m.stack).size)
    (hshown : ∀ x j, W x j → (f m.stack)[x]? = m.stack[x]?)
    (hs : ∀ x, (∀ j, ¬ W x j) → (f m'.stack)[x]? = (f m.stack)[x]?) :
    Doubles ρ W lim k k' (Machine.mapStack f m) (Machine.mapStack f m') :=
  h.cutStack (fun _ _ hw => hw) (fun _ _ _ _ hw => hw) (fun _ _ _ hx => hx) hsize hshown hs

/-- All that happens to the cells of the ideal machine is that slots stop showing them. -/
theorem restrict {lim' : Nat} (h : Doubles ρ W lim k k' m m') (hw : ∀ x j, W' x j → W x j)
    (hl : ∀ (i x j : Nat), k.cells[i]? = some (.live x) → W x j → W' x j)
    (hlim : ∀ x j, W' x j → x < lim' → x < lim)
    (hs : ∀ x, (∀ j, ¬ W' x j) → m'.stack[x]? = m.stack[x]?) :
    Doubles ρ W' lim' k k' m m' :=
  h.cutStack (f := id) hw hl hlim h.size (fun _ _ _ => rfl) hs

theorem closeFrom (h : Doubles ρ W lim k k' m m') (height : Nat) :
    Doubles ρ W (min lim height) (m.closeFrom height k).2 k' (m.closeFrom height k).1 m' := by
  have hk : (m.closeFrom height k).2 = { k with
      cells := (closeCells m.stack k (m.openCells.takeWhile fun c => height ≤ c.slot)).cells } :=
    closeCells_eq ..
  refine { h with
    store := ?_
    functions := ?_
    closures := fun i c hc => h.closures i c ?_
    linked := h.linked.close m.stack height
    slots := ?_ }
  · rw [hk, h.store]
  · rw [hk]
    exact h.functions
  · rwa [hk] at hc
  · exact h.slots.close h.linked.sound height

theorem newClosure (h : Doubles ρ W lim k k' m m') {c c' : Closure} (hc : Copies ρ c c') :
    Doubles ρ W lim (k.newClosure c).2 (k'.newClosure c').2 m m' := by
  refine { h with
    store := congrArg (fun k : Store => { k with
      cells := k'.cells
      closures := k'.closures.push c' }) h.store
    functions := ?_
    closures := fun i d hi => ?_ }
  · show (k'.closures.push c').size = (k.closures.push c).size
    rw [Array.size_push, Array.size_push, h.functions]
  · change (k.closures.push c)[i]? = some d at hi
    show ∃ d', (k'.closures.push c')[i]? = some d' ∧ _
    simp only [Array.getElem?_push, h.functions] at hi ⊢
    by_cases he : i = k.closures.size
    · simp only [if_pos he] at hi ⊢
      cases hi
      exact ⟨c', rfl, hc⟩
    · simp only [if_neg he] at hi ⊢
      exact h.closures i d hi

end Doubles

/-! ## Frames -/

/-- The frame of a running function, beside that of the ideal machine, where the cells of its slots
stand behind the cells it has captured. -/
structure Twin (ρ : List Nat) (a a' : Activation) : Prop where
  proto : a'.closure.proto = a.closure.proto
  ip : a'.ip = a.ip
  base : a'.base = a.base
  counted : a'.counted = a.counted
  own : a.closure.cells.size = a.closure.proto.captures.size
  cells : ∀ (i : Nat) id, a.closure.cells[i]? = some id →
    ∃ j, ρ[id]? = some j ∧ a'.closure.cells[i]? = some j
  visits : a.closure.proto.Visits a.ip

/-- Frames one above the other, and a height that the slots of the last of them lie below. -/
inductive Stacked (ρ : List Nat) : Array Activation → Array Activation → Nat → Prop
  | nil {top} : Stacked ρ #[] #[] top
  | push {fs fs' a a' top} (h : Stacked ρ fs fs' a.base) (ha : Twin ρ a a')
    (hs : ∀ x j, a'.cell? x = some j → x < top) (ht : a.base ≤ top) :
    Stacked ρ (fs.push a) (fs'.push a') top

theorem shown_push {fs : Array Activation} {a : Activation} {x j : Nat} :
    Shown (fs.push a) x j ↔ Shown fs x j ∨ a.cell? x = some j := by
  constructor
  · rintro ⟨b, hb, hx⟩
    rcases Array.mem_push.mp hb with hb | rfl
    · exact .inl ⟨b, hb, hx⟩
    · exact .inr hx
  · rintro (⟨b, hb, hx⟩ | hx)
    · exact ⟨b, Array.mem_push.mpr (.inl hb), hx⟩
    · exact ⟨a, Array.mem_push.mpr (.inr rfl), hx⟩

theorem base_le_of_cell? {a : Activation} {x j : Nat} (h : a.cell? x = some j) : a.base ≤ x := by
  unfold Activation.cell? at h
  split at h
  · assumption
  · cases h

namespace Twin

variable {ρ ρ' : List Nat} {a a' : Activation}

theorem mono (h : Twin ρ a a') (hρ : ρ <+: ρ') : Twin ρ' a a' :=
  { h with cells := fun i id hi =>
      have ⟨j, hj, hc⟩ := h.cells i id hi
      ⟨j, getElem?_of_isPrefix hρ hj, hc⟩ }

theorem captures_le (h : Twin ρ a a') :
    a'.closure.proto.captures.size ≤ a'.closure.cells.size := by
  rw [h.proto, ← h.own]
  by_contra hlt
  have hget := Array.getElem?_eq_getElem (Nat.not_le.mp hlt)
  obtain ⟨j, -, hj⟩ := h.cells _ _ hget
  rw [Array.getElem?_eq_none (Nat.le_refl _)] at hj
  cases hj

theorem line_eq (h : Twin ρ a a') : line a' = line a := by
  rw [line, line, h.proto, h.ip]

end Twin

namespace Stacked

variable {ρ ρ' : List Nat} {fs fs' : Array Activation} {a : Activation} {top top' : Nat}

theorem mono (h : Stacked ρ fs fs' top) (hρ : ρ <+: ρ') : Stacked ρ' fs fs' top := by
  induction h with
  | nil => exact .nil
  | push _ ha hs ht ih => exact .push ih (ha.mono hρ) hs ht

theorem size_eq (h : Stacked ρ fs fs' top) : fs'.size = fs.size := by
  induction h with
  | nil => rfl
  | push _ _ _ _ ih => rw [Array.size_push, Array.size_push, ih]

theorem lt_of_shown (h : Stacked ρ fs fs' top) {x j : Nat} (hx : Shown fs' x j) : x < top := by
  induction h generalizing x j with
  | nil => exact absurd hx fun ⟨_, ha, _⟩ => absurd ha (Array.not_mem_empty _)
  | push _ _ hs ht ih =>
    rcases shown_push.mp hx with hx | hx
    · exact Nat.lt_of_lt_of_le (ih hx) ht
    · exact hs x j hx

end Stacked

end Machine.Ideal

end TwinLisp
