import TwinLisp.Proofs.Machine.Actions
import TwinLisp.Proofs.Machine.Survival
import TwinLisp.Proofs.Machine.Tandem
import TwinLisp.Proofs.Variables.Doubles

/-! Single actions of the machine beside those of the ideal one. What reads and writes a slot in one of
them reads and writes a cell in the other.

* `Origin`, `Over`: where both runs began, and what they leave alone.
* `Work`: both machines at work; `Torn` if something has failed.
* `push_tandem`, `writeCell_tandem` and so on: the actions one by one. -/

namespace TwinLisp

namespace Machine.Ideal

open Act Typed

/-- Where two runs began side by side. -/
structure Origin where
  ground : Ground
  /-- The frames of the ideal machine. -/
  frames : Array Activation
  /-- What the cells stood for. -/
  world : List Nat

/-- What two runs leave alone: cells stand for what they stood for, and the slots below the base show
what they showed. -/
structure Over (B : Origin) (ρ : List Nat) (W : Display) (lim : Nat) (fs' : Array Activation) :
    Prop where
  world : B.world <+: ρ
  low : B.ground.base ≤ lim
  frames : ∃ rest : Array Activation, fs' = B.frames ++ rest
  below : ∀ x < B.ground.base, ∀ j, W x j ↔ Shown B.frames x j

/-- The slots below a height. -/
def Display.below (W : Display) (m : Nat) : Display := fun x j => W x j ∧ x < m

/-- Both machines at work, with certain frames and stacks of a certain size, which are the same from
`even` on. -/
structure Work (ρ : List Nat) (W : Display) (lim even : Nat) (fs fs' : Array Activation) (n : Nat)
    (s t : State) : Prop where
  rest : t = { s with store := t.store, machine := t.machine }
  frames : s.machine.frames = fs
  frames' : t.machine.frames = fs'
  size : s.machine.stack.size = n
  even : ∀ x, even ≤ x → t.machine.stack[x]? = s.machine.stack[x]?
  doubles : Doubles ρ W lim s.store t.store s.machine t.machine

/-- Both runs have failed somewhere. -/
def Torn (B : Origin) (s t : State) : Prop :=
  ∃ ρ W lim even fs fs' n, Over B ρ W lim fs' ∧ Work ρ W lim even fs fs' n s t

/-- What two actions do in two runs. -/
abbrev Paired {α β : Type} (B : Origin) (P : State → State → Prop) (a : Run α) (b : Run β)
    (Q : α → β → State → State → Prop) : Prop := Tandem P a b Q (Torn B)

variable {B : Origin} {ρ ρ' : List Nat} {W W' : Display} {lim even n m : Nat}
  {fs fs' : Array Activation} {a a' : Activation}

theorem exists_push {pre : Array Activation} (h : ∃ rest : Array Activation, fs = pre ++ rest)
    (a : Activation) : ∃ rest : Array Activation, fs.push a = pre ++ rest := by
  obtain ⟨rest, rfl⟩ := h
  exact ⟨rest.push a, Array.append_push.symm⟩

namespace Over

theorem cut (h : Over B ρ W lim fs') (hm : B.ground.base ≤ m) : Over B ρ (W.below m) lim fs' :=
  { h with
    below := fun x hx j => by
      rw [← h.below x hx j]
      exact ⟨And.left, fun hw => ⟨hw, Nat.lt_of_lt_of_le hx hm⟩⟩ }

theorem mono (h : Over B ρ W lim fs') (hρ : ρ <+: ρ') : Over B ρ' W lim fs' :=
  { h with world := h.world.trans hρ }

theorem ofLim (h : Over B ρ W lim fs') {lim' : Nat} (hl : B.ground.base ≤ lim') :
    Over B ρ W lim' fs' := { h with low := hl }

end Over

namespace Work

variable {s t : State} (h : Work ρ W lim even fs fs' n s t)

include h

theorem torn (ho : Over B ρ W lim fs') : Torn B s t := ⟨_, _, _, _, _, _, _, ho, h⟩

theorem config : t.config = s.config := by rw [h.rest]

theorem depth : t.depth = s.depth := by rw [h.rest]

theorem lt_of_shown {x j : Nat} (hx : W x j) : x < n := h.size ▸ h.doubles.lt_of_shown hx

theorem size' : t.machine.stack.size = n := h.doubles.size.trans h.size

/-- What is known of the slots may be said in other words. -/
theorem as (hW : ∀ x j, W' x j ↔ W x j) : Work ρ W' lim even fs fs' n s t :=
  { h with doubles := h.doubles.as hW }

/-- As long as all slots that show cells are below the limit, it may be any. -/
theorem relax (hW : ∀ x j, W x j → x < lim) (lim' : Nat) : Work ρ W lim' even fs fs' n s t :=
  { h with
    doubles := h.doubles.restrict (fun _ _ hw => hw) (fun _ _ _ _ hw => hw) (fun x j hw _ => hW x j hw)
      h.doubles.stack }

theorem odd : Work ρ W lim n fs fs' n s t :=
  { h with
    even := fun x hx => by
      rw [Array.getElem?_eq_none (h.size'.symm ▸ hx), Array.getElem?_eq_none (h.size.symm ▸ hx)] }

/-- Slots above all open cells do not show cells any more. -/
theorem cut (he : even ≤ m) (hl : ∀ c ∈ s.machine.openCells, c.slot < m) :
    Work ρ (W.below m) lim even fs fs' n s t :=
  { h with
    doubles := h.doubles.restrict (fun _ _ hw => hw.1)
      (fun i x _ hi hw => ⟨hw, hl _ (h.doubles.linked.all i x hi)⟩) (fun _ _ _ hx => hx)
      fun x hx => by
        by_cases hm : x < m
        · exact h.doubles.stack x fun j hw => hx j ⟨hw, hm⟩
        · exact h.even x (Nat.le_trans he (Nat.not_lt.mp hm)) }

theorem mapStack {f : Array Value → Array Value} (hn : (f s.machine.stack).size = m)
    (hn' : (f t.machine.stack).size = m)
    (hshown : ∀ x j, W x j → (f s.machine.stack)[x]? = s.machine.stack[x]?)
    (hs : ∀ x : Nat, t.machine.stack[x]? = s.machine.stack[x]? →
      (f t.machine.stack)[x]? = (f s.machine.stack)[x]?) :
    Work ρ W lim even fs fs' m (s.mapMachine (Machine.mapStack f))
      (t.mapMachine (Machine.mapStack f)) where
  rest := congrArg (fun u : State =>
    { u with store := t.store, machine := Machine.mapStack f t.machine }) h.rest
  frames := h.frames
  frames' := h.frames'
  size := hn
  even := fun x hx => hs x (h.even x hx)
  doubles := h.doubles.mapStack (hn'.trans hn.symm) hshown fun x hx => hs x (h.doubles.stack x hx)

theorem mapFrames (f g : Array Activation → Array Activation) :
    Work ρ W lim even (f fs) (g fs') n (s.mapMachine (Machine.mapFrames f))
      (t.mapMachine (Machine.mapFrames g)) where
  rest := congrArg (fun u : State =>
    { u with store := t.store, machine := Machine.mapFrames g t.machine }) h.rest
  frames := congrArg f h.frames
  frames' := congrArg g h.frames'
  size := h.size
  even := h.even
  doubles := { h.doubles with }

theorem atDepth (f : Nat → Nat) : Work ρ W lim even fs fs' n { s with depth := f s.depth }
    { t with depth := f t.depth } where
  rest := by
    rw [h.depth]
    exact congrArg (fun u : State =>
      { u with store := t.store, machine := t.machine, depth := f s.depth }) h.rest
  frames := h.frames
  frames' := h.frames'
  size := h.size
  even := h.even
  doubles := h.doubles

theorem shrink (hm : m ≤ n) (hW : ∀ x j, W x j → x < m) :
    Work ρ W lim even fs fs' m (s.mapMachine (Machine.mapStack fun stack => stack.shrink m))
      (t.mapMachine (Machine.mapStack fun stack => stack.shrink m)) := by
  have hlt : ∀ {stack : Array Value}, stack.size = n → (stack.shrink m).size = m := fun he => by
    rw [Array.size_shrink, he]
    exact Nat.min_eq_left hm
  refine h.mapStack (hlt h.size) (hlt h.size') (fun x j hx => getElem?_shrink _ (hW x j hx))
    fun x hx => ?_
  by_cases hxm : x < m
  · rw [getElem?_shrink _ hxm, getElem?_shrink _ hxm, hx]
  · rw [Array.getElem?_eq_none (by rw [hlt h.size']; omega),
      Array.getElem?_eq_none (by rw [hlt h.size]; omega)]

end Work

/-! ## The stack -/

section Stack

variable (ho : Over B ρ W lim fs')

include ho

theorem fail_tandem {α β : Type} {Q : α → β → State → State → Prop} (f : RuntimeFault) :
    Paired B (Work ρ W lim even fs fs' n) (Run.fail f : Run α) (Run.fail f : Run β) Q :=
  Run.fail_tandem fun _ _ h => h.torn ho

theorem push_tandem (v : Value) :
    Paired B (Work ρ W lim even fs fs' n) (push v) (push v)
      fun _ _ => Work ρ W lim even fs fs' (n + 1) := by
  intro s t h
  have hlimit : t.machine.stack.size ≥ t.config.limits.stackMax ↔
      s.machine.stack.size ≥ s.config.limits.stackMax := by
    rw [h.size, h.size', h.config]
  unfold push
  by_cases hfull : s.machine.stack.size ≥ s.config.limits.stackMax
  · rw [if_pos hfull, if_pos (hlimit.mpr hfull)]
    exact ⟨rfl, h.torn ho⟩
  · rw [if_neg hfull, if_neg (mt hlimit.mp hfull)]
    refine h.mapStack (by rw [Array.size_push, h.size]) (by rw [Array.size_push, h.size'])
      (fun x j hx => ?_) fun x hx => ?_
    · have := h.doubles.lt_of_shown hx
      rw [Array.getElem?_push, if_neg (by omega)]
    · rw [Array.getElem?_push, Array.getElem?_push, h.size, h.size', hx]

omit ho in
theorem truncate_tandem (hm : m ≤ n) (hW : ∀ x j, W x j → x < m) :
    Paired B (Work ρ W lim even fs fs' n) (truncate m) (truncate m)
      fun _ _ => Work ρ W lim even fs fs' m :=
  .update fun _ _ h => h.shrink hm hW

theorem pop_tandem (hW : ∀ x j, W x j → x < n - 1) :
    Paired B (Work ρ W lim even fs fs' n) pop pop
      fun x y s t => y = x ∧ Work ρ W lim even fs fs' (n - 1) s t := by
  intro s t h
  have hback : t.machine.stack.back? = s.machine.stack.back? := by
    rw [Array.back?_eq_getElem?, Array.back?_eq_getElem?, h.size, h.size']
    exact h.doubles.stack _ fun j hx => Nat.lt_irrefl _ (hW _ j hx)
  unfold pop
  rw [hback]
  cases s.machine.stack.back? with
  | none => exact ⟨rfl, h.torn ho⟩
  | some v =>
    refine ⟨rfl, h.mapStack (by rw [Array.size_pop, h.size]) (by rw [Array.size_pop, h.size'])
      (fun x j hx => ?_) fun x hx => ?_⟩
    · rw [Array.getElem?_pop, if_pos (h.size.symm ▸ hW x j hx)]
    · rw [Array.getElem?_pop, Array.getElem?_pop, h.size, h.size', hx]

theorem top_tandem (he : even < n) :
    Paired B (Work ρ W lim even fs fs' n) top top
      fun x y s t => y = x ∧ Work ρ W lim even fs fs' n s t := by
  refine Tandem.bind_same (Q := fun _ => Work ρ W lim even fs fs' n)
    (.ask fun s t h => ⟨?_, h⟩) fun o => ?_
  · rw [Array.back?_eq_getElem?, Array.back?_eq_getElem?, h.size, h.size']
    exact h.even _ (by omega)
  · cases o with
    | none => exact fail_tandem ho _
    | some v => exact .pure fun _ _ h => ⟨rfl, h⟩

omit ho in
theorem askSize_tandem :
    Paired B (Work ρ W lim even fs fs' n) (Act.ask fun s => s.machine.stack.size)
      (Act.ask fun s => s.machine.stack.size)
      fun x y s t => y = x ∧ x = n ∧ Work ρ W lim even fs fs' n s t :=
  .ask fun _ _ h => ⟨h.doubles.size, h.size, h⟩

theorem drop_tandem {count : Nat} (hW : ∀ x j, W x j → x < n - count) :
    Paired B (Work ρ W lim even fs fs' n) (drop count) (drop count)
      fun _ _ => Work ρ W lim even fs fs' (n - count) := by
  refine askSize_tandem.bind_same fun size => Tandem.given fun hsize => ?_
  subst hsize
  exact Run.guard_tandem (fun _ _ _ h => h.torn ho) fun _ => truncate_tandem (Nat.sub_le _ _) hW

theorem popMany_tandem {count : Nat} (hW : ∀ x j, W x j → x < n - count) :
    Paired B (Work ρ W lim even fs fs' n) (popMany count) (popMany count)
      fun x y s t => y = x ∧ Work ρ W lim even fs fs' (n - count) s t := by
  refine askSize_tandem.bind_same fun size => Tandem.given fun hsize => ?_
  subst hsize
  refine Run.guard_tandem (fun _ _ _ h => h.torn ho) fun _ => ?_
  refine Tandem.bind_same (Q := fun _ => Work ρ W lim even fs fs' size)
    (.ask fun s t h => ⟨congrArg Array.toList (Array.ext_getElem? fun i => ?_), h⟩) fun vs => ?_
  · rw [Array.getElem?_extract, Array.getElem?_extract, h.size, h.size']
    split
    · exact h.doubles.stack _ fun j hx => by
        have := hW _ j hx
        omega
    · rfl
  · exact (truncate_tandem (Nat.sub_le _ _) hW).bind fun _ _ => .pure fun _ _ h => ⟨rfl, h⟩

omit ho in
theorem append_tandem (vs : List Value) :
    Paired B (Work ρ W lim even fs fs' n) (append vs) (append vs)
      fun _ _ => Work ρ W lim even fs fs' (n + vs.length) := by
  have hsize : ∀ stack : Array Value, (stack.appendList vs).size = stack.size + vs.length :=
    fun stack => by
      rw [Array.appendList_eq_append, ← Array.length_toList, Array.toList_appendList,
        List.length_append, Array.length_toList]
  have hget : ∀ (stack : Array Value) (x : Nat), (stack.appendList vs)[x]? =
      if x < stack.size then stack[x]? else vs[x - stack.size]? := fun stack x => by
    rw [← Array.getElem?_toList, Array.appendList_eq_append, Array.toList_appendList,
      List.getElem?_append, Array.length_toList, Array.getElem?_toList]
  refine .update fun s t h => h.mapStack (by rw [hsize, h.size]) (by rw [hsize, h.size'])
    (fun x j hx => ?_) fun x hx => ?_
  · rw [hget, if_pos (h.doubles.lt_of_shown hx)]
  · rw [hget, hget, h.size, h.size', hx]

theorem slot_tandem {x : Nat} (hx : ∀ j, ¬ W x j) :
    Paired B (Work ρ W lim even fs fs' n) (slot x) (slot x)
      fun u v s t => v = u ∧ Work ρ W lim even fs fs' n s t := by
  refine Tandem.bind_same (Q := fun _ => Work ρ W lim even fs fs' n)
    (.ask fun s t h => ⟨h.doubles.stack x hx, h⟩) fun o => ?_
  cases o with
  | none => exact fail_tandem ho _
  | some v => exact .pure fun _ _ h => ⟨rfl, h⟩

end Stack

/-! ## Variables -/

section Cells

variable {i j x : Nat} (ho : Over B ρ W lim fs')

theorem slot_readCell (hw : W x j) :
    Paired B (Work ρ W lim even fs fs' n) (slot x) (readCell j)
      fun u v s t => v = u ∧ Work ρ W lim even fs fs' n s t := by
  intro s t h
  obtain ⟨v, hv, hj⟩ := h.doubles.slots.shown hw
  simp only [slot, readCell, Act.bind_apply, Act.ask, Act.askStore, hv, hj]
  exact ⟨rfl, h⟩

theorem readCell_tandem (hj : ρ[i]? = some j) :
    Paired B (Work ρ W lim even fs fs' n) (readCell i) (readCell j)
      fun u v s t => v = u ∧ Work ρ W lim even fs fs' n s t := by
  intro s t h
  obtain ⟨c, hget⟩ : ∃ c, s.store.cells[i]? = some c :=
    ⟨_, Array.getElem?_eq_getElem (h.doubles.slots.cell_lt hj)⟩
  cases c with
  | live x =>
    obtain ⟨j', hj', hw⟩ := h.doubles.slots.live hget
    cases hj.symm.trans hj'
    have := slot_readCell (B := B) hw s t h
    simpa only [readCell, Act.bind_apply, Act.askStore, hget] using this
  | closed v =>
    obtain ⟨j', hj', hv, -⟩ := h.doubles.slots.closed hget
    cases hj.symm.trans hj'
    simp only [readCell, Act.bind_apply, Act.askStore, hget, hv]
    exact ⟨rfl, h⟩

theorem setSlot_writeCell (hw : W x j) (hx : x < lim) (v : Value) :
    Paired B (Work ρ W lim even fs fs' n) (setSlot x v) (writeCell j v)
      fun _ _ => Work ρ W lim n fs fs' n := by
  intro s t h
  obtain ⟨u, -, hj⟩ := h.doubles.slots.shown hw
  have hlt : ¬ x ≥ s.machine.stack.size := Nat.not_le.mpr (h.doubles.lt_of_shown hw)
  simp only [setSlot, writeCell, Act.bind_apply, Act.ask, Act.askStore, hj, if_neg hlt, Act.update,
    Act.updateStore, Act.onStore]
  refine {
    rest := congrArg (fun u : State => { u with
      store := t.store.setCell j (.closed v)
      machine := t.machine }) h.rest
    frames := h.frames
    frames' := h.frames'
    size := Array.size_setIfInBounds.trans h.size
    even := fun y hy => ?_
    doubles := { h.doubles with
      store := ?_
      size := h.doubles.size.trans Array.size_setIfInBounds.symm
      stack := fun y hy => ?_
      slots := h.doubles.slots.write hw hx v } }
  · have hy' : (s.machine.stack.setIfInBounds x v).size ≤ y := by
      rw [Array.size_setIfInBounds, h.size]
      exact hy
    exact (Array.getElem?_eq_none (h.size'.symm ▸ hy)).trans (Array.getElem?_eq_none hy').symm
  · exact congrArg (fun k : Store => { k with
      cells := t.store.cells.setIfInBounds j (.closed v)
      closures := t.store.closures }) h.doubles.store
  · have hne : x ≠ y := by
      rintro rfl
      exact hy j hw
    exact (h.doubles.stack y hy).trans (Array.getElem?_setIfInBounds_ne hne).symm

theorem writeCell_tandem (hj : ρ[i]? = some j) (hW : ∀ x j, W x j → x < lim) (v : Value) :
    Paired B (Work ρ W lim even fs fs' n) (writeCell i v) (writeCell j v)
      fun _ _ => Work ρ W lim n fs fs' n := by
  intro s t h
  obtain ⟨c, hget⟩ : ∃ c, s.store.cells[i]? = some c :=
    ⟨_, Array.getElem?_eq_getElem (h.doubles.slots.cell_lt hj)⟩
  cases c with
  | live x =>
    obtain ⟨j', hj', hw⟩ := h.doubles.slots.live hget
    cases hj.symm.trans hj'
    have := setSlot_writeCell (B := B) hw (hW x j hw) v s t h
    simpa only [writeCell, Act.bind_apply, Act.askStore, hget] using this
  | closed u =>
    obtain ⟨j', hj', hv, hn⟩ := h.doubles.slots.closed hget
    cases hj.symm.trans hj'
    simp only [writeCell, Act.bind_apply, Act.askStore, hget, hv]
    exact {
      rest := congrArg (fun u : State => { u with
        store := t.store.setCell j (.closed v)
        machine := t.machine }) h.rest
      frames := h.frames
      frames' := h.frames'
      size := h.size
      even := h.odd.even
      doubles := { h.doubles with
        store := congrArg (fun k : Store => { k with
          cells := t.store.cells.setIfInBounds j (.closed v)
          closures := t.store.closures }) h.doubles.store
        linked := h.doubles.linked.setClosed hget v
        slots := h.doubles.slots.rewrite hget hj (fun x hx => hn x (hW x j hx) hx) v } }

theorem openCell_tandem (hw : W x j) (hx : x < lim) :
    Paired B (Work ρ W lim even fs fs' n) (openCell x) (Pure.pure j : Run Nat) fun i j' s t =>
      j' = j ∧ ∃ ρ', ρ <+: ρ' ∧ ρ'[i]? = some j ∧ Work ρ' W lim even fs fs' n s t := by
  intro s t h
  cases hc : openCell? x s.machine.openCells with
  | some i =>
    simp only [openCell, Act.bind_apply, Act.ask, hc]
    have hm := (h.doubles.linked.sound.openCell?_eq_some_iff).mp hc
    obtain ⟨j', hj', hw'⟩ := h.doubles.slots.live (h.doubles.linked.sound.live _ hm)
    cases h.doubles.slots.unique hw hw'
    exact ⟨rfl, ρ, List.prefix_refl ρ, hj', h⟩
  | none =>
    simp only [openCell, Act.bind_apply, Act.ask, hc]
    have hnone : ∀ i : Nat, s.store.cells[i]? ≠ some (.live x) := fun i hi => by
      have := (h.doubles.linked.sound.openCell?_eq_some_iff).mpr (h.doubles.linked.all i x hi)
      rw [hc] at this
      cases this
    have hclosures : ∀ i c, s.store.closures[i]? = some c →
        ∃ c', t.store.closures[i]? = some c' ∧ Copies (ρ ++ [j]) c c' := fun i c hi => by
      obtain ⟨c', hc', he⟩ := h.doubles.closures i c hi
      exact ⟨c', hc', he.mono (List.prefix_append ρ [j])⟩
    refine ⟨rfl, ρ ++ [j], List.prefix_append ρ [j], ?_, ?_⟩
    · have hlen := h.doubles.slots.length
      show (ρ ++ [j])[s.store.cells.size]? = some j
      rw [List.getElem?_append_right (Nat.le_of_eq hlen), hlen, Nat.sub_self]
      rfl
    · exact {
        rest := congrArg (fun u : State => { u with store := t.store, machine := t.machine }) h.rest
        frames := h.frames
        frames' := h.frames'
        size := h.size
        even := h.even
        doubles := { h.doubles with
          store := h.doubles.store.trans rfl
          linked := h.doubles.linked.insertOpen hc
          closures := hclosures
          slots := h.doubles.slots.openSlot hw hx hnone } }

theorem cellOf_tandem (ha : Twin ρ a a') (hi : i < a.closure.proto.captures.size) :
    Paired B (Work ρ W lim even fs fs' n) (cellOf a i) (cellOf a' i) fun id id' s t =>
      ρ[id]? = some id' ∧ Work ρ W lim even fs fs' n s t := by
  rw [← ha.own] at hi
  have hget := Array.getElem?_eq_getElem hi
  obtain ⟨j, hj, hj'⟩ := ha.cells i _ hget
  unfold cellOf
  rw [hget, hj']
  exact .pure fun _ _ h => ⟨hj, h⟩

theorem closeFrom_of_nil {t : State} (h : t.machine.openCells = []) (height : Nat) :
    t.closeFrom height = t := by
  obtain ⟨store, names, config, mode, ⟨stack, frames, openCells, steps, peak⟩, parked, depth, gensyms,
    output, reports⟩ := t
  cases (h : openCells = [])
  rfl

/-- The cells of all slots from a height on are closed; the ideal machine has nothing to close. -/
theorem Work.closeFrom {s t : State} (h : Work ρ W lim even fs fs' n s t) (height : Nat) :
    Work ρ W (min lim height) even fs fs' n (s.closeFrom height) t ∧
      ∀ c ∈ (s.closeFrom height).machine.openCells, c.slot < height :=
  ⟨{ rest := congrArg (fun u : State => { u with store := t.store, machine := t.machine }) h.rest
     frames := h.frames
     frames' := h.frames'
     size := h.size
     even := h.even
     doubles := h.doubles.closeFrom height }, fun _ hc =>
    ((h.doubles.linked.sound.mem_dropWhile height).mp hc).2⟩

theorem closeSlots_pure (height : Nat) :
    Paired B (Work ρ W lim even fs fs' n) (closeSlots height) (Pure.pure ())
      fun _ _ => Work ρ W (min lim height) even fs fs' n := fun _ _ h => (h.closeFrom height).1

/-- Slots whose cells have been closed need not show cells any more. -/
theorem closeSlots_cut {height : Nat} (he : even ≤ height) (hh : height ≤ lim) :
    Paired B (Work ρ W lim even fs fs' n) (closeSlots height) (closeSlots height)
      fun _ _ => Work ρ (W.below height) lim even fs fs' n :=
  .update fun s t h => by
    obtain ⟨h', hl⟩ := h.closeFrom height
    rw [closeFrom_of_nil h.doubles.openCells]
    refine (h'.cut he hl).relax (fun x j hx => ?_) lim
    rw [Nat.min_eq_right hh]
    exact hx.2

theorem newClosure_tandem {c c' : Closure} (hc : Copies ρ c c') :
    Paired B (Work ρ W lim even fs fs' n) (Act.onStore (Store.newClosure c))
      (Act.onStore (Store.newClosure c'))
      fun i i' s t => i' = i ∧ Work ρ W lim even fs fs' n s t :=
  .onStore fun _ t h => ⟨h.doubles.functions, {
    rest := congrArg (fun u : State => { u with
      store := (t.store.newClosure c').2
      machine := t.machine }) h.rest
    frames := h.frames
    frames' := h.frames'
    size := h.size
    even := h.even
    doubles := h.doubles.newClosure hc }⟩

end Cells

/-! ## Frames -/

theorem goTo_tandem (ip : Nat) :
    Paired B (Work ρ W lim even (fs.push a) (fs'.push a') n) (goTo ip) (goTo ip) fun _ _ =>
      Work ρ W lim even (fs.push { a with ip := ip }) (fs'.push { a' with ip := ip }) n := by
  refine .update fun s t h => ?_
  have hm := h.mapFrames (fun fs => fs.modify (fs.size - 1) fun a => { a with ip := ip })
    fun fs => fs.modify (fs.size - 1) fun a => { a with ip := ip }
  rwa [modify_push, modify_push] at hm

theorem Work.running {W : Display} {s t : State}
    (h : Work ρ W lim even (fs.push a) (fs'.push a') n s t) :
    Machine.running s = .ok a s ∧ Machine.running t = .ok a' t := by
  have hback : s.machine.frames.back? = some a := by rw [h.frames, Array.back?_push]
  have hback' : t.machine.frames.back? = some a' := by rw [h.frames', Array.back?_push]
  simp only [Machine.running, Act.bind_apply, Act.ask, hback, hback']
  exact ⟨rfl, rfl⟩

theorem Work.counted {s t : State} (h : Work ρ W lim even fs fs' n s t) :
    Work ρ W lim even fs fs' n (s.mapMachine fun m => { m with steps := m.steps + 1 })
      (t.mapMachine fun m => { m with steps := m.steps + 1 }) where
  rest := congrArg (fun u : State => { u with
    store := t.store
    machine := { t.machine with steps := t.machine.steps + 1 } }) h.rest
  frames := h.frames
  frames' := h.frames'
  size := h.size
  even := h.even
  doubles := { h.doubles with steps := congrArg (· + 1) h.doubles.steps }

section Frames

variable (ho : Over B ρ W lim fs')

include ho

theorem tick_tandem :
    Paired B (Work ρ W lim even fs fs' n) tick tick fun _ _ => Work ρ W lim even fs fs' n := by
  refine Tandem.bind (Q := fun _ _ => Work ρ W lim even fs fs' n) (.update fun _ _ h => h.counted)
    fun _ _ => ?_
  refine Tandem.bind_same (Q := fun _ => Work ρ W lim even fs fs' n)
    (.ask fun s t h => ⟨congrArg (·.limits.stepBudget) h.config, h⟩) fun b => ?_
  cases b with
  | none => exact .pure fun _ _ h => h
  | some budget =>
    refine Tandem.bind_same (Q := fun _ => Work ρ W lim even fs fs' n)
      (.ask fun s t h => ⟨h.doubles.steps, h⟩) fun steps => ?_
    exact Tandem.ite (fun _ => fail_tandem ho _) fun _ => .pure fun _ _ h => h

omit ho in
theorem Work.pushFrame {s t : State} (h : Work ρ W lim even fs fs' n s t) (hsize : fs'.size = fs.size)
    (b b' : Activation) : Work ρ W lim even (fs.push b) (fs'.push b') n
      (s.mapMachine fun m =>
        { m with frames := m.frames.push b, peak := max m.peak (s.machine.frames.size + 1) })
      (t.mapMachine fun m =>
        { m with frames := m.frames.push b', peak := max m.peak (t.machine.frames.size + 1) }) where
  rest := congrArg (fun u : State => { u with
    store := t.store
    machine := { t.machine with
      frames := t.machine.frames.push b'
      peak := max t.machine.peak (t.machine.frames.size + 1) } }) h.rest
  frames := congrArg (·.push b) h.frames
  frames' := congrArg (·.push b') h.frames'
  size := h.size
  even := h.even
  doubles := { h.doubles with
    peak := by
      show max t.machine.peak (t.machine.frames.size + 1) =
        max s.machine.peak (s.machine.frames.size + 1)
      rw [h.doubles.peak, h.frames, h.frames', hsize] }

theorem pushFrame_tandem (hsize : fs'.size = fs.size) (c c' : Closure) (base : Nat) (counted : Bool) :
    Paired B (Work ρ W lim even fs fs' n) (pushFrame c base counted) (pushFrame c' base counted)
      fun _ _ => Work ρ W lim even (fs.push ⟨c, 0, base, counted⟩) (fs'.push ⟨c', 0, base, counted⟩)
        n := by
  intro s t h
  have hdepth : t.depth ≥ t.config.maxDepth ↔ s.depth ≥ s.config.maxDepth := by
    rw [h.depth, h.config]
  have hframes : t.machine.frames.size ≥ t.config.limits.framesMax ↔
      s.machine.frames.size ≥ s.config.limits.framesMax := by
    rw [h.frames, h.frames', h.config, hsize]
  have hlimit : t.config.limits.framesMax = s.config.limits.framesMax := by rw [h.config]
  unfold pushFrame
  cases counted with
  | true =>
    by_cases hd : s.depth ≥ s.config.maxDepth
    · simp only [if_true, Act.bind_apply, Run.enter, if_pos hd, if_pos (hdepth.mpr hd)]
      exact ⟨rfl, h.torn ho⟩
    · have hn := h.atDepth (· + 1)
      by_cases hf : s.machine.frames.size ≥ s.config.limits.framesMax
      · simp only [if_true, Act.bind_apply, Run.enter, if_neg hd, if_neg (mt hdepth.mp hd), Act.ask,
          if_pos hf, if_pos (hframes.mpr hf), Run.leave, Act.update, Run.fail, Act.raise]
        exact ⟨by rw [hlimit], (hn.atDepth (· - 1)).torn ho⟩
      · simp only [if_true, Act.bind_apply, Run.enter, if_neg hd, if_neg (mt hdepth.mp hd), Act.ask,
          if_neg hf, if_neg (mt hframes.mp hf), Act.update]
        exact hn.pushFrame hsize _ _
  | false =>
    by_cases hf : s.machine.frames.size ≥ s.config.limits.framesMax
    · simp only [Bool.false_eq_true, if_false, Act.bind_apply, Act.ask, if_pos hf,
        if_pos (hframes.mpr hf), Run.fail, Act.raise]
      exact ⟨by rw [hlimit], h.torn ho⟩
    · simp only [Bool.false_eq_true, if_false, Act.bind_apply, Act.ask, if_neg hf,
        if_neg (mt hframes.mp hf), Act.update]
      exact h.pushFrame hsize _ _

end Frames

end Machine.Ideal

end TwinLisp
