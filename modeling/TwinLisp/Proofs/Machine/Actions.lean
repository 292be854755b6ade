import TwinLisp.Proofs.Machine.Frames

/-! Single actions on a stack with an outline. Each finds what it takes, so it raises none of the
faults of corrupt bytecode.

* `Works`: what an action does, and that its faults are such as may be raised.
* `push_works`, `pop_works` and so on: the actions one by one. -/

namespace TwinLisp

namespace Machine.Typed

open Act

/-- What an action does to a state at work; a fault is none of corrupt bytecode. -/
abbrev Works {α : Type} (G : Ground) (P : State → Prop) (a : Run α) (Q : α → State → Prop) : Prop :=
  Meets P a Q (Fails G)

variable {G : Ground} {frames waiting : Array Activation} {base d : Nat} {o : Outline}

theorem getElem?_shrink {α : Type} (xs : Array α) {n i : Nat} (h : i < n) :
    (xs.shrink n)[i]? = xs[i]? := by
  rw [Array.shrink_eq_take, Array.take_eq_extract, Array.getElem?_extract, Nat.zero_add]
  split
  · rfl
  · rw [Array.getElem?_eq_none (by omega)]

/-- An action that leaves the outline as it is. -/
abbrev Rest {α : Type} (G : Ground) (frames waiting : Array Activation) (base d : Nat) (o : Outline)
    (a : Run α) : Prop :=
  Works G (Stands G frames waiting base d o) a fun _ => Stands G frames waiting base d o

theorem fail_works {α : Type} {P : State → Prop} {Q : α → State → Prop} {f : RuntimeFault}
    (hf : Sane G.limits G.maxDepth f) (hP : ∀ s, P s → Broken G s) : Works G P (Run.fail f) Q :=
  Run.fail_meets fun s hs => ⟨hf, hP s hs⟩

/-! ## The stack -/

section Stack

variable (hr : Rests G frames)

include hr

theorem push_works (v : Value) :
    Works G (Stands G frames waiting base d o) (push v)
      fun _ => Stands G frames waiting base d ⟨o.height + 1, o.held⟩ := by
  intro s h
  refine ⟨rfl, ?_⟩
  unfold push
  split
  · exact ⟨⟨nofun, fun _ => nofun⟩, h.broken hr⟩
  · refine h.mapStack ?_ (fun c hc => ?_) fun i hi => ?_
    · rw [Array.size_push, h.height]
      rfl
    · have := h.low c hc
      rw [h.height] at this
      omega
    · rw [Array.getElem?_push, if_neg (by rw [h.height]; omega)]

omit hr in
theorem pop_works (hn : 0 < o.height) (hk : ∀ i ∈ o.held, i < o.height - 1) :
    Works G (Stands G frames waiting base d o) pop
      fun _ => Stands G frames waiting base d ⟨o.height - 1, o.held⟩ := by
  intro s h
  refine ⟨rfl, ?_⟩
  have hsize := h.height
  unfold pop
  split
  · next he =>
    rw [Array.back?_eq_none_iff] at he
    rw [he] at hsize
    simp at hsize
    omega
  · refine h.mapStack ?_ (h.slot_lt hk) fun i hi => ?_
    · rw [Array.size_pop, hsize]
      omega
    · rw [Array.getElem?_pop, if_pos (by omega)]

omit hr in
theorem top_works (hn : 0 < o.height) : Rest G frames waiting base d o top := by
  intro s h
  refine ⟨rfl, ?_⟩
  have hsize := h.height
  obtain ⟨v, hv⟩ : ∃ v, s.machine.stack.back? = some v := by
    rw [Array.back?_eq_getElem?]
    exact ⟨_, Array.getElem?_eq_getElem (by omega)⟩
  simp only [top, Act.bind_apply, Act.ask, hv]
  exact h

omit hr in
theorem truncate_works {n : Nat} (hn : n ≤ o.height) (hk : ∀ i ∈ o.held, i < n) :
    Works G (Stands G frames waiting base d o) (truncate (base + n))
      fun _ => Stands G frames waiting base d ⟨n, o.held⟩ := by
  refine .update fun s h => h.mapStack ?_ (h.slot_lt hk) fun i hi => ?_
  · rw [Array.size_shrink, h.height]
    omega
  · exact getElem?_shrink _ (by omega)

omit hr in
theorem drop_works {n : Nat} (hn : n ≤ o.height) (hk : ∀ i ∈ o.held, i < o.height - n) :
    Works G (Stands G frames waiting base d o) (drop n)
      fun _ => Stands G frames waiting base d ⟨o.height - n, o.held⟩ := by
  intro s h
  have hsize := h.height
  have hlt : ¬ s.machine.stack.size < n := by omega
  have hb : s.machine.stack.size - n = base + (o.height - n) := by omega
  obtain ⟨_, ht⟩ := truncate_works (Nat.sub_le o.height n) hk s h
  refine ⟨rfl, ?_⟩
  simp only [drop, Act.bind_apply, Act.ask, if_neg hlt, hb]
  exact ht

omit hr in
theorem popMany_works {n : Nat} (hn : n ≤ o.height) (hk : ∀ i ∈ o.held, i < o.height - n) :
    Works G (Stands G frames waiting base d o) (popMany n)
      fun vs s => vs.length = n ∧ Stands G frames waiting base d ⟨o.height - n, o.held⟩ s := by
  intro s h
  have hsize := h.height
  have hlt : ¬ s.machine.stack.size < n := by omega
  have hb : s.machine.stack.size - n = base + (o.height - n) := by omega
  obtain ⟨_, ht⟩ := truncate_works (Nat.sub_le o.height n) hk s h
  refine ⟨rfl, ?_⟩
  simp only [popMany, Act.bind_apply, Act.ask, if_neg hlt, truncate, Act.update] at ht ⊢
  refine ⟨?_, hb ▸ ht⟩
  rw [Array.length_toList, Array.size_extract]
  omega

omit hr in
theorem append_works (vs : List Value) :
    Works G (Stands G frames waiting base d o) (append vs)
      fun _ => Stands G frames waiting base d ⟨o.height + vs.length, o.held⟩ := by
  refine .update fun s h => h.mapStack ?_ (fun c hc => ?_) fun i hi => ?_
  · rw [Array.appendList_eq_append, ← Array.length_toList, Array.toList_appendList,
      List.length_append, Array.length_toList, h.height, Nat.add_assoc]
  · have := h.low c hc
    rw [h.height] at this
    omega
  · rw [← Array.getElem?_toList, Array.appendList_eq_append, Array.toList_appendList,
      List.getElem?_append_left (by rw [Array.length_toList, h.height]; omega),
      Array.getElem?_toList]

omit hr in
theorem slot_meets {P : State → Prop} {R : RuntimeError → State → Prop} {i : Nat}
    (hi : ∀ s, P s → i < s.machine.stack.size) : Meets P (slot i) (fun _ => P) R := by
  intro s h
  refine ⟨rfl, ?_⟩
  simp only [slot, Act.bind_apply, Act.ask, Array.getElem?_eq_getElem (hi s h)]
  exact h

omit hr in
theorem slot_works {i : Nat} (hi : i < o.height) :
    Rest G frames waiting base d o (slot (base + i)) :=
  slot_meets fun s h => by
    rw [h.height]
    omega

omit hr in
theorem setSlot_works {i : Nat} (hi : i < o.height) (v : Value) :
    Rest G frames waiting base d o (setSlot (base + i) v) := by
  intro s h
  refine ⟨rfl, ?_⟩
  have hlt : ¬ base + i ≥ s.machine.stack.size := by
    rw [h.height]
    omega
  simp only [setSlot, Act.bind_apply, Act.ask, if_neg hlt, Act.update]
  exact h.setSlot (.inl (Nat.le_add_right base i)) v

/-! ## Constants and captured variables -/

omit hr in
theorem constant_works {P : State → Prop} {a : Activation} {i : Nat}
    (hi : i < a.closure.proto.chunk.constants.size) : Works G P (constant a i) fun _ => P := by
  unfold constant
  rw [Array.getElem?_eq_getElem hi]
  exact .pure fun _ h => h

omit hr in
theorem varConstant_works {P : State → Prop} {a : Activation} {i : Nat} {v : Var}
    (hi : a.closure.proto.chunk.constants[i]? = some (.var v)) :
    Works G P (varConstant a i) fun _ => P := by
  unfold varConstant constant
  rw [hi]
  exact .pure fun _ h => h

omit hr in
theorem cellOf_works {P : State → Prop} {a : Activation} {i : Nat}
    (hi : i < a.closure.cells.size) : Works G P (cellOf a i) fun _ => P := by
  unfold cellOf
  rw [Array.getElem?_eq_getElem hi]
  exact .pure fun _ h => h

omit hr in
theorem readCell_works (id : Nat) : Rest G frames waiting base d o (readCell id) := by
  intro s h
  refine ⟨rfl, ?_⟩
  match hc : s.store.cells[id]? with
  | some (.live i) =>
    have hlt := h.low _ (h.linked.all id i hc)
    simp only [readCell, Act.bind_apply, Act.askStore, hc]
    exact (slot_meets (P := fun t => t = s) (R := Fails G) (by rintro _ rfl; exact hlt) s rfl).2.imp
      (fun _ t ht => ht ▸ h) fun _ _ h => h
  | some (.closed v) =>
    simp only [readCell, Act.bind_apply, Act.askStore, hc]
    exact h
  | none =>
    simp only [readCell, Act.bind_apply, Act.askStore, hc]
    exact h

omit hr in
theorem writeCell_works (id : Nat) (v : Value) :
    Rest G frames waiting base d o (writeCell id v) := by
  intro s h
  refine ⟨rfl, ?_⟩
  match hc : s.store.cells[id]? with
  | some (.live i) =>
    have hm := h.linked.all id i hc
    have hlt : ¬ i ≥ s.machine.stack.size := Nat.not_le.mpr (h.low _ hm)
    simp only [writeCell, Act.bind_apply, Act.askStore, hc, setSlot, Act.ask, if_neg hlt, Act.update]
    exact h.setSlot (.inr ⟨_, hm, rfl⟩) v
  | some (.closed u) =>
    simp only [writeCell, Act.bind_apply, Act.askStore, hc]
    exact { h with linked := h.linked.setClosed hc v }
  | none =>
    simp only [writeCell, Act.bind_apply, Act.askStore, hc]
    exact h

omit hr in
theorem openCell_works {i : Nat} (hi : i ∈ o.held) (hlt : i < o.height) :
    Rest G frames waiting base d o (openCell (base + i)) := by
  intro s h
  refine ⟨rfl, ?_⟩
  cases hc : openCell? (base + i) s.machine.openCells with
  | some id =>
    simp only [openCell, Act.bind_apply, Act.ask, hc]
    exact h
  | none =>
    simp only [openCell, Act.bind_apply, Act.ask, hc]
    exact h.insertOpen hi hlt hc

omit hr in
theorem closeSlots_works (n : Nat) :
    Works G (Stands G frames waiting base d o) (closeSlots (base + n))
      fun _ => Stands G frames waiting base d (o.closedFrom n) :=
  .update fun _ h => h.closeFrom n

omit hr in
theorem captures_works {a : Activation} {count ip : Nat} {acc : Array Nat}
    (hsound : a.closure.Sound) (hbase : a.base = base)
    (hp : ∀ j < count, ∃ c : Capture,
      a.closure.proto.chunk.code[ip + 2 * j]? = some (if c.isLocal then 1 else 0) ∧
      a.closure.proto.chunk.code[ip + 2 * j + 1]? = some c.index ∧
      a.closure.proto.Reaches o c) :
    Works G (Stands G frames waiting base d o) (captures a acc count ip) fun r s =>
      r.1.size = acc.size + count ∧ r.2 = ip + 2 * count ∧
        Stands G frames waiting base d o s := by
  induction count generalizing ip acc with
  | zero => exact .pure fun s h => ⟨rfl, rfl, h⟩
  | succ count ih =>
    obtain ⟨c, hl, hx, hreach⟩ := hp 0 (Nat.zero_lt_succ _)
    rw [Nat.mul_zero, Nat.add_zero] at hl hx
    unfold captures
    simp only [hl, hx]
    have hrest : ∀ id, Works G (Stands G frames waiting base d o)
        (captures a (acc.push id) count (ip + 2)) fun r s =>
          r.1.size = acc.size + (count + 1) ∧ r.2 = ip + 2 * (count + 1) ∧
            Stands G frames waiting base d o s := by
      intro id
      refine (@ih (ip + 2) (acc.push id) fun j hj => ?_).post fun r s h => ?_
      · obtain ⟨c, hl, hx, hc⟩ := hp (j + 1) (Nat.succ_lt_succ hj)
        refine ⟨c, ?_, ?_, hc⟩
        · rw [← hl]
          congr 1
          omega
        · rw [← hx]
          congr 1
          omega
      · rw [Array.size_push] at h
        exact ⟨by omega, by omega, h.2.2⟩
    unfold Proto.Reaches at hreach
    cases hloc : c.isLocal with
    | true =>
      rw [hloc] at hreach
      simp only [if_true] at hreach
      have hne : ¬ ((1 : UInt8) = 0) := by decide
      simp only [if_true, if_neg hne, hbase]
      exact Alike.bind (openCell_works hreach.1 hreach.2) hrest
    | false =>
      rw [hloc] at hreach
      simp only [Bool.false_eq_true, if_false] at hreach ⊢
      simp only [if_true]
      exact Alike.bind (cellOf_works (by rw [hsound.cells]; exact hreach)) hrest

end Stack

end Machine.Typed

end TwinLisp
