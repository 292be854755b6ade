import TwinLisp.Proofs.Machine.Coherent

/-! Captured variables last. Whatever bytecode runs, a cell that has been closed is never opened
again, one that stands for a slot of the stack stands for that slot until it is closed, and a function
keeps its cells, all of which exist.

* `Lasts`: what remains of cells and functions.
* `Complete`: all cells that are spoken of exist.
* `Since`: a state at work that was reached from another one; every instruction keeps it.
* `lasting`: the watch, from which calls follow. -/

namespace TwinLisp

namespace Machine

open Act

/-! ## Cells and functions -/

/-- Cells are neither opened again nor moved, and compiled functions stay as they are. -/
structure Lasts (k l : State.Core) : Prop where
  cell : ∀ (i : Nat) x, k.cells[i]? = some x →
    l.cells[i]? = some x ∨ ∃ v, l.cells[i]? = some (.closed v)
  closure : ∀ (i : Nat) c, k.closures[i]? = some c → l.closures[i]? = some c

namespace Lasts

variable {k l m : State.Core}

theorem refl (k : State.Core) : Lasts k k := ⟨fun _ _ h => .inl h, fun _ _ h => h⟩

theorem trans (h : Lasts k l) (h' : Lasts l m) : Lasts k m where
  cell i x hx := by
    rcases h.cell i x hx with hl | ⟨v, hl⟩
    · exact h'.cell i x hl
    · rcases h'.cell i _ hl with hm | hm
      · exact .inr ⟨v, hm⟩
      · exact .inr hm
  closure i c hc := h'.closure i c (h.closure i c hc)

theorem size_le (h : Lasts k l) : k.cells.size ≤ l.cells.size := by
  by_contra hlt
  have hi : k.cells[l.cells.size]? = some k.cells[l.cells.size] :=
    Array.getElem?_eq_getElem (by omega)
  rcases h.cell _ _ hi with hl | ⟨v, hl⟩
  · simp at hl
  · simp at hl

/-- A cell that was there and is open now has always been open, for the same slot. -/
theorem live (h : Lasts k l) {i slot : Nat} (hi : i < k.cells.size)
    (hl : l.cells[i]? = some (.live slot)) : k.cells[i]? = some (.live slot) := by
  have hk : k.cells[i]? = some k.cells[i] := Array.getElem?_eq_getElem hi
  rcases h.cell i _ hk with e | ⟨v, e⟩
  · rw [hk, ← e, hl]
  · rw [hl] at e
    cases e

end Lasts

/-- All cells of a function exist. -/
def Housed (cells : Array Cell) (c : Closure) : Prop := ∀ id ∈ c.cells, id < cells.size

/-- All cells of the functions of a machine, and its open cells, exist. -/
structure Furnished (cells : Array Cell) (m : Machine) : Prop where
  frames : ∀ a ∈ m.frames, Housed cells a.closure
  openCells : ∀ c ∈ m.openCells, c.cell < cells.size

/-- All cells that are spoken of exist. -/
structure Complete (k : State.Core) : Prop where
  closures : ∀ (i : Nat) c, k.closures[i]? = some c → Housed k.cells c
  machine : Furnished k.cells k.machine
  parked : ∀ m, k.parked = some m → Furnished k.cells m

theorem Housed.mono {cells cells' : Array Cell} {c : Closure} (h : Housed cells c)
    (hle : cells.size ≤ cells'.size) : Housed cells' c :=
  fun id hid => Nat.lt_of_lt_of_le (h id hid) hle

theorem Furnished.mono {cells cells' : Array Cell} {m : Machine} (h : Furnished cells m)
    (hle : cells.size ≤ cells'.size) : Furnished cells' m :=
  ⟨fun a ha => (h.frames a ha).mono hle, fun c hc => Nat.lt_of_lt_of_le (h.openCells c hc) hle⟩

theorem furnished_idle (cells : Array Cell) : Furnished cells idle := ⟨nofun, nofun⟩

/-- A state whose cells and functions are those of another one and later ones. -/
structure Since (k : State.Core) (s : State) : Prop where
  lasts : Lasts k s.core
  complete : Complete s.core

variable {k : State.Core}

namespace Since

variable {s : State} (h : Since k s)

theorem self {s : State} (h : Complete s.core) : Since s.core s := ⟨.refl _, h⟩

include h

theorem trans {t : State} (h' : Since s.core t) : Since k t :=
  ⟨h.lasts.trans h'.lasts, h'.complete⟩

theorem ofMachine {m : Machine} (hm : Furnished s.store.cells m) :
    Since k { s with machine := m } :=
  ⟨⟨h.lasts.cell, h.lasts.closure⟩, h.complete.closures, hm, h.complete.parked⟩

theorem mapStack (f : Array Value → Array Value) :
    Since k (s.mapMachine (Machine.mapStack f)) :=
  h.ofMachine ⟨h.complete.machine.frames, h.complete.machine.openCells⟩

theorem ofStore {store : Store} (hl : Lasts s.core { s with store := store : State }.core)
    (hc : ∀ (i : Nat) c, store.closures[i]? = some c → Housed store.cells c) :
    Since k { s with store := store } :=
  ⟨h.lasts.trans hl, hc, h.complete.machine.mono hl.size_le,
    fun m hm => (h.complete.parked m hm).mono hl.size_le⟩

end Since

/-- A cell that is given a value for good is no other cell, or is closed. -/
theorem cell_setClosed {cells : Array Cell} {i j : Nat} {x : Cell} (v : Value)
    (hx : cells[i]? = some x) : (cells.setIfInBounds j (.closed v))[i]? = some x ∨
      ∃ w, (cells.setIfInBounds j (.closed v))[i]? = some (.closed w) := by
  by_cases hij : j = i
  · subst hij
    have hlt : j < cells.size := (Array.getElem?_eq_some_iff.mp hx).1
    exact .inr ⟨v, by rw [Array.getElem?_setIfInBounds_self, if_pos hlt]⟩
  · exact .inl (by rw [Array.getElem?_setIfInBounds_ne hij, hx])

theorem cell_push {cells : Array Cell} {i : Nat} {x : Cell} (y : Cell) (hx : cells[i]? = some x) :
    (cells.push y)[i]? = some x := by
  have hlt : i < cells.size := (Array.getElem?_eq_some_iff.mp hx).1
  rw [Array.getElem?_push, if_neg (Nat.ne_of_lt hlt), hx]

theorem cell_closeCells {stack : Array Value} {store : Store} {cs : List OpenCell} {i : Nat}
    {x : Cell} (hx : store.cells[i]? = some x) :
    (closeCells stack store cs).cells[i]? = some x ∨
      ∃ v, (closeCells stack store cs).cells[i]? = some (.closed v) := by
  induction cs generalizing store x with
  | nil => exact .inl hx
  | cons c rest ih =>
    rw [closeCells]
    rcases cell_setClosed (j := c.cell) ((stack[c.slot]?).getD .nil) hx with h | ⟨v, h⟩
    · exact ih h
    · rcases @ih (store.setCell c.cell _) _ h with h | h
      · exact .inr ⟨v, h⟩
      · exact .inr h

theorem Since.closeFrom {s : State} (h : Since k s) (height : Nat) :
    Since k (s.closeFrom height) := by
  have hstore : (s.closeFrom height).store = closeCells s.machine.stack s.store
      (s.machine.openCells.takeWhile fun c => height ≤ c.slot) := rfl
  have hsize : (s.closeFrom height).store.cells.size = s.store.cells.size := by
    rw [hstore, size_closeCells]
  have hclosures : (s.closeFrom height).store.closures = s.store.closures := by
    rw [hstore, closeCells_eq]
  have hle : s.store.cells.size ≤ (s.closeFrom height).store.cells.size := Nat.le_of_eq hsize.symm
  refine ⟨h.lasts.trans ⟨fun i x hx => ?_, fun i c hc => ?_⟩, ⟨fun i c hc => ?_, ?_, fun m hm => ?_⟩⟩
  · exact cell_closeCells hx
  · show (s.closeFrom height).store.closures[i]? = some c
    rw [hclosures]
    exact hc
  · refine Housed.mono (h.complete.closures i c ?_) hle
    show s.store.closures[i]? = some c
    rw [← hclosures]
    exact hc
  · refine Furnished.mono ⟨h.complete.machine.frames, fun c hc => ?_⟩ hle
    exact h.complete.machine.openCells c (List.dropWhile_sublist _ |>.mem hc)
  · exact (h.complete.parked m hm).mono hle

/-! ## Single actions -/

theorem push_lasting (v : Value) : Kept (Since k) (push v) := by
  intro s h
  refine ⟨rfl, ?_⟩
  unfold push
  split
  · exact h
  · exact h.mapStack _

theorem pop_lasting : Kept (Since k) pop := by
  intro s h
  refine ⟨rfl, ?_⟩
  unfold pop
  split
  · exact h
  · exact h.mapStack _

theorem top_lasting : Kept (Since k) top := by
  refine (ask_kept _).bind fun o => ?_
  cases o with
  | none => exact fail_kept _
  | some v => exact pure_kept v

theorem truncate_lasting (height : Nat) : Kept (Since k) (truncate height) :=
  .update fun _ h => h.mapStack _

theorem drop_lasting (count : Nat) : Kept (Since k) (drop count) :=
  (ask_kept _).bind fun _ => Run.guard_alike (fun _ _ h => h) fun _ => truncate_lasting _

theorem popMany_lasting (count : Nat) : Kept (Since k) (popMany count) := by
  refine (ask_kept _).bind fun size => ?_
  refine Run.guard_alike (fun _ _ h => h) fun _ => ?_
  refine (ask_kept _).bind fun values => ?_
  exact (truncate_lasting _).bind fun _ => pure_kept values

theorem append_lasting (values : List Value) : Kept (Since k) (append values) :=
  .update fun _ h => h.mapStack _

theorem slot_lasting (index : Nat) : Kept (Since k) (slot index) := by
  refine (ask_kept _).bind fun o => ?_
  cases o with
  | none => exact fail_kept _
  | some v => exact pure_kept v

theorem setSlot_lasting (index : Nat) (v : Value) : Kept (Since k) (setSlot index v) := by
  refine (ask_kept _).bind fun size => ?_
  refine Run.guard_alike (fun _ _ h => h) fun _ => ?_
  exact .update fun _ h => h.mapStack _

theorem readCell_lasting (id : Nat) : Kept (Since k) (readCell id) := by
  refine (askStore_kept _).bind fun o => ?_
  match o with
  | some (.live i) => exact slot_lasting i
  | some (.closed v) => exact pure_kept v
  | none => exact pure_kept _

theorem writeCell_lasting (id : Nat) (v : Value) : Kept (Since k) (writeCell id v) := by
  refine (askStore_kept _).bind fun o => ?_
  match o with
  | some (.live i) => exact setSlot_lasting i v
  | some (.closed u) =>
    refine .updateStore fun s h => h.ofStore ⟨fun i x hx => cell_setClosed v hx, fun _ _ h => h⟩
      fun i c hc => (h.complete.closures i c hc).mono ?_
    exact Nat.le_of_eq (Array.size_setIfInBounds ..).symm
  | none => exact pure_kept ()

theorem mem_of_openCell? {slot id : Nat} {cs : List OpenCell} (h : openCell? slot cs = some id) :
    ⟨slot, id⟩ ∈ cs := by
  induction cs with
  | nil => cases h
  | cons c rest ih =>
    rw [openCell?] at h
    split at h
    · next he =>
      cases h
      cases he
      exact List.mem_cons_self
    · split at h
      · cases h
      · exact List.mem_cons_of_mem c (ih h)

theorem openCell_meets (index : Nat) :
    Meets (Since k) (openCell index) (fun id s => Since k s ∧ id < s.store.cells.size)
      fun _ => Since k := by
  intro s h
  refine ⟨rfl, ?_⟩
  cases hc : openCell? index s.machine.openCells with
  | some id =>
    simp only [openCell, Act.bind_apply, Act.ask, hc]
    exact ⟨h, h.complete.machine.openCells _ (mem_of_openCell? hc)⟩
  | none =>
    simp only [openCell, Act.bind_apply, Act.ask, hc]
    have hl : Lasts s.core { s with store := (s.store.newCell (.live index)).2 : State }.core :=
      ⟨fun i x hx => .inl (cell_push _ hx), fun _ _ h => h⟩
    have hs := h.ofStore hl fun i c hc => (h.complete.closures i c hc).mono hl.size_le
    have hnew : s.store.cells.size < (s.store.cells.push (.live index)).size := by
      rw [Array.size_push]
      exact Nat.lt_succ_self _
    refine ⟨hs.ofMachine ⟨hs.complete.machine.frames, fun c hc => ?_⟩, ?_⟩
    · rcases Sound.mem_insertOpen.mp hc with rfl | hc
      · exact hnew
      · exact hs.complete.machine.openCells c hc
    · exact hnew

theorem closeSlots_lasting (height : Nat) : Kept (Since k) (closeSlots height) :=
  .update fun _ h => h.closeFrom height

theorem cellOf_meets {a : Activation} (ha : Housed k.cells a.closure) (index : Nat)
    {P : State → Prop} (hP : ∀ s, P s → Since k s) :
    Meets P (cellOf a index) (fun id s => P s ∧ id < s.store.cells.size) fun _ => Since k := by
  unfold cellOf
  split
  · next id hid =>
    have hlt := ha id (Array.mem_of_getElem? hid)
    exact .pure fun s h => ⟨h, Nat.lt_of_lt_of_le hlt (hP s h).lasts.size_le⟩
  · exact Run.fail_meets hP

theorem captures_meets {a : Activation} (ha : Housed k.cells a.closure) (acc : Array Nat)
    (count ip : Nat) :
    Meets (fun s => Since k s ∧ ∀ id ∈ acc, id < s.store.cells.size) (captures a acc count ip)
      (fun r s => Since k s ∧ ∀ id ∈ r.1, id < s.store.cells.size) fun _ => Since k := by
  induction count generalizing acc ip with
  | zero => exact .pure fun _ h => h
  | succ count ih =>
    have hrest : ∀ id, Meets
        (fun s => (Since k s ∧ ∀ id ∈ acc, id < s.store.cells.size) ∧ id < s.store.cells.size)
        (captures a (acc.push id) count (ip + 2))
        (fun r s => Since k s ∧ ∀ id ∈ r.1, id < s.store.cells.size) fun _ => Since k := by
      refine fun id => (ih (acc.push id) (ip + 2)).pre fun s ⟨⟨h, hacc⟩, hid⟩ =>
        ⟨h, fun id' hid' => ?_⟩
      rcases Array.mem_push.mp hid' with hid' | rfl
      · exact hacc id' hid'
      · exact hid
    unfold captures
    split
    · dsimp only
      split
      · exact (cellOf_meets ha _ fun _ h => h.1).bind hrest
      · refine Alike.bind (fun s hs => ⟨rfl, ?_⟩) hrest
        -- cells that are there remain there
        refine (openCell_meets _ s (.self hs.1.complete)).2.imp (fun id t ht => ?_) fun _ t ht => ?_
        · refine ⟨⟨hs.1.trans ht.1, fun id' hid' => ?_⟩, ht.2⟩
          exact Nat.lt_of_lt_of_le (hs.2 id' hid') ht.1.lasts.size_le
        · exact hs.1.trans ht
    · exact Run.fail_meets fun _ h => h.1

theorem Since.goTo {s : State} (h : Since k s) (ip : Nat) :
    Since k (s.mapMachine (mapFrames fun frames =>
      frames.modify (frames.size - 1) fun a => { a with ip := ip })) := by
  refine h.ofMachine ⟨fun a ha => ?_, h.complete.machine.openCells⟩
  obtain ⟨i, hi⟩ := Array.mem_iff_getElem?.mp ha
  change (s.machine.frames.modify _ _)[i]? = some a at hi
  rw [Array.getElem?_modify] at hi
  split at hi
  · obtain ⟨b, hb, rfl⟩ := Option.map_eq_some_iff.mp hi
    exact h.complete.machine.frames b (Array.mem_of_getElem? hb)
  · exact h.complete.machine.frames a (Array.mem_of_getElem? hi)

theorem goTo_lasting (ip : Nat) : Kept (Since k) (goTo ip) := .update fun _ h => h.goTo ip

theorem jump_lasting (ip : Nat) (distance : Int) : Kept (Since k) (jump ip distance) :=
  Alike.ite (fun _ => fail_kept _) fun _ => goTo_lasting _

theorem Since.depth {s : State} (h : Since k s) (d : Nat) : Since k { s with depth := d } :=
  ⟨⟨h.lasts.cell, h.lasts.closure⟩, h.complete.closures, h.complete.machine, h.complete.parked⟩

theorem pushFrame_lasting (c : Closure) (base : Nat) (counted : Bool) :
    Meets (fun s => Since k s ∧ Housed s.store.cells c) (pushFrame c base counted)
      (fun _ => Since k) fun _ => Since k := by
  have hpush : ∀ {s : State} (n : Nat), Since k s → Housed s.store.cells c →
      Since k (s.mapMachine fun m =>
        { m with frames := m.frames.push ⟨c, 0, base, counted⟩, peak := max m.peak n }) := by
    intro s n h hc
    refine h.ofMachine ⟨fun a ha => ?_, h.complete.machine.openCells⟩
    rcases Array.mem_push.mp ha with ha | rfl
    · exact h.complete.machine.frames a ha
    · exact hc
  intro s ⟨h, hc⟩
  refine ⟨rfl, ?_⟩
  unfold pushFrame
  cases counted with
  | true =>
    by_cases hd : s.depth ≥ s.config.maxDepth
    · simp only [if_true, Act.bind_apply, Run.enter, if_pos hd]
      exact h
    · have hdeep := h.depth (s.depth + 1)
      by_cases hf : s.machine.frames.size ≥ s.config.limits.framesMax
      · simp only [if_true, Act.bind_apply, Run.enter, if_neg hd, Act.ask, if_pos hf, Run.leave,
          Act.update, Run.fail, Act.raise]
        exact h.depth _
      · simp only [if_true, Act.bind_apply, Run.enter, if_neg hd, Act.ask, if_neg hf, Act.update]
        exact hpush _ hdeep hc
  | false =>
    by_cases hf : s.machine.frames.size ≥ s.config.limits.framesMax
    · simp only [Bool.false_eq_true, if_false, Act.bind_apply, Act.ask, if_pos hf, Run.fail,
        Act.raise]
      exact h
    · simp only [Bool.false_eq_true, if_false, Act.bind_apply, Act.ask, if_neg hf, Act.update]
      exact hpush _ h hc

theorem closureOf_meets (id : Nat) :
    Meets (Since k) (closureOf id) (fun c s => Since k s ∧ Housed s.store.cells c)
      fun _ => Since k := by
  have hask : Meets (Since k) (Act.askStore fun s => s.closures[id]? : Run (Option Closure))
      (fun o s => Since k s ∧ ∀ c, o = some c → Housed s.store.cells c) fun _ => Since k :=
    .askStore fun s h => ⟨h, h.complete.closures id⟩
  refine hask.bind fun o => ?_
  cases o with
  | none => exact Run.fail_meets fun _ h => h.1
  | some c => exact .pure fun s h => ⟨h.1, h.2 c rfl⟩

theorem Since.newClosure {s : State} (h : Since k s) {c : Closure} (hc : Housed s.store.cells c) :
    Since k { s with store := (s.store.newClosure c).2 } := by
  refine h.ofStore ⟨fun _ _ hx => .inl hx, fun i d hd => ?_⟩ fun i d hd => ?_
  · have hlt : i < s.store.closures.size := (Array.getElem?_eq_some_iff.mp hd).1
    show (s.store.closures.push c)[i]? = some d
    rw [Array.getElem?_push, if_neg (Nat.ne_of_lt hlt)]
    exact hd
  · change (s.store.closures.push c)[i]? = some d at hd
    rw [Array.getElem?_push] at hd
    split at hd
    · cases hd
      exact hc
    · exact h.complete.closures i d hd

/-! ## Instructions -/

/-- Calls that keep what lasts. -/
def Lasting (c : Caller) : Prop := ∀ (k : State.Core) f args, Kept (Since k) (c f args)

section Calls

variable {c : Caller} (hc : Lasting c)

include hc

theorem callOut_lasting (f : Value) (args : List Value) : Kept (Since k) (callOut c f args) := by
  intro s h
  have hout : Complete ({ s with machine := .idle, parked := some s.machine } : State).core :=
    ⟨h.complete.closures, furnished_idle _, fun m hm => by cases hm; exact h.complete.machine⟩
  have hback : ∀ t, Since ({ s with machine := .idle, parked := some s.machine } : State).core t →
      Since k (back s t) := by
    intro t ht
    have hle : s.store.cells.size ≤ t.store.cells.size := ht.lasts.size_le
    have hl : Lasts s.core (back s t).core := ⟨ht.lasts.cell, ht.lasts.closure⟩
    refine ⟨h.lasts.trans hl, ht.complete.closures, ?_, fun m hm => ?_⟩
    · show Furnished t.store.cells (t.parked.getD .idle)
      cases hp : t.parked with
      | none => exact furnished_idle _
      | some m => exact ht.complete.parked m hp
    · exact (h.complete.parked m hm).mono hle
  have hr := (hc _ f args _ (.self hout)).2
  unfold callOut
  refine ⟨rfl, ?_⟩
  generalize c f args { s with machine := .idle, parked := some s.machine } = r at hr
  match r, hr with
  | .ok v t, hr =>
    by_cases hp : t.parked.isSome
    · simp only [if_pos hp]
      exact hback t hr
    · simp only [if_neg hp]
      exact hback t hr
  | .error (.raised e) t, hr => exact hback t hr
  | .error .exhausted t, _ => trivial

theorem callValue_lasting (count : Nat) : Kept (Since k) (callValue c count) := by
  refine Alike.bind (ask_kept _) fun size => ?_
  refine Run.guard_alike (fun _ _ h => h) fun _ => ?_
  refine Alike.bind (slot_lasting _) fun f => ?_
  have hout : Kept (Since k)
      (do let args ← popMany count; let callee ← pop; push (← callOut c callee args)) :=
    (popMany_lasting count).bind fun args => pop_lasting.bind fun callee =>
      (callOut_lasting hc callee args).bind fun v => push_lasting v
  cases f with
  | closure id name =>
    refine (closureOf_meets id).bind fun p => ?_
    refine Run.guard_alike (fun _ _ h => h.1) fun _ => ?_
    exact pushFrame_lasting p _ true
  | _ => exact hout

end Calls

theorem makeClosure_lasting {a : Activation} (ha : Housed k.cells a.closure) (i : Instruction) :
    Kept (Since k) (makeClosure a i) := by
  unfold makeClosure
  split
  · exact fail_kept _
  · next p hp =>
    refine Alike.bind ((captures_meets ha #[] _ _).pre fun s h => ⟨h, nofun⟩) fun r => ?_
    refine Alike.bind (Q := fun _ s => Since k s ∧ ∀ id ∈ r.1, id < s.store.cells.size)
      (.update fun s h => ⟨h.1.goTo r.2, h.2⟩) fun _ => ?_
    exact Alike.bind (.onStore fun s h => h.1.newClosure h.2) fun id => push_lasting _

theorem mem_of_mem_pop {α : Type} {xs : Array α} {x : α} (h : x ∈ xs.pop) : x ∈ xs := by
  rw [← Array.mem_toList_iff, Array.toList_pop] at h
  exact Array.mem_toList_iff.mp (List.dropLast_subset _ h)

theorem endFrame_lasting (a : Activation) (entry : Nat) : Kept (Since k) (endFrame a entry) := by
  have hpop : Kept (Since k) (Act.update fun s => s.mapMachine (mapFrames Array.pop)) :=
    .update fun s h => h.ofMachine ⟨fun a ha => h.complete.machine.frames a (mem_of_mem_pop ha),
      h.complete.machine.openCells⟩
  have hrest : ∀ result, Kept (Since k) (do
      if (← Act.ask fun s => s.machine.frames.size) ≤ entry then return some result
      push result
      return none : Run (Option Value)) := by
    intro result
    refine (ask_kept _).bind fun n => ?_
    split
    · exact pure_kept _
    · exact (push_lasting result).bind fun _ => pure_kept _
  refine pop_lasting.bind fun result => hpop.bind fun _ => (closeSlots_lasting _).bind fun _ =>
    (truncate_lasting _).bind fun _ => ?_
  cases a.counted with
  | true => exact Alike.bind (.update fun _ h => h.depth _) fun _ => hrest result
  | false => exact hrest result

theorem begin_lasting (id : Nat) {p : Closure} (hp : Housed k.cells p) (args : List Value)
    (base : Nat) (counted : Bool) : Kept (Since k) (begin id p args base counted) := by
  have hpushes : Kept (Since k) (args.forM push) := by
    induction args with
    | nil => exact pure_kept _
    | cons v rest ih => exact (push_lasting v).bind fun _ => ih
  refine (push_lasting _).bind fun _ => hpushes.bind fun _ => ?_
  exact (pushFrame_lasting p base counted).pre fun t ht => ⟨ht, hp.mono ht.lasts.size_le⟩

section Calls

variable {c : Caller} (hc : Lasting c)

include hc

theorem exec_lasting {a : Activation} (ha : Housed k.cells a.closure) (entry : Nat)
    (i : Instruction) : Kept (Since k) (exec c entry a i) := by
  have done : ∀ {x : Run Unit}, Kept (Since k) x →
      Kept (Since k) (do x; return none : Run (Option Value)) :=
    fun h => Alike.bind h fun _ => pure_kept none
  have pushed : ∀ {x : Run Value}, Kept (Since k) x →
      Kept (Since k) (do push (← x); return none : Run (Option Value)) :=
    fun h => Alike.bind h fun v => done (push_lasting v)
  have binary_lasting : ∀ op, Kept (Since k) (binary op) := fun op =>
    pop_lasting.bind fun _ => pop_lasting.bind fun _ => (ofFault_kept _).bind push_lasting
  have hcell : ∀ index, Kept (Since k) (cellOf a index) := fun index => cellOf_kept a index
  obtain ⟨op, operand, next⟩ := i
  cases op with
  | const => exact pushed (constant_kept a _)
  | nil | true | false => exact done (push_lasting _)
  | pop => exact done (pop_lasting.bind fun _ => pure_kept ())
  | popN =>
    exact Alike.bind pop_lasting fun v => Alike.bind (drop_lasting _) fun _ => done (push_lasting v)
  | getLocal => exact pushed (slot_lasting _)
  | setLocal => exact Alike.bind top_lasting fun v => done (setSlot_lasting _ v)
  | getUpvalue => exact Alike.bind (hcell _) fun id => pushed (readCell_lasting id)
  | setUpvalue =>
    exact Alike.bind (hcell _) fun id => Alike.bind top_lasting fun v => done (writeCell_lasting id v)
  | closeUpvalue => exact done (closeSlots_lasting _)
  | getVar => exact Alike.bind (varConstant_kept a _) fun v => pushed (deref_kept v _)
  | setVar =>
    have hassign : ∀ v x, Kept (Since k) (Run.assign v x) := fun v x =>
      .updateStore fun s h => h.ofStore (.refl _) h.complete.closures
    exact Alike.bind top_lasting fun x => Alike.bind (varConstant_kept a _) fun v =>
      done (hassign v x)
  | add | subtract | multiply | divide | less | greater | equal => exact done (binary_lasting _)
  | negate => exact Alike.bind pop_lasting fun x => pushed (ofFault_kept (Number.negate x))
  | not => exact Alike.bind pop_lasting fun x => done (push_lasting _)
  | jump | loop => exact done (jump_lasting _ _)
  | jumpIfFalse =>
    refine Alike.bind pop_lasting fun x => ?_
    split
    · exact pure_kept none
    · exact done (jump_lasting _ _)
  | call => exact done (callValue_lasting hc _)
  | closure => exact done (makeClosure_lasting ha _)
  | recur =>
    exact Alike.bind (closeSlots_lasting _) fun _ => Alike.bind (popMany_lasting _) fun args =>
      Alike.bind (truncate_lasting _) fun _ => done (append_lasting args)
  | ret => exact endFrame_lasting a entry
  | vector => exact Alike.bind (popMany_lasting _) fun vs => done (push_lasting _)
  | map => exact Alike.bind (popMany_lasting _) fun vs => pushed (mapOf_kept vs)
  | set => exact Alike.bind (popMany_lasting _) fun vs => pushed (setOf_kept vs)

theorem step_lasting (entry : Nat) : Kept (Since k) (step c entry) := by
  have hrunning : Meets (Since k) running (fun a s => Since k s ∧ Housed s.store.cells a.closure)
      fun _ => Since k := by
    have hask : Meets (Since k) (Act.ask fun s => s.machine.frames.back? : Run (Option Activation))
        (fun o s => Since k s ∧ ∀ a, o = some a → Housed s.store.cells a.closure)
        fun _ => Since k :=
      .ask fun s h => ⟨h, fun a ha => h.complete.machine.frames a (Array.mem_of_back? ha)⟩
    refine hask.bind fun o => ?_
    cases o with
    | none => exact Run.fail_meets fun _ h => h.1
    | some a => exact .pure fun s h => ⟨h.1, h.2 a rfl⟩
  refine Alike.bind hrunning fun a s ⟨h, ha⟩ => ?_
  -- from here on, cells are those of this state and later ones
  have htick : Kept (Since s.core) tick := by
    refine Alike.bind (Q := fun _ => Since s.core)
      (.update fun t ht => ht.ofMachine ⟨ht.complete.machine.frames, ht.complete.machine.openCells⟩)
      fun _ => ?_
    refine (ask_kept _).bind fun o => ?_
    cases o with
    | none => exact pure_kept _
    | some budget =>
      refine (ask_kept _).bind fun steps => ?_
      split
      · exact fail_kept _
      · exact pure_kept _
  have hbody : Kept (Since s.core)
      (Act.within (.ofLine (line a)) do
        tick
        let i ← Run.ofFault (a.closure.proto.chunk.fetch a.ip)
        goTo i.next
        exec c entry a i) :=
    Alike.mapFault <| Alike.bind htick fun _ => Alike.bind (ofFault_kept _) fun i =>
      Alike.bind (goTo_lasting _) fun _ => exec_lasting hc ha entry i
  exact ⟨rfl, (hbody s (.self h.complete)).2.imp (fun _ _ ht => h.trans ht) fun _ _ ht => h.trans ht⟩

theorem run_lasting (entry rounds : Nat) : Kept (Since k) (run (step c) entry rounds) := by
  induction rounds with
  | zero => exact .exhausted
  | succ rounds ih =>
    refine Alike.bind (step_lasting hc entry) fun o => ?_
    cases o with
    | some v => exact pure_kept v
    | none => exact ih

theorem start_lasting (rounds id : Nat) (p : Closure) (args : List Value) (counted : Bool) :
    Meets (fun s => Since k s ∧ Housed s.store.cells p) (start (step c) rounds id p args counted)
      (fun _ => Since k) fun _ => Since k := by
  have hunwind : ∀ base entry depth s, Since k s → Since k (unwind base entry depth s) := by
    intro base entry depth s h
    have hclosed := h.closeFrom base
    have hcut : Since k ((s.closeFrom base).mapMachine fun m =>
        { m with stack := m.stack.shrink base, frames := m.frames.shrink entry }) := by
      refine hclosed.ofMachine ⟨fun a ha => ?_, hclosed.complete.machine.openCells⟩
      obtain ⟨i, hi⟩ := Array.mem_iff_getElem?.mp ha
      change ((s.closeFrom base).machine.frames.shrink entry)[i]? = some a at hi
      rw [Array.shrink_eq_take, Array.take_eq_extract, Array.getElem?_extract] at hi
      split at hi
      · exact hclosed.complete.machine.frames a (Array.mem_of_getElem? hi)
      · cases hi
    exact hcut.depth depth
  have hbody : ∀ base entry depth, Meets (fun s => Since k s ∧ Housed s.store.cells p)
      (onStop (do begin id p args base counted; run (step c) entry rounds)
        (unwind base entry depth)) (fun _ => Since k) fun _ => Since k := by
    intro base entry depth
    refine Alike.onStop fun s ⟨h, hp⟩ => ?_
    have hbegin := begin_lasting (k := s.core) id (p := p) hp args base counted
    have hrun := Alike.bind hbegin fun _ => run_lasting hc entry rounds
    refine ⟨rfl, (hrun s (.self h.complete)).2.imp (fun _ _ ht => h.trans ht) fun _ t ht => ?_⟩
    exact hunwind base entry depth t (h.trans ht)
  have asked : ∀ f : State → Nat, Meets (fun s => Since k s ∧ Housed s.store.cells p)
      (Act.ask f : Run Nat) (fun _ s => Since k s ∧ Housed s.store.cells p) fun _ => Since k :=
    fun _ => .ask fun _ h => h
  unfold start
  refine Run.guard_alike (fun _ _ h => h.1) fun _ => ?_
  refine Alike.bind (asked _) fun base => Alike.bind (asked _) fun entry =>
    Alike.bind (asked _) fun depth => ?_
  have hreset : ∀ s, Since k s → Since k (s.mapMachine fun m => { m with steps := 0, peak := 0 }) :=
    fun s h => h.ofMachine ⟨h.complete.machine.frames, h.complete.machine.openCells⟩
  by_cases he : entry = 0
  · simp only [if_pos he]
    exact Alike.bind (.update fun s h => ⟨hreset s h.1, h.2⟩) fun _ => hbody base entry depth
  · simp only [if_neg he]
    exact hbody base entry depth

theorem executeBy_lasting (rounds id : Nat) (args : List Value) :
    Kept (Since k) (executeBy (step c) rounds id args) :=
  Alike.bind (closureOf_meets id) fun p => start_lasting hc rounds id p args true

theorem executeFormBy_lasting (rounds : Nat) (p : Proto) :
    Kept (Since k) (executeFormBy (step c) rounds p) := by
  have hnone : ∀ cells, Housed cells ⟨p, #[]⟩ := fun _ => nofun
  exact Alike.bind (.onStore fun s h => ⟨h.newClosure (hnone _), hnone _⟩) fun id =>
    start_lasting hc rounds id ⟨p, #[]⟩ [] false

end Calls

theorem Complete.taken {s : State} (h : Complete s.core) :
    Complete ({ s with machine := s.parked.getD .idle, parked := none } : State).core := by
  refine ⟨h.closures, ?_, nofun⟩
  show Furnished s.store.cells (s.parked.getD .idle)
  cases hp : s.parked with
  | none => exact furnished_idle _
  | some m => exact h.parked m hp

theorem onParked_lasting {a : Run Value} (ha : ∀ k, Kept (Since k) a) {s : State}
    (hs : Complete s.core) :
    Post (fun _ => Since s.core) (fun _ => Since s.core) (onParked a s) := by
  have hput : ∀ t, Since ({ s with machine := s.parked.getD .idle, parked := none } : State).core t →
      Since s.core { t with machine := s.machine, parked := some t.machine } := by
    intro t ht
    refine ⟨⟨ht.lasts.cell, ht.lasts.closure⟩, ht.complete.closures, hs.machine.mono ht.lasts.size_le,
      fun m hm => ?_⟩
    cases hm
    exact ht.complete.machine
  have hr := (ha _ _ (.self hs.taken)).2
  unfold onParked
  generalize a { s with machine := s.parked.getD .idle, parked := none } = r at hr
  match r, hr with
  | .ok v t, hr => exact hput t hr
  | .error (.raised e) t, hr => exact hput t hr
  | .error .exhausted t, _ => trivial

theorem Complete.push {k : State.Core} (h : Complete k) (p : Proto) :
    Complete { k with closures := k.closures.push ⟨p, #[]⟩ } ∧
      Lasts k { k with closures := k.closures.push ⟨p, #[]⟩ } := by
  refine ⟨⟨fun i c hc => ?_, h.machine, h.parked⟩, fun _ _ hx => .inl hx, fun i c hc => ?_⟩
  · rcases Array.mem_push.mp (Array.mem_of_getElem? hc) with hc | rfl
    · obtain ⟨j, hj⟩ := Array.mem_iff_getElem?.mp hc
      exact h.closures j c hj
    · exact nofun
  · have hlt : i < k.closures.size := (Array.getElem?_eq_some_iff.mp hc).1
    show (k.closures.push _)[i]? = some c
    rw [Array.getElem?_push, if_neg (Nat.ne_of_lt hlt), hc]

/-! ## What is watched -/

namespace Typed

variable {limits : Limits} {maxDepth n : Nat} {w : State.Core × Nat} {c d : Caller}

/-- The watch for programs from the compiler that sees what becomes of cells and functions, too. -/
abbrev lasting (limits : Limits) (maxDepth : Nat) : Watch where
  Inv n k d := Parked n k d ∧ k.limits = limits ∧ k.maxDepth = maxDepth
  enter := (intact limits maxDepth).enter
  leave := (intact limits maxDepth).leave
  Rel k l := Returned k l ∧ (Complete k → Complete l ∧ Lasts k l)
  refl k := ⟨(intact limits maxDepth).refl k, fun h => ⟨h, .refl k⟩⟩
  trans h h' := ⟨(intact limits maxDepth).trans h.1 h'.1, fun hk =>
    have hl := h.2 hk
    have hm := h'.2 hl.1
    ⟨hm.1, hl.2.trans hm.2⟩⟩
  good := Compiled
  stored := (intact limits maxDepth).stored
  make {n k d sc f p} h hp :=
    have hm := @Watch.make (intact limits maxDepth) n k d sc f p h hp
    ⟨hm.1, hm.2, fun hk => hk.push p⟩
  allowed := Sane limits maxDepth
  allowed_of_plain := sane_of_plain
  allowed_thrown := (intact limits maxDepth).allowed_thrown
  Top k := Restored idle (k.parked.getD idle)
  top_mono h ht := ht.trans h.1.restored

theorem exact_lasting (limits : Limits) (maxDepth : Nat) : (lasting limits maxDepth).Exact :=
  ⟨fun _ _ => rfl, fun _ _ h => h⟩

variable {w : State.Core × Nat}

/-- Cells and functions do not matter for what else is watched of the machine. -/
theorem callers_intact (hc : (lasting limits maxDepth).Callers n c d) :
    (intact limits maxDepth).Callers n c d := by
  intro w f args s hs
  have hs' : (lasting limits maxDepth).Holds n (s.core, s.depth) s :=
    ⟨hs.inv, hs.literate, (lasting limits maxDepth).refl _, rfl⟩
  have hback : ∀ t, (lasting limits maxDepth).Holds n (s.core, s.depth) t →
      (intact limits maxDepth).Holds n w t := fun t ht =>
    ⟨ht.inv, ht.literate, (intact limits maxDepth).trans hs.rel ht.rel.1, ht.depth.trans hs.depth⟩
  obtain ⟨e, hr⟩ := hc _ f args s hs'
  exact ⟨e, hr.imp (fun _ t ht => hback t ht) fun _ t ht => ⟨ht.1, hback t ht.2⟩⟩

/-! ## Programs

The lemmas about instructions are about calls from any state whatever, but calls keep what lasts only
where they begin in coherent interpreters. So other calls, which run out of fuel elsewhere, take their
place, which makes no difference to programs from the compiler. -/

/-- Calls that are made from coherent interpreters alone. -/
noncomputable def guarded (limits : Limits) (maxDepth n : Nat) (c : Caller) : Caller :=
  open Classical in fun f args s =>
    if (intact limits maxDepth).Inv n s.core s.depth ∧ s.Literate Compiled then c f args s
    else .error .exhausted s

theorem callers_guarded (hc : (intact limits maxDepth).Callers n c d) :
    (intact limits maxDepth).Callers n c (guarded limits maxDepth n c) := by
  intro w f args s hs
  refine ⟨?_, (hc w f args s hs).2⟩
  rw [guarded, if_pos ⟨hs.inv, hs.literate⟩]

theorem lasting_guarded (hc : (lasting limits maxDepth).Callers n c d) :
    Lasting (guarded limits maxDepth n c) := by
  intro k f args s hs
  refine ⟨rfl, ?_⟩
  unfold guarded
  split
  · next h =>
    have hholds : (lasting limits maxDepth).Holds n (s.core, s.depth) s :=
      ⟨h.1, h.2, (lasting limits maxDepth).refl _, rfl⟩
    have hsince : ∀ t, (lasting limits maxDepth).Holds n (s.core, s.depth) t → Since k t :=
      fun t ht =>
        have hl := ht.rel.2 hs.complete
        hs.trans ⟨hl.2, hl.1⟩
    exact (hc _ f args s hholds).2.imp (fun _ t ht => hsince t ht) fun _ t ht => hsince t ht.2
  · trivial

/-- A run that keeps what else is watched, and does the same as one that keeps what lasts. -/
theorem lasting_keeps {a b g : Run Value}
    (hb : (intact limits maxDepth).KeepsRun n w (onParked a) (onParked b))
    (hg : (intact limits maxDepth).KeepsRun n w (onParked a) (onParked g))
    (hl : ∀ k, Kept (Since k) g) :
    (lasting limits maxDepth).KeepsRun n w (onParked a) (onParked b) := by
  intro s hs
  have hi : (intact limits maxDepth).Holds n w s := ⟨hs.inv, hs.literate, hs.rel.1, hs.depth⟩
  obtain ⟨e, hr⟩ := hb s hi
  refine ⟨e, ?_⟩
  have hsince : Complete w.1 → Post (fun _ => Since s.core) (fun _ => Since s.core) (onParked a s) :=
    fun hw => (hg s hi).1 ▸ onParked_lasting hl (hs.rel.2 hw).1
  have hback : ∀ t, (intact limits maxDepth).Holds n w t → (Complete w.1 → Since s.core t) →
      (lasting limits maxDepth).Holds n w t := fun t ht hst =>
    ⟨ht.inv, ht.literate, ⟨ht.rel, fun hw =>
      ⟨(hst hw).complete, (hs.rel.2 hw).2.trans (hst hw).lasts⟩⟩, ht.depth⟩
  generalize onParked a s = r at hr hsince
  match r, hr, hsince with
  | .ok v t, hr, hsince => exact hback t hr hsince
  | .error (.raised e) t, hr, hsince => exact ⟨hr.1, hback t hr.2 hsince⟩
  | .error .exhausted t, _, _ => trivial

theorem usual_step (n : Nat) : Usual n step := fun _ _ _ _ _ _ => rfl

theorem sound_lasting (limits : Limits) (maxDepth : Nat) : (lasting limits maxDepth).Sound .idle := by
  refine .steps (fun {n c d} hc w rounds id args => ?_) fun {c d} hc w hw rounds e p he hp => ?_
  · have hi := callers_intact hc
    exact lasting_keeps (call_intact (usual_step n) hi w rounds id args)
      (call_intact (usual_step n) (callers_guarded hi) w rounds id args)
      fun k => executeBy_lasting (lasting_guarded hc) rounds id args
  · have hi := callers_intact hc
    have hcap := (Proto.wellFormed_of_ofExpr he hp).2.1
    exact lasting_keeps (form_intact (usual_step 0) hi hw rounds (.form he hp) hcap)
      (form_intact (usual_step 0) (callers_guarded hi) hw rounds (.form he hp) hcap)
      fun k => executeFormBy_lasting (lasting_guarded hc) rounds p

theorem callers_lasting (limits : Limits) (maxDepth n level : Nat) :
    (lasting limits maxDepth).Callers n (Engine.ofFuel level).call (Engine.ofFuel level).call := by
  have h := Watch.call_keeps (exact_lasting limits maxDepth) (sound_lasting limits maxDepth) level n
  rwa [Engine.probed_idle] at h

/-- In all interpreters between the texts they evaluate, all cells that are spoken of exist. -/
theorem Reached.complete {s : State} (h : Reached s) : Complete s.core := by
  have hfresh : ∀ (store : Store) config,
      (∀ (i : Nat) c, store.closures[i]? = some c → Housed store.cells c) →
      Complete (State.fresh store config).core := by
    intro store config hc
    unfold State.fresh
    rw [(define_core _ _ _).1]
    exact ⟨hc, furnished_idle _, nofun⟩
  have hrun : ∀ {s : State} (level : Nat) (source : String), Reached s → Complete s.core →
      Post (fun _ t => Complete t.core) (fun _ t => Complete t.core)
        (Session.evalSource level source s) := by
    intro s level source hs hk
    have hq := hs.quiet
    have hp := Watch.evalSource_keeps (exact_lasting s.config.limits s.config.maxDepth)
      (sound_lasting _ _) (w := (s.core, s.depth)) level source hq.rest s
      ⟨⟨hq.coherent.parked, rfl, rfl⟩, hq.coherent.literate, (lasting _ _).refl _, rfl⟩
    exact hp.2.imp (fun _ t ht => (ht.rel.2 hk).1) fun _ t ht => (ht.2.rel.2 hk).1
  induction h with
  | first config => exact hfresh .empty config nofun
  | another _ config ih => exact hfresh _ config ih.closures
  | mode _ m ih => exact ⟨ih.closures, ih.machine, ih.parked⟩
  | value hs level source e ih =>
    have hr := hrun level source hs ih
    rw [e] at hr
    exact hr
  | fault hs level source e ih =>
    have hr := hrun level source hs ih
    rw [e] at hr
    exact hr

/-! ## Instructions of programs -/

variable {G : Ground}

theorem Running.step_lasting {s : State} (h : Running G s) (hs : Complete s.core) (level : Nat) :
    Post (fun o t => Since s.core t ∧ (o = none ∧ Running G t ∨ o ≠ none ∧ Ended G t))
      (fun _ t => Since s.core t ∧ Broken G t)
      (step (Engine.ofFuel level).call G.machine.frames.size s) := by
  have hl := callers_lasting G.limits G.maxDepth G.calls level
  have hi := callers_intact hl
  have hr := (step_alike (callers_guarded hi) s h)
  have hk := (Machine.step_lasting (lasting_guarded hl) G.machine.frames.size s (.self hs)).2
  rw [hr.1] at hk
  have hp := hr.2
  generalize step (Engine.ofFuel level).call G.machine.frames.size s = r at hk hp
  match r, hk, hp with
  | .ok o t, hk, hp => exact ⟨hk, hp⟩
  | .error (.raised e) t, hk, hp => exact ⟨hk, hp.2⟩
  | .error .exhausted t, _, _ => trivial

end Typed

end Machine

end TwinLisp
