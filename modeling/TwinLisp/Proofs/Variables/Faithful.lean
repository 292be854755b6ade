import TwinLisp.Proofs.Machine.Lasting
import TwinLisp.Proofs.Variables.Abreast

/-! What the machine holds of variables whenever an instruction is about to be executed. Each variable
of the ideal machine is a cell there; the machine holds it in the slot that shows it, in the cell that
stands for it, or in both, which are then the same.

* `Holding`: slots and cells beside variables.
* `Faithful`: that, and no cell that has been closed is opened again.
* `Abreast.faithful`: so it is between any two instructions of code from the compiler. -/

namespace TwinLisp

namespace State

/-- What a cell holds, in the slot that it lives in or for itself. -/
def held? (s : State) (id : Nat) : Option Value :=
  match s.store.cells[id]? with
  | some (.live x) => s.machine.stack[x]?
  | some (.closed v) => some v
  | none => none

/-- What a function has captured for a variable. -/
def captured? (s : State) (i k : Nat) : Option Nat := s.store.closures[i]?.bind (·.cells[k]?)

/-- The next instruction of the running function drops a slot. -/
def Drops (s : State) (x : Nat) : Prop :=
  ∃ a m, s.machine.frames.back? = some a ∧ a.closure.proto.Has a.ip .popN m ∧
    s.machine.stack.size ≤ x + (m + 1)

/-- The state after some text has been printed. -/
def printing (text : String) (s : State) : State := { s with output := s.output ++ text }

end State

namespace Machine.Ideal

open Act Typed

/-- A state of the machine holds the variables of one of the ideal machine. A list says which variable
each cell stands for. -/
structure Holding (ρ : List Nat) (s t : State) : Prop where
  /-- Different cells stand for different variables. -/
  nodup : ρ.Nodup
  /-- Functions have captured the variables that their cells stand for. -/
  functions : ∀ (i : Nat) c, s.store.closures[i]? = some c →
    ∃ c', t.store.closures[i]? = some c' ∧ Copies ρ c c'
  /-- So have those that are running. -/
  frames : ∀ (k : Nat) a, s.machine.frames[k]? = some a →
    ∃ a', t.machine.frames[k]? = some a' ∧ Twin ρ a a'
  /-- A captured variable has the value of its cell. -/
  cell : ∀ {i j : Nat}, ρ[i]? = some j →
    ∃ v, s.held? i = some v ∧ t.store.content? j = some v
  /-- The variable of a slot has the value of the slot. -/
  slot : ∀ {x j}, Shown t.machine.frames x j →
    ∃ v, s.machine.stack[x]? = some v ∧ t.store.content? j = some v
  /-- Each slot of the running function is a variable. -/
  full : ∀ a, s.machine.frames.back? = some a → ∀ x, a.base ≤ x → x < s.machine.stack.size →
    ∃ j, Shown t.machine.frames x j
  /-- Different slots have different variables. -/
  apart : ∀ {x y j}, Shown t.machine.frames x j → Shown t.machine.frames y j → y = x
  /-- A slot whose variable has been captured has one open cell, unless it is dropped next. -/
  opened : ∀ {x j i}, Shown t.machine.frames x j → ρ[i]? = some j →
    (∀ i', ⟨x, i'⟩ ∈ s.machine.openCells ↔ i' = i) ∨ s.Drops x
  /-- No other slot has one. -/
  live : ∀ c ∈ s.machine.openCells, ∃ j, ρ[c.cell]? = some j ∧ Shown t.machine.frames c.slot j

/-- A state of the machine beside one of the ideal machine, before an instruction of a run that ends
when `entry` frames are left. The slots that the last instruction gave values to are variables now. -/
structure Faithful (entry : Nat) (s t : State) : Prop where
  holding : ∃ ρ, Holding ρ s (settle t)
  /-- Two functions share a cell just if they have captured the same variable. -/
  shares : ∀ {i k i' k' id id' : Nat}, s.captured? i k = some id → s.captured? i' k' = some id' →
    (id' = id ↔ (settle t).captured? i' k' = (settle t).captured? i k)
  /-- The next instruction opens no cell again that has been closed. -/
  lasts : ∀ level, Post (fun _ s' => Lasts s.core s'.core) (fun _ s' => Lasts s.core s'.core)
    (Machine.step (Engine.ofFuel level).call entry s)

/-- A function has captured the variable that its cell stands for. -/
theorem Holding.captured {ρ : List Nat} {s t : State} (h : Holding ρ s t) {i k id : Nat}
    (hid : s.captured? i k = some id) : ∃ j, ρ[id]? = some j ∧ t.captured? i k = some j := by
  obtain ⟨c, hc, hk⟩ := Option.bind_eq_some_iff.mp hid
  obtain ⟨c', hc', hcopies⟩ := h.functions i c hc
  obtain ⟨j, hj, hk'⟩ := hcopies.cells k id hk
  exact ⟨j, hj, Option.bind_eq_some_iff.mpr ⟨c', hc', hk'⟩⟩

/-- Cells are different just if the variables are that they stand for. -/
theorem Holding.shares {ρ : List Nat} {s t : State} (h : Holding ρ s t) {i k i' k' id id' : Nat}
    (hid : s.captured? i k = some id) (hid' : s.captured? i' k' = some id') :
    id' = id ↔ t.captured? i' k' = t.captured? i k := by
  obtain ⟨j, hj, ht⟩ := h.captured hid
  obtain ⟨j', hj', ht'⟩ := h.captured hid'
  rw [ht, ht', Option.some_inj]
  constructor
  · rintro rfl
    exact Option.some.inj (hj'.symm.trans hj)
  · rintro rfl
    exact ((List.getElem?_inj (List.getElem?_eq_some_iff.mp hj).1 h.nodup).mp
      (hj.trans hj'.symm)).symm

variable {B : Origin} {ρ : List Nat} {lim even n : Nat} {fs fs' : Array Activation}
  {a a' : Activation} {s t : State}

theorem Stacked.twin {top : Nat} (h : Stacked ρ fs fs' top) {k : Nat} {b : Activation}
    (hb : fs[k]? = some b) : ∃ b', fs'[k]? = some b' ∧ Twin ρ b b' := by
  induction h with
  | nil => cases hb
  | @push gs gs' c c' top h hc _ _ ih =>
    rw [Array.getElem?_push] at hb ⊢
    rw [h.size_eq]
    split at hb
    · next e =>
      cases hb
      exact ⟨c', if_pos e, hc⟩
    · next e =>
      rw [if_neg e]
      exact ih hb

namespace Settled

variable (h : Settled B ρ lim fs fs' a a' n s t)

include h

theorem frames (hn : a.base ≤ n) : Stacked ρ (fs.push a) (fs'.push a') n :=
  .push h.stacked h.twin (fun _ _ hx => h.work.lt_of_shown (.inr hx)) hn

theorem shown_iff {x j : Nat} : Shown t.machine.frames x j ↔ Showing fs' a' x j := by
  rw [h.work.frames']
  exact shown_push

theorem holding (hn : a.base ≤ n) : Holding ρ s t := by
  have hslots := h.work.doubles.slots
  have hlinked := h.work.doubles.linked
  refine {
    nodup := hslots.nodup
    functions := h.work.doubles.closures
    frames := fun k b hb => ?_
    cell := fun {i j} hj => ?_
    slot := fun hx => ?_
    full := fun b hb x hx hlt => ?_
    apart := fun hx hy => hslots.apart (h.shown_iff.mp hx) (h.shown_iff.mp hy)
    opened := fun {x j i} hx hj => ?_
    live := fun c hc => ?_ }
  · rw [h.work.frames'] at *
    rw [h.work.frames] at hb
    exact (h.frames hn).twin hb
  · obtain ⟨c, hget⟩ : ∃ c, s.store.cells[i]? = some c :=
      ⟨_, Array.getElem?_eq_getElem (hslots.cell_lt hj)⟩
    cases c with
    | live x =>
      obtain ⟨j', hj', hw⟩ := hslots.live hget
      cases hj.symm.trans hj'
      obtain ⟨v, hv, hv'⟩ := hslots.shown hw
      exact ⟨v, by rw [State.held?, hget]; exact hv, by rw [Store.content?, hv']⟩
    | closed v =>
      obtain ⟨j', hj', hv, -⟩ := hslots.closed hget
      cases hj.symm.trans hj'
      exact ⟨v, by rw [State.held?, hget], by rw [Store.content?, hv]⟩
  · obtain ⟨v, hv, hv'⟩ := hslots.shown (h.shown_iff.mp hx)
    exact ⟨v, hv, by rw [Store.content?, hv']⟩
  · rw [h.work.frames, Array.back?_push] at hb
    cases hb
    rw [h.work.size] at hlt
    have hget := Array.getElem?_eq_getElem
      (show a'.closure.proto.captures.size + (x - a'.base) < a'.closure.cells.size by
        rw [h.twin.proto, h.twin.base, h.full]
        omega)
    exact ⟨_, h.shown_iff.mpr (.inr (cell?_eq_some_iff.mpr ⟨h.twin.base.symm ▸ hx, hget⟩))⟩
  · have hw := h.shown_iff.mp hx
    by_cases hlim : x < lim
    · refine .inl fun i' => ⟨fun hm => ?_, ?_⟩
      · obtain ⟨j', hj', hw'⟩ := hslots.live (hlinked.sound.live _ hm)
        cases hslots.unique hw hw'
        exact hslots.index_inj hj hj'
      · rintro rfl
        exact hlinked.all _ _ (hslots.live_of_shown hw hlim hj)
    · rcases h.ready with hr | ⟨m, hm, hle⟩
      · have := h.work.lt_of_shown hw
        omega
      · refine .inr ⟨a, m, by rw [h.work.frames, Array.back?_push], hm, ?_⟩
        rw [h.work.size]
        omega
  · obtain ⟨j, hj, hw⟩ := hslots.live (hlinked.sound.live c hc)
    exact ⟨j, hj, h.shown_iff.mpr hw⟩

theorem complete (hn : a.base ≤ n) (hp : s.parked = none) : Complete s.core := by
  have hslots := h.work.doubles.slots
  have hhoused : ∀ {c : Closure}, (∀ (i : Nat) id, c.cells[i]? = some id → ∃ j : Nat, ρ[id]? = some j) →
      Housed s.store.cells c := by
    intro c hc id hid
    obtain ⟨i, hi⟩ := Array.mem_iff_getElem?.mp hid
    obtain ⟨j, hj⟩ := hc i id hi
    exact hslots.cell_lt hj
  refine ⟨fun i c hc => hhoused fun k id hk => ?_, ⟨fun b hb => hhoused fun k id hk => ?_,
    fun c hc => ?_⟩, fun m hm => ?_⟩
  · obtain ⟨c', -, hcopies⟩ := h.work.doubles.closures i c hc
    obtain ⟨j, hj, -⟩ := hcopies.cells k id hk
    exact ⟨j, hj⟩
  · obtain ⟨i, hi⟩ := Array.mem_iff_getElem?.mp hb
    obtain ⟨b', -, htwin⟩ := (h.holding hn).frames i b hi
    obtain ⟨j, hj, -⟩ := htwin.cells k id hk
    exact ⟨j, hj⟩
  · exact (Array.getElem?_eq_some_iff.mp (h.work.doubles.linked.sound.live c hc)).1
  · rw [show s.core.parked = none from hp] at hm
    cases hm

end Settled

/-- Between two instructions the machine is faithful. -/
theorem Abreast.faithful (h : Abreast B s t) (hr : Running B.ground s) :
    Faithful B.ground.machine.frames.size s t := by
  have ⟨fs, a, d, _, _, hs⟩ := hr
  obtain ⟨ρ, lim, gs, fs', a₁, a', n, hl⟩ := h
  obtain ⟨rfl, rfl⟩ := Array.push_eq_push.mp (hs.frames.symm.trans hl.work.frames)
  obtain ⟨lim₁, b, hsettled⟩ := hl.settle hs.above
  have hholding := hsettled.holding hl.base
  exact ⟨⟨ρ, hholding⟩, hholding.shares, fun level =>
    (hr.step_lasting (hsettled.complete hl.base hs.parked) level).imp (fun _ _ h => h.1.lasts)
      fun _ _ h => h.1.lasts⟩

end Machine.Ideal

end TwinLisp
