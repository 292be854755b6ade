import TwinLisp.Proofs.Expr.Prepared
import TwinLisp.Proofs.Expr.Relocation
import TwinLisp.Proofs.Machine.Blind
import TwinLisp.Proofs.Store.Lineage
import TwinLisp.Session

/-! Locals that are kept by name. Every binding is a cell of its own, linked to the binding before it,
and a local is the nearest cell with its name, as the program text has it: neither frames nor indices
play a part.

* `Locals.named`: locals kept by name; where a name is not known, numbers of values do not fit or no
  body ends, other locals are asked.
* `Engine.naming`: the engine of a level with such locals.
* `Chart`: which cell stands for which slot of which frame.
* `Chart.Mirrors`, `Chart.Agree`: states in which locals are kept in frames, and by name, and outcomes
  that lead to such states.
* `Chart.Env.find`, `Chart.Env.found`: in both, a name leads to the same binding. -/

namespace TwinLisp

/-! ## Cells -/

/-- Whether a frame is the cell of a name. -/
def Frame.isCellOf (name : String) (f : Frame) : Bool :=
  match f.slots[0]? with
  | some (Value.symbol n) => n == name
  | _ => false

namespace Store

/-- The nearest cell of a name; each cell is linked to an earlier one. -/
def nearest? (name : String) (s : Store) : (fuel : Nat) → (cell : Option Nat) → Option Nat
  | fuel + 1, some id =>
    match s.frames[id]? with
    | some f => if f.isCellOf name then some id else nearest? name s fuel f.parent
    | none => none
  | _, _ => none

/-- The cell that a name stands for. -/
def cellOf? (name : String) (cell : Option Nat) (s : Store) : Option Nat :=
  s.nearest? name (cell.elim 0 Nat.succ) cell

/-- The value in the cell that a name stands for. -/
def named? (name : String) (cell : Option Nat) (s : Store) : Option Value :=
  (s.cellOf? name cell).bind fun id => s.slot? id 1

end Store

namespace Locals

/-- A cell for a name and its value. -/
def cell (above : Option Nat) (name : String) (v : Value) : Run (Option Nat) := do
  return some (← Run.newFrame above #[.symbol name, v])

/-- Cells for names and their values, each linked to the one before it. -/
def cells (above : Option Nat) (bindings : List (String × Value)) : Run (Option Nat) :=
  bindings.foldlM (fun above (name, v) => cell above name v) above

theorem cells_append (above : Option Nat) (bs bs' : List (String × Value)) :
    cells above (bs ++ bs') = cells above bs >>= fun id => cells id bs' := List.foldlM_append

/-- Locals by name. -/
def named (other : Locals) : Locals where
  scope above names values :=
    if values.length = names.length then cells above (names.zip values)
    else other.scope above names values
  bind := cell
  read b span env := do
    match ← Act.askStore (Store.named? b.name env) with
    | some v => pure v
    | none => other.read b span env
  write b span env v := do
    match ← Act.askStore (Store.cellOf? b.name env) with
    | some id => Act.updateStore (Store.setSlot id 1 v)
    | none => other.write b span env v
  stray := other.stray

/-- Locals in frames; other locals are asked wherever frames would not do: where there is no slot, where
a frame would have more or fewer slots than names, and where no body ends. -/
def slotted (other : Locals) : Locals where
  scope parent names values :=
    if values.length = names.length then framed.scope parent names values
    else other.scope parent names values
  bind frame name v :=
    match frame with
    | some id => framed.bind (some id) name v
    | none => other.bind none name v
  read b span frame := do
    match ← Act.askStore fun s => frame.bind fun id => s.local? id b with
    | some v => pure v
    | none => other.read b span frame
  write b span frame v := do
    match ← Act.askStore fun s => frame.bind fun id => s.holder? id b with
    | some a => Act.updateStore (Store.setSlot a b.index v)
    | none => other.write b span frame v
  stray := other.stray

/-- Frames report where they would not do. -/
theorem slotted_framed : slotted framed = framed := by
  have hscope : (slotted framed).scope = framed.scope := by
    funext parent names values
    exact ite_self _
  have hbind : (slotted framed).bind = framed.bind := by
    funext frame name v
    cases frame <;> rfl
  have hread : (slotted framed).read = framed.read := by
    funext b span frame s
    cases frame with
    | none => rfl
    | some id =>
      simp only [slotted, framed, Eval.readLocal, Act.bind_apply, Act.askStore, Option.bind_some]
      cases h : s.store.local? id b with
      | some v => rfl
      | none => simp only [Act.bind_apply, Act.askStore, h]
  have hwrite : (slotted framed).write = framed.write := by
    funext b span frame v s
    cases frame with
    | none => rfl
    | some id =>
      simp only [slotted, framed, Eval.writeLocal, Act.bind_apply, Act.askStore, Option.bind_some]
      cases h : s.store.holder? id b with
      | some a => rfl
      | none => simp only [Act.bind_apply, Act.askStore, h]
  show Locals.mk (slotted framed).scope (slotted framed).bind (slotted framed).read
    (slotted framed).write framed.stray = framed
  rw [hscope, hbind, hread, hwrite]

end Locals

namespace Engine

/-- The engine of a level that keeps locals by name. -/
def naming (other : Locals) : (level : Nat) → Engine :=
  built (.named other) Run.assign Machine.step

/-- The engine of a level that keeps locals in frames, with other locals where frames would not do. -/
def framing (other : Locals) : (level : Nat) → Engine :=
  built (.slotted other) Run.assign Machine.step

theorem framing_framed : framing .framed = ofFuel := by
  rw [framing, Locals.slotted_framed]
  rfl

end Engine

/-! ## Charts -/

/-- The state without frames and interpreted functions. -/
def State.apart (s : State) : State := s.viewing #[] #[]

/-- A binding: its name, the cell before it, and the slot of a frame that it stands for. -/
structure Entry where
  name : String
  above : Option Nat
  frame : Nat
  index : Nat

/-- Where bindings are: in the slots of frames, and in cells. -/
structure Chart where
  /-- The parent and the depth of each frame. -/
  frames : List (Option Nat × Nat)
  /-- The binding of each cell. -/
  cells : List Entry
  /-- The frames that may be given further slots. -/
  growing : List Nat

namespace Chart

/-- The number of bindings in a frame. -/
def size (c : Chart) (k : Nat) : Nat := c.cells.countP fun e => e.frame == k

/-- A frame and a cell that are reached inside scopes, the innermost first: the bindings in the frame
and its ancestors are those in the cell and the cells before it, and have the names of the scopes. -/
inductive Env (c : Chart) : Scopes → Option Nat → Option Nat → Prop
  | outermost : Env c [] none none
  | scope {sc i j k} (h : Env c sc i j) (hk : c.frames[k]? = some (i, sc.length)) :
    Env c ([] :: sc) (some k) j
  | name {names sc k j d name} (h : Env c (names :: sc) (some k) j)
    (hd : c.cells[d]? = some ⟨name, j, k, names.length⟩) :
    Env c ((name :: names) :: sc) (some k) (some d)

/-- A frame that is given slots for the names of a scope. -/
def Growing (c : Chart) : Scopes → Option Nat → Option Nat → Prop
  | names :: sc, some k, j =>
    c.Env (names :: sc) (some k) j ∧ k ∈ c.growing ∧ c.size k = names.length
  | _, _, _ => False

/-- Charts only become larger, and frames that are finished remain as they are. -/
structure Le (c d : Chart) : Prop where
  frames : c.frames <+: d.frames
  cells : c.cells <+: d.cells
  finished : ∀ k < c.frames.length, k ∉ c.growing → d.size k = c.size k ∧ k ∉ d.growing

/-- The rules for literals whose functions may be called. -/
def rules : Expr.Rules := ⟨fun _ f => f.Formed, True⟩

/-- The same state, once with locals in frames and once by name. -/
structure Mirrors (c : Chart) (s t : State) : Prop where
  apart : t.apart = s.apart
  frames : s.store.frames.size = c.frames.length
  frame : ∀ {k : Nat} {i : Option Nat} {depth : Nat}, c.frames[k]? = some (i, depth) →
    ∃ f, s.store.frames[k]? = some f ∧ f.parent = i ∧ f.depth = depth ∧ f.slots.size = c.size k
  cells : t.store.frames.size = c.cells.length
  cell : ∀ {d : Nat} {e : Entry}, c.cells[d]? = some e → ∃ f v, t.store.frames[d]? = some f ∧
    f.slots = #[.symbol e.name, v] ∧ f.parent = e.above ∧ s.store.slot? e.frame e.index = some v
  linked : ∀ {d j : Nat} {e : Entry}, c.cells[d]? = some e → e.above = some j → j < d
  distinct : ∀ {d d' : Nat} {e e' : Entry}, c.cells[d]? = some e → c.cells[d']? = some e' →
    e.frame = e'.frame → e.index = e'.index → d = d'
  functions : t.store.functions.size = s.store.functions.size
  function : ∀ {i : Nat} {g : Function}, s.store.functions[i]? = some g →
    ∃ sc j, t.store.functions[i]? = some ⟨g.literal, j⟩ ∧ g.literal.Parsed rules sc ∧
      c.Env sc g.frame j

/-- The same outcome, once with locals in frames and once by name. -/
inductive Agree {ε α : Type} (c : Chart) : EStateM.Result (Stop ε) State α →
    EStateM.Result (Stop ε) State α → Prop
  | ok {d x s t} (hd : c.Le d) (h : d.Mirrors s t) : Agree c (.ok x s) (.ok x t)
  | raised {d e s t} (hd : c.Le d) (h : d.Mirrors s t) :
    Agree c (.error (.raised e) s) (.error (.raised e) t)
  | exhausted {s t} (h : t.output = s.output) : Agree c (.error .exhausted s) (.error .exhausted t)

variable {c d : Chart} {sc : Scopes} {i j : Option Nat} {s t : State}

/-! ## Larger charts -/

theorem Le.refl (c : Chart) : c.Le c := ⟨List.prefix_rfl, List.prefix_rfl, fun _ _ h => ⟨rfl, h⟩⟩

theorem Le.trans {e : Chart} (h : c.Le d) (h' : d.Le e) : c.Le e where
  frames := h.frames.trans h'.frames
  cells := h.cells.trans h'.cells
  finished k hk hg := by
    obtain ⟨hs, hd⟩ := h.finished k hk hg
    obtain ⟨hs', he⟩ := h'.finished k (Nat.lt_of_lt_of_le hk h.frames.length_le) hd
    exact ⟨hs'.trans hs, he⟩

theorem getElem?_mono {α : Type} {xs ys : List α} (h : xs <+: ys) {n : Nat} {x : α}
    (hx : xs[n]? = some x) : ys[n]? = some x := by
  obtain ⟨zs, rfl⟩ := h
  rw [List.getElem?_append_left (List.getElem?_eq_some_iff.mp hx).1, hx]

theorem Env.mono (hle : c.Le d) (h : c.Env sc i j) : d.Env sc i j := by
  induction h with
  | outermost => exact .outermost
  | scope _ hk ih => exact .scope ih (getElem?_mono hle.frames hk)
  | name _ hd ih => exact .name ih (getElem?_mono hle.cells hd)

theorem Growing.env (h : c.Growing sc i j) : c.Env sc i j := by
  match sc, i, h with
  | _ :: _, some _, h => exact h.1

end Chart

/-! ## What a name stands for -/

namespace Chart

variable {c : Chart} {sc : Scopes} {i j : Option Nat} {s t : State}

/-- The depth of the innermost frame is the number of scopes around it. -/
theorem Env.depth {names : List String} (h : c.Env (names :: sc) i j) :
    ∃ k parent, i = some k ∧ c.frames[k]? = some (parent, sc.length) := by
  generalize hsc : names :: sc = scopes at h
  induction h generalizing names with
  | outermost => cases hsc
  | scope _ hk =>
    cases hsc
    exact ⟨_, _, rfl, hk⟩
  | name _ _ ih =>
    cases hsc
    exact ih rfl

/-- In frames and by name, a name leads to the same binding. -/
theorem Env.find (h : c.Env sc i j) (m : c.Mirrors s t) {name : String} {b : Binding}
    (hb : sc.find? name = some b) :
    ∃ k d e, i = some k ∧ s.store.frameAt? k b.frame = some e.frame ∧ e.index = b.index ∧
      c.cells[d]? = some e ∧ ∀ fuel, j.elim 0 Nat.succ ≤ fuel →
        t.store.nearest? name fuel j = some d := by
  induction h with
  | outermost => cases hb
  | @scope sc i j k h hk ih =>
    obtain ⟨p, d, e, rfl, hframe, hrest⟩ := ih hb
    refine ⟨k, d, e, rfl, ?_, hrest⟩
    obtain ⟨f, hf, hparent, hdepth, -⟩ := m.frame hk
    obtain ⟨names, outer, rfl⟩ := List.exists_cons_of_ne_nil (l := sc) fun h => by
      rw [h] at hb
      cases hb
    obtain ⟨p', _, hp, hpframe⟩ := h.depth
    cases hp
    obtain ⟨g, hg, -, hgdepth, -⟩ := m.frame hpframe
    have hlt := Scopes.frame_lt_of_find? (show Scopes.find? name (names :: outer) = some b from hb)
    rw [List.length_cons] at hdepth hlt
    rw [Store.frameAt?_parent hf hparent hg (by rw [hdepth, hgdepth]) (by omega)]
    exact hframe
  | @name names sc k j d n h hd ih =>
    obtain ⟨f, v, hf, hslots, habove, -⟩ := m.cell hd
    have hn : f.isCellOf name = (n == name) := by
      rw [Frame.isCellOf, hslots]
      rfl
    rw [Scopes.find?_cons_cons] at hb
    cases hname : n == name with
    | true =>
      rw [hname, if_pos rfl] at hb
      cases hb
      obtain ⟨k', _, hk', hframe⟩ := h.depth
      cases hk'
      obtain ⟨g, hg, -, hdepth, -⟩ := m.frame hframe
      refine ⟨k, d, _, rfl, ?_, rfl, hd, fun fuel hfuel => ?_⟩
      · rw [← hdepth]
        exact Store.frameAt?_own hg
      · obtain ⟨fuel, rfl⟩ := Nat.exists_eq_add_of_le' (Nat.lt_of_lt_of_le (Nat.succ_pos d) hfuel)
        rw [Store.nearest?, hf]
        simp only [hn, hname, if_true]
    | false =>
      rw [hname] at hb
      obtain ⟨k', d', e, hk', hframe, hindex, hcell, hnear⟩ := ih hb
      refine ⟨k', d', e, hk', hframe, hindex, hcell, fun fuel hfuel => ?_⟩
      obtain ⟨fuel, rfl⟩ := Nat.exists_eq_add_of_le' (Nat.lt_of_lt_of_le (Nat.succ_pos d) hfuel)
      rw [Store.nearest?, hf]
      simp only [hn, hname, Bool.false_eq_true, if_false, habove]
      refine hnear fuel ?_
      cases j with
      | none => exact Nat.zero_le _
      | some x =>
        have := m.linked hd (show some x = some x from rfl)
        have : d + 1 ≤ fuel + 1 := hfuel
        show x + 1 ≤ fuel
        omega

/-- The slot of a binding and the cell of its name, with the value in both. -/
theorem Env.found (h : c.Env sc i j) (m : c.Mirrors s t) {name : String} {b : Binding}
    (hb : sc.find? name = some b) :
    ∃ k d e v, i = some k ∧ c.cells[d]? = some e ∧ s.store.holder? k b = some e.frame ∧
      b.index = e.index ∧ s.store.slot? e.frame e.index = some v ∧
      t.store.cellOf? name j = some d ∧ t.store.slot? d 1 = some v := by
  obtain ⟨k, d, e, rfl, hframe, hindex, hd, hnear⟩ := h.find m hb
  obtain ⟨f, v, hf, hslots, -, hslot⟩ := m.cell hd
  refine ⟨k, d, e, v, rfl, hd, ?_, hindex.symm, hslot, hnear _ (Nat.le_refl _), ?_⟩
  · rw [Store.slot?] at hslot
    rw [Store.holder?, hframe]
    simp only
    cases hg : s.store.frames[e.frame]? with
    | none =>
      rw [hg] at hslot
      cases hslot
    | some g =>
      rw [hg] at hslot
      simp only
      rw [if_pos (hindex ▸ (Array.getElem?_eq_some_iff.mp hslot).1)]
  · rw [Store.slot?, hf]
    simp only [hslots]
    rfl

end Chart

end TwinLisp
