import Mathlib.Data.List.Induction
import TwinLisp.Proofs.Locals.Named

/-! What evaluation does to locals, in frames and by name at once: scopes are made, names are added,
locals are changed and functions remember where they were made. Each time both states mirror each
other afterwards.

* `Chart.Mirrors.scope`, `Chart.Mirrors.cell`: a new frame, and a slot and a cell for a name.
* `Chart.Mirrors.set`: another value for a binding.
* `Chart.Mirrors.function`: a function with its surroundings. -/

namespace TwinLisp

namespace Store

variable {s : Store} {k a b : Nat} {x v : Value} {i : Option Nat} {xs : Array Value}

theorem lt_of_slot? (h : s.slot? a b = some v) : a < s.frames.size := by
  by_contra hge
  rw [slot?, Array.getElem?_eq_none (Nat.le_of_not_lt hge)] at h
  cases h

theorem slot?_newFrame (h : s.slot? a b = some v) : (s.newFrame i xs).2.slot? a b = some v := by
  rw [← h, slot?, slot?, newFrame, Array.getElem?_push, if_neg (Nat.ne_of_lt (lt_of_slot? h))]

theorem slot?_pushSlot (h : s.slot? a b = some v) : (s.pushSlot k x).slot? a b = some v := by
  rw [slot?] at h ⊢
  rw [pushSlot, Array.getElem?_modify]
  cases hf : s.frames[a]? with
  | none =>
    rw [hf] at h
    cases h
  | some f =>
    rw [hf] at h
    have hlt : b < f.slots.size := (Array.getElem?_eq_some_iff.mp h).1
    by_cases hk : k = a
    · rw [if_pos hk, Option.map_some]
      simp only
      rw [Array.getElem?_push, if_neg (Nat.ne_of_lt hlt)]
      exact h
    · rw [if_neg hk]
      exact h

theorem slot?_pushSlot_self {f : Frame} (hf : s.frames[k]? = some f) :
    (s.pushSlot k x).slot? k f.slots.size = some x := by
  rw [slot?, pushSlot, Array.getElem?_modify, if_pos rfl, hf, Option.map_some]
  exact Array.getElem?_push_size

theorem slot?_setSlot (h : s.slot? a b = some v) : (s.setSlot a b x).slot? a b = some x := by
  rw [slot?] at h ⊢
  rw [setSlot, Array.getElem?_modify, if_pos rfl]
  cases hf : s.frames[a]? with
  | none =>
    rw [hf] at h
    cases h
  | some f =>
    rw [hf] at h
    rw [Option.map_some]
    simp only
    rw [Array.getElem?_setIfInBounds_self, if_pos (Array.getElem?_eq_some_iff.mp h).1]

theorem slot?_setSlot_ne {a' b' : Nat} (h : a = a' → b ≠ b') :
    (s.setSlot a b x).slot? a' b' = s.slot? a' b' := by
  rw [slot?, slot?, setSlot, Array.getElem?_modify]
  by_cases ha : a = a'
  · rw [if_pos ha]
    cases s.frames[a']? with
    | none => rfl
    | some f =>
      rw [Option.map_some]
      exact Array.getElem?_setIfInBounds_ne (h ha)
  · rw [if_neg ha]

theorem newFrame_push (i : Option Nat) (xs : Array Value) (x : Value) (s : Store) :
    (s.newFrame i (xs.push x)).2 = (s.newFrame i xs).2.pushSlot s.frames.size x := by
  rw [newFrame, newFrame, pushSlot]
  simp only [Store.mk.injEq, true_and, and_true]
  apply Array.ext_getElem?
  intro k
  rw [Array.getElem?_modify, Array.getElem?_push, Array.getElem?_push]
  by_cases hk : k = s.frames.size
  · rw [if_pos hk, if_pos hk.symm, if_pos hk]
    rfl
  · rw [if_neg hk, if_neg (Ne.symm hk), if_neg hk]

end Store

namespace Chart

variable {c : Chart} {sc : Scopes} {i j : Option Nat} {s t : State}

/-- The chart with one frame more, which is to grow. -/
def withFrame (c : Chart) (parent : Option Nat) (depth : Nat) : Chart :=
  { c with frames := c.frames ++ [(parent, depth)], growing := c.frames.length :: c.growing }

/-- The chart with one binding more. -/
def withCell (c : Chart) (e : Entry) : Chart := { c with cells := c.cells ++ [e] }

theorem le_withFrame (c : Chart) (parent : Option Nat) (depth : Nat) :
    c.Le (c.withFrame parent depth) where
  frames := List.prefix_append ..
  cells := List.prefix_rfl
  finished _ hk hg := ⟨rfl, fun h => (List.mem_cons.mp h).elim (Nat.ne_of_lt hk) hg⟩

theorem size_withCell (c : Chart) (e : Entry) (k : Nat) :
    (c.withCell e).size k = c.size k + if e.frame = k then 1 else 0 := by
  rw [size, withCell, List.countP_append, List.countP_singleton]
  simp only [beq_iff_eq]
  rfl

theorem le_withCell {e : Entry} (h : e.frame ∈ c.growing) : c.Le (c.withCell e) where
  frames := List.prefix_rfl
  cells := List.prefix_append ..
  finished k _ hg := by
    refine ⟨?_, hg⟩
    rw [size_withCell, if_neg fun he : e.frame = k => hg (he ▸ h)]
    rfl

theorem getElem?_withCell {e e' : Entry} {d : Nat} (h : (c.withCell e).cells[d]? = some e') :
    c.cells[d]? = some e' ∧ d < c.cells.length ∨ d = c.cells.length ∧ e' = e := by
  have hlen := (List.getElem?_eq_some_iff.mp h).1
  rw [withCell, List.length_append, List.length_singleton] at hlen
  by_cases hlt : d < c.cells.length
  · rw [withCell, List.getElem?_append_left hlt] at h
    exact .inl ⟨h, hlt⟩
  · obtain rfl : d = c.cells.length := by omega
    rw [withCell, List.getElem?_concat_length] at h
    exact .inr ⟨rfl, (Option.some.inj h).symm⟩

theorem Env.cell {d : Nat} (h : c.Env sc i (some d)) : d < c.cells.length := by
  generalize hj : some d = j at h
  induction h with
  | outermost => cases hj
  | scope _ _ ih => exact ih hj
  | name _ hd _ =>
    cases hj
    exact (List.getElem?_eq_some_iff.mp hd).1

namespace Mirrors

theorem agree (m : c.Mirrors s t) {α : Type} (f : State → α) (hf : ∀ s, f s.apart = f s) :
    f t = f s := by
  rw [← hf t, m.apart, hf s]

theorem eq_viewing (m : c.Mirrors s t) : t = s.viewing t.store.frames t.store.functions := by
  have h := congrArg (State.viewing t.store.frames t.store.functions) m.apart
  exact h

theorem change (m : c.Mirrors s t) {s' t' : State} (h : t'.apart = s'.apart)
    (hs : s'.store.frames = s.store.frames ∧ s'.store.functions = s.store.functions)
    (ht : t'.store.frames = t.store.frames ∧ t'.store.functions = t.store.functions) :
    c.Mirrors s' t' := by
  have hslot : ∀ a b, s'.store.slot? a b = s.store.slot? a b := fun a b => by
    rw [Store.slot?, Store.slot?, hs.1]
  refine ⟨h, hs.1 ▸ m.frames, fun hk => hs.1 ▸ m.frame hk, ht.1 ▸ m.cells, fun hd => ?_, m.linked,
    m.distinct, ?_, fun hg => ?_⟩
  · obtain ⟨f, v, hf, hrest⟩ := m.cell hd
    exact ⟨f, v, ht.1 ▸ hf, hslot _ _ ▸ hrest⟩
  · rw [hs.2, ht.2, m.functions]
  · rw [ht.2]
    exact m.function (hs.2 ▸ hg)

theorem blind (m : c.Mirrors s t) {f : State → State}
    (hf : ∀ F G s, f (s.viewing F G) = (f s).viewing F G) : c.Mirrors (f s) (f t) := by
  have hs : f s = (f s).viewing s.store.frames s.store.functions := hf _ _ s
  have ht : f t = (f s).viewing t.store.frames t.store.functions := by
    rw [← hf, ← m.eq_viewing]
  refine m.change (by rw [ht]; rfl) ⟨by rw [hs]; rfl, by rw [hs]; rfl⟩ ⟨by rw [ht]; rfl, by rw [ht]; rfl⟩

theorem frame_lt (m : c.Mirrors s t) {d : Nat} {e : Entry} (hd : c.cells[d]? = some e) :
    e.frame < c.frames.length := by
  obtain ⟨_, _, -, -, -, hslot⟩ := m.cell hd
  rw [← m.frames]
  exact Store.lt_of_slot? hslot

theorem depthBelow (m : c.Mirrors s t) (h : c.Env sc i j) :
    s.store.depthBelow i = List.length sc := by
  cases sc with
  | nil =>
    cases h
    rfl
  | cons names outer =>
    obtain ⟨k, _, rfl, hk⟩ := h.depth
    obtain ⟨f, hf, -, hdepth, -⟩ := m.frame hk
    rw [Store.depthBelow, hf, List.length_cons]
    exact congrArg (· + 1) hdepth

theorem scope (m : c.Mirrors s t) (h : c.Env sc i j) :
    (c.withFrame i sc.length).Mirrors { s with store := (s.store.newFrame i #[]).2 } t ∧
      (c.withFrame i sc.length).Growing ([] :: sc) (some s.store.frames.size) j := by
  have hle := c.le_withFrame i sc.length
  have hk : (c.withFrame i sc.length).frames[s.store.frames.size]? = some (i, sc.length) := by
    rw [m.frames]
    exact List.getElem?_concat_length
  have hsize : c.size c.frames.length = 0 := by
    refine List.countP_eq_zero.mpr fun e he => ?_
    obtain ⟨d, hd, rfl⟩ := List.getElem_of_mem he
    have := m.frame_lt (List.getElem?_eq_getElem hd)
    simp only [beq_iff_eq]
    omega
  constructor
  · refine ⟨m.apart, ?_, fun {k p depth} hk => ?_, m.cells, fun hd => ?_, m.linked, m.distinct,
      m.functions, fun hg => ?_⟩
    · rw [withFrame, List.length_append, ← m.frames]
      exact Array.size_push ..
    · simp only [Store.newFrame, Array.getElem?_push, m.frames]
      by_cases hlt : k < c.frames.length
      · rw [if_neg (Nat.ne_of_lt hlt)]
        rw [withFrame, List.getElem?_append_left hlt] at hk
        exact m.frame hk
      · have hlen := (List.getElem?_eq_some_iff.mp hk).1
        rw [withFrame, List.length_append, List.length_singleton] at hlen
        obtain rfl : k = c.frames.length := by omega
        rw [withFrame, List.getElem?_concat_length] at hk
        cases hk
        rw [if_pos rfl]
        exact ⟨_, rfl, rfl, m.depthBelow h, hsize.symm⟩
    · obtain ⟨f, v, hf, hslots, habove, hslot⟩ := m.cell hd
      exact ⟨f, v, hf, hslots, habove, Store.slot?_newFrame hslot⟩
    · obtain ⟨sc', j', hf, hp, he⟩ := m.function hg
      exact ⟨sc', j', hf, hp, he.mono hle⟩
  · refine ⟨.scope (h.mono hle) hk, ?_, ?_⟩
    · rw [m.frames]
      exact List.mem_cons_self
    · rw [m.frames]
      exact hsize

theorem name (m : c.Mirrors s t) {names : List String} (h : c.Growing (names :: sc) i j)
    (name : String) (x : Value) : ∃ k, i = some k ∧
      c.Le (c.withCell ⟨name, j, k, names.length⟩) ∧
      (c.withCell ⟨name, j, k, names.length⟩).Mirrors { s with store := s.store.pushSlot k x }
        { t with store := (t.store.newFrame j #[.symbol name, x]).2 } ∧
      (c.withCell ⟨name, j, k, names.length⟩).Growing ((name :: names) :: sc) i
        (some t.store.frames.size) := by
  match i, h with
  | some k, ⟨he, hg, hsize⟩ =>
  have hle : c.Le (c.withCell ⟨name, j, k, names.length⟩) := le_withCell hg
  obtain ⟨k', _, hk', hframe⟩ := he.depth
  cases hk'
  obtain ⟨f, hf, hparent, hdepth, hslots⟩ := m.frame hframe
  rw [hsize] at hslots
  refine ⟨k, rfl, hle, ⟨m.apart, ?_, fun {a p depth} ha => ?_, ?_, fun {d e} hd => ?_,
    fun {d a e} hd ha => ?_, fun {d d' e e'} hd hd' hfr hix => ?_, m.functions, fun hg => ?_⟩,
    .name (he.mono hle) ?_, hg, ?_⟩
  · exact (Array.size_modify ..).trans m.frames
  · obtain ⟨g, hg', hgp, hgd, hgs⟩ := m.frame ha
    simp only [Store.pushSlot, Array.getElem?_modify, size_withCell, hg']
    by_cases hka : k = a
    · rw [if_pos hka, if_pos hka]
      exact ⟨_, rfl, hgp, hgd, (Array.size_push ..).trans (congrArg (· + 1) hgs)⟩
    · rw [if_neg hka, if_neg hka]
      exact ⟨g, rfl, hgp, hgd, hgs⟩
  · rw [withCell, List.length_append, ← m.cells]
    exact Array.size_push ..
  · simp only [Store.newFrame, Array.getElem?_push, m.cells]
    rcases getElem?_withCell hd with ⟨hd, hlt⟩ | ⟨rfl, rfl⟩
    · rw [if_neg (Nat.ne_of_lt hlt)]
      obtain ⟨g, v, hg', hgs, hga, hgv⟩ := m.cell hd
      exact ⟨g, v, hg', hgs, hga, Store.slot?_pushSlot hgv⟩
    · rw [if_pos rfl]
      refine ⟨_, x, rfl, rfl, rfl, ?_⟩
      rw [← hslots]
      exact Store.slot?_pushSlot_self hf
  · rcases getElem?_withCell hd with ⟨hd, -⟩ | ⟨hlast, rfl⟩
    · exact m.linked hd ha
    · cases ha
      exact hlast ▸ he.cell
  · have hnew : ∀ {a : Nat} {b : Entry}, c.cells[a]? = some b → b.frame = k →
        b.index ≠ names.length := by
      intro a b ha hb hix
      obtain ⟨_, _, -, -, -, hslot⟩ := m.cell ha
      rw [hb, Store.slot?, hf] at hslot
      have := (Array.getElem?_eq_some_iff.mp hslot).1
      omega
    rcases getElem?_withCell hd with ⟨hd, -⟩ | ⟨hlast, rfl⟩ <;>
      rcases getElem?_withCell hd' with ⟨hd', -⟩ | ⟨hlast', rfl⟩
    · exact m.distinct hd hd' hfr hix
    · exact (hnew hd hfr hix).elim
    · exact (hnew hd' hfr.symm hix.symm).elim
    · exact hlast.trans hlast'.symm
  · obtain ⟨sc', j', hf, hp, he⟩ := m.function hg
    exact ⟨sc', j', hf, hp, he.mono hle⟩
  · rw [m.cells]
    exact List.getElem?_concat_length
  · rw [size_withCell, if_pos rfl, hsize]
    rfl

/-- A scope with names and values: a frame that has a slot for each, and as many cells. -/
theorem names (m : c.Mirrors s t) (h : c.Env sc i j) (ps : List (String × Value)) :
    ∃ (d : Chart) (t' : State) (j' : Option Nat), c.Le d ∧
      Locals.cells j ps t = .ok j' t' ∧
      d.Mirrors { s with store := (s.store.newFrame i (ps.map Prod.snd).toArray).2 } t' ∧
      d.Growing ((ps.map Prod.fst).reverse :: sc) (some s.store.frames.size) j' := by
  induction ps using List.reverseRecOn with
  | nil => exact ⟨_, t, j, c.le_withFrame i sc.length, rfl, m.scope h⟩
  | append_singleton ps p ih =>
    obtain ⟨d, t', j', hle, hrun, hm, hg⟩ := ih
    obtain ⟨k, hk, hle', hm', hg'⟩ := hm.name hg p.1 p.2
    cases hk
    refine ⟨_, { t' with store := (t'.store.newFrame j' #[.symbol p.1, p.2]).2 },
      some t'.store.frames.size, hle.trans hle', ?_, ?_, ?_⟩
    · rw [Locals.cells_append, Act.bind_apply, hrun]
      rfl
    · rw [List.map_append, List.map_singleton, ← List.push_toArray, Store.newFrame_push]
      exact hm'
    · rw [List.map_append, List.map_singleton, List.reverse_append]
      exact hg'

theorem set (m : c.Mirrors s t) {d : Nat} {e : Entry} (hd : c.cells[d]? = some e) (x : Value) :
    c.Mirrors { s with store := s.store.setSlot e.frame e.index x }
      { t with store := t.store.setSlot d 1 x } := by
  refine ⟨m.apart, (Array.size_modify ..).trans m.frames, fun {k p depth} hk => ?_,
    (Array.size_modify ..).trans m.cells, fun {d' e'} hd' => ?_, m.linked, m.distinct, m.functions,
    m.function⟩
  · obtain ⟨f, hf, hp, hdepth, hsize⟩ := m.frame hk
    simp only [Store.setSlot, Array.getElem?_modify, hf]
    by_cases hke : e.frame = k
    · rw [if_pos hke]
      exact ⟨_, rfl, hp, hdepth, (Array.size_setIfInBounds ..).trans hsize⟩
    · rw [if_neg hke]
      exact ⟨f, rfl, hp, hdepth, hsize⟩
  · obtain ⟨f, v, hf, hslots, habove, hslot⟩ := m.cell hd'
    simp only [Store.setSlot, Array.getElem?_modify, hf]
    by_cases hdd : d = d'
    · subst hdd
      cases hd.symm.trans hd'
      rw [if_pos rfl]
      exact ⟨_, x, rfl, by simp only [hslots]; rfl, habove, Store.slot?_setSlot hslot⟩
    · rw [if_neg hdd]
      refine ⟨f, v, rfl, hslots, habove, ?_⟩
      rw [← hslot]
      exact Store.slot?_setSlot_ne fun hfr hix => hdd (m.distinct hd hd' hfr hix)

theorem newFunction (m : c.Mirrors s t) (h : c.Env sc i j) {f : FnLiteral Expr}
    (hf : f.Parsed rules sc) :
    c.Mirrors { s with store := (s.store.newFunction ⟨f, i⟩).2 }
      { t with store := (t.store.newFunction ⟨f, j⟩).2 } := by
  refine ⟨m.apart, m.frames, m.frame, m.cells, m.cell, m.linked, m.distinct, ?_,
    fun {a g} hg => ?_⟩
  · exact (Array.size_push ..).trans ((congrArg (· + 1) m.functions).trans (Array.size_push ..).symm)
  · simp only [Store.newFunction, Array.getElem?_push, m.functions] at hg ⊢
    by_cases ha : a = s.store.functions.size
    · rw [if_pos ha] at hg ⊢
      cases hg
      exact ⟨sc, j, rfl, hf, h⟩
    · rw [if_neg ha] at hg ⊢
      exact m.function hg

end Mirrors

end Chart

end TwinLisp
