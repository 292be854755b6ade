import Mathlib.Data.List.Basic
import Mathlib.Logic.Relation
import TwinLisp.Eval.Flow

/-! Lexical frames as a linked store. Frames are shared, are given further slots after frames were made
inside them, and know their depth from the time they were made; what is read and written through a binding
is nevertheless the slot of the one frame at its depth, among the frame it is seen from and those around it.

* `Frame.Op`, `Frame.Runs`: operations on frames, and runs of them.
* `Frame.History`: what a run says: the frames around each frame, and all that was written, in order.
* `Frame.History.Shows`: a store that is as a history says; every operation keeps it so.
* `Frame.frames_are_linked`: what is read, and what an operation changes. -/

namespace TwinLisp

/-! ## The frame at a depth -/

namespace Store

variable {s : Store} {f g : Frame} {k p depth : Nat}

theorem frameAt?_own (hf : s.frames[k]? = some f) : s.frameAt? k f.depth = some k := by
  rw [frameAt?, hf]
  unfold climb
  simp only [hf, Nat.le_refl, if_true]

theorem frameAt?_parent (hf : s.frames[k]? = some f) (hp : f.parent = some p)
    (hg : s.frames[p]? = some g) (hd : f.depth = g.depth + 1) (hlt : depth ≤ g.depth) :
    s.frameAt? k depth = s.frameAt? p depth := by
  rw [frameAt?, frameAt?, hf, hg]
  simp only
  rw [show f.depth - depth = (g.depth - depth) + 1 by omega]
  conv_lhs => unfold climb
  simp only [hf, hp]
  rw [if_neg (by omega)]

theorem frameAt?_deeper (hf : s.frames[k]? = some f) (h : f.depth < depth) :
    s.frameAt? k depth = none := by
  rw [frameAt?, hf]
  unfold climb
  simp only [hf]
  rw [if_pos (Nat.le_of_lt h), if_neg (Nat.ne_of_lt h)]

/-- Overwrites the slot of a binding as seen from a frame, and tells whether there is such a slot. -/
def overwrite (id : Nat) (b : Binding) (v : Value) (s : Store) : Bool × Store :=
  match s.holder? id b with
  | some a => (true, s.setSlot a b.index v)
  | none => (false, s)

/-- A frame lies within itself, its parent, the parent of that, and so on. -/
def Within (s : Store) : Nat → Nat → Prop :=
  Relation.ReflTransGen fun k p => ∃ f, s.frames[k]? = some f ∧ f.parent = some p

end Store

/-- The evaluator overwrites a local, or finds that there is none. -/
theorem Eval.writeLocal_eq (id : Nat) (b : Binding) (span : Span) (v : Value) (s : State) :
    Eval.writeLocal b span (some id) v s =
      if (s.store.overwrite id b v).1 then .ok () { s with store := (s.store.overwrite id b v).2 }
      else Eval.unboundLocal b span s := by
  cases h : s.store.holder? id b with
  | some a =>
    simp only [Eval.writeLocal, Act.bind_apply, Act.askStore, Store.overwrite, h, if_true]
    rfl
  | none =>
    simp only [Eval.writeLocal, Act.bind_apply, Act.askStore, Store.overwrite, h,
      Bool.false_eq_true, if_false]

namespace Frame

/-! ## Operations -/

/-- An operation on frames. A frame is known by its number, in the order in which they are made. -/
inductive Op where
  | new (parent : Option Nat) (values : List Value)
  | push (frame : Nat) (v : Value)
  | set (frame : Nat) (b : Binding) (v : Value)

namespace Op

def after : Op → Store → Store
  | new parent values, s => (s.newFrame parent values.toArray).2
  | push k v, s => s.pushSlot k v
  | set k b v, s => (s.overwrite k b v).2

/-- Operations are on frames that exist. -/
def Legal (s : Store) : Op → Prop
  | new parent _ => ∀ p ∈ parent, p < s.frames.size
  | push k _ | set k _ _ => k < s.frames.size

instance (s : Store) : (op : Op) → Decidable (op.Legal s)
  | new none _ => .isTrue nofun
  | new (some p) _ => decidable_of_iff (p < s.frames.size) (by simp [Legal])
  | push k _ | set k _ _ => inferInstanceAs (Decidable (k < s.frames.size))

end Op

inductive Runs : Store → List Op → Store → Prop
  | done {s} : Runs s [] s
  | next {s op ops t} (hop : op.Legal s) (h : Runs (op.after s) ops t) : Runs s (op :: ops) t

/-! ## Histories -/

structure History where
  /-- For each frame the frames around it, the outermost first, and the frame itself. -/
  chains : List (List Nat)
  /-- The number of slots of each frame. -/
  size : Nat → Nat
  /-- What was written into which slot of which frame, the latest first. -/
  writes : List ((Nat × Nat) × Value)

namespace History

def blank : History := ⟨[], fun _ => 0, []⟩

/-- The frame at a depth, among a frame and those around it. -/
def ancestor? (H : History) (k depth : Nat) : Option Nat := H.chains[k]?.bind (·[depth]?)

/-- What was last written into a slot. -/
def value? (H : History) (k i : Nat) : Option Value := H.writes.lookup (k, i)

/-- The slot into which an operation writes, of the frames that there are. -/
def target? (H : History) : Op → Option (Nat × Nat)
  | .new .. => none
  | .push k _ => some (k, H.size k)
  | .set k b _ => (H.ancestor? k b.frame).bind fun a =>
      if b.index < H.size a then some (a, b.index) else none

def initial (k first : Nat) (values : List Value) : List ((Nat × Nat) × Value) :=
  (values.zipIdx first).map fun (v, i) => ((k, i), v)

def record (H : History) (op : Op) : History :=
  match op, H.target? op with
  | .new parent values, _ =>
    let k := H.chains.length
    ⟨H.chains ++ [(parent.bind (H.chains[·]?)).getD [] ++ [k]],
      Function.update H.size k values.length, initial k 0 values ++ H.writes⟩
  | .push k v, some slot =>
    ⟨H.chains, Function.update H.size k (H.size k + 1), (slot, v) :: H.writes⟩
  | .set _ _ v, some slot => { H with writes := (slot, v) :: H.writes }
  | _, none => H

/-- The history of a run that begins without frames. -/
def of (ops : List Op) : History := ops.foldl record blank

/-- A store that is as a history says. -/
structure Shows (H : History) (s : Store) : Prop where
  count : s.frames.size = H.chains.length
  frame : ∀ {k : Nat} {chain : List Nat}, H.chains[k]? = some chain →
    ∃ f, s.frames[k]? = some f ∧ chain.length = f.depth + 1 ∧ f.slots.size = H.size k ∧
      (∀ i : Nat, f.slots[i]? = H.value? k i) ∧
      (chain = [k] ∧ f.parent = none ∨
        ∃ p above, f.parent = some p ∧ H.chains[p]? = some above ∧ chain = above ++ [k])
  vacant : ∀ k i, H.chains.length ≤ k → H.value? k i = none

variable {H : History} {s t : Store} {k d a i : Nat} {chain : List Nat} {op : Op}

theorem value?_cons (chains : List (List Nat)) (size : Nat → Nat) (slot : Nat × Nat) (v : Value)
    (writes : List ((Nat × Nat) × Value)) :
    (History.mk chains size ((slot, v) :: writes)).value? k i =
      if slot = (k, i) then some v else (History.mk chains size writes).value? k i := by
  simp only [value?, List.lookup_cons]
  by_cases h : slot = (k, i)
  · simp [h]
  · rw [if_neg h, beq_eq_false_iff_ne.mpr (Ne.symm h)]

theorem lookup_initial (k first : Nat) (values : List Value) (a i : Nat) :
    (initial k first values).lookup (a, i) =
      if a = k ∧ first ≤ i then values[i - first]? else none := by
  induction values generalizing first with
  | nil => simp [initial]
  | cons v rest ih =>
    have hcons : initial k first (v :: rest) = ((k, first), v) :: initial k (first + 1) rest := rfl
    rw [hcons, List.lookup_cons, ih]
    by_cases ha : a = k
    · subst ha
      by_cases hi : i = first
      · simp [hi]
      · have hne : ((a, i) == (a, first)) = false := by simp [hi]
        simp only [hne, true_and]
        by_cases hlt : first + 1 ≤ i
        · rw [if_pos hlt, if_pos (by omega), show i - first = (i - (first + 1)) + 1 by omega,
            List.getElem?_cons_succ]
        · rw [if_neg hlt, if_neg (by omega)]
    · have hne : ((a, i) == (k, first)) = false := by simp [ha]
      simp [hne, ha]

namespace Shows

theorem blank (h : s.frames = #[]) : blank.Shows s where
  count := by simp [h, History.blank]
  frame hk := by simp [History.blank] at hk
  vacant _ _ _ := rfl

/-! ## Lines -/

theorem exists_chain (h : H.Shows s) (hk : k < s.frames.size) : ∃ chain, H.chains[k]? = some chain :=
  ⟨_, List.getElem?_eq_getElem (h.count ▸ hk)⟩

/-- What holds of frames without parents, and of a frame if it holds of its parent, holds of all. -/
theorem chain_induction (h : H.Shows s) {P : Nat → List Nat → Prop}
    (outermost : ∀ k f, s.frames[k]? = some f → f.parent = none → f.depth = 0 → P k [k])
    (inside : ∀ k p f g above, s.frames[k]? = some f → f.parent = some p → s.frames[p]? = some g →
      f.depth = g.depth + 1 → above.length = f.depth → H.chains[p]? = some above → P p above →
      P k (above ++ [k])) (hk : H.chains[k]? = some chain) : P k chain := by
  induction hn : chain.length using Nat.strongRecOn generalizing k chain with
  | _ n ih =>
    obtain ⟨f, hf, hdepth, -, -, ⟨rfl, hp⟩ | ⟨p, above, hp, habove, rfl⟩⟩ := h.frame hk
    · exact outermost k f hf hp (by simpa using hdepth.symm)
    · obtain ⟨g, hg, hgdepth, -⟩ := h.frame habove
      rw [List.length_append, List.length_singleton] at hdepth hn
      exact inside k p f g above hf hp hg (by omega) (by omega) habove
        (ih above.length (by omega) habove rfl)

theorem frameAt? (h : H.Shows s) (hk : H.chains[k]? = some chain) (d : Nat) :
    s.frameAt? k d = chain[d]? := by
  refine h.chain_induction (P := fun k chain => s.frameAt? k d = chain[d]?) ?_ ?_ hk
  · intro k f hf _ hzero
    cases d with
    | zero => simpa [hzero] using Store.frameAt?_own hf
    | succ d => simpa using Store.frameAt?_deeper hf (by omega : f.depth < d + 1)
  · intro k p f g above hf hp hg hdepth hlength _ ih
    rcases Nat.lt_trichotomy d f.depth with hlt | rfl | hgt
    · rw [Store.frameAt?_parent hf hp hg hdepth (by omega), ih,
        List.getElem?_append_left (by omega)]
    · rw [Store.frameAt?_own hf, ← hlength, List.getElem?_concat_length]
    · rw [Store.frameAt?_deeper hf hgt, List.getElem?_eq_none]
      rw [List.length_append, List.length_singleton]
      omega

/-- The frames of a chain are those that its last one lies within. -/
theorem mem_chain_iff (h : H.Shows s) (hk : H.chains[k]? = some chain) : a ∈ chain ↔ s.Within k a := by
  refine h.chain_induction (P := fun k chain => a ∈ chain ↔ s.Within k a) ?_ ?_ hk
  · intro k f hf hp _
    rw [List.mem_singleton, Store.Within, Relation.ReflTransGen.cases_head_iff]
    constructor
    · exact fun e => .inl e.symm
    · rintro (rfl | ⟨p, ⟨f', hf', hp'⟩, -⟩)
      · rfl
      · rw [hf] at hf'
        cases hf'
        rw [hp] at hp'
        cases hp'
  · intro k p f g above hf hp _ _ _ _ ih
    rw [List.mem_append, List.mem_singleton, ih, Store.Within,
      Relation.ReflTransGen.cases_head_iff (a := k)]
    constructor
    · rintro (hw | rfl)
      · exact .inr ⟨p, ⟨f, hf, hp⟩, hw⟩
      · exact .inl rfl
    · rintro (rfl | ⟨p', ⟨f', hf', hp'⟩, hw⟩)
      · exact .inr rfl
      · rw [hf] at hf'
        cases hf'
        rw [hp] at hp'
        cases hp'
        exact .inl hw

theorem chain_of_ancestor (h : H.Shows s) (hk : H.chains[k]? = some chain) (hd : chain[d]? = some a) :
    H.chains[a]? = some (chain.take (d + 1)) ∧ s.frames[a]?.map Frame.depth = some d := by
  refine h.chain_induction (P := fun k chain => H.chains[k]? = some chain → chain[d]? = some a →
    H.chains[a]? = some (chain.take (d + 1)) ∧ s.frames[a]?.map Frame.depth = some d) ?_ ?_ hk hk hd
  · intro k f hf _ hzero hk hd
    obtain ⟨rfl, rfl⟩ : d = 0 ∧ a = k := by
      cases d with
      | zero => exact ⟨rfl, by simpa using hd.symm⟩
      | succ d => simp at hd
    exact ⟨hk, by rw [hf, Option.map_some, hzero]⟩
  · intro k p f g above hf _ _ _ hlength habove ih hk hd
    by_cases hlt : d < above.length
    · rw [List.getElem?_append_left hlt] at hd
      rw [List.take_append_of_le_length hlt]
      exact ih habove hd
    · obtain ⟨rfl, rfl⟩ : d = above.length ∧ a = k := by
        rw [List.getElem?_append_right (by omega), List.getElem?_singleton] at hd
        split at hd
        · exact ⟨by omega, (Option.some.inj hd).symm⟩
        · cases hd
      refine ⟨?_, by rw [hf, hlength]; rfl⟩
      rw [hk, List.take_of_length_le (by simp)]

/-! ## Reading -/

theorem slot? (h : H.Shows s) (ha : a < s.frames.size) (i : Nat) : s.slot? a i = H.value? a i := by
  obtain ⟨chain, hchain⟩ := h.exists_chain ha
  obtain ⟨f, hf, -, -, hslots, -⟩ := h.frame hchain
  rw [Store.slot?, hf]
  exact hslots i

theorem holder? (h : H.Shows s) (hk : k < s.frames.size) (b : Binding) :
    s.holder? k b = (H.ancestor? k b.frame).bind fun a =>
      if b.index < H.size a then some a else none := by
  obtain ⟨chain, hchain⟩ := h.exists_chain hk
  rw [Store.holder?, h.frameAt? hchain, ancestor?, hchain, Option.bind_some]
  cases ha : chain[b.frame]? with
  | none => rfl
  | some a =>
    obtain ⟨f, hf, -, hsize, -⟩ := h.frame (h.chain_of_ancestor hchain ha).1
    simp only [hf, hsize, Option.bind_some]

theorem value?_eq_none_iff (h : H.Shows s) (ha : a < s.frames.size) :
    H.value? a i = none ↔ H.size a ≤ i := by
  obtain ⟨chain, hchain⟩ := h.exists_chain ha
  obtain ⟨f, -, -, hsize, hslots, -⟩ := h.frame hchain
  rw [← hslots, ← hsize, Array.getElem?_eq_none_iff]

theorem ancestor_lt (h : H.Shows s) (ha : H.ancestor? k d = some a) : a < s.frames.size := by
  obtain ⟨chain, hchain, hd⟩ := Option.bind_eq_some_iff.mp ha
  obtain ⟨f, hf, -⟩ := h.frame (h.chain_of_ancestor hchain hd).1
  exact (Array.getElem?_eq_some_iff.mp hf).1

/-- What is read is what was last written into the slot of the frame at the depth. -/
theorem local? (h : H.Shows s) (hk : k < s.frames.size) (b : Binding) :
    s.local? k b = (H.ancestor? k b.frame).bind fun a => H.value? a b.index := by
  rw [Store.local?, h.holder? hk]
  cases ha : H.ancestor? k b.frame with
  | none => rfl
  | some a =>
    have hlt := h.ancestor_lt ha
    rw [Option.bind_some, Option.bind_some]
    split
    · exact h.slot? hlt b.index
    · exact ((h.value?_eq_none_iff hlt).mpr (by omega)).symm

/-! ## One operation -/

theorem reslot (h : H.Shows s) {g : Array Value → Array Value} {H' : History}
    (hl : H'.chains = H.chains) (ha : a < s.frames.size)
    (hown : ∀ slots : Array Value, slots.size = H.size a → (∀ i : Nat, slots[i]? = H.value? a i) →
      (g slots).size = H'.size a ∧ ∀ i : Nat, (g slots)[i]? = H'.value? a i)
    (hother : ∀ k ≠ a, H'.size k = H.size k ∧ ∀ i, H'.value? k i = H.value? k i) :
    H'.Shows { s with frames := s.frames.modify a fun f => { f with slots := g f.slots } } where
  count := by simp [hl, h.count]
  frame {k chain} hk := by
    rw [hl] at hk ⊢
    obtain ⟨f, hf, hdepth, hsize, hslots, hchain⟩ := h.frame hk
    by_cases he : a = k
    · subst he
      obtain ⟨hsize', hslots'⟩ := hown f.slots hsize hslots
      refine ⟨{ f with slots := g f.slots }, ?_, hdepth, hsize', hslots', hchain⟩
      rw [Array.getElem?_modify, if_pos rfl, hf, Option.map_some]
    · obtain ⟨hsize', hslots'⟩ := hother k (Ne.symm he)
      refine ⟨f, ?_, hdepth, hsize.trans hsize'.symm, fun i => (hslots i).trans (hslots' i).symm,
        hchain⟩
      rw [Array.getElem?_modify, if_neg he, hf]
  vacant k i hk := by
    rw [hl, ← h.count] at hk
    rw [(hother k (by omega)).2 i]
    exact h.vacant k i (h.count ▸ hk)

theorem push (h : H.Shows s) (ha : a < s.frames.size) (v : Value) :
    (H.record (.push a v)).Shows (s.pushSlot a v) := by
  refine h.reslot (g := fun slots => slots.push v) rfl ha (fun slots hsize hslots => ?_)
    fun k hk => ?_
  · refine ⟨by simp [record, target?, hsize], fun i => ?_⟩
    simp only [record, target?, value?_cons, Prod.mk.injEq, true_and, Array.getElem?_push, hsize,
      eq_comm (a := i)]
    split
    · rfl
    · exact hslots i
  · refine ⟨Function.update_of_ne hk _ _, fun i => ?_⟩
    simp only [record, target?, value?_cons, Prod.mk.injEq, Ne.symm hk, false_and, if_false]
    rfl

theorem set (h : H.Shows s) (hk : k < s.frames.size) (b : Binding) (v : Value) :
    (H.record (.set k b v)).Shows (s.overwrite k b v).2 := by
  have hholder := h.holder? hk b
  rw [Store.overwrite]
  cases ha : H.ancestor? k b.frame with
  | none =>
    rw [ha, Option.bind_none] at hholder
    simpa [hholder, record, target?, ha] using h
  | some a =>
    rw [ha, Option.bind_some] at hholder
    by_cases hi : b.index < H.size a
    · rw [if_pos hi] at hholder
      have hrecord : H.record (.set k b v) =
          { H with writes := ((a, b.index), v) :: H.writes } := by
        simp [record, target?, ha, hi]
      rw [hholder, hrecord]
      refine h.reslot (g := fun slots => slots.setIfInBounds b.index v) rfl (h.ancestor_lt ha)
        (fun slots hsize hslots => ?_) fun j hj => ⟨rfl, fun i => ?_⟩
      · refine ⟨by simp [hsize], fun i => ?_⟩
        rw [Array.getElem?_setIfInBounds, hsize, value?_cons]
        simp only [Prod.mk.injEq, true_and, hi, if_true]
        split
        · rfl
        · exact hslots i
      · rw [value?_cons, if_neg fun e => hj (congrArg Prod.fst e).symm]
    · rw [if_neg hi] at hholder
      simpa [hholder, record, target?, ha, hi] using h

theorem new (h : H.Shows s) {parent : Option Nat} (hp : ∀ p ∈ parent, p < s.frames.size)
    (values : List Value) :
    (H.record (.new parent values)).Shows (s.newFrame parent values.toArray).2 := by
  have hn : s.frames.size = H.chains.length := h.count
  -- The chain of the parent is as long as the new frame is deep.
  have hparent : ∃ above, (parent.bind (H.chains[·]?)).getD [] = above ∧
      above.length = s.depthBelow parent ∧
      (above = [] ∧ parent = none ∨ ∃ p, parent = some p ∧ H.chains[p]? = some above) := by
    cases parent with
    | none => exact ⟨[], rfl, rfl, .inl ⟨rfl, rfl⟩⟩
    | some p =>
      obtain ⟨above, habove⟩ := h.exists_chain (hp p rfl)
      obtain ⟨g, hg, hlength, -⟩ := h.frame habove
      refine ⟨above, by simp [habove], ?_, .inr ⟨p, rfl, habove⟩⟩
      rw [hlength, Store.depthBelow, hg, Option.map_some, Option.getD_some]
  obtain ⟨above, habove, hlength, hcases⟩ := hparent
  have hvalue : ∀ k i, (H.record (.new parent values)).value? k i =
      if k = H.chains.length then values[i]? else H.value? k i := by
    intro k i
    simp only [record, value?, List.lookup_append, lookup_initial, Nat.zero_le, and_true, Nat.sub_zero]
    split
    · next hk => rw [show H.writes.lookup (k, i) = none from h.vacant k i (by omega), Option.or_none]
    · rfl
  have hold : ∀ {p chain}, H.chains[p]? = some chain →
      (H.record (.new parent values)).chains[p]? = some chain := fun {p chain} hp => by
    simp only [record]
    rw [List.getElem?_append_left (List.getElem?_eq_some_iff.mp hp).1, hp]
  refine ⟨by simp [record, Store.newFrame, hn], fun {k chain} hk => ?_, fun k i hk => ?_⟩
  · by_cases hlt : k < H.chains.length
    · have hk' : H.chains[k]? = some chain := by
        simpa only [record, List.getElem?_append_left hlt] using hk
      obtain ⟨f, hf, hdepth, hsize, hslots, hchain⟩ := h.frame hk'
      refine ⟨f, ?_, hdepth, ?_, fun i => ?_, ?_⟩
      · rw [Store.newFrame, Array.getElem?_push_lt (hn ▸ hlt), ← Array.getElem?_eq_getElem, hf]
      · exact hsize.trans (Function.update_of_ne (Nat.ne_of_lt hlt) _ _).symm
      · rw [hvalue, if_neg (Nat.ne_of_lt hlt), hslots]
      · exact hchain.imp_right fun ⟨p, above, hp, ha, he⟩ => ⟨p, above, hp, hold ha, he⟩
    · obtain rfl : k = H.chains.length := by
        have := (List.getElem?_eq_some_iff.mp hk).1
        simp only [record, List.length_append, List.length_singleton] at this
        omega
      obtain rfl : above ++ [H.chains.length] = chain := by
        simpa [record, habove] using hk
      refine ⟨⟨values.toArray, parent, s.depthBelow parent⟩, ?_, by simp [hlength], ?_,
        fun i => ?_, ?_⟩
      · rw [Store.newFrame, ← hn, Array.getElem?_push_size]
      · simp [record]
      · rw [hvalue, if_pos rfl, List.getElem?_toArray]
      · rcases hcases with ⟨rfl, hp⟩ | ⟨p, hp, ha⟩
        · exact .inl ⟨rfl, hp⟩
        · exact .inr ⟨p, above, hp, hold ha, rfl⟩
  · simp only [record, List.length_append, List.length_singleton] at hk
    rw [hvalue, if_neg (by omega)]
    exact h.vacant k i (by omega)

theorem step (h : H.Shows s) (hop : op.Legal s) : (H.record op).Shows (op.after s) := by
  cases op with
  | new parent values => exact h.new hop values
  | push k v => exact h.push hop v
  | set k b v => exact h.set hop b v

theorem value?_record (ha : a < H.chains.length) (ht : H.target? op ≠ some (a, i)) :
    (H.record op).value? a i = H.value? a i := by
  cases op with
  | new parent values =>
    simp only [record, value?, List.lookup_append, lookup_initial]
    rw [if_neg fun e => Nat.ne_of_lt ha e.1, Option.none_or]
  | push k v => exact (value?_cons _ _ _ _ _).trans (if_neg fun e => ht (congrArg some e))
  | set k b v =>
    cases hslot : H.target? (.set k b v) with
    | none => simp only [record, hslot]
    | some slot =>
      simp only [record, hslot]
      exact (value?_cons _ _ _ _ _).trans (if_neg fun e => ht (hslot.trans (congrArg some e)))

theorem size_le_after (s : Store) (op : Op) : s.frames.size ≤ (op.after s).frames.size := by
  cases op with
  | new parent values => simp [Op.after, Store.newFrame]
  | push k v => simp [Op.after, Store.pushSlot]
  | set k b v =>
    simp only [Op.after, Store.overwrite]
    split <;> simp [Store.setSlot]

theorem untouched (h : H.Shows s) (hop : op.Legal s) (ha : a < s.frames.size)
    (ht : H.target? op ≠ some (a, i)) : (op.after s).slot? a i = s.slot? a i := by
  rw [(h.step hop).slot? (Nat.lt_of_lt_of_le ha (size_le_after s op)), h.slot? ha,
    value?_record (h.count ▸ ha) ht]

theorem overwrite_refused_iff (h : H.Shows s) (hk : k < s.frames.size) (b : Binding) (v : Value) :
    (s.overwrite k b v).1 = false ↔ ∀ a, H.ancestor? k b.frame = some a → H.size a ≤ b.index := by
  rw [Store.overwrite, h.holder? hk]
  cases H.ancestor? k b.frame with
  | none => simp
  | some a =>
    by_cases hi : b.index < H.size a
    · simp [hi]
    · simp [hi, Nat.le_of_not_lt hi]

/-- The new value is seen from every frame that has the same frame at the depth. -/
theorem overwrite_seen (h : H.Shows s) (hk : k < s.frames.size) (b : Binding) (v : Value)
    (ho : (s.overwrite k b v).1 = true) {j : Nat} (hj : j < s.frames.size)
    (hsame : H.ancestor? j b.frame = H.ancestor? k b.frame) (name : String) :
    (s.overwrite k b v).2.local? j ⟨name, b.frame, b.index⟩ = some v := by
  have hset := h.set hk b v
  have hlt : j < (s.overwrite k b v).2.frames.size :=
    Nat.lt_of_lt_of_le hj (size_le_after s (.set k b v))
  obtain ⟨a, ha, hi⟩ : ∃ a, H.ancestor? k b.frame = some a ∧ b.index < H.size a := by
    by_contra hno
    have hrefused := (h.overwrite_refused_iff hk b v).mpr fun a ha =>
      Nat.le_of_not_lt fun hi => hno ⟨a, ha, hi⟩
    rw [ho] at hrefused
    cases hrefused
  have hrecord : H.record (.set k b v) = { H with writes := ((a, b.index), v) :: H.writes } := by
    simp [record, target?, ha, hi]
  rw [hrecord] at hset
  rw [hset.local? hlt]
  show (H.ancestor? j b.frame).bind _ = _
  rw [hsame, ha, Option.bind_some, value?_cons, if_pos rfl]

end Shows

end History

theorem Runs.shows {s t : Store} {ops : List Op} (h : Runs s ops t) {H : History} (hH : H.Shows s) :
    (ops.foldl History.record H).Shows t := by
  induction h generalizing H with
  | done => exact hH
  | next hop _ ih => exact ih (hH.step hop)

/-- After any operations on frames, from none at first, each frame lies within the frames of its chain, each
of which has as many frames around it as stand before it in the chain, and this is its depth. What is read
through a binding is what was last written into its slot of the frame at its depth, and nothing if there is
none. To overwrite a slot fails exactly if it has not been made, and then changes nothing; else the new
value is seen from all frames with the same frame at the depth. That is how the evaluator gives a local
another value. No operation changes any other slot of the frames that there are. -/
theorem frames_are_linked {s₀ s : Store} {ops : List Op} (hs : s₀.frames = #[]) (h : Runs s₀ ops s) :
    let H := History.of ops
    (∀ k < s.frames.size, ∃ chain, H.chains[k]? = some chain ∧ (∀ a, a ∈ chain ↔ s.Within k a) ∧
      ∀ (d a : Nat), chain[d]? = some a →
        H.chains[a]? = some (chain.take (d + 1)) ∧ s.frames[a]?.map Frame.depth = some d) ∧
    (∀ k < s.frames.size, ∀ b,
      s.local? k b = (H.ancestor? k b.frame).bind fun a => H.value? a b.index) ∧
    (∀ a < s.frames.size, ∀ i, H.value? a i = none ↔ H.size a ≤ i) ∧
    (∀ k < s.frames.size, ∀ b v,
      ((s.overwrite k b v).1 = false ↔ ∀ a, H.ancestor? k b.frame = some a → H.size a ≤ b.index) ∧
      ((s.overwrite k b v).1 = false → (s.overwrite k b v).2 = s) ∧
      ((s.overwrite k b v).1 = true → ∀ j < s.frames.size,
        H.ancestor? j b.frame = H.ancestor? k b.frame → ∀ name,
          (s.overwrite k b v).2.local? j ⟨name, b.frame, b.index⟩ = some v)) ∧
    (∀ k b span v (u : State), u.store = s → Eval.writeLocal b span (some k) v u =
      if (s.overwrite k b v).1 then .ok () { u with store := (s.overwrite k b v).2 }
      else Eval.unboundLocal b span u) ∧
    ∀ op : Op, op.Legal s → ∀ a < s.frames.size, ∀ i, H.target? op ≠ some (a, i) →
      (op.after s).slot? a i = s.slot? a i := by
  intro H
  have hH : H.Shows s := h.shows (.blank hs)
  refine ⟨fun k hk => ?_, fun k hk => hH.local? hk, fun a ha i => hH.value?_eq_none_iff ha,
    fun k hk b v => ⟨hH.overwrite_refused_iff hk b v, fun hf => ?_, fun ho j hj hsame name => ?_⟩,
    fun k b span v u hu => hu ▸ Eval.writeLocal_eq k b span v u,
    fun op hop a ha i => hH.untouched hop ha⟩
  · obtain ⟨chain, hchain⟩ := hH.exists_chain hk
    exact ⟨chain, hchain, fun a => hH.mem_chain_iff hchain, fun d a => hH.chain_of_ancestor hchain⟩
  · unfold Store.overwrite at hf ⊢
    split at hf
    · cases hf
    · rfl
  · exact hH.overwrite_seen hk b v ho hj hsame name

/-- Two frames within one, which is given a slot after they were made. -/
def siblings : List Op :=
  [.new none [.bool true], .new (some 0) [], .new (some 0) [.nil], .push 0 (.bool false),
    .set 1 ⟨"x", 0, 1⟩ (.str "shared")]

/-- What is written through one frame is read through the other. -/
theorem siblings_share : ∃ s, Runs .empty siblings s ∧
    s.local? 2 ⟨"x", 0, 1⟩ = some (.str "shared") ∧ s.local? 2 ⟨"y", 1, 0⟩ = some .nil ∧
    s.local? 1 ⟨"y", 1, 0⟩ = none ∧ (s.overwrite 1 ⟨"z", 0, 2⟩ .nil).1 = false := by
  have hrun : Runs .empty siblings _ :=
    .next (by decide) (.next (by decide) (.next (by decide) (.next (by decide)
      (.next (by decide) .done))))
  obtain ⟨-, hread, -, hwrite, -⟩ := frames_are_linked rfl hrun
  refine ⟨_, hrun, ?_, ?_, ?_, ?_⟩
  · exact hread 2 (by decide) _
  · exact hread 2 (by decide) _
  · exact hread 1 (by decide) _
  · exact ((hwrite 1 (by decide) _ _).1).mpr (by decide)

end Frame

end TwinLisp
