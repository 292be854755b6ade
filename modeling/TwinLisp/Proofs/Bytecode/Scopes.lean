import TwinLisp.Proofs.Bytecode.Emission

/-! Locals come and go during a compilation, and nested functions become closures.

* `Builder.Binds`: a later state with further locals.
* `Build.closeScope_leaves`: the end of a scope takes its locals away.
* `Build.closure_writes`: a closure is made of a nested function. -/

namespace TwinLisp

open Builder

namespace Builder

/-- A later state, in which further values have become locals. -/
structure Binds (b : Builder) (n : Nat) (b' : Builder) : Prop where
  exts : b.Extends (b'.forget n)
  valid : b'.Valid
  height : b'.height = b.height + n
  length : n ≤ b'.level.locals.length
  depth : ∀ v ∈ b'.level.locals.take n, v.depth = b.level.depth

namespace Binds

variable {b b' b'' : Builder} {n m : Nat}

theorem refl (hb : b.Valid) : b.Binds 0 b := ⟨.refl b, hb, rfl, Nat.zero_le _, nofun⟩

theorem forget_forget (b : Builder) (n m : Nat) : (b.forget n).forget m = b.forget (n + m) := by
  simp only [forget, List.drop_drop]

theorem trans (h : b.Binds n b') (h' : b'.Binds m b'') : b.Binds (m + n) b'' where
  exts := forget_forget b'' m n ▸ h.exts.trans (h'.exts.forget n)
  valid := h'.valid
  height := by rw [h'.height, h.height]; omega
  length := by
    have := h'.exts.scene.locals.length_eq
    have := h.length
    simp only [forget, Level.scene, List.length_drop] at *
    have := h'.length
    omega
  depth v hv := by
    rw [List.take_add] at hv
    have hd : b'.level.depth = b.level.depth := h.exts.depth
    rcases List.mem_append.mp hv with hv | hv
    · rw [h'.depth v hv, hd]
    · have hm : Marked (b'.level.locals.take n) ((b''.level.locals.drop m).take n) :=
        List.forall₂_take n h'.exts.scene.locals
      obtain ⟨u, hu, huv⟩ := hm.mem hv
      rw [huv.depth, h.depth u hu]

end Binds

/-- The value on top of the stack as a local. -/
def bound (name : String) (b : Builder) : Builder :=
  { b with level :=
    { b.level with locals := ⟨name, b.level.depth, b.height - 1, false⟩ :: b.level.locals } }

theorem Binds.of_push {b b1 : Builder} (he : b.Extends b1) (hv : b1.Valid)
    (hh : b1.height = b.height + 1) (hs : b.height < 256) (name : String) :
    b.Binds 1 (b1.bound name) where
  exts := he
  valid := by
    have hh : b1.level.height = b.height + 1 := hh
    refine ⟨⟨?_, ?_, ?_, hv.1.captures, hv.1.named, hv.1.subs, hv.1.lined⟩, hv.2⟩
    · intro v hm
      rcases List.mem_cons.mp hm with rfl | hm
      · change b1.level.height - 1 < b1.level.height
        omega
      · exact hv.1.below v hm
    · intro v hm
      rcases List.mem_cons.mp hm with rfl | hm
      · change b1.level.height - 1 < 256
        omega
      · exact hv.1.byte v hm
    · intro v hm
      rcases List.mem_cons.mp hm with rfl | hm
      · exact Nat.le_refl _
      · exact hv.1.depth v hm
  height := hh
  length := Nat.le_add_left 1 _
  depth v hm := by
    rcases List.mem_cons.mp hm with rfl | hm
    · exact he.depth
    · cases hm

end Builder

namespace Build

variable {b b' : Builder} {span : Span}

theorem declare_eq_ok {name : String} (h : declare name span b = .ok ((), b')) :
    b.height - 1 < 256 ∧ b' = b.bound name := by
  simp only [declare, onLevel?, Level.declare, Level.maxLocals] at h
  by_cases hs : b.level.locals.length ≥ 256 ∨ b.level.height - 1 > 255
  · simp only [hs, if_true] at h
    cases h
  · simp only [hs, if_false] at h
    cases h
    exact ⟨by change b.level.height - 1 < 256; omega, rfl⟩

theorem declareParams_binds {params : List String} (hb : b.Valid)
    (h : declareParams span params b = .ok ((), b')) :
    b.Binds params.length b' ∧ b'.size = b.size ∧
      ∀ {locals}, Marked b'.level.locals locals →
        Declares params ⟨b.height, locals.drop params.length⟩ ⟨b'.height, locals⟩ := by
  induction params generalizing b with
  | nil =>
    obtain ⟨-, rfl⟩ := pure_eq_ok h
    exact ⟨.refl hb, rfl, fun _ => .nil⟩
  | cons name rest ih =>
    obtain ⟨_, b1, h1, h2⟩ := bind_eq_ok h
    obtain ⟨_, b2, h2, h3⟩ := bind_eq_ok h2
    have h1 : b1 = b.withHeight (b.height + 1) := by cases h1; rfl
    obtain ⟨hs, rfl⟩ := declare_eq_ok h2
    have he : b.Extends b1 := h1 ▸ (Extends.refl b).withHeight _
    have hv : b1.Valid := h1 ▸ hb.withHeight (Later.refl b) hb (Nat.le_succ _)
    have hh : b1.height = b.height + 1 := h1 ▸ rfl
    have hbound : b.Binds 1 (b1.bound name) := .of_push he hv hh (by omega) name
    obtain ⟨hr, hsz, hd⟩ := ih hbound.valid h3
    refine ⟨hbound.trans hr, hsz.trans (h1 ▸ rfl), fun {locals} hm => ?_⟩
    have hl : Marked (b1.bound name).level.locals (locals.drop rest.length) :=
      hr.exts.scene.locals.trans (List.forall₂_drop rest.length hm)
    have hd := hd hm
    generalize ht : locals.drop rest.length = ls at hl hd
    cases hl with
    | @cons _ w _ ws hw hws =>
      have hls : locals.drop (rest.length + 1) = ws := by
        rw [← List.drop_drop, ht]
        rfl
      have hslot : w.slot = b.height := by
        rw [hw.slot]
        change b1.height - 1 = b.height
        omega
      have hname : w.name = name := hw.name
      rw [List.length_cons, hls, ← hname]
      refine .cons hslot ?_
      have hh' : (b1.bound name).height = b.height + 1 := hh
      rw [hh'] at hd
      exact hd

theorem leastCaptured?_eq_some {vs : List LocalVar} {slot : Nat}
    (h : Level.leastCaptured? vs = some slot) :
    (∃ v ∈ vs, v.captured = true ∧ v.slot = slot) ∧
      ∀ v ∈ vs, v.captured = true → slot ≤ v.slot := by
  rw [Level.leastCaptured?, List.min?_eq_some_iff] at h
  refine ⟨?_, fun v hv hc => h.2 _ ?_⟩
  · obtain ⟨v, hv, rfl⟩ := List.mem_map.mp h.1
    obtain ⟨hv, hc⟩ := List.mem_filter.mp hv
    exact ⟨v, hv, hc, rfl⟩
  · exact List.mem_map.mpr ⟨v, List.mem_filter.mpr ⟨hv, hc⟩, rfl⟩

theorem leastCaptured?_eq_none {vs : List LocalVar} (h : Level.leastCaptured? vs = none) :
    ∀ v ∈ vs, v.captured = false := by
  intro v hv
  rw [Level.leastCaptured?, List.min?_eq_none_iff, List.map_eq_nil_iff] at h
  have := List.filter_eq_nil_iff.mp h v hv
  simpa using this

/-- The instructions at the end of a scope. -/
def leaving (vs : List LocalVar) : List UInt8 :=
  if vs.isEmpty then []
  else (match Level.leastCaptured? vs with
    | some slot => [Opcode.closeUpvalue.byte, UInt8.ofNat slot]
    | none => []) ++ [Opcode.popN.byte, UInt8.ofNat vs.length]

theorem leaves_of_bytes {p : Proto} {k : Nat} {vs : List LocalVar} (hl : vs.length < 256)
    (hb : ∀ v ∈ vs, v.slot < 256)
    (h : ∀ (j : Nat) x, (leaving vs)[j]? = some x → p.chunk.code[k + j]? = some x) :
    Leaves p k vs (k + (leaving vs).length) := by
  by_cases hn : vs = []
  · subst hn
    exact .none
  have he : vs.isEmpty = false := by simpa using hn
  rw [leaving, he] at h ⊢
  simp only [Bool.false_eq_true, if_false] at h ⊢
  cases hs : Level.leastCaptured? vs with
  | none =>
    rw [hs] at h
    refine .plain hn (leastCaptured?_eq_none hs) ?_
    rw [← UInt8.toNat_ofNat_of_lt' hl]
    exact Proto.has_byte (h 0 _ rfl) rfl (h 1 _ rfl)
  | some slot =>
    rw [hs] at h
    obtain ⟨⟨v, hv, hc, rfl⟩, hle⟩ := leastCaptured?_eq_some hs
    refine .closing ⟨v, hv, hc, rfl⟩ hle ?_ ?_
    · rw [← UInt8.toNat_ofNat_of_lt' (hb v hv)]
      exact Proto.has_byte (h 0 _ rfl) rfl (h 1 _ rfl)
    · rw [← UInt8.toNat_ofNat_of_lt' hl]
      exact Proto.has_byte (h 2 _ rfl) rfl (h 3 _ rfl)

/-- At the end of a scope its locals are taken away from under the result. -/
theorem closeScope_leaves {n : Nat} (h : closeScope span b = .ok ((), b'))
    (hn : n ≤ b.level.locals.length)
    (hi : ∀ v ∈ b.level.locals.take n, b.level.depth - 1 < v.depth)
    (ho : ∀ v ∈ b.level.locals.drop n, v.depth ≤ b.level.depth - 1) :
    n < 256 ∧ (((b.forget n).atDepth (b.level.depth - 1)).withHeight (b.height - n)).Writes
      (leaving (b.level.locals.take n)) span.line b' := by
  have ht : (b.level.locals.takeWhile fun v => v.depth > b.level.depth - 1) =
      b.level.locals.take n := by
    conv_lhs => rw [← List.take_append_drop n b.level.locals]
    rw [List.takeWhile_append_of_pos fun v hv => by simpa using hi v hv]
    cases hd : b.level.locals.drop n with
    | nil => simp
    | cons v rest =>
      have := ho v (by rw [hd]; exact List.mem_cons_self)
      rw [List.takeWhile_cons_of_neg (by simpa using this), List.append_nil]
  have hlen : (b.level.locals.take n).length = n := by rw [List.length_take, Nat.min_eq_left hn]
  simp only [closeScope, onLevel?, Level.closeScope, ht, hlen] at h
  by_cases hz : n = 0
  · subst hz
    simp only [List.take_zero, List.isEmpty_nil, if_true] at h
    cases h
    exact ⟨by decide, rfl, rfl, by simp [leaving]; rfl, by simp [leaving]; rfl, fun _ _ h => h,
      fun _ _ h => h, fun _ h => .inl h⟩
  · have he : (b.level.locals.take n).isEmpty = false := by
      rw [List.isEmpty_eq_false_iff, ← List.length_pos_iff, hlen]
      omega
    by_cases h255 : n > 255
    · rw [he] at h
      simp only [Bool.false_eq_true, if_false, h255, if_true] at h
      cases h
    · rw [he] at h
      simp only [Bool.false_eq_true, if_false, h255] at h
      cases hs : Level.leastCaptured? (b.level.locals.take n) with
      | none =>
        rw [hs] at h
        cases h
        refine ⟨by omega, rfl, rfl, ?_, ?_, fun _ _ h => h, fun _ _ h => h, fun _ h => .inl h⟩ <;>
        · rw [leaving, he, hs, hlen]
          simp [Level.mapChunk, Chunk.writeOp, Chunk.writeByte, withHeight, atDepth, forget]
      | some slot =>
        rw [hs] at h
        cases h
        refine ⟨by omega, rfl, rfl, ?_, ?_, fun _ _ h => h, fun _ _ h => h, fun _ h => .inl h⟩ <;>
        · rw [leaving, he, hs, hlen]
          simp [Level.mapChunk, Chunk.writeOp, Chunk.writeByte, withHeight, atDepth, forget]

/-! ## Closures -/

def pair (c : Capture) : List UInt8 := [if c.isLocal then 1 else 0, c.index]

theorem getElem?_pairs (cs : List Capture) (i : Nat) :
    (cs.flatMap pair)[2 * i]? = cs[i]?.map (fun c => if c.isLocal then 1 else 0) ∧
      (cs.flatMap pair)[2 * i + 1]? = cs[i]?.map Capture.index := by
  induction cs generalizing i with
  | nil => simp
  | cons c rest ih =>
    cases i with
    | zero => exact ⟨rfl, rfl⟩
    | succ i =>
      rw [Nat.mul_succ, List.flatMap_cons, List.getElem?_cons_succ]
      exact ih i

theorem length_pairs (cs : List Capture) : (cs.flatMap pair).length = 2 * cs.length := by
  induction cs with
  | nil => rfl
  | cons c rest ih =>
    rw [List.flatMap_cons, List.length_append, ih, List.length_cons]
    change 2 + _ = _
    omega

theorem writeCaptures_writes {cs : List Capture} (h : writeCaptures span cs b = .ok ((), b')) :
    b.Writes (cs.flatMap pair) span.line b' := by
  induction cs generalizing b with
  | nil =>
    obtain ⟨-, rfl⟩ := pure_eq_ok h
    exact ⟨rfl, rfl, by simp, by simp, fun _ _ h => h, fun _ _ h => h, fun _ h => .inl h⟩
  | cons c rest ih =>
    obtain ⟨_, b1, h1, h2⟩ := bind_eq_ok h
    obtain ⟨_, b2, h2, h3⟩ := bind_eq_ok h2
    exact ((byte_writes h1).trans (byte_writes h2)).trans (ih h3)

theorem closure_writes {q : Proto} (hl : q.Laid) (h : closure q span b = .ok ((), b')) :
    ∃ n, n < 65536 ∧ b'.level.subs[n]? = some q ∧
      b.Writes ([Opcode.closure.byte, Chunk.highByte n, Chunk.lowByte n] ++
        q.captures.toList.flatMap pair) span.line b' := by
  obtain ⟨n, b1, h1, h2⟩ := bind_eq_ok h
  obtain ⟨rfl, rfl⟩ := ask_eq_ok h1
  by_cases hn : b1.level.subs.size > 65535
  · simp only [hn, if_true] at h2
    obtain ⟨_, _, h2, _⟩ := bind_eq_ok h2
    cases h2
  · simp only [hn, if_false] at h2
    obtain ⟨_, b2, h2, h3⟩ := bind_eq_ok h2
    obtain ⟨_, b3, h3, h4⟩ := bind_eq_ok h3
    have hp : b1.Writes [] span.line b2 := by
      cases h2
      refine ⟨rfl, rfl, by simp, by simp, fun _ _ h => h, fun n x hx => ?_, fun x hx => ?_⟩
      · have hn := (Array.getElem?_eq_some_iff.mp hx).1
        change (b1.level.subs.push q)[n]? = some x
        rw [Array.getElem?_push_lt hn, ← hx, Array.getElem?_eq_getElem hn]
      · rcases Array.mem_push.mp hx with hx | rfl
        · exact .inl hx
        · exact .inr hl
    have hq : b2.level.subs[b1.level.subs.size]? = some q := by
      cases h2
      exact Array.getElem?_push_size
    have hw := (opWord_writes h3).trans (writeCaptures_writes h4)
    exact ⟨_, by omega, hw.subs _ _ hq, hp.trans hw⟩

end Build

end TwinLisp
