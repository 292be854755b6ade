import TwinLisp.Proofs.Bytecode.Building

/-! What single steps of a compilation write. Each appends the bytes of its instructions, whose
operands fit their width; a forward jump is filled in later.

* `Builder.Writes`: bytes at the end of the code.
* `Builder.Emits`: a later state, with what lies between the two in every finished function.
* `Build.land_patches`: a forward jump gets its target.
* `Build.access_finds`, `Level.closeScope_leaves`: names, and the end of a scope. -/

namespace TwinLisp

namespace Build

theorem bind_eq_ok {α β : Type} {x : Build α} {f : α → Build β} {b b' : Builder} {y : β}
    (h : (x >>= f) b = .ok (y, b')) : ∃ a b1, x b = .ok (a, b1) ∧ f a b1 = .ok (y, b') := by
  change (x b).bind (fun r => f r.1 r.2) = _ at h
  cases hx : x b with
  | error e =>
    rw [hx] at h
    cases h
  | ok r =>
    rw [hx] at h
    exact ⟨r.1, r.2, rfl, h⟩

theorem pure_eq_ok {α : Type} {x y : α} {b b' : Builder} (h : (pure x : Build α) b = .ok (y, b')) :
    x = y ∧ b = b' := by
  cases h
  exact ⟨rfl, rfl⟩

theorem ask_eq_ok {α : Type} {f : Level → α} {b b' : Builder} {y : α}
    (h : ask f b = .ok (y, b')) : y = f b.level ∧ b' = b := by
  cases h
  exact ⟨rfl, rfl⟩

theorem fail_ne_ok {α : Type} {cause : CompileFault} {span : Span} {b b' : Builder} {y : α} :
    (fail cause span : Build α) b ≠ .ok (y, b') := nofun

end Build

/-! ## Instructions in finished functions -/

namespace Proto

variable {p : Proto} {k n : Nat} {o : Opcode}

theorem has_of_bytes (h : p.chunk.code[k]? = some o.byte)
    (hn : p.chunk.operand? (k + 1) o.width = some n) : p.Has k o n := by
  simp only [Has, Chunk.fetch, h, Opcode.ofByte?_byte, hn]

theorem has_bare (h : p.chunk.code[k]? = some o.byte) (hw : o.width = 0) : p.Has k o 0 :=
  has_of_bytes h (by rw [hw]; rfl)

theorem has_byte {x : UInt8} (h : p.chunk.code[k]? = some o.byte) (hw : o.width = 1)
    (hx : p.chunk.code[k + 1]? = some x) : p.Has k o x.toNat :=
  has_of_bytes h (by rw [hw]; simp only [Chunk.operand?, hx, Option.map_some])

theorem has_word {x y : UInt8} (h : p.chunk.code[k]? = some o.byte) (hw : o.width = 2)
    (hx : p.chunk.code[k + 1]? = some x) (hy : p.chunk.code[k + 2]? = some y) :
    p.Has k o (x.toNat * 256 + y.toNat) :=
  has_of_bytes h (by
    rw [hw]; simp only [Chunk.operand?, Chunk.readWord?, hx, hy, Chunk.wordOf])

end Proto

namespace Builder

/-- Bytes at the end of the code, all of one line; there may be more constants and nested functions as
well. -/
structure Writes (b : Builder) (bytes : List UInt8) (line : Nat) (b' : Builder) : Prop where
  level : b'.level = { b.level with chunk := b'.level.chunk, subs := b'.level.subs }
  enclosing : b'.enclosing = b.enclosing
  code : b'.level.chunk.code.toList = b.level.chunk.code.toList ++ bytes
  lines : b'.level.chunk.lines.toList = b.level.chunk.lines.toList ++ .replicate bytes.length line
  constants : ∀ (n : Nat) v, b.level.chunk.constants[n]? = some v →
    b'.level.chunk.constants[n]? = some v
  subs : ∀ (n : Nat) q, b.level.subs[n]? = some q → b'.level.subs[n]? = some q
  laid : ∀ q ∈ b'.level.subs, q ∈ b.level.subs ∨ q.Laid

namespace Writes

variable {b b' b'' : Builder} {bytes bytes' : List UInt8} {line : Nat}

theorem trans (h : b.Writes bytes line b') (h' : b'.Writes bytes' line b'') :
    b.Writes (bytes ++ bytes') line b'' where
  level := by rw [h'.level, h.level]
  enclosing := h'.enclosing.trans h.enclosing
  code := by rw [h'.code, h.code, List.append_assoc]
  lines := by rw [h'.lines, h.lines, List.append_assoc, List.length_append, List.replicate_add]
  constants n v hv := h'.constants n v (h.constants n v hv)
  subs n q hq := h'.subs n q (h.subs n q hq)
  laid q hq := (h'.laid q hq).elim (h.laid q) .inr

theorem size_eq (h : b.Writes bytes line b') : b'.size = b.size + bytes.length := by
  simp only [size, Chunk.size, ← Array.length_toList, h.code, List.length_append]

theorem height_eq (h : b.Writes bytes line b') : b'.height = b.height := by rw [height, h.level]; rfl

theorem code_lt (h : b.Writes bytes line b') {k : Nat} (hk : k < b.size) :
    b'.level.chunk.code[k]? = b.level.chunk.code[k]? := by
  rw [← Array.getElem?_toList, ← Array.getElem?_toList, h.code, List.getElem?_append_left hk]

theorem code_at (h : b.Writes bytes line b') (j : Nat) :
    b'.level.chunk.code[b.size + j]? = bytes[j]? := by
  rw [← Array.getElem?_toList, h.code, size, Chunk.size, ← Array.length_toList,
    List.getElem?_append_right (Nat.le_add_right _ _), Nat.add_sub_cancel_left]

theorem exts (h : b.Writes bytes line b') : b.Extends b' where
  name := by rw [h.level]
  arity := by rw [h.level]
  depth := by rw [h.level]
  target := by rw [h.level]
  scene := by
    rw [h.level]
    exact .refl _
  size := by rw [h.size_eq]; omega
  constants := h.constants
  lines k x hx := by
    rw [← Array.getElem?_toList] at hx ⊢
    rw [h.lines, List.getElem?_append_left (List.getElem?_eq_some_iff.mp hx).1, hx]
  subs := h.subs
  enclosing := by rw [h.enclosing]; exact .refl _
  code k hk := h.code_lt hk

theorem valid (h : b.Writes bytes line b') (hb : b.Valid) : b'.Valid := by
  have hl : b.level.chunk.lines.size = b.level.chunk.code.size := hb.1.lined
  have hl' : b'.level.chunk.lines.size = b'.level.chunk.code.size := by
    have hlines := congrArg List.length h.lines
    have hcode := congrArg List.length h.code
    simp only [List.length_append, List.length_replicate, Array.length_toList] at hlines hcode
    omega
  rw [Valid, h.level, h.enclosing]
  exact ⟨⟨hb.1.below, hb.1.byte, hb.1.depth, hb.1.captures, hb.1.named,
    fun q hq => (h.laid q hq).elim (hb.1.subs q) id, hl'⟩, hb.2⟩

theorem finished {i : Nat} {p : Proto} {locals : List LocalVar} {outer : List Scene}
    (h : b.Writes bytes line b') (hf : b'.Finished i p locals outer) (hi : i ≤ b.size) {j : Nat}
    {x : UInt8} (hx : bytes[j]? = some x) : p.chunk.code[b.size + j]? = some x := by
  have hj : j < bytes.length := (List.getElem?_eq_some_iff.mp hx).1
  rw [hf.code _ (by omega) (by rw [h.size_eq]; omega), h.code_at, hx]

/-- The first byte stands in the line. -/
theorem placed {i : Nat} {p : Proto} {locals : List LocalVar} {outer : List Scene}
    (h : b.Writes bytes line b') (hb : b.Valid) (hf : b'.Finished i p locals outer)
    (hn : bytes ≠ []) : p.chunk.lines[b.size]? = some line := by
  have hl : b.level.chunk.lines.size = b.level.chunk.code.size := hb.1.lined
  refine hf.lines _ _ ?_
  rw [show b.size = b.level.chunk.lines.toList.length from hl.symm, ← Array.getElem?_toList, h.lines,
    List.getElem?_append_right (Nat.le_refl _), Nat.sub_self]
  cases bytes with
  | nil => exact absurd rfl hn
  | cons x rest => rfl

end Writes

/-- A later state of a compilation, with what lies between the two in every finished function. -/
structure Emits (b b' : Builder)
    (Q : Proto → List Scene → Option Target → Shape → Nat → Nat → Prop) : Prop where
  exts : b.Extends b'
  valid : b'.Valid
  height : b.height ≤ b'.height
  lays : ∀ {p outer T locals}, b.level.target = T.map Target.toRecurTarget →
    b'.Finished b.size p locals outer → Q p outer T ⟨b.height, locals⟩ b.size b'.size

namespace Emits

variable {b b' b'' : Builder} {Q R : Proto → List Scene → Option Target → Shape → Nat → Nat → Prop}

theorem seq (h : b.Emits b' Q) (h' : b'.Emits b'' R) :
    b.Emits b'' fun p outer T σ k m =>
      ∃ a, Q p outer T σ k a ∧ R p outer T ⟨b'.height, σ.locals⟩ a m where
  exts := h.exts.trans h'.exts
  valid := h'.valid
  height := Nat.le_trans h.height h'.height
  lays ht hf := ⟨_, h.lays ht (hf.earlier h'.exts),
    h'.lays (h.exts.target.trans ht) (hf.from h.exts.size)⟩

theorem imp (h : b.Emits b' Q)
    (hQ : ∀ p outer T locals k m, Q p outer T ⟨b.height, locals⟩ k m →
      R p outer T ⟨b.height, locals⟩ k m) : b.Emits b' R :=
  ⟨h.exts, h.valid, h.height, fun ht hf => hQ _ _ _ _ _ _ (h.lays ht hf)⟩

theorem withHeight (hb : b.Valid) (h : b.Emits b' Q) {n : Nat} (hn : b.height ≤ n) :
    b.Emits (b'.withHeight n) Q :=
  ⟨h.exts.withHeight n, hb.withHeight h.exts.toLater h.valid hn, hn, fun ht hf => h.lays ht
    ⟨hf.code, hf.constants, hf.lines, hf.subs, hf.scene, hf.outer⟩⟩

end Emits

theorem Writes.emits {b b' : Builder} {bytes : List UInt8} {line : Nat}
    {Q : Proto → List Scene → Option Target → Shape → Nat → Nat → Prop} (h : b.Writes bytes line b')
    (hb : b.Valid)
    (hQ : ∀ {p outer T locals}, b'.Finished b.size p locals outer →
      (∀ j x, bytes[j]? = some x → p.chunk.code[b.size + j]? = some x) →
      (bytes ≠ [] → p.chunk.lines[b.size]? = some line) →
      Q p outer T ⟨b.height, locals⟩ b.size (b.size + bytes.length)) : b.Emits b' Q where
  exts := h.exts
  valid := h.valid hb
  height := Nat.le_of_eq h.height_eq.symm
  lays _ hf := by
    rw [h.size_eq]
    exact hQ hf (fun j x hx => h.finished hf (Nat.le_refl _) hx) (h.placed hb hf)

end Builder

open Builder

namespace Build

variable {b b' : Builder} {span : Span} {o : Opcode}

theorem writes_of_push {b : Builder} {bytes : List UInt8} {line : Nat} {c : Chunk}
    (hc : c.code.toList = b.level.chunk.code.toList ++ bytes)
    (hl : c.lines.toList = b.level.chunk.lines.toList ++ .replicate bytes.length line)
    (hk : c.constants = b.level.chunk.constants) :
    b.Writes bytes line { b with level := { b.level with chunk := c } } :=
  ⟨rfl, rfl, hc, hl, fun n v hv => by rw [hk]; exact hv, fun _ _ h => h, fun _ h => .inl h⟩

theorem op_writes (h : op o span b = .ok ((), b')) : b.Writes [o.byte] span.line b' := by
  cases h
  exact writes_of_push (by simp [Chunk.writeOp, Chunk.writeByte])
    (by simp [Chunk.writeOp, Chunk.writeByte]) rfl

theorem byte_writes {x : UInt8} (h : byte x span b = .ok ((), b')) : b.Writes [x] span.line b' := by
  cases h
  exact writes_of_push (by simp [Chunk.writeByte]) (by simp [Chunk.writeByte]) rfl

theorem opByte_writes {x : UInt8} (h : opByte o x span b = .ok ((), b')) :
    b.Writes [o.byte, x] span.line b' := by
  cases h
  exact writes_of_push (by simp [Chunk.writeOp, Chunk.writeByte])
    (by simp [Chunk.writeOp, Chunk.writeByte]) rfl

theorem opWord_writes {n : Nat} (h : opWord o n span b = .ok ((), b')) :
    b.Writes [o.byte, Chunk.highByte n, Chunk.lowByte n] span.line b' := by
  cases h
  exact writes_of_push (by simp [Chunk.writeOp, Chunk.writeWord, Chunk.writeByte])
    (by simp [Chunk.writeOp, Chunk.writeWord, Chunk.writeByte]) rfl

theorem opConstant_writes {v : Value} (h : opConstant o v span b = .ok ((), b')) :
    ∃ n, n < 65536 ∧ b'.level.chunk.constants[n]? = some v ∧
      b.Writes [o.byte, Chunk.highByte n, Chunk.lowByte n] span.line b' := by
  simp only [opConstant, onLevel?, Chunk.addConstant, Chunk.maxConstants] at h
  by_cases hs : b.level.chunk.constants.size ≥ 65535
  · simp [hs] at h
  · simp only [hs, if_false] at h
    cases h
    refine ⟨b.level.chunk.constants.size, by omega, Array.getElem?_push_size, rfl, rfl, ?_,
      ?_, fun n x hx => ?_, fun _ _ h => h, fun _ h => .inl h⟩
    · simp [Chunk.writeOp, Chunk.writeWord, Chunk.writeByte]
    · simp [Chunk.writeOp, Chunk.writeWord, Chunk.writeByte]
    · have hn := (Array.getElem?_eq_some_iff.mp hx).1
      change (b.level.chunk.constants.push v)[n]? = some x
      rw [Array.getElem?_push_lt hn, ← hx, Array.getElem?_eq_getElem hn]

theorem jump_writes {n : Nat} (h : jump o span b = .ok (n, b')) :
    n = b.size + 1 ∧ b.Writes [o.byte, Chunk.highByte 65535, Chunk.lowByte 65535] span.line b' := by
  obtain ⟨_, b1, h1, h2⟩ := bind_eq_ok h
  obtain ⟨rfl, rfl⟩ := ask_eq_ok h2
  have hw : b.Writes [o.byte, Chunk.highByte 65535, Chunk.lowByte 65535] span.line b' := by
    cases h1
    exact writes_of_push
      (by simp [Chunk.emitJump, Chunk.writeOp, Chunk.writeWord, Chunk.writeByte])
      (by simp [Chunk.emitJump, Chunk.writeOp, Chunk.writeWord, Chunk.writeByte]) rfl
  refine ⟨?_, hw⟩
  have := hw.size_eq
  change b'.size - 2 = _
  rw [this, List.length_cons]
  simp

theorem loopTo_writes {start : Nat} (h : loopTo start span b = .ok ((), b')) :
    ∃ d, d < 65536 ∧ start + d = b.size + 3 ∧
      b.Writes [Opcode.loop.byte, Chunk.highByte d, Chunk.lowByte d] span.line b' := by
  simp only [loopTo, onLevel?, Chunk.emitLoop, Chunk.size_writeOp] at h
  by_cases hd : start ≤ b.level.chunk.size + 1 + 2 ∧ b.level.chunk.size + 1 + 2 - start ≤ 65535
  · simp only [hd, and_self, if_true] at h
    cases h
    refine ⟨b.level.chunk.size + 1 + 2 - start, by omega, by rw [size]; omega, ?_⟩
    exact writes_of_push (by simp [Chunk.writeOp, Chunk.writeWord, Chunk.writeByte])
      (by simp [Chunk.writeOp, Chunk.writeWord, Chunk.writeByte]) rfl
  · simp only [hd, if_false] at h
    cases h

end Build

/-! ## Forward jumps -/

/-- A word of the code has been filled in. -/
structure Builder.Patches (b : Builder) (i n : Nat) (b' : Builder) : Prop where
  level : b'.level = { b.level with chunk := b'.level.chunk }
  enclosing : b'.enclosing = b.enclosing
  size : b'.size = b.size
  constants : b'.level.chunk.constants = b.level.chunk.constants
  lines : b'.level.chunk.lines = b.level.chunk.lines
  code : ∀ k, k ≠ i → k ≠ i + 1 → b'.level.chunk.code[k]? = b.level.chunk.code[k]?
  high : b'.level.chunk.code[i]? = some (Chunk.highByte n)
  low : b'.level.chunk.code[i + 1]? = some (Chunk.lowByte n)

namespace Builder.Patches

variable {b b' : Builder} {i n : Nat}

theorem later (h : b.Patches i n b') : b.Later b' where
  name := by rw [h.level]
  arity := by rw [h.level]
  depth := by rw [h.level]
  target := by rw [h.level]
  scene := by
    rw [h.level]
    exact .refl _
  size := Nat.le_of_eq h.size.symm
  constants _ _ hv := by rw [h.constants]; exact hv
  lines _ _ hx := by rw [h.lines]; exact hx
  subs _ _ hq := by rw [h.level]; exact hq
  enclosing := by rw [h.enclosing]; exact .refl _

theorem height_eq (h : b.Patches i n b') : b'.height = b.height := by rw [height, h.level]; rfl

theorem valid (h : b.Patches i n b') (hb : b.Valid) : b'.Valid := by
  rw [Valid, h.level, h.enclosing]
  exact ⟨⟨hb.1.below, hb.1.byte, hb.1.depth, hb.1.captures, hb.1.named, hb.1.subs, by
    rw [h.lines]
    exact hb.1.lined.trans h.size.symm⟩, hb.2⟩

end Builder.Patches

theorem Build.land_patches {b b' : Builder} {i : Nat} (h : land i b = .ok ((), b')) :
    ∃ d, i + 2 + d = b.size ∧ d < 32768 ∧ b.Patches i d b' := by
  simp only [land, onLevel?, Chunk.patchJump] at h
  by_cases hd : i + 2 ≤ b.level.chunk.size ∧ b.level.chunk.size - (i + 2) ≤ 32767
  · simp only [hd, and_self, if_true] at h
    cases h
    have hs : i + 2 ≤ b.level.chunk.code.size := hd.1
    refine ⟨b.level.chunk.size - (i + 2), by rw [size]; omega, by omega, rfl, rfl, ?_, rfl, rfl, ?_, ?_, ?_⟩
    · simp [size, Chunk.size]
    · intro k hk hk'
      change ((b.level.chunk.code.setIfInBounds _ _).setIfInBounds _ _)[k]? = _
      rw [Array.getElem?_setIfInBounds_ne (Ne.symm hk'), Array.getElem?_setIfInBounds_ne (Ne.symm hk)]
    · change ((b.level.chunk.code.setIfInBounds _ _).setIfInBounds _ _)[i]? = _
      rw [Array.getElem?_setIfInBounds_ne (by omega),
        Array.getElem?_setIfInBounds_self_of_lt (by omega)]
    · change ((b.level.chunk.code.setIfInBounds _ _).setIfInBounds _ _)[i + 1]? = _
      rw [Array.getElem?_setIfInBounds_self_of_lt (by rw [Array.size_setIfInBounds]; omega)]
  · simp only [hd, if_false] at h
    cases h

/-! ## Names -/

theorem LocalVar.latest?_mem {name : String} {vs : List LocalVar} {v : LocalVar}
    (h : latest? name vs = some v) : v ∈ vs := List.mem_of_find?_eq_some h

theorem Level.marked_markCaptured (name : String) (vs : List LocalVar) :
    Marked vs (markCaptured.mark name vs) := by
  induction vs with
  | nil => exact .nil
  | cons v rest ih =>
    rw [markCaptured.mark]
    split
    · exact .cons ⟨rfl, rfl, rfl, fun _ => rfl⟩ (Marked.refl rest)
    · exact .cons (.refl v) ih

theorem Level.latest?_markCaptured {name : String} {vs : List LocalVar} {v : LocalVar}
    (h : LocalVar.latest? name vs = some v) :
    LocalVar.latest? name (markCaptured.mark name vs) = some { v with captured := true } := by
  induction vs with
  | nil => cases h
  | cons u rest ih =>
    unfold LocalVar.latest? at h ih ⊢
    rw [List.find?_cons] at h
    rw [markCaptured.mark]
    cases hn : u.name == name with
    | true =>
      rw [hn] at h
      cases h
      simp [hn]
    | false =>
      rw [hn] at h
      simp only [Bool.false_eq_true, if_false, List.find?_cons, hn]
      exact ih h

theorem Level.capture_eq_ok {outer : List Scene} {l l' : Level} {c : Capture} {span : Span}
    {i : UInt8} {name : String} (hl : l.Valid outer) (hc : Captured name outer c)
    (h : l.capture c span = .ok (i, l')) :
    l.Noted l' ∧ l'.Valid outer ∧ l'.captures[i.toNat]? = some c ∧ l'.locals = l.locals := by
  rw [capture] at h
  split at h
  · next j hj =>
    cases h
    obtain ⟨hlt, heq, -⟩ := Array.findIdx?_eq_some_iff_getElem.mp hj
    have := hl.captures
    refine ⟨.refl l, hl, ?_, rfl⟩
    rw [UInt8.toNat_ofNat_of_lt' (show j < 256 by omega), Array.getElem?_eq_getElem hlt]
    exact congrArg some (eq_of_beq heq)
  · split at h
    · cases h
    · next hs =>
      cases h
      have hs : l.captures.size < 256 := by simpa [maxCaptures] using hs
      refine ⟨⟨rfl, .refl _, fun n d hd => ?_⟩, ⟨hl.below, hl.byte, hl.depth, ?_, fun d hd => ?_,
        hl.subs, hl.lined⟩, ?_, rfl⟩
      · have hn : n < l.captures.size := (Array.getElem?_eq_some_iff.mp hd).1
        change (l.captures.push c)[n]? = some d
        rw [Array.getElem?_push_lt hn, ← Array.getElem?_eq_getElem hn]
        exact hd
      · change (l.captures.push c).size ≤ 256
        rw [Array.size_push]
        exact hs
      · rcases Array.mem_push.mp hd with hd | rfl
        · exact hl.named d hd
        · exact ⟨name, hc⟩
      · rw [UInt8.toNat_ofNat_of_lt' hs]
        exact Array.getElem?_push_size

theorem Builder.captureFrom_finds {name : String} {span : Span} {ls ls' : List Level}
    {r : Option Capture} (hv : Level.AllValid ls) (h : captureFrom name span ls = .ok (r, ls')) :
    Level.AllNoted ls ls' ∧ Level.AllValid ls' ∧
      ∀ c, r = some c → Captured name (Level.scenes ls') c := by
  induction ls generalizing r ls' with
  | nil =>
    cases h
    exact ⟨.nil, trivial, nofun⟩
  | cons l outer ih =>
    rw [captureFrom] at h
    cases hf : l.find? name with
    | some v =>
      rw [hf] at h
      cases h
      have hm := Level.marked_markCaptured name l.locals
      have hn : l.Noted (l.markCaptured name) := ⟨rfl, hm, fun _ _ h => h⟩
      refine ⟨.cons hn (Level.AllNoted.refl outer), ⟨hv.1.mono (.refl _) hm rfl (Nat.le_refl _)
        (Nat.le_refl _) rfl rfl,
        hv.2⟩, fun c hc => ?_⟩
      cases hc
      have hb := hv.1.byte v (LocalVar.latest?_mem hf)
      exact .near (Level.latest?_markCaptured hf) rfl (UInt8.toNat_ofNat_of_lt' hb)
    | none =>
      rw [hf] at h
      cases hr : captureFrom name span outer with
      | error e =>
        rw [hr] at h
        cases h
      | ok r' =>
        obtain ⟨r', outer'⟩ := r'
        rw [hr] at h
        obtain ⟨hn, hv', hc⟩ := ih hv.2 hr
        have hl := hv.1.mono hn.scenes (.refl l.locals) rfl (Nat.le_refl _) (Nat.le_refl _) rfl rfl
        cases r' with
        | none =>
          cases h
          exact ⟨.cons (.refl l) hn, ⟨hl, hv'⟩, nofun⟩
        | some c =>
          simp only at h
          split at h
          · cases h
          · next i l' hi =>
            cases h
            obtain ⟨hnl, hvl, hci, hlo⟩ := Level.capture_eq_ok hl (hc c rfl) hi
            refine ⟨.cons hnl hn, ⟨hvl, hv'⟩, fun d hd => ?_⟩
            cases hd
            exact .far (by rw [hlo]; exact hf) hci (hc c rfl)

/-- Where a finished function finds a name. -/
def Access.Finds (name : String) (p : Proto) (locals : List LocalVar) (outer : List Scene) :
    Access → Prop
  | .slot i => ∃ v, LocalVar.latest? name locals = some v ∧ i.toNat = v.slot
  | .capture i => LocalVar.latest? name locals = none ∧
    ∃ c, p.captures[i.toNat]? = some c ∧ Captured name outer c

/-- Finding a name writes nothing, and the name is found there in the end. -/
theorem Build.access_finds {name : String} {span : Span} {b b' : Builder} {a : Access}
    (hb : b.Valid) (h : access name span b = .ok (a, b')) :
    b.Extends b' ∧ b'.Valid ∧ b'.height = b.height ∧ b'.size = b.size ∧
      ∀ {i p locals outer}, b'.Finished i p locals outer → a.Finds name p locals outer := by
  rw [access, Builder.access] at h
  cases hf : b.level.find? name with
  | some v =>
    rw [hf] at h
    cases h
    refine ⟨.refl b, hb, rfl, rfl, fun hfin => ?_⟩
    obtain ⟨w, hw, hm⟩ := hfin.scene.locals.latest?_eq_some hf
    have hv := hb.1.byte v (LocalVar.latest?_mem hf)
    exact ⟨w, hw, by rw [UInt8.toNat_ofNat_of_lt' hv, hm.slot]⟩
  | none =>
    rw [hf] at h
    simp only at h
    split at h
    · cases h
    · cases h
    · next c enclosing hc =>
      split at h
      · cases h
      · next i level hi =>
        cases h
        obtain ⟨hn, hve, hcap⟩ := captureFrom_finds hb.2 hc
        have hl := hb.1.mono hn.scenes (.refl b.level.locals) rfl (Nat.le_refl _) (Nat.le_refl _) rfl rfl
        obtain ⟨hnl, hvl, hci, hlo⟩ := Level.capture_eq_ok hl (hcap c rfl) hi
        have hs : Builder.size ⟨level, enclosing⟩ = b.size := by
          change level.chunk.size = _
          rw [hnl.eq]
          rfl
        have hh : level.height = b.level.height := by rw [hnl.eq]
        refine ⟨.of_noted hnl hn, ⟨hvl, hve⟩, hh, hs, fun hfin => ⟨?_, c, ?_, ?_⟩⟩
        · exact hfin.scene.locals.latest?_eq_none ((congrArg _ hlo).trans hf)
        · exact hfin.scene.captures _ _ hci
        · exact (hcap c rfl).mono hfin.outer

end TwinLisp
