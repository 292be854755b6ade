import TwinLisp.Bytecode.Decode

/-! Chunks as they are written. Bytes and constants are added at the end and stay as they are, but for
the operand of a forward jump, which is filled in when its target is known.

* `Chunk.Edit`: the operations on a chunk, and what they answer.
* `Chunk.Draft`: a chunk with the numbers that have been answered on the way; `Draft.Leads`: operations
  one after the other, each of them in its place.
* `Chunk.Extends`: a later chunk; `Edit.extends_apply`: what an operation may touch.
* `Chunk.Landing`, `Chunk.Looping`: what becomes of a forward and of a backward jump.
* `Chunk.encoding`: all of this for any sequence of operations. -/

namespace TwinLisp.Chunk

/-! ## Operations -/

inductive Edit where
  | byte (b : UInt8) (line : Nat)
  | op (o : Opcode) (line : Nat)
  | word (n : UInt16) (line : Nat)
  | constant (v : Value) (line : Nat)
  /-- A constant with the instruction that pushes it. -/
  | pushed (v : Value) (line : Nat)
  | jump (o : Opcode) (line : Nat)
  | patch (placeholder : Nat)
  | loop (start line : Nat)

/-- The answer of an operation, which may be a number, and the chunk after it. -/
def Edit.apply (c : Chunk) : Edit → Except CompileError (Option Nat) × Chunk
  | byte b line => (.ok none, c.writeByte b line)
  | op o line => (.ok (some c.size), c.writeOp o line)
  | word n line => (.ok none, c.writeWord n.toNat line)
  | constant v line => ((c.addConstant v line).1.map some, (c.addConstant v line).2)
  | pushed v line =>
    match c.emitConstant v line with
    | .ok c' => (.ok none, c')
    | .error e => (.error e, c)
  | jump o line => (.ok (some (c.emitJump o line).1), (c.emitJump o line).2)
  | patch p =>
    match c.patchJump p with
    | .ok c' => (.ok none, c')
    | .error e => (.error e, c)
  | loop start line => ((c.emitLoop start line).1.map fun _ => none, (c.emitLoop start line).2)

/-- A chunk that is being written, and the numbers that operations on it have answered. -/
structure Draft where
  chunk : Chunk
  answers : List (Edit × Nat)

namespace Draft

def blank : Draft := ⟨.empty, []⟩

/-- The draft after an operation, which may have failed. -/
def after (d : Draft) (e : Edit) : Draft :=
  match e.apply d.chunk with
  | (.ok (some n), c) => ⟨c, (e, n) :: d.answers⟩
  | (_, c) => ⟨c, d.answers⟩

/-- An offset that a jump has answered as the place of its operand. -/
def Placeholder (d : Draft) (p : Nat) : Prop := ∃ o line, (Edit.jump o line, p) ∈ d.answers

/-- An index that has been answered for a constant. -/
def Index (d : Draft) (i : Nat) (v : Value) : Prop := ∃ line, (Edit.constant v line, i) ∈ d.answers

/-- Placeholders alone are patched, and loops go back. -/
def Admits (d : Draft) : Edit → Prop
  | .patch p => d.Placeholder p
  | .loop start _ => start ≤ d.chunk.size
  | _ => True

inductive Leads : Draft → List Edit → Draft → Prop
  | done {d} : Leads d [] d
  | next {d e es d'} (he : d.Admits e) (h : Leads (d.after e) es d') : Leads d (e :: es) d'

@[simp] theorem chunk_after (d : Draft) (e : Edit) : (d.after e).chunk = (e.apply d.chunk).2 := by
  unfold after
  split <;> next h => rw [h]

theorem mem_after {d : Draft} {e e' : Edit} {n : Nat} (h : (e', n) ∈ (d.after e).answers) :
    (e', n) ∈ d.answers ∨ e' = e ∧ (e.apply d.chunk).1 = .ok (some n) := by
  unfold after at h
  split at h
  · next heq =>
    rcases List.mem_cons.mp h with h | h
    · cases h
      exact .inr ⟨rfl, by rw [heq]⟩
    · exact .inl h
  · exact .inl h

end Draft

/-! ## What operations leave alone -/

/-- A later chunk: it has the constants of the earlier one and its bytes, those apart that have been
touched. -/
structure Extends (touched : Nat → Prop) (c c' : Chunk) : Prop where
  size : c.size ≤ c'.size
  lines : c.lines.size = c.size → c'.lines.size = c'.size
  pool : c.constants.size ≤ maxConstants → c'.constants.size ≤ maxConstants
  constants : ∀ (i : Nat) (v : Value), c.constants[i]? = some v → c'.constants[i]? = some v
  code : ∀ k < c.size, ¬ touched k → c'.code[k]? = c.code[k]?

namespace Extends

variable {t t' : Nat → Prop} {c c' c'' : Chunk}

theorem refl (c : Chunk) : Extends t c c := ⟨Nat.le_refl _, id, id, fun _ _ => id, fun _ _ _ => rfl⟩

theorem trans (h : Extends t c c') (h' : Extends t c' c'') : Extends t c c'' where
  size := Nat.le_trans h.size h'.size
  lines := h'.lines ∘ h.lines
  pool := h'.pool ∘ h.pool
  constants i v := h'.constants i v ∘ h.constants i v
  code k hk ht := (h'.code k (Nat.lt_of_lt_of_le hk h.size) ht).trans (h.code k hk ht)

theorem mono (h : Extends t c c') (ht : ∀ k, t k → t' k) : Extends t' c c' :=
  { h with code := fun k hk hn => h.code k hk fun hk' => hn (ht k hk') }

theorem writeByte (c : Chunk) (b : UInt8) (line : Nat) : Extends t c (c.writeByte b line) where
  size := by simp
  lines h := by simpa [Chunk.writeByte, Chunk.size] using h
  pool := id
  constants _ _ := id
  code k hk _ := Array.getElem?_push_lt hk ▸ (Array.getElem?_eq_getElem hk).symm

theorem writeOp (c : Chunk) (o : Opcode) (line : Nat) : Extends t c (c.writeOp o line) :=
  writeByte c o.byte line

theorem writeWord (c : Chunk) (n line : Nat) : Extends t c (c.writeWord n line) :=
  (writeByte c _ line).trans (writeByte _ _ line)

theorem addConstant (c : Chunk) (v : Value) (line : Nat) : Extends t c (c.addConstant v line).2 := by
  unfold Chunk.addConstant
  split
  · exact refl c
  · next h =>
    refine ⟨Nat.le_refl _, id, fun _ => ?_, fun i x hx => ?_, fun _ _ _ => rfl⟩
    · rw [Array.size_push]
      omega
    · have hi := (Array.getElem?_eq_some_iff.mp hx).1
      rw [Array.getElem?_push_lt hi, ← Array.getElem?_eq_getElem hi, hx]

end Extends

/-- The bytes that an operation may change: a patch changes its operand. -/
def Edit.Touches (k : Nat) : Edit → Prop
  | patch p => k = p ∨ k = p + 1
  | _ => False

theorem extends_patchJump {c c' : Chunk} {p : Nat} (h : c.patchJump p = .ok c') :
    Extends (fun k => (Edit.patch p).Touches k) c c' ∧ c'.size = c.size := by
  simp only [patchJump] at h
  split at h
  · cases h
    have hsize (x y : UInt8) : ((c.code.setIfInBounds p x).setIfInBounds (p + 1) y).size = c.code.size := by
      rw [Array.size_setIfInBounds, Array.size_setIfInBounds]
    refine ⟨⟨Nat.le_of_eq (hsize _ _).symm, fun h => h.trans (hsize _ _).symm, id, fun _ _ => id, fun k _ ht => ?_⟩,
      hsize _ _⟩
    have hp : p ≠ k := fun e => ht (.inl e.symm)
    have hp' : p + 1 ≠ k := fun e => ht (.inr e.symm)
    rw [Array.getElem?_setIfInBounds_ne hp', Array.getElem?_setIfInBounds_ne hp]
  · cases h

theorem Edit.extends_apply (c : Chunk) (e : Edit) : Extends (fun k => e.Touches k) c (e.apply c).2 := by
  cases e with
  | byte b line => exact .writeByte c b line
  | op o line => exact .writeOp c o line
  | word n line => exact .writeWord c n.toNat line
  | constant v line => exact .addConstant c v line
  | pushed v line =>
    have hadd := Extends.addConstant (t := fun k => (Edit.pushed v line).Touches k) c v line
    simp only [apply, emitConstant]
    split
    · next heq =>
      split at heq
      · next i c₁ hc =>
        cases heq
        rw [hc] at hadd
        exact hadd.trans ((Extends.writeOp c₁ .const line).trans (Extends.writeWord _ i line))
      · cases heq
    · exact .refl c
  | jump o line => exact (Extends.writeOp c o line).trans (Extends.writeWord _ 65535 line)
  | patch p =>
    simp only [apply]
    split
    · next h => exact (extends_patchJump h).1
    · exact .refl c
  | loop start line =>
    simp only [apply, emitLoop]
    split
    · exact (Extends.writeOp c .loop line).trans (Extends.writeWord _ _ line)
    · exact Extends.writeOp c .loop line

theorem Draft.Leads.extends {d d' : Draft} {es : List Edit} (h : d.Leads es d') :
    Extends (fun k => ∃ e ∈ es, e.Touches k) d.chunk d'.chunk := by
  induction h with
  | done => exact .refl _
  | @next d e es d' _ _ ih =>
    have hstep : Extends (fun k => ∃ f ∈ e :: es, f.Touches k) d.chunk (d.after e).chunk := by
      rw [Draft.chunk_after]
      exact (Edit.extends_apply d.chunk e).mono fun k hk => ⟨e, List.mem_cons_self, hk⟩
    exact hstep.trans (ih.mono fun k ⟨f, hf, hk⟩ => ⟨f, List.mem_cons_of_mem e hf, hk⟩)

/-! ## Jumps -/

/-- What becomes of a forward jump whose operand stands at `p`: it goes to the end of the code, unless
that is too far. -/
inductive Landing (c : Chunk) (p : Nat) : Except CompileError Chunk → Prop
  | near {c' : Chunk} {n : Nat} (hd : c.size - (p + 2) ≤ 32767) (hs : c'.size = c.size)
      (hn : c'.readWord? p = some n) (hl : (p + 2 : Int) + signedWord n = c.size) : Landing c p (.ok c')
  | far {line : Nat} (hd : 32767 < c.size - (p + 2)) : Landing c p (.error ⟨.jumpTooLarge, .ofLine line⟩)

/-- What becomes of a backward jump to `start`: the instruction that is read goes there, unless that is
too far. -/
inductive Looping (c : Chunk) (start line : Nat) : Except CompileError Unit × Chunk → Prop
  | near {c' : Chunk} {i : Instruction} (hd : c.size + 3 - start ≤ 65535) (hi : c'.fetch c.size = .ok i)
      (ho : i.op = .loop) (hn : i.next = c'.size) (hl : (i.next : Int) - i.operand = start) :
      Looping c start line (.ok (), c')
  | far (hd : 65535 < c.size + 3 - start) :
      Looping c start line (.error ⟨.jumpTooLarge, .ofLine line⟩, c.writeOp .loop line)

variable {c : Chunk}

theorem readWord?_setIfInBounds {p n : Nat} (hp : p + 2 ≤ c.size) (hn : n < 65536) :
    ({ c with code := (c.code.setIfInBounds p (highByte n)).setIfInBounds (p + 1) (lowByte n) } :
      Chunk).readWord? p = some n := by
  have hp' : p + 1 < c.code.size := hp
  have hhigh : ((c.code.setIfInBounds p (highByte n)).setIfInBounds (p + 1) (lowByte n))[p]? =
      some (highByte n) := by
    rw [Array.getElem?_setIfInBounds_ne (by omega), Array.getElem?_setIfInBounds_self_of_lt (by omega)]
  have hlow : ((c.code.setIfInBounds p (highByte n)).setIfInBounds (p + 1) (lowByte n))[p + 1]? =
      some (lowByte n) :=
    Array.getElem?_setIfInBounds_self_of_lt (by rw [Array.size_setIfInBounds]; omega)
  simp only [readWord?, hhigh, hlow, wordOf, wordOf_bytes hn]

theorem patchJump_landing {p : Nat} (hp : p + 2 ≤ c.size) : Landing c p (c.patchJump p) := by
  simp only [patchJump]
  split
  · next h =>
    refine .near h.2 ?_ (readWord?_setIfInBounds hp (by omega)) ?_
    · simp only [size, Array.size_setIfInBounds]
    · rw [signedWord, if_pos (by omega)]
      omega
  · next h => exact .far (by omega)

theorem code_writeWord (c : Chunk) (o : Opcode) (n line j : Nat) :
    ((c.writeOp o line).writeWord n line).code[c.size + j]? =
      [o.byte, highByte n, lowByte n][j]? := by
  have hcode : ((c.writeOp o line).writeWord n line).code.toList =
      c.code.toList ++ [o.byte, highByte n, lowByte n] := by
    simp [writeWord, writeOp, writeByte]
  rw [← Array.getElem?_toList, hcode, size, ← Array.length_toList,
    List.getElem?_append_right (Nat.le_add_right _ _), Nat.add_sub_cancel_left]

theorem fetch_writeWord {o : Opcode} {n : Nat} (line : Nat) (ho : o.width = 2) (hn : n < 65536) :
    ((c.writeOp o line).writeWord n line).fetch c.size = .ok ⟨o, n, c.size + 3⟩ := by
  have hop := code_writeWord c o n line 0
  have hhigh := code_writeWord c o n line 1
  have hlow := code_writeWord c o n line 2
  simp only [Nat.add_zero, List.getElem?_cons_zero, List.getElem?_cons_succ] at hop hhigh hlow
  simp only [fetch, hop, Opcode.ofByte?_byte, ho, operand?, readWord?, hhigh, hlow, wordOf,
    wordOf_bytes hn]

theorem emitLoop_looping {start : Nat} (line : Nat) (h : start ≤ c.size) :
    Looping c start line (c.emitLoop start line) := by
  simp only [emitLoop, size_writeOp]
  split
  · next hd =>
    exact .near hd.2 (fetch_writeWord line rfl (by omega)) rfl (by simp) (by simp only; omega)
  · next hd => exact .far (by omega)

/-! ## Drafts -/

/-- What holds of a chunk and of the numbers that have been answered on the way to it. -/
structure Draft.Sound (d : Draft) : Prop where
  lines : d.chunk.lines.size = d.chunk.size
  pool : d.chunk.constants.size ≤ maxConstants
  constants : ∀ i v, d.Index i v → d.chunk.constants[i]? = some v
  inside : ∀ p, d.Placeholder p → p + 2 ≤ d.chunk.size
  apart : ∀ p q, d.Placeholder p → d.Placeholder q → p ≠ q → p + 2 ≤ q ∨ q + 2 ≤ p

namespace Draft

variable {d d' : Draft} {e : Edit} {es : List Edit}

theorem sound_blank : blank.Sound :=
  ⟨rfl, Nat.zero_le _, fun _ _ ⟨_, h⟩ => (List.not_mem_nil h).elim,
    fun _ ⟨_, _, h⟩ => (List.not_mem_nil h).elim, fun _ _ ⟨_, _, h⟩ => (List.not_mem_nil h).elim⟩

theorem index_after {i : Nat} {v : Value} (h : (d.after e).Index i v) :
    d.Index i v ∨ (d.after e).chunk.constants[i]? = some v := by
  obtain ⟨line, h⟩ := h
  rcases mem_after h with h | ⟨rfl, h⟩
  · exact .inl ⟨line, h⟩
  · right
    simp only [chunk_after, Edit.apply, addConstant] at h ⊢
    split at h
    · cases h
    · next hfull =>
      cases h
      rw [if_neg hfull]
      exact Array.getElem?_push_size

theorem placeholder_after {p : Nat} (h : (d.after e).Placeholder p) :
    d.Placeholder p ∨ p = d.chunk.size + 1 ∧ (d.after e).chunk.size = d.chunk.size + 3 := by
  obtain ⟨o, line, h⟩ := h
  rcases mem_after h with h | ⟨rfl, h⟩
  · exact .inl ⟨o, line, h⟩
  · right
    simp only [Edit.apply, emitJump, size_writeWord, size_writeOp] at h
    cases h
    simp only [chunk_after, Edit.apply, emitJump, size_writeWord, size_writeOp, and_true]
    omega

theorem Sound.after (h : d.Sound) (e : Edit) : (d.after e).Sound := by
  have hext := Edit.extends_apply d.chunk e
  rw [← chunk_after] at hext
  refine ⟨hext.lines h.lines, hext.pool h.pool, fun i v hi => ?_, fun p hp => ?_,
    fun p q hp hq hne => ?_⟩
  · rcases index_after hi with hi | hi
    · exact hext.constants i v (h.constants i v hi)
    · exact hi
  · rcases placeholder_after hp with hp | ⟨rfl, hsize⟩
    · exact Nat.le_trans (h.inside p hp) hext.size
    · omega
  · rcases placeholder_after hp with hp | ⟨rfl, -⟩ <;>
      rcases placeholder_after hq with hq | ⟨rfl, -⟩
    · exact h.apart p q hp hq hne
    · exact .inl (Nat.le_succ_of_le (h.inside p hp))
    · exact .inr (Nat.le_succ_of_le (h.inside q hq))
    · exact absurd rfl hne

theorem Leads.sound (h : d.Leads es d') (hd : d.Sound) : d'.Sound := by
  induction h with
  | done => exact hd
  | next _ _ ih => exact ih (hd.after _)

end Draft

/-- Whatever is written, each operation in its place: there is a line for each byte; the pool is not
overfull, and every index is that of its constant for good; placeholders do not overlap, and later
operations change no byte but the operand of a jump that they patch; a patched jump goes to the end of
the code and a loop goes back to where it should, if the distance can be written, and a refused patch
changes nothing. -/
theorem encoding {d : Draft} {es : List Edit} (h : Draft.blank.Leads es d) :
    d.chunk.lines.size = d.chunk.size ∧
    d.chunk.constants.size ≤ maxConstants ∧
    (∀ i v, d.Index i v → d.chunk.constants[i]? = some v) ∧
    (∀ p q, d.Placeholder p → d.Placeholder q → p ≠ q → p + 2 ≤ q ∨ q + 2 ≤ p) ∧
    (∀ fs d', d.Leads fs d' → ∀ k < d.chunk.size, d'.chunk.code[k]? ≠ d.chunk.code[k]? →
      ∃ p, .patch p ∈ fs ∧ (k = p ∨ k = p + 1)) ∧
    (∀ p, d.Placeholder p → p + 2 ≤ d.chunk.size ∧ Landing d.chunk p (d.chunk.patchJump p) ∧
      (((Edit.patch p).apply d.chunk).1.isOk = false → d.after (.patch p) = d)) ∧
    ∀ start line, start ≤ d.chunk.size → Looping d.chunk start line (d.chunk.emitLoop start line) := by
  have hd := h.sound Draft.sound_blank
  refine ⟨hd.lines, hd.pool, hd.constants, hd.apart, fun fs d' hfs k hk hne => ?bytes,
    fun p hp => ⟨hd.inside p hp, patchJump_landing (hd.inside p hp), fun hfail => ?refused⟩,
    fun start line hs => emitLoop_looping line hs⟩
  case bytes =>
    obtain ⟨e, he, ht⟩ := Classical.not_not.mp (mt (hfs.extends.code k hk) hne)
    cases e with
    | patch p => exact ⟨p, he, ht⟩
    | _ => cases ht
  case refused =>
    simp only [Draft.after, Edit.apply] at hfail ⊢
    cases hpatch : d.chunk.patchJump p with
    | ok c' => simp [hpatch, Except.isOk, Except.toBool] at hfail
    | error e => rfl

/-- A branch that is filled in, in front of a jump back to the beginning. -/
theorem encoding_of_branch :
    ∃ d, Draft.blank.Leads [.jump .jumpIfFalse 1, .op .nil 1, .patch 1, .loop 0 2] d ∧
      (d.chunk.lines.size = d.chunk.size ∧ d.chunk.constants.size ≤ maxConstants) ∧
      Landing d.chunk 1 (d.chunk.patchJump 1) ∧ Looping d.chunk 0 3 (d.chunk.emitLoop 0 3) := by
  have h : Draft.blank.Leads [.jump .jumpIfFalse 1, .op .nil 1, .patch 1, .loop 0 2] _ :=
    .next trivial (.next trivial (.next ⟨.jumpIfFalse, 1, .tail _ (.head _)⟩ (.next (Nat.zero_le _) .done)))
  obtain ⟨hlines, hpool, -, -, -, hpatch, hloop⟩ := encoding h
  exact ⟨_, h, ⟨hlines, hpool⟩, (hpatch 1 ⟨.jumpIfFalse, 1, .tail _ (.head _)⟩).2.1, hloop 0 3 (Nat.zero_le _)⟩

end TwinLisp.Chunk
