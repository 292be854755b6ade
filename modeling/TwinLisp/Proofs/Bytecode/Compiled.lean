import TwinLisp.Proofs.Bytecode.Scopes
import TwinLisp.Proofs.Expr.Parsed

/-! The code that the compiler writes lies in the finished function as the layout says.

* `Expr.compile_lays` and its companions: from any valid state of a compilation.
* `Proto.ofExpr_lays`, `Proto.ofFn_lays`: whole forms and function literals. -/

namespace TwinLisp

open Builder

namespace Build

variable {b b' : Builder} {span : Span} {o : Opcode}
variable {Q : Proto → List Scene → Option Target → Shape → Nat → Nat → Prop}

theorem leavingOne_emits {step : Build Unit} (hb : b.Valid)
    (h : leavingOne step b = .ok ((), b')) (hs : ∀ b1, step b = .ok ((), b1) → b.Emits b1 Q) :
    b.Emits b' Q ∧ b'.height = b.height + 1 := by
  obtain ⟨base, b1, h1, hr⟩ := bind_eq_ok h
  obtain ⟨rfl, rfl⟩ := ask_eq_ok h1
  obtain ⟨_, b2, h2, h3⟩ := bind_eq_ok hr
  cases h3
  exact ⟨(hs b2 h2).withHeight hb (Nat.le_succ _), rfl⟩

theorem op_emits (hb : b.Valid) (hw : o.width = 0) (h : op o span b = .ok ((), b')) :
    b.Emits b' fun p _ _ _ k m => p.Has k o 0 ∧ p.Placed k span ∧ m = k + 1 :=
  (op_writes h).emits hb fun _ hx hl =>
    ⟨Proto.has_bare (hx 0 _ rfl) hw, hl (List.cons_ne_nil _ _), rfl⟩

theorem opByte_emits {x : UInt8} (hb : b.Valid) (hw : o.width = 1)
    (h : opByte o x span b = .ok ((), b')) :
    b.Emits b' fun p _ _ _ k m => p.Has k o x.toNat ∧ p.Placed k span ∧ m = k + 2 :=
  (opByte_writes h).emits hb fun _ hx hl =>
    ⟨Proto.has_byte (hx 0 _ rfl) hw (hx 1 _ rfl), hl (List.cons_ne_nil _ _), rfl⟩

theorem opWord_emits {n : Nat} (hb : b.Valid) (hw : o.width = 2) (hn : n < 65536)
    (h : opWord o n span b = .ok ((), b')) :
    b.Emits b' fun p _ _ _ k m => p.Has k o n ∧ p.Placed k span ∧ m = k + 3 :=
  (opWord_writes h).emits hb fun _ hx hl =>
    ⟨Chunk.wordOf_bytes hn ▸ Proto.has_word (hx 0 _ rfl) hw (hx 1 _ rfl) (hx 2 _ rfl),
      hl (List.cons_ne_nil _ _), rfl⟩

theorem opConstant_emits {v : Value} (hb : b.Valid) (hw : o.width = 2)
    (h : opConstant o v span b = .ok ((), b')) :
    b.Emits b' fun p _ _ _ k m => ∃ n : Nat, p.chunk.constants[n]? = some v ∧ p.Has k o n ∧
      p.Placed k span ∧ m = k + 3 := by
  obtain ⟨n, hn, hc, hws⟩ := opConstant_writes h
  exact hws.emits hb fun hf hx hl => ⟨n, hf.constants n v hc,
    Chunk.wordOf_bytes hn ▸ Proto.has_word (hx 0 _ rfl) hw (hx 1 _ rfl) (hx 2 _ rfl),
    hl (List.cons_ne_nil _ _), rfl⟩

theorem literal_emits {v : Value} (hb : b.Valid) (h : literal v span b = .ok ((), b')) :
    b.Emits b' fun p _ _ _ k m => Loads p k v m := by
  unfold literal at h
  split at h
  · exact (op_emits hb rfl h).imp fun p _ _ _ k m ⟨ho, _, hm⟩ => hm ▸ .nil ho
  · exact (op_emits hb rfl h).imp fun p _ _ _ k m ⟨ho, _, hm⟩ => hm ▸ .true ho
  · exact (op_emits hb rfl h).imp fun p _ _ _ k m ⟨ho, _, hm⟩ => hm ▸ .false ho
  · exact (opConstant_emits hb rfl h).imp fun p _ _ _ k m ⟨n, hn, ho, _, hm⟩ => hm ▸ .const hn ho

theorem collect_emits {n : Nat} (hb : b.Valid) (hw : o.width = 2)
    (h : collect o n span b = .ok ((), b')) :
    b.Emits b' fun p _ _ _ k m => p.Has k o n ∧ p.Placed k span ∧ m = k + 3 := by
  rw [collect] at h
  split at h
  · cases h
  · exact opWord_emits hb hw (by omega) h

theorem call_emits {n : Nat} (hb : b.Valid) (h : call n span b = .ok ((), b')) :
    b.Emits b' fun p _ _ _ k m => p.Has k .call n ∧ p.Placed k span ∧ m = k + 2 := by
  rw [call] at h
  split at h
  · cases h
  · have := opByte_emits hb rfl h
    rwa [UInt8.toNat_ofNat_of_lt' (show n < 256 by omega)] at this

theorem access_emits {name : String} {near far : Opcode} (hb : b.Valid) (hn : near.width = 1)
    (hf : far.width = 1)
    (h : (access name span >>= fun a => match a with
      | .slot i => opByte near i span
      | .capture i => opByte far i span) b = .ok ((), b')) :
    b.Emits b' fun p outer _ σ k m => Accesses p outer σ.locals name near far k ∧ m = k + 2 := by
  obtain ⟨a, b1, h1, h2⟩ := bind_eq_ok h
  obtain ⟨he, hv, hh, hs, ha⟩ := access_finds hb h1
  cases a with
  | slot i =>
    have h2 := opByte_emits hv hn h2
    refine ⟨he.trans h2.exts, h2.valid, by rw [← hh]; exact h2.height, fun ht hfin => ?_⟩
    have hfin1 := hfin.earlier h2.exts
    obtain ⟨hop, -, hm⟩ := h2.lays (T := _) (he.target.trans ht) (hfin.from (Nat.le_of_eq hs.symm))
    obtain ⟨v, hl, hi⟩ := ha hfin1
    rw [hs, hi] at hop
    exact ⟨.slot hl hop, hs ▸ hm⟩
  | capture i =>
    have h2 := opByte_emits hv hf h2
    refine ⟨he.trans h2.exts, h2.valid, by rw [← hh]; exact h2.height, fun ht hfin => ?_⟩
    have hfin1 := hfin.earlier h2.exts
    obtain ⟨hop, -, hm⟩ := h2.lays (T := _) (he.target.trans ht) (hfin.from (Nat.le_of_eq hs.symm))
    obtain ⟨hl, c, hc, hn⟩ := ha hfin1
    rw [hs] at hop
    exact ⟨.capture hl hc hn hop, hs ▸ hm⟩

theorem recurTarget_eq_ok {n : Nat} {t : RecurTarget} (h : recurTarget n span b = .ok (t, b')) :
    b' = b ∧ b.level.target = some t ∧ n = t.arity ∧ n < 256 ∧ t.firstSlot < 256 := by
  obtain ⟨_, b1, h1, hr⟩ := bind_eq_ok h
  obtain ⟨rfl, rfl⟩ := ask_eq_ok h1
  cases ht : b1.level.target with
  | none =>
    rw [ht] at hr
    cases hr
  | some u =>
    rw [ht] at hr
    simp only at hr
    split at hr
    · cases hr
    · split at hr
      · cases hr
      · obtain ⟨rfl, rfl⟩ := pure_eq_ok hr
        exact ⟨rfl, rfl, by omega, by omega, by omega⟩

theorem recurTo_emits {t : RecurTarget} {n : Nat} (hb : b.Valid) (hn : n < 256)
    (hs : t.firstSlot < 256) (h : recurTo t n span b = .ok ((), b')) :
    b.Emits b' fun p _ _ _ k m => p.Has k .recur (n * 256 + t.firstSlot) ∧
      ∃ d, p.Has (k + 3) .loop d ∧ t.start + d = k + 6 ∧ m = k + 6 := by
  obtain ⟨_, b1, h1, hr⟩ := bind_eq_ok h
  obtain ⟨_, b2, h2, h3⟩ := bind_eq_ok hr
  obtain ⟨d, hd, hsum, h3⟩ := loopTo_writes h3
  have h12 := (opByte_writes h1).trans (byte_writes h2)
  have hsz : b2.size = b.size + 3 := h12.size_eq
  refine (h12.trans h3).emits hb fun _ hx _ => ⟨?_, d, ?_, by omega, rfl⟩
  · have := Proto.has_word (hx 0 _ rfl) rfl (hx 1 _ rfl) (hx 2 _ rfl)
    rwa [UInt8.toNat_ofNat_of_lt' (show n < 256 from hn),
      UInt8.toNat_ofNat_of_lt' (show t.firstSlot < 256 from hs)] at this
  · exact Chunk.wordOf_bytes hd ▸ Proto.has_word (hx 3 _ rfl) rfl (hx 4 _ rfl) (hx 5 _ rfl)

theorem scope_emits {n : Nat} {b2 b3 : Builder} (hb : b.Valid)
    (hbind : (b.atDepth (b.level.depth + 1)).Binds n b2) (hbody : b2.Extends b3) (hv : b3.Valid)
    (hh : b2.height ≤ b3.height) (h : closeScope span b3 = .ok ((), b')) :
    b.Extends b' ∧ b'.Valid ∧ b.height ≤ b'.height ∧ b3.size ≤ b'.size ∧
      ∃ vs : List LocalVar, vs.length = n ∧ ∀ {i p locals outer}, i ≤ b3.size →
        b'.Finished i p locals outer →
          b3.Finished i p (vs ++ locals) outer ∧ Leaves p b3.size vs b'.size := by
  have hdepth : b3.level.depth = b.level.depth + 1 :=
    hbody.depth.trans hbind.exts.depth
  have hlen : b3.level.locals.length = b2.level.locals.length :=
    hbody.scene.locals.length_eq.symm
  have hn : n ≤ b3.level.locals.length := hlen ▸ hbind.length
  have hinner : ∀ v ∈ b3.level.locals.take n, b3.level.depth - 1 < v.depth := by
    intro v hm
    have hmk : Marked (b2.level.locals.take n) (b3.level.locals.take n) :=
      List.forall₂_take n hbody.scene.locals
    obtain ⟨u, hu, huv⟩ := hmk.mem hm
    have hd : u.depth = b.level.depth + 1 := hbind.depth u hu
    rw [huv.depth, hd, hdepth]
    omega
  have hext : (b.atDepth (b.level.depth + 1)).Extends (b3.forget n) :=
    hbind.exts.trans (hbody.forget n)
  have houter : ∀ v ∈ b3.level.locals.drop n, v.depth ≤ b3.level.depth - 1 := by
    intro v hm
    obtain ⟨u, hu, huv⟩ := Marked.mem hext.scene.locals hm
    have hd : u.depth ≤ b.level.depth := hb.1.depth u hu
    rw [huv.depth, hdepth]
    omega
  obtain ⟨h256, hw⟩ := closeScope_leaves h hn hinner houter
  have hheight : b.height + n ≤ b3.height := by
    have : b2.height = b.height + n := hbind.height
    omega
  have hout : b.Extends ((b3.forget n).atDepth (b3.level.depth - 1)) := by
    have := hext.atDepth (b3.level.depth - 1)
    rw [hdepth] at this ⊢
    exact this
  have hvout : (((b3.forget n).atDepth (b3.level.depth - 1)).withHeight (b3.height - n)).Valid := by
    refine ⟨⟨fun v hm => ?_, fun v hm => ?_, houter, hv.1.captures, hv.1.named, hv.1.subs,
      hv.1.lined⟩, hv.2⟩
    · obtain ⟨u, hu, huv⟩ := Marked.mem hext.scene.locals hm
      have hd : u.slot < b.height := hb.1.below u hu
      rw [huv.slot]
      exact Nat.lt_of_lt_of_le hd (Nat.le_sub_of_add_le hheight)
    · exact hv.1.byte v (List.mem_of_mem_drop hm)
  refine ⟨(hout.withHeight _).trans hw.exts, hw.valid hvout, ?_, ?_,
    b3.level.locals.take n, by rw [List.length_take, Nat.min_eq_left hn], fun hi hf => ⟨?_, ?_⟩⟩
  · rw [hw.height_eq]
    exact Nat.le_sub_of_add_le hheight
  · rw [hw.size_eq]
    exact Nat.le_add_right _ _
  · have hf3 := hf.earlier hw.exts
    refine ⟨hf3.code, hf3.constants, hf3.lines, hf3.subs, ⟨?_, hf3.scene.captures⟩, hf3.outer⟩
    have hm : Marked (b3.level.locals.take n ++ b3.level.locals.drop n) _ :=
      List.rel_append (Marked.refl _) hf3.scene.locals
    rwa [List.take_append_drop] at hm
  · rw [hw.size_eq]
    refine leaves_of_bytes (by rw [List.length_take, Nat.min_eq_left hn]; exact h256)
      (fun v hm => hv.1.byte v (List.mem_of_mem_take hm)) fun j x hx => hw.finished hf hi hx

end Build

open Build

/-! ## Expressions -/

theorem intrinsic?_width {callee : Expr} {n : Nat} {o : Opcode}
    (h : intrinsic? callee n = some o) : o.width = 0 := by
  unfold intrinsic? at h
  split at h
  · split at h
    · cases h
    · split at h <;> cases h <;> rfl
  · cases h

section Cond

variable {b b1 b2 b3 b4 b5 b6 b' : Builder} {d e : Nat}

theorem Build.cond_emits {test yes : Expr} {no : Option Expr} {span : Span}
    (ht : b.Emits b1 fun p outer T σ k m => Lays p outer T σ test k m)
    (h2 : b1.Writes [Opcode.jumpIfFalse.byte, Chunk.highByte 65535, Chunk.lowByte 65535] span.line b2)
    (hy : (b2.withHeight b.height).Emits b3 fun p outer T σ k m => Lays p outer T σ yes k m)
    (h4 : b3.Writes [Opcode.jump.byte, Chunk.highByte 65535, Chunk.lowByte 65535] span.line b4)
    (h5 : b4.Patches (b1.size + 1) d b5) (hd : b1.size + 1 + 2 + d = b4.size) (hd' : d < 32768)
    (hn : (b5.withHeight b.height).Emits b6 fun p outer T σ k m => LaysElse p outer T σ no k m)
    (h7 : b6.Patches (b3.size + 1) e b') (he : b3.size + 1 + 2 + e = b6.size) (he' : e < 32768) :
    b.Emits b' fun p outer T σ k m => Lays p outer T σ (.cond test yes no span) k m := by
  have hs2 : b2.size = b1.size + 3 := h2.size_eq
  have hs4 : b4.size = b3.size + 3 := h4.size_eq
  have hs5 : b5.size = b4.size := h5.size
  have hs7 : b'.size = b6.size := h7.size
  have hs3 : b2.size ≤ b3.size := hy.exts.size
  have hs6 : b5.size ≤ b6.size := hn.exts.size
  have hsb : b.size ≤ b1.size := ht.exts.size
  have he23 : b2.Extends b3 := hy.exts.of_withHeight
  have he56 : b5.Extends b6 := hn.exts.of_withHeight
  -- the code at an offset after both jumps have been filled in
  have hc57 : ∀ k, k < b5.size → k ≠ b3.size + 1 → k ≠ b3.size + 2 →
      b'.level.chunk.code[k]? = b5.level.chunk.code[k]? := fun k hk h1 h2 =>
    (h7.code k h1 h2).trans (he56.code k hk)
  have hc47 : ∀ k, k < b4.size → k ≠ b3.size + 1 → k ≠ b3.size + 2 → k ≠ b1.size + 1 →
      k ≠ b1.size + 2 → b'.level.chunk.code[k]? = b4.level.chunk.code[k]? :=
    fun k hk h1 h2 h3 h4 => (hc57 k (by omega) h1 h2).trans (h5.code k h3 h4)
  have hc37 : ∀ k, k < b3.size → k ≠ b1.size + 1 → k ≠ b1.size + 2 →
      b'.level.chunk.code[k]? = b3.level.chunk.code[k]? := fun k hk h1 h2 =>
    (hc47 k (by omega) (by omega) (by omega) h1 h2).trans (h4.code_lt hk)
  have hc17 : ∀ k, k < b1.size → b'.level.chunk.code[k]? = b1.level.chunk.code[k]? := fun k hk =>
    (hc37 k (by omega) (by omega) (by omega)).trans
      ((he23.code k (by omega)).trans (h2.code_lt hk))
  have hl57 : b5.Later b' := he56.toLater.trans h7.later
  have hl37 : b3.Later b' := (h4.exts.toLater.trans h5.later).trans hl57
  have hl17 : b1.Later b' := (h2.exts.toLater.trans he23.toLater).trans hl37
  refine ⟨⟨ht.exts.toLater.trans hl17, fun k hk => ?_⟩, h7.valid hn.valid, ?_, fun {p outer T locals} hT hf => ?_⟩
  · exact (hc17 k (by omega)).trans (ht.exts.code k hk)
  · rw [h7.height_eq]
    exact hn.height
  · have hcode : ∀ k, b.size ≤ k → k < b'.size → _ := hf.code
    have hT2 := (h2.exts.target.trans (ht.exts.target.trans hT))
    have hT5 := (h5.later.target.trans (h4.exts.target.trans (hy.exts.target.trans hT2)))
    have hf1 := hf.before hl17 (Nat.le_refl _) fun k _ hk => hc17 k hk
    have hf3 := hf.before hl37 (show b.size ≤ b2.size by omega) fun k hk hlt =>
      hc37 k hlt (by omega) (by omega)
    have hf6 := hf.before h7.later (show b.size ≤ b5.size by omega) fun k hk hlt =>
      h7.code k (by omega) (by omega)
    have hbyte : ∀ k, b.size ≤ k → k < b5.size → k ≠ b3.size + 1 → k ≠ b3.size + 2 →
        ∀ x, b5.level.chunk.code[k]? = some x → _ := fun k h1 h2 h3 h4 x hx =>
      (hcode k h1 (by omega)).trans ((hc57 k h2 h3 h4).trans hx)
    have hjif : p.Has b1.size .jumpIfFalse d := by
      rw [← Chunk.wordOf_bytes (show d < 65536 by omega)]
      refine Proto.has_word (hbyte _ (by omega) (by omega) (by omega) (by omega) _ ?_) rfl
        (hbyte _ (by omega) (by omega) (by omega) (by omega) _ h5.high)
        (hbyte _ (by omega) (by omega) (by omega) (by omega) _ h5.low)
      rw [h5.code _ (by omega) (by omega), h4.code_lt (by omega), he23.code _ (by omega)]
      exact h2.code_at 0
    have hjmp : p.Has b3.size .jump e := by
      rw [← Chunk.wordOf_bytes (show e < 65536 by omega)]
      refine Proto.has_word (hbyte _ (by omega) (by omega) (by omega) (by omega) _ ?_) rfl
        ((hcode _ (by omega) (by omega)).trans h7.high)
        ((hcode _ (by omega) (by omega)).trans h7.low)
      rw [h5.code _ (by omega) (by omega)]
      exact h4.code_at 0
    have hyes := hy.lays hT2 hf3
    have helse := hn.lays hT5 hf6
    change Lays _ _ _ _ _ b2.size b3.size at hyes
    change LaysElse _ _ _ _ _ b5.size b6.size at helse
    rw [hs2] at hyes
    rw [hs5, hs4, ← hs7] at helse
    exact .cond (ht.lays hT hf1) hjif (by omega) hd' hyes hjmp (by omega) he' helse

end Cond

theorem Builder.valid_start (name self : String) (arity : Nat) {enclosing : List Level}
    (h : Level.AllValid enclosing) :
    Builder.Valid ⟨{ Level.start name self with arity := arity }, enclosing⟩ := by
  refine ⟨⟨fun v hv => ?_, fun v hv => ?_, fun v hv => ?_, Nat.zero_le _, fun c hc => ?_,
    fun q hq => ?_, rfl⟩, h⟩
  · rw [List.mem_singleton.mp hv]
    exact Nat.zero_lt_one
  · rw [List.mem_singleton.mp hv]
    exact Nat.zero_lt_succ _
  · rw [List.mem_singleton.mp hv]
    exact Nat.le_refl _
  · exact absurd hc (Array.not_mem_empty c)
  · exact absurd hq (Array.not_mem_empty q)

theorem Marked.singleton {v : LocalVar} {vs : List LocalVar} (h : Marked [v] vs) :
    ∃ w, v.Marks w ∧ vs = [w] := by
  cases h with
  | cons hw hn =>
    cases hn
    exact ⟨_, hw, rfl⟩

variable {R : Expr.Rules}

mutual

theorem Expr.compile_lays (e : Expr) {sc : Scopes} {pos : Position} {b b' : Builder}
    (hp : e.Parsed R sc pos) (hb : b.Valid) (h : e.compile byName b = .ok ((), b')) :
    b.Emits b' (fun p outer T σ k m => Lays p outer T σ e k m) ∧ b'.height = b.height + 1 := by
  cases e with
  | literal v span =>
    refine leavingOne_emits hb h fun b1 h1 => ?_
    exact (literal_emits hb h1).imp fun p outer T locals k m hl => .literal hl
  | quote v span =>
    refine leavingOne_emits hb h fun b1 h1 => ?_
    exact (literal_emits hb h1).imp fun p outer T locals k m hl => .quote hl
  | vector items span =>
    cases hp with
    | vector hp =>
      refine leavingOne_emits hb h fun b2 h1 => ?_
      obtain ⟨_, b1, h1, h2⟩ := bind_eq_ok h1
      have ha := (compileAll_lays items hp hb h1).1
      refine (ha.seq (collect_emits ha.valid rfl h2)).imp fun p outer T locals k m hl => ?_
      obtain ⟨a, hl, ho, -, rfl⟩ := hl
      exact .vector hl ho
  | set items span =>
    cases hp with
    | set hp =>
      refine leavingOne_emits hb h fun b2 h1 => ?_
      obtain ⟨_, b1, h1, h2⟩ := bind_eq_ok h1
      have ha := (compileAll_lays items hp hb h1).1
      refine (ha.seq (collect_emits ha.valid rfl h2)).imp fun p outer T locals k m hl => ?_
      obtain ⟨a, hl, ho, hs, rfl⟩ := hl
      exact .set hl ho hs
  | map items span =>
    cases hp with
    | map he hp =>
      refine leavingOne_emits hb h fun b2 h1 => ?_
      obtain ⟨_, b1, h1, h2⟩ := bind_eq_ok h1
      have ha := (compileAll_lays items hp hb h1).1
      refine (ha.seq (collect_emits ha.valid rfl h2)).imp fun p outer T locals k m hl => ?_
      obtain ⟨a, hl, ho, hs, rfl⟩ := hl
      exact .map he hl ho hs
  | localRef x span =>
    refine leavingOne_emits hb h fun b1 h1 => ?_
    refine (access_emits hb rfl rfl h1).imp fun p outer T locals k m hl => ?_
    exact hl.2 ▸ .localRef hl.1
  | varRef v span =>
    refine leavingOne_emits hb h fun b1 h1 => ?_
    refine (opConstant_emits hb rfl h1).imp fun p outer T locals k m ⟨n, hn, ho, hs, hm⟩ => ?_
    exact hm ▸ .varRef hn ho hs
  | theVar v span =>
    refine leavingOne_emits hb h fun b1 h1 => ?_
    refine (opConstant_emits hb rfl h1).imp fun p outer T locals k m ⟨n, hn, ho, _, hm⟩ => ?_
    exact hm ▸ .theVar hn ho
  | cond test yes no span =>
    cases hp with
    | cond hpt hpy hpn =>
      refine leavingOne_emits hb h fun b7 h1 => ?_
      obtain ⟨_, b1, h1, hr⟩ := bind_eq_ok h1
      obtain ⟨i, b2, h2, hr⟩ := bind_eq_ok hr
      obtain ⟨_, b2', h2', hr⟩ := bind_eq_ok hr
      obtain ⟨_, b3, h3, hr⟩ := bind_eq_ok hr
      obtain ⟨j, b4, h4, hr⟩ := bind_eq_ok hr
      obtain ⟨_, b5, h5, hr⟩ := bind_eq_ok hr
      obtain ⟨_, b5', h5', hr⟩ := bind_eq_ok hr
      obtain ⟨_, b6, h6, h7⟩ := bind_eq_ok hr
      obtain ⟨ht, hh1⟩ := test.compile_lays hpt hb h1
      obtain ⟨rfl, hw2⟩ := jump_writes h2
      have hh2 : b2' = b2.withHeight b.height := by
        have : b2.height - 1 = b.height := by rw [hw2.height_eq, hh1]; rfl
        rw [← this]
        cases h2'
        rfl
      subst hh2
      have hv2 : (b2.withHeight b.height).Valid :=
        hb.withHeight (ht.exts.trans hw2.exts).toLater (hw2.valid ht.valid) (Nat.le_refl _)
      obtain ⟨hy, hh3⟩ := yes.compile_lays hpy hv2 h3
      obtain ⟨rfl, hw4⟩ := jump_writes h4
      obtain ⟨d, hd, hd', hp5⟩ := land_patches h5
      have hh5 : b5' = b5.withHeight b.height := by
        have : b5.height - 1 = b.height := by rw [hp5.height_eq, hw4.height_eq, hh3]; rfl
        rw [← this]
        cases h5'
        rfl
      subst hh5
      have hl4 : b.Later b4 :=
        (((ht.exts.trans hw2.exts).trans hy.exts.of_withHeight).trans hw4.exts).toLater
      have hv5 : (b5.withHeight b.height).Valid :=
        hb.withHeight (hl4.trans hp5.later) (hp5.valid (hw4.valid hy.valid)) (Nat.le_refl _)
      have hn := compileElse_lays no hpn hv5 h6
      obtain ⟨e, he, he', hp7⟩ := land_patches h7
      exact cond_emits ht hw2 hy hw4 hp5 hd hd' hn hp7 he he'
  | block body span =>
    cases hp with
    | block hp =>
      refine leavingOne_emits hb h fun b1 h1 => ?_
      exact (compileBody_lays body hp hb h1).imp fun p outer T locals k m hl => .block hl
  | letIn bindings body span =>
    cases hp with
    | letIn hpb hp =>
      refine leavingOne_emits hb h fun b4 h1 => ?_
      obtain ⟨_, b1, h1, hr⟩ := bind_eq_ok h1
      obtain ⟨_, b2, h2, hr⟩ := bind_eq_ok hr
      obtain ⟨_, b3, h3, h4⟩ := bind_eq_ok hr
      have h1 : b1 = b.atDepth (b.level.depth + 1) := by cases h1; rfl
      subst h1
      obtain ⟨hbind, hlb⟩ := compileBindings_lays bindings hpb hb.deeper h2
      have hbody := compileBody_lays body hp hbind.valid h3
      obtain ⟨hext, hv, hh, hs, vs, hvs, hfin⟩ :=
        scope_emits hb hbind hbody.exts hbody.valid hbody.height h4
      refine ⟨hext, hv, hh, fun hT hf => ?_⟩
      have hs12 : b.size ≤ b2.size := hbind.exts.size
      have hs23 : b2.size ≤ b3.size := hbody.exts.size
      obtain ⟨hf3, hleave⟩ := hfin (show b.size ≤ b3.size by omega) hf
      have hT2 := hbind.exts.target.trans hT
      have hlb := hlb hT (hf3.earlier hbody.exts)
      rw [← hvs, List.drop_left] at hlb
      exact .letIn hlb rfl hvs (hbody.lays hT2 (hf3.from hs12)) hleave
  | loop bindings body span =>
    cases hp with
    | loop hpb hp =>
      refine leavingOne_emits hb h fun b4 h1 => ?_
      obtain ⟨_, b1, h1, hr⟩ := bind_eq_ok h1
      obtain ⟨first, b1', hfirst, hr⟩ := bind_eq_ok hr
      obtain ⟨rfl, rfl⟩ := ask_eq_ok hfirst
      obtain ⟨_, b2, h2, hr⟩ := bind_eq_ok hr
      obtain ⟨start, b2', hstart, hr⟩ := bind_eq_ok hr
      obtain ⟨rfl, rfl⟩ := ask_eq_ok hstart
      obtain ⟨target, b2'', htarget, hr⟩ := bind_eq_ok hr
      obtain ⟨rfl, rfl⟩ := ask_eq_ok htarget
      obtain ⟨_, b2', haim, hr⟩ := bind_eq_ok hr
      obtain ⟨_, b3, h3, hr⟩ := bind_eq_ok hr
      obtain ⟨_, b3', haim', h4⟩ := bind_eq_ok hr
      have h1 : b1' = b.atDepth (b.level.depth + 1) := by cases h1; rfl
      subst h1
      obtain ⟨hbind, hlb⟩ := compileBindings_lays bindings hpb hb.deeper h2
      have haim : b2' = b2''.aimed (some ⟨b2''.size, b.height, bindings.length⟩) := by
        cases haim
        rfl
      subst haim
      have hbody := compileBody_lays body hp (hbind.valid.aimed _) h3
      have haim' : b3' = b3.aimed b2''.level.target := by
        cases haim'
        rfl
      subst haim'
      have hext23 : b2''.Extends (b3.aimed b2''.level.target) := hbody.exts.aimed b2''.level.target
      obtain ⟨hext, hv, hh, hs, vs, hvs, hfin⟩ :=
        scope_emits hb hbind hext23 (hbody.valid.aimed _) hbody.height h4
      refine ⟨hext, hv, hh, fun hT hf => ?_⟩
      have hs12 : b.size ≤ b2''.size := hbind.exts.size
      have hs23 : b2''.size ≤ b3.size := hbody.exts.size
      obtain ⟨hf3, hleave⟩ := hfin (show b.size ≤ b3.size by omega) hf
      have hlb := hlb hT (hf3.earlier hext23)
      rw [← hvs, List.drop_left] at hlb
      exact .loop hlb rfl hvs
        (hbody.lays (T := some ⟨⟨b2''.size, b.height, bindings.length⟩, _⟩) rfl
          (hf3.of_aimed.from hs12)) hleave
  | recur args span =>
    cases hp with
    | recur _ _ hp =>
      refine leavingOne_emits hb h fun b2 h1 => ?_
      obtain ⟨t, b0, h0, hr⟩ := bind_eq_ok h1
      obtain ⟨rfl, ht, hn, hlt, hs⟩ := recurTarget_eq_ok h0
      obtain ⟨_, b1, h1, h2⟩ := bind_eq_ok hr
      have ha := (compileAll_lays args hp hb h1).1
      have hall := ha.seq (recurTo_emits ha.valid hlt hs h2)
      refine ⟨hall.exts, hall.valid, hall.height, fun {p outer T locals} hT hf => ?_⟩
      obtain ⟨a, hl, ho, d, hloop, hd, hm⟩ := hall.lays hT hf
      cases T with
      | none =>
        rw [ht] at hT
        cases hT
      | some u =>
        rw [ht] at hT
        cases hT
        exact hm ▸ .recur hn hl ho hs hloop hd
  | fn f span =>
    obtain ⟨name, arities, fspan, compiled⟩ := f
    cases hp with
    | fn _ hp =>
      refine leavingOne_emits hb h fun b4 h1 => ?_
      obtain ⟨_, b1, h1, hr⟩ := bind_eq_ok h1
      obtain ⟨_, b2, h2, hr⟩ := bind_eq_ok hr
      obtain ⟨q, b3, h3, h4⟩ := bind_eq_ok hr
      have h1 : b1 = ⟨Level.start (name.getD "fn") (name.getD ""), b.level :: b.enclosing⟩ := by
        cases h1
        rfl
      subst h1
      obtain ⟨hv2, hn2, hname, hfn⟩ := compileArities_lays arities
        (fun params variadic body hm => ⟨_, hp params variadic body hm⟩) hb h2
      obtain ⟨inner, enclosing⟩ := b2
      cases hn2 with
      | @cons _ l _ ls hl hls =>
        cases h3
        obtain ⟨n, hn, hq, hw⟩ := closure_writes (.mk (hfn _ (Scene.AllLe.refl _)) hv2.1.subs) h4
        have he : b.Extends ⟨l, ls⟩ := .of_noted hl hls
        have hh : Builder.height ⟨l, ls⟩ = b.height := by
          change l.height = _
          rw [hl.eq]
          rfl
        have hs : Builder.size ⟨l, ls⟩ = b.size := by
          change l.chunk.size = _
          rw [hl.eq]
          rfl
        refine ⟨he.trans hw.exts, hw.valid hv2.2, Nat.le_of_eq (hw.height_eq.trans hh).symm,
          fun {p outer T locals} hT hf => ?_⟩
        have hf3 := hf.earlier hw.exts
        have hle : Scene.AllLe (Level.scenes (l :: ls)) (⟨p.captures, locals⟩ :: outer) :=
          .cons hf3.scene hf3.outer
        have hbytes := fun (j : Nat) x (hx : _ = some x) =>
          hw.finished hf (Nat.le_of_eq hs.symm) (j := j) hx
        rw [hs] at hbytes
        have hop : p.Has b.size .closure n := Chunk.wordOf_bytes hn ▸
          Proto.has_word (hbytes 0 _ rfl) rfl (hbytes 1 _ rfl) (hbytes 2 _ rfl)
        have hpairs : p.HasPairs (b.size + 3) inner.finish.captures := by
          intro i c hc
          rw [← Array.getElem?_toList] at hc
          obtain ⟨h0, h1⟩ := getElem?_pairs inner.finish.captures.toList i
          rw [hc] at h0 h1
          have hx := hbytes (3 + 2 * i) _ (by
            rw [List.getElem?_append_right (by simp)]
            simpa using h0)
          have hy := hbytes (3 + 2 * i + 1) _ (by
            rw [List.getElem?_append_right (by simp; omega)]
            have : 3 + 2 * i + 1 - 3 = 2 * i + 1 := by omega
            simpa [this] using h1)
          rw [Nat.add_assoc]
          exact ⟨hx, hy⟩
        have hsize : b4.size = b.size + 3 + 2 * inner.finish.captures.size := by
          rw [hw.size_eq, hs, List.length_append, length_pairs]
          simp
          omega
        rw [hsize]
        refine .fn (hf.subs _ _ hq) hname (hfn _ hle) (fun c hc => ?_) hop hpairs
        obtain ⟨x, hx⟩ := hv2.1.named c hc
        exact ⟨x, hx.mono hle⟩
  | define v value span =>
    cases hp with
    | define hp =>
      cases value with
      | none =>
        refine leavingOne_emits hb h fun b1 h1 => ?_
        refine (opConstant_emits hb rfl h1).imp fun p outer T locals k m ⟨n, hn, ho, _, hm⟩ => ?_
        exact hm ▸ .declared hn ho
      | some e =>
        refine leavingOne_emits hb h fun b5 h1 => ?_
        obtain ⟨_, b1, h1, hr⟩ := bind_eq_ok h1
        obtain ⟨_, b2, h2, hr⟩ := bind_eq_ok hr
        obtain ⟨_, b3, h3, hr⟩ := bind_eq_ok hr
        obtain ⟨_, b4, h4, h5⟩ := bind_eq_ok hr
        obtain ⟨he, hh⟩ := e.compile_lays (hp e rfl) hb h1
        have h2 := opConstant_emits he.valid rfl h2
        have h3 := op_emits h2.valid rfl h3
        have h123 := (he.seq h2).seq h3
        have h4 : b4 = b3.withHeight (b3.height - 1) := by cases h4; rfl
        subst h4
        have hh3 : b.height ≤ b3.height - 1 := by
          have := h2.height
          have := h3.height
          omega
        have h1234 := h123.withHeight hb hh3
        refine (h1234.seq (opConstant_emits h1234.valid rfl h5)).imp
          fun p outer T locals k m hl => ?_
        obtain ⟨_, ⟨_, ⟨_, hl, n, hn, hs, -, rfl⟩, hpop, -, rfl⟩, n', hn', hc, -, rfl⟩ := hl
        exact .define hl hn hs hpop hn' hc
  | setLocal x value span =>
    cases hp with
    | setLocal _ hp =>
      refine leavingOne_emits hb h fun b2 h1 => ?_
      obtain ⟨_, b1, h1, h2⟩ := bind_eq_ok h1
      have he := (value.compile_lays hp hb h1).1
      refine (he.seq (access_emits he.valid rfl rfl h2)).imp fun p outer T locals k m hl => ?_
      obtain ⟨_, hl, ha, rfl⟩ := hl
      exact .setLocal hl ha
  | setVar v value span =>
    cases hp with
    | setVar hp =>
      refine leavingOne_emits hb h fun b2 h1 => ?_
      obtain ⟨_, b1, h1, h2⟩ := bind_eq_ok h1
      have he := (value.compile_lays hp hb h1).1
      refine (he.seq (opConstant_emits he.valid rfl h2)).imp fun p outer T locals k m hl => ?_
      obtain ⟨_, hl, n, hn, hs, -, rfl⟩ := hl
      exact .setVar hl hn hs
  | call callee args span =>
    cases hp with
    | call hpc hp =>
      refine leavingOne_emits hb h fun b2 h1 => ?_
      cases hi : intrinsic? callee args.length with
      | some o =>
        simp only [hi] at h1
        obtain ⟨_, b1, h1, h2⟩ := bind_eq_ok h1
        have ha := (compileAll_lays args hp hb h1).1
        have ho := op_emits ha.valid (intrinsic?_width hi) h2
        refine (ha.seq ho).imp fun p outer T locals k m hl => ?_
        obtain ⟨_, hl, ho, hs, rfl⟩ := hl
        exact .intrinsic hi hl ho hs
      | none =>
        simp only [hi] at h1
        obtain ⟨_, b1, h1, hr⟩ := bind_eq_ok h1
        obtain ⟨_, b2', h2, h3⟩ := bind_eq_ok hr
        obtain ⟨hc, hh⟩ := callee.compile_lays hpc hb h1
        have ha := (compileAll_lays args hp hc.valid h2).1
        refine ((hc.seq ha).seq (call_emits ha.valid h3)).imp fun p outer T locals k m hl => ?_
        obtain ⟨_, ⟨_, hl, ha⟩, ho, hs, rfl⟩ := hl
        rw [hh] at ha
        exact .call hi hl ha ho hs
  | throw value span => cases h
  | attempt body catches finish span => cases h
  | macroCall v args span => cases h

theorem compileAll_lays (es : List Expr) {sc : Scopes} {pos : Position} {b b' : Builder}
    (hp : AllParsed R sc pos es) (hb : b.Valid) (h : compileAll byName es b = .ok ((), b')) :
    b.Emits b' (fun p outer T σ k m => LaysAll p outer T σ es k m) ∧
      b'.height = b.height + es.length := by
  cases es with
  | nil =>
    obtain ⟨-, rfl⟩ := pure_eq_ok h
    exact ⟨⟨.refl b, hb, Nat.le_refl _, fun _ _ => .nil⟩, rfl⟩
  | cons e rest =>
    obtain ⟨_, b1, h1, h2⟩ := bind_eq_ok h
    obtain ⟨he, hh⟩ := e.compile_lays (hp e List.mem_cons_self) hb h1
    obtain ⟨hr, hh'⟩ := compileAll_lays rest (fun x hx => hp x (List.mem_cons_of_mem e hx)) he.valid h2
    refine ⟨(he.seq hr).imp fun p outer T locals k m hl => ?_, ?_⟩
    · obtain ⟨a, hl, ha⟩ := hl
      rw [hh] at ha
      exact .cons hl ha
    · rw [hh', hh, List.length_cons]
      omega

theorem compileBody_lays (es : List Expr) {sc : Scopes} {pos : Position} {b b' : Builder}
    {span : Span} (hp : BodyParsed R sc pos es) (hb : b.Valid)
    (h : compileBody byName span es b = .ok ((), b')) :
    b.Emits b' fun p outer T σ k m => LaysBody p outer T σ es k m := by
  match es, hp with
  | [], .nil => exact (op_emits hb rfl h).imp fun p outer T locals k m hl => hl.2.2 ▸ .nil hl.1
  | [e], .last hp =>
    exact (e.compile_lays hp hb h).1.imp fun p outer T locals k m hl => .last hl
  | e :: e' :: rest, .cons hp hr =>
    obtain ⟨_, b1, h1, h2⟩ := bind_eq_ok h
    obtain ⟨_, b2, h2, h3⟩ := bind_eq_ok h2
    obtain ⟨_, b3, h3, h4⟩ := bind_eq_ok h3
    obtain ⟨he, hh⟩ := e.compile_lays hp hb h1
    have h12 := op_writes h2
    have hpop := he.seq (op_emits he.valid rfl h2)
    have h3 : b3 = b2.withHeight b.height := by
      have : b2.height - 1 = b.height := by rw [h12.height_eq, hh]; rfl
      rw [← this]
      cases h3
      rfl
    subst h3
    have hpop := hpop.withHeight hb (Nat.le_refl _)
    have hrest := compileBody_lays (e' :: rest) hr hpop.valid h4
    refine (hpop.seq hrest).imp fun p outer T locals k m hl => ?_
    obtain ⟨_, ⟨_, hl, ho, -, rfl⟩, hr⟩ := hl
    exact .cons hl ho hr

theorem compileElse_lays (e : Option Expr) {sc : Scopes} {pos : Position} {b b' : Builder}
    {span : Span} (hp : ∀ x, e = some x → x.Parsed R sc pos) (hb : b.Valid)
    (h : compileElse byName span e b = .ok ((), b')) :
    b.Emits b' fun p outer T σ k m => LaysElse p outer T σ e k m := by
  cases e with
  | none => exact (op_emits hb rfl h).imp fun p outer T locals k m hl => hl.2.2 ▸ .none hl.1
  | some e =>
    exact (e.compile_lays (hp e rfl) hb h).1.imp fun p outer T locals k m hl => .some hl

theorem compileBindings_lays (bs : List (Bound Expr)) {sc inner : Scopes} {pos : Position}
    {b b' : Builder} (hp : BindingsParsed R sc pos bs inner) (hb : b.Valid)
    (h : compileBindings byName bs b = .ok ((), b')) :
    b.Binds bs.length b' ∧ ∀ {p outer T locals}, b.level.target = T.map Target.toRecurTarget →
      b'.Finished b.size p locals outer →
        LaysBindings p outer T ⟨b.height, locals.drop bs.length⟩ bs b.size b'.size
          ⟨b'.height, locals⟩ := by
  match bs, hp with
  | [], .nil =>
    obtain ⟨-, rfl⟩ := pure_eq_ok h
    exact ⟨.refl hb, fun _ _ => .nil⟩
  | ⟨name, init⟩ :: rest, .cons hp hr =>
    obtain ⟨_, b1, h1, h2⟩ := bind_eq_ok h
    obtain ⟨_, b2, h2, h3⟩ := bind_eq_ok h2
    obtain ⟨he, hh⟩ := init.compile_lays hp hb h1
    obtain ⟨hs, rfl⟩ := declare_eq_ok h2
    have hbound : b.Binds 1 (b1.bound name) := .of_push he.exts he.valid hh (by omega) name
    obtain ⟨hbr, hlr⟩ := compileBindings_lays rest hr hbound.valid h3
    refine ⟨hbound.trans hbr, fun {p outer T locals} hT hf => ?_⟩
    have hsz : b.size ≤ b1.size := he.exts.size
    have hlr := hlr (T := T) (he.exts.target.trans hT) (hf.from hsz)
    have hf1 := (hf.forget rest.length).earlier hbr.exts
    generalize ht : locals.drop rest.length = ls at hlr hf1
    obtain ⟨w, ws, rfl, hw⟩ : ∃ w ws, ls = w :: ws ∧
        LocalVar.Marks ⟨name, b1.level.depth, b1.height - 1, false⟩ w := by
      cases hf1.scene.locals with
      | cons hw _ => exact ⟨_, _, rfl, hw⟩
    have hls : locals.drop (rest.length + 1) = ws := by
      rw [← List.drop_drop, ht]
      rfl
    have hslot : w.slot = b.height := by
      rw [hw.slot]
      change b1.height - 1 = b.height
      omega
    have hname : w.name = name := hw.name
    rw [List.length_cons, hls, ← hname]
    refine .cons (he.lays hT (hf1.forget 1)) hslot ?_
    have hh' : (b1.bound name).height = b.height + 1 := hh
    rw [hh'] at hlr
    exact hlr

/-- A function lies as it says in the finished function of its level. -/
theorem compileArities_lays (as : List (Arity Expr)) {name self : String} {enclosing : List Level}
    {b' : Builder} {span : Span} (hp : ∀ params variadic body, Arity.mk params variadic body ∈ as →
      ∃ sc, BodyParsed R sc (.body params.length) body) (hb : Level.AllValid enclosing)
    (h : compileArities byName span as ⟨Level.start name self, enclosing⟩ = .ok ((), b')) :
    b'.Valid ∧ Level.AllNoted enclosing b'.enclosing ∧ b'.level.name = name ∧ ∀ outer,
      Scene.AllLe (Level.scenes b'.enclosing) outer → LaysFn b'.level.finish outer self as := by
  match as with
  | [] => cases h
  | ⟨params, true, body⟩ :: [] => cases h
  | ⟨params, v, body⟩ :: a :: rest => cases v <;> cases h
  | [⟨params, false, body⟩] =>
    obtain ⟨sc, hp⟩ := hp params false body List.mem_cons_self
    obtain ⟨_, b3, h3, hr⟩ := bind_eq_ok h
    obtain ⟨_, b4, h4, h5⟩ := bind_eq_ok hr
    obtain ⟨_, b1, h1, hr⟩ := bind_eq_ok h3
    obtain ⟨_, b2, h2, h3'⟩ := bind_eq_ok hr
    have h1 : b1 = ⟨{ Level.start name self with arity := params.length }, enclosing⟩ := by
      rw [setArity] at h1
      split at h1
      · cases h1
      · cases h1
        rfl
    subst h1
    obtain ⟨hbind, hs2, hdecl⟩ := declareParams_binds (valid_start _ _ _ hb) h2
    have h3 : b3 = b2.aimed (some ⟨0, 1, params.length⟩) := by cases h3'; rfl
    subst h3
    have hbody := compileBody_lays body hp (hbind.valid.aimed _) h4
    have hret := op_emits hbody.valid rfl h5
    have hw := op_writes h5
    have hall := hbody.seq hret
    generalize ht : some (RecurTarget.mk 0 1 params.length) = t at *
    have hext := (hbind.exts.aimed t).trans (hall.exts.forget params.length)
    refine ⟨hall.valid, hext.enclosing, hext.name, fun outer ho => ?_⟩
    have hf : b'.Finished 0 b'.level.finish b'.level.locals outer :=
      ⟨fun _ _ _ => rfl, fun _ _ h => h, fun _ _ h => h, fun _ _ h => h, .refl _, ho⟩
    have hs : (b2.aimed t).size = 0 := hs2
    have hT : (b2.aimed t).level.target = Option.map Target.toRecurTarget
        (some ⟨⟨0, 1, params.length⟩, b'.level.locals⟩) := ht.symm
    obtain ⟨m, hl, ho, -, hm⟩ := hall.lays hT (hs.symm ▸ hf)
    have hd := hdecl hall.exts.scene.locals
    rw [hs] at hl
    obtain ⟨w, hw, hdrop⟩ := Marked.singleton hext.scene.locals
    change b'.level.locals.drop params.length = [w] at hdrop
    change Declares params ⟨1, b'.level.locals.drop params.length⟩ _ at hd
    rw [hdrop] at hd
    exact .mk hext.arity hw.name hw.slot hd hl ho hm

end

/-! ## Whole functions -/

theorem Build.run'_eq_ok {α : Type} {step : Build α} {b : Builder} {x : α}
    (h : step.run' b = .ok x) : ∃ b', step b = .ok (x, b') := by
  change (step b).map Prod.fst = _ at h
  cases hs : step b with
  | error e =>
    rw [hs] at h
    cases h
  | ok r =>
    rw [hs] at h
    cases h
    exact ⟨r.2, rfl⟩

theorem Level.Valid.captures_eq_empty {l : Level} (h : l.Valid []) : l.captures = #[] := by
  rw [Array.eq_empty_iff_size_eq_zero]
  by_contra hne
  obtain ⟨x, hx⟩ := h.named l.captures[0] (Array.getElem_mem (by omega))
  cases hx

theorem Proto.ofFn_lays {f : FnLiteral Expr} {sc : Scopes} {p : Proto} (hp : f.Parsed R sc)
    (h : Proto.ofFn f = .ok p) : p.name = f.displayName ∧ p.captures = #[] ∧
      LaysFn p [] (f.name.getD "") f.arities ∧ ∀ q ∈ p.subs, q.Laid := by
  obtain ⟨b, h⟩ := run'_eq_ok h
  obtain ⟨_, b1, h1, h2⟩ := bind_eq_ok h
  obtain ⟨rfl, rfl⟩ := ask_eq_ok h2
  obtain ⟨hv, hn, hname, hfn⟩ := compileArities_lays f.arities
    (fun params variadic body hm => ⟨_, hp.arities params variadic body hm⟩)
    (show Level.AllValid [] from trivial) h1
  obtain ⟨level, enclosing⟩ := b
  cases hn
  exact ⟨hname, hv.1.captures_eq_empty, hfn [] .nil, hv.1.subs⟩

theorem Proto.ofExpr_lays {name : String} {e : Expr} {sc : Scopes} {pos : Position} {p : Proto}
    (hp : e.Parsed R sc pos) (h : Proto.ofExpr name e = .ok p) :
    p.captures = #[] ∧ LaysForm p e ∧ ∀ q ∈ p.subs, q.Laid := by
  obtain ⟨b, h⟩ := run'_eq_ok h
  obtain ⟨_, b1, h1, hr⟩ := bind_eq_ok h
  obtain ⟨_, b2, h2, h3⟩ := bind_eq_ok hr
  obtain ⟨rfl, rfl⟩ := ask_eq_ok h3
  have he := (e.compile_lays hp (valid_start name "" 0 (show Level.AllValid [] from trivial)) h1).1
  have hall := he.seq (op_emits he.valid rfl h2)
  have hn := hall.exts.enclosing
  obtain ⟨level, enclosing⟩ := b
  cases hn
  have hf : Builder.Finished ⟨level, []⟩ 0 level.finish level.locals [] :=
    ⟨fun _ _ _ => rfl, fun _ _ h => h, fun _ _ h => h, fun _ _ h => h, .refl _, .nil⟩
  obtain ⟨m, hl, ho, -, hm⟩ := hall.lays (T := none) rfl hf
  obtain ⟨w, hw, hlocals⟩ := Marked.singleton hall.exts.scene.locals
  change level.locals = [w] at hlocals
  rw [hlocals] at hl
  exact ⟨hall.valid.1.captures_eq_empty, ⟨hall.exts.arity, w, m, hw.slot, hl, ho, hm⟩,
    hall.valid.1.subs⟩

end TwinLisp
