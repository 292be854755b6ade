import TwinLisp.Proofs.Bytecode.Layout

/-! Code that lies as the layout says is well-formed. A `Segment` is a stretch of code with outlines
for its places; stretches that follow one another make a longer one, and every expression is a
stretch that leaves one more value.

* `Proto.Segment`: a stretch of code, from one frame to another.
* `Expr.segment` and its companions: the code of an expression.
* `Proto.Laid.wellFormed`: a whole function. -/

namespace TwinLisp

def Shape.outline (σ : Shape) : Outline :=
  ⟨σ.height, (σ.locals.filter LocalVar.captured).map LocalVar.slot⟩

def Target.outline (t : Target) : Outline := (Shape.mk (t.firstSlot + t.arity) t.locals).outline

namespace Shape

variable {T : Option Target} {σ τ : Shape}

theorem mem_held {s : Nat} :
    s ∈ σ.outline.held ↔ ∃ v ∈ σ.locals, v.captured = true ∧ v.slot = s := by
  simp [outline, and_assoc]

theorem into_outline (hh : τ.height = σ.height) (hl : ∀ v ∈ σ.locals, v ∈ τ.locals) :
    σ.outline.Into τ.outline := by
  refine ⟨hh, fun s hs => ?_⟩
  obtain ⟨v, hv, hc⟩ := mem_held.mp hs
  exact mem_held.mpr ⟨v, hl v hv, hc⟩

/-- The locals below a target of `recur` are those that are known there. -/
structure Aims (σ : Shape) (t : Target) : Prop where
  height : t.firstSlot + t.arity ≤ σ.height
  locals : ∀ v ∈ σ.locals, v.slot < t.firstSlot → v ∈ t.locals

/-- A frame in which code may lie. -/
structure Fits (T : Option Target) (σ : Shape) : Prop where
  below : ∀ v ∈ σ.locals, v.slot < σ.height
  aims : ∀ t, T = some t → σ.Aims t

theorem Fits.up (h : σ.Fits T) (n : Nat) : (σ.up n).Fits T where
  below v hv := Nat.lt_add_right n (h.below v hv)
  aims t ht := by
    have := h.aims t ht
    exact ⟨Nat.le_add_right_of_le this.height, this.locals⟩

theorem Fits.bind (h : σ.Fits T) {v : LocalVar} (hv : v.slot = σ.height) : (σ.bind v).Fits T where
  below u hu := by
    change u.slot < σ.height + 1
    rcases List.mem_cons.mp hu with rfl | hu
    · omega
    · have := h.below u hu
      omega
  aims t ht := by
    have ha := h.aims t ht
    refine ⟨Nat.le_succ_of_le ha.height, fun u hu hlt => ?_⟩
    rcases List.mem_cons.mp hu with rfl | hu
    · have := ha.height
      omega
    · exact ha.locals u hu hlt

end Shape

namespace Proto

/-- The place where `recur` goes has its outline. -/
structure Settled (p : Proto) (S : Nat → Outline) (t : Target) : Prop where
  boundary : p.Boundary t.start
  start : t.start < p.chunk.size
  into : t.outline.Into (S t.start)

/-- Cells are closed right before the slots that held them are dropped. -/
def Tidy (p : Proto) (S : Nat → Outline) (k : Nat) (i : Instruction) : Prop :=
  i.op = .closeUpvalue → ∃ n, p.Has i.next .popN n ∧ (S k).height ≤ i.operand + n + 1

/-- A stretch of code with outlines for its places, which may be entered with the frame `o` and goes
on with `o'` behind its end. -/
structure Segment (p : Proto) (T : Option Target) (k m : Nat) (o o' : Outline) : Prop where
  walk : p.Walk k m
  outlined : ∃ A : Nat → Outline, ∀ S : Nat → Outline, (∀ j, k ≤ j → j < m → S j = A j) →
    o'.Into (S m) → o.Into (S k) ∧ (p.Boundary k → m < p.chunk.size →
      (∀ t, T = some t → p.Settled S t) →
        ∀ j, p.Walk k j → j < m →
          ∃ i, p.chunk.fetch j = .ok i ∧ p.Admits S j i ∧ p.Tidy S j i)

variable {p : Proto} {T : Option Target} {k l m : Nat} {o o' o'' : Outline}

namespace Segment

theorem refl : p.Segment T k k o o where
  walk := .refl
  outlined :=
    ⟨fun _ => o, fun _ _ hm => ⟨hm, fun _ _ _ _ hj hlt => absurd hj.le (Nat.not_le_of_lt hlt)⟩⟩

theorem weaken (h : p.Segment T k m o o') (ho : o'.Into o'') : p.Segment T k m o o'' where
  walk := h.walk
  outlined := by
    obtain ⟨A, hA⟩ := h.outlined
    exact ⟨A, fun S hS hm => hA S hS (ho.trans hm)⟩

theorem seq (h : p.Segment T k l o o') (h' : p.Segment T l m o' o'') :
    p.Segment T k m o o'' where
  walk := h.walk.trans h'.walk
  outlined := by
    obtain ⟨A, hA⟩ := h.outlined
    obtain ⟨B, hB⟩ := h'.outlined
    have hkl := h.walk.le
    have hlm := h'.walk.le
    refine ⟨fun j => if j < l then A j else B j, fun S hS hm => ?_⟩
    obtain ⟨hl, hB⟩ := hB S (fun j hj hlt => (hS j (by omega) hlt).trans (if_neg (by omega))) hm
    obtain ⟨hk, hA⟩ := hA S (fun j hj hlt => (hS j hj (by omega)).trans (if_pos hlt)) hl
    refine ⟨hk, fun hb hs hT j hj hlt => ?_⟩
    by_cases hjl : j < l
    · exact hA hb (by omega) hT j hj hjl
    · exact hB (hb.trans h.walk) hs hT j (h.walk.compare hj (by omega)) hlt

theorem eq_of_walk {i : Instruction} {j : Nat} (hf : p.chunk.fetch k = .ok i) (hj : p.Walk k j)
    (hlt : j < p.next i) : j = k := by
  rcases Nat.lt_or_ge k j with hkj | hjk
  · have := hj.next_le hf hkj
    omega
  · exact Nat.le_antisymm hjk hj.le

theorem one {i : Instruction} (hf : p.chunk.fetch k = .ok i) (ht : p.targets i = [p.next i])
    (hi : p.Fits o i) (ho : (i.after o).Into o') (hc : p.Tidy (fun _ => o) k i) :
    p.Segment T k (p.next i) o o' where
  walk := .one hf
  outlined := by
    refine ⟨fun _ => o, fun S hS hn => ?_⟩
    have hSk : S k = o := hS k (Nat.le_refl k) (Walk.next_gt hf)
    refine ⟨hSk ▸ .refl o, fun hk hm _ j hj hlt => ?_⟩
    cases eq_of_walk hf hj hlt
    refine ⟨i, hf, ⟨hSk.symm ▸ hi, fun t hmem => ?_⟩, fun h => hSk.symm ▸ hc h⟩
    rw [ht] at hmem
    rw [List.mem_singleton.mp hmem, hSk]
    exact ⟨hk.trans (.one hf), hm, ho.trans hn⟩

end Segment

theorem segment_op {σ : Shape} {op : Opcode} {n t g : Nat} (hσ : ∀ v ∈ σ.locals, v.slot < σ.height)
    (hf : p.Has k op n) (hn : p.next ⟨op, n, k + 1 + op.width⟩ = m)
    (hmeans : p.Means (σ.up t).outline ⟨op, n, k + 1 + op.width⟩)
    (htargets : p.targets ⟨op, n, k + 1 + op.width⟩ = [p.next ⟨op, n, k + 1 + op.width⟩])
    (ht : Instruction.takes ⟨op, n, k + 1 + op.width⟩ = t)
    (hafter : ∀ o, Instruction.after ⟨op, n, k + 1 + op.width⟩ o =
      ⟨o.height - Instruction.takes ⟨op, n, k + 1 + op.width⟩ + g, o.held⟩) :
    p.Segment T k m (σ.up t).outline (σ.up g).outline := by
  subst hn
  refine .one hf htargets ⟨hmeans, ?_, fun s hs => ?_⟩ ?_ fun hc => ?_
  · rw [ht]
    exact Nat.le_add_left t _
  · obtain ⟨v, hv, _, rfl⟩ := Shape.mem_held.mp hs
    have := hσ v hv
    rw [ht]
    change v.slot < σ.height + t - t
    rwa [Nat.add_sub_cancel]
  · rw [hafter, ht]
    refine ⟨?_, fun _ h => h⟩
    change σ.height + g = σ.height + t - t + g
    rw [Nat.add_sub_cancel]
  · -- an instruction that closes cells does not leave what is held as it is
    cases hc
    have hheld := congrArg Outline.held (hafter ⟨0, [n]⟩)
    simp [Instruction.after, Outline.closedFrom] at hheld

variable {σ τ : Shape}

theorem Segment.branches {a b d e : Nat} (hσ : ∀ v ∈ σ.locals, v.slot < σ.height)
    (hj : p.Has a .jumpIfFalse d) (hd : a + 3 + d = b + 3) (hd' : d < 32768)
    (hy : p.Segment T (a + 3) b σ.outline (σ.up 1).outline) (hj' : p.Has b .jump e)
    (he : b + 3 + e = m) (he' : e < 32768)
    (hn : p.Segment T (b + 3) m σ.outline (σ.up 1).outline) :
    p.Segment T a m (σ.up 1).outline (σ.up 1).outline where
  walk := (Walk.one hj).trans (hy.walk.trans ((Walk.one hj').trans hn.walk))
  outlined := by
    obtain ⟨A, hA⟩ := hy.outlined
    obtain ⟨B, hB⟩ := hn.outlined
    have hab := hy.walk.le
    have hbm := hn.walk.le
    have hkept : ∀ s ∈ (σ.up 1).outline.held, s < σ.height := fun s hs => by
      obtain ⟨v, hv, _, rfl⟩ := Shape.mem_held.mp hs
      exact hσ v hv
    refine ⟨fun j => if j < a + 3 then (σ.up 1).outline else if j < b then A j else
      if j < b + 3 then (σ.up 1).outline else B j, fun S hS hm => ?_⟩
    have hSa : S a = (σ.up 1).outline := (hS a (by omega) (by omega)).trans (if_pos (by omega))
    have hSb : S b = (σ.up 1).outline := (hS b (by omega) (by omega)).trans
      ((if_neg (by omega)).trans ((if_neg (by omega)).trans (if_pos (by omega))))
    obtain ⟨hno, hB⟩ := hB S (fun j hj hlt => (hS j (by omega) hlt).trans
      ((if_neg (by omega)).trans ((if_neg (by omega)).trans (if_neg (by omega))))) hm
    obtain ⟨hyes, hA⟩ := hA S (fun j hj hlt => (hS j (by omega) (by omega)).trans
      ((if_neg (by omega)).trans (if_pos hlt))) (hSb ▸ .refl _)
    refine ⟨hSa ▸ .refl _, fun hka hms hT j hw hlt => ?_⟩
    have hwa : p.Boundary (a + 3) := hka.trans (.one hj)
    have hwb : p.Boundary b := hwa.trans hy.walk
    have hwb' : p.Boundary (b + 3) := hwb.trans (.one hj')
    by_cases h1 : j < a + 3
    · cases eq_of_walk hj hw h1
      refine ⟨_, hj, ⟨⟨hd', ?_, ?_⟩, fun t ht => ?_⟩, fun hc => nomatch hc⟩
      · rw [hSa]
        exact Nat.le_add_left 1 _
      · rw [hSa]
        exact hkept
      · rw [hSa]
        rcases List.mem_cons.mp ht with rfl | ht
        · exact ⟨hwa, by change a + 3 < _; omega, hyes⟩
        · rw [List.mem_singleton.mp ht]
          change p.Boundary (a + 3 + d) ∧ a + 3 + d < _ ∧ Outline.Into _ (S (a + 3 + d))
          rw [hd]
          exact ⟨hwb', by omega, hno⟩
    · have hw3 : p.Walk (a + 3) j := (Walk.one hj).compare hw (by change a + 3 ≤ j; omega)
      by_cases h2 : j < b
      · exact hA hwa (by omega) hT j hw3 h2
      · have hwbj := hy.walk.compare hw3 (by omega)
        by_cases h3 : j < b + 3
        · cases eq_of_walk hj' hwbj h3
          refine ⟨_, hj', ⟨⟨he', Nat.zero_le _, fun s hs => ?_⟩, fun t ht => ?_⟩,
            fun hc => nomatch hc⟩
          · rw [hSb] at hs ⊢
            exact Nat.lt_succ_of_lt (hkept s hs)
          · rw [hSb, List.mem_singleton.mp ht]
            change p.Boundary (b + 3 + e) ∧ b + 3 + e < _ ∧ Outline.Into _ (S (b + 3 + e))
            rw [he]
            exact ⟨hwb'.trans hn.walk, hms, hm⟩
        · exact hB hwb' hms hT j ((Walk.one hj').compare hwbj (by change b + 3 ≤ j; omega)) hlt

theorem Segment.again {t : Target} {n d : Nat} (hσ : σ.Fits (some t)) (hn : n = t.arity)
    (hr : p.Has m .recur (n * 256 + t.firstSlot)) (hs : t.firstSlot < 256)
    (hl : p.Has (m + 3) .loop d) (hd : t.start + d = m + 6) :
    p.Segment (some t) m (m + 6) (σ.up n).outline o where
  walk := (Walk.one hr).trans (.one hl)
  outlined := by
    have ha := hσ.aims t rfl
    have hfirst : ∀ next, Instruction.first ⟨.recur, n * 256 + t.firstSlot, next⟩ = n := by
      intro next
      change (n * 256 + t.firstSlot) / 256 = n
      omega
    have hsecond : ∀ next,
        Instruction.second ⟨.recur, n * 256 + t.firstSlot, next⟩ = t.firstSlot := by
      intro next
      change (n * 256 + t.firstSlot) % 256 = t.firstSlot
      omega
    have hheight := ha.height
    have hmid : Instruction.after ⟨.recur, n * 256 + t.firstSlot, m + 3⟩ (σ.up n).outline =
        ⟨t.firstSlot + n, ((σ.up n).outline.closedFrom t.firstSlot).held⟩ := by
      simp only [Instruction.after, hfirst, hsecond]
    refine ⟨fun j => if j < m + 3 then (σ.up n).outline else
      ⟨t.firstSlot + n, ((σ.up n).outline.closedFrom t.firstSlot).held⟩, fun S hS _ => ?_⟩
    have hSm : S m = (σ.up n).outline := (hS m (by omega) (by omega)).trans (if_pos (by omega))
    have hSl : S (m + 3) = ⟨t.firstSlot + n, ((σ.up n).outline.closedFrom t.firstSlot).held⟩ :=
      (hS (m + 3) (by omega) (by omega)).trans (if_neg (by omega))
    refine ⟨hSm ▸ .refl _, fun hk hms hT j hw hlt => ?_⟩
    have hsettled := hT t rfl
    by_cases h1 : j < m + 3
    · cases Segment.eq_of_walk hr hw h1
      refine ⟨_, hr, ⟨⟨?_, ?_, fun s hs => ?_⟩, fun u hu => ?_⟩, fun hc => nomatch hc⟩
      · simp only [Means, hfirst, hsecond, hSm]
        change _ ≤ σ.height + n
        omega
      · simp only [Instruction.takes, hfirst, hSm]
        exact Nat.le_add_left n _
      · rw [hSm] at hs ⊢
        obtain ⟨v, hv, _, rfl⟩ := Shape.mem_held.mp hs
        have := hσ.below v hv
        simp only [Instruction.takes, hfirst]
        change v.slot < σ.height + n - n
        omega
      · rw [hSm, List.mem_singleton.mp hu]
        refine ⟨hk.trans (.one hr), by change m + 3 < _; omega, ?_⟩
        change Outline.Into _ (S (m + 3))
        rw [hSl, ← hmid]
        exact .refl _
    · have hw3 : p.Walk (m + 3) j := (Walk.one hr).compare hw (by change m + 3 ≤ j; omega)
      cases Segment.eq_of_walk hl hw3 hlt
      refine ⟨_, hl, ⟨⟨?_, Nat.zero_le _, fun s hs => ?_⟩, fun u hu => ?_⟩, fun hc => nomatch hc⟩
      · change d ≤ m + 6
        omega
      · rw [hSl] at hs ⊢
        have := (List.mem_filter.mp hs).2
        have : s < t.firstSlot := by simpa using this
        change s < t.firstSlot + n - 0
        omega
      · rw [List.mem_singleton.mp hu, hSl]
        have hstart : m + 3 + 1 + Opcode.loop.width - d = t.start := by
          change m + 6 - d = t.start
          omega
        change p.Boundary (m + 3 + 1 + Opcode.loop.width - d) ∧
          m + 3 + 1 + Opcode.loop.width - d < _ ∧
          Outline.Into _ (S (m + 3 + 1 + Opcode.loop.width - d))
        rw [hstart]
        refine ⟨hsettled.boundary, hsettled.start, Outline.Into.trans ⟨?_, fun s hs => ?_⟩
          hsettled.into⟩
        · change t.firstSlot + t.arity = t.firstSlot + n - 0 + 0
          omega
        · obtain ⟨hs, hlt⟩ := List.mem_filter.mp hs
          obtain ⟨v, hv, hc, rfl⟩ := Shape.mem_held.mp hs
          have hlt : v.slot < t.firstSlot := by simpa using hlt
          exact Shape.mem_held.mpr ⟨v, ha.locals v hv hlt, hc, rfl⟩

theorem Segment.popN {n : Nat} {held : List Nat} (hσ : ∀ v ∈ σ.locals, v.slot < σ.height)
    (hh : ∀ s ∈ held, s ∈ σ.outline.held) (h : p.Has k .popN n) :
    p.Segment T k (k + 2) ⟨σ.height + n + 1, held⟩ (σ.up 1).outline := by
  refine .one (i := ⟨.popN, n, k + 2⟩) h rfl ⟨trivial, Nat.add_le_add_right (Nat.le_add_left n _) 1,
    fun s hs => ?_⟩ ⟨?_, hh⟩ fun hc => nomatch hc
  · obtain ⟨v, hv, _, rfl⟩ := Shape.mem_held.mp (hh s hs)
    have := hσ v hv
    change v.slot < σ.height + n + 1 - (n + 1)
    omega
  · change σ.height + 1 = σ.height + n + 1 - (n + 1) + 1
    omega

theorem Segment.leaves {vs : List LocalVar} (hσ : ∀ v ∈ σ.locals, v.slot < σ.height)
    (hv : ∀ v ∈ vs, σ.height ≤ v.slot ∧ v.slot < σ.height + vs.length) (h : Leaves p k vs m) :
    p.Segment T k m ((Shape.mk (σ.height + vs.length) (vs ++ σ.locals)).up 1).outline
      (σ.up 1).outline := by
  cases h with
  | none => exact .refl
  | plain hn hc h =>
    refine .popN hσ (fun s hs => ?_) h
    obtain ⟨v, hm, hcap, rfl⟩ := Shape.mem_held.mp hs
    rcases List.mem_append.mp hm with hm | hm
    · rw [hc v hm] at hcap
      cases hcap
    · exact Shape.mem_held.mpr ⟨v, hm, hcap, rfl⟩
  | @closing _ slot hm hl hc h =>
    refine .seq (l := k + 2) (.one (i := ⟨.closeUpvalue, slot, k + 2⟩) hc rfl
      ⟨?_, Nat.zero_le _, fun s hs => ?_⟩ (.refl _) fun _ => ⟨vs.length, h, ?_⟩)
      (.popN hσ (fun s hs => ?_) h)
    · obtain ⟨v, hm, _, rfl⟩ := hm
      exact Nat.lt_succ_of_lt (hv v hm).2
    · obtain ⟨v, hm, _, rfl⟩ := Shape.mem_held.mp hs
      refine Nat.lt_succ_of_lt ?_
      rcases List.mem_append.mp hm with hm | hm
      · exact (hv v hm).2
      · exact Nat.lt_add_right _ (hσ v hm)
    · obtain ⟨v, hm, _, rfl⟩ := hm
      have := (hv v hm).1
      change σ.height + vs.length + 1 ≤ v.slot + vs.length + 1
      omega
    · obtain ⟨hs, hlt⟩ := List.mem_filter.mp hs
      have hlt : s < slot := by simpa using hlt
      obtain ⟨v, hm, hcap, rfl⟩ := Shape.mem_held.mp hs
      rcases List.mem_append.mp hm with hm | hm
      · exact absurd (hl v hm hcap) (Nat.not_le_of_lt hlt)
      · exact Shape.mem_held.mpr ⟨v, hm, hcap, rfl⟩

theorem Segment.access {outer : List Scene} {name : String} {near far : Opcode} {n : Nat}
    (hσ : ∀ v ∈ σ.locals, v.slot < σ.height)
    (h : Accesses p outer σ.locals name near far k)
    (hnear : ∀ s, s < σ.height → p.Has k near s →
      p.Segment T k (k + 2) (σ.up n).outline (σ.up 1).outline)
    (hfar : ∀ i, i < p.captures.size → p.Has k far i →
      p.Segment T k (k + 2) (σ.up n).outline (σ.up 1).outline) :
    p.Segment T k (k + 2) (σ.up n).outline (σ.up 1).outline := by
  cases h with
  | slot hf h => exact hnear _ (hσ _ (List.mem_of_find?_eq_some hf)) h
  | capture _ hc _ h => exact hfar _ (Array.getElem?_eq_some_iff.mp hc).1 h

theorem Segment.loads {v : Value} (hσ : ∀ v ∈ σ.locals, v.slot < σ.height) (h : Loads p k v m) :
    p.Segment T k m σ.outline (σ.up 1).outline := by
  cases h with
  | nil h => exact segment_op (t := 0) hσ h rfl trivial rfl rfl fun _ => rfl
  | true h => exact segment_op (t := 0) hσ h rfl trivial rfl rfl fun _ => rfl
  | false h => exact segment_op (t := 0) hσ h rfl trivial rfl rfl fun _ => rfl
  | const hn h =>
    exact segment_op (t := 0) hσ h rfl (Array.getElem?_eq_some_iff.mp hn).1 rfl rfl fun _ => rfl

theorem Segment.closure {q : Proto} {n : Nat} {outer : List Scene}
    (hσ : ∀ v ∈ σ.locals, v.slot < σ.height) (hq : p.subs[n]? = some q)
    (hc : ∀ c ∈ q.captures, ∃ x, Captured x (⟨p.captures, σ.locals⟩ :: outer) c)
    (ho : p.Has k .closure n) (hp : p.HasPairs (k + 3) q.captures) :
    p.Segment T k (k + 3 + 2 * q.captures.size) σ.outline (σ.up 1).outline := by
  refine segment_op (t := 0) hσ ho ?_ ⟨q, hq, hp, fun c hm => ?_⟩ rfl rfl fun _ => rfl
  · simp only [next, hq]
    rfl
  · obtain ⟨x, hx⟩ := hc c hm
    cases hx with
    | near hf hcap hi =>
      have hv := List.mem_of_find?_eq_some hf
      exact ⟨Shape.mem_held.mpr ⟨_, hv, hcap, hi.symm⟩, hi ▸ hσ _ hv⟩
    | far _ hc _ => exact (Array.getElem?_eq_some_iff.mp hc).1

theorem Segment.calls {n : Nat} (hσ : ∀ v ∈ σ.locals, v.slot < σ.height) (h : p.Has k .call n) :
    p.Segment T k (k + 2) ((σ.up 1).up n).outline (σ.up 1).outline := by
  rw [Shape.up_up, Nat.add_comm 1]
  exact segment_op hσ h rfl trivial rfl rfl fun _ => rfl

theorem Segment.stores {v : Var} {n : Nat} (hσ : ∀ v ∈ σ.locals, v.slot < σ.height)
    (hn : p.chunk.constants[n]? = some (.var v)) (h : p.Has k .setVar n) :
    p.Segment T k (k + 3) (σ.up 1).outline (σ.up 1).outline :=
  segment_op hσ h rfl ⟨v, hn⟩ rfl rfl fun _ => rfl

theorem Segment.drops (hσ : ∀ v ∈ σ.locals, v.slot < σ.height) (h : p.Has k .pop 0) :
    p.Segment T k (k + 1) (σ.up 1).outline σ.outline :=
  segment_op (g := 0) hσ h rfl trivial rfl rfl fun _ => rfl

theorem Segment.entries {n : Nat} (hσ : ∀ v ∈ σ.locals, v.slot < σ.height) (he : n % 2 = 0)
    (h : p.Has k .map (n / 2)) :
    p.Segment T k (k + 3) (σ.up n).outline (σ.up 1).outline := by
  refine segment_op hσ h rfl trivial rfl ?_ fun _ => rfl
  change n / 2 * 2 = n
  omega

theorem segment_intrinsic {callee : Expr} {n : Nat} {op : Opcode}
    (hσ : ∀ v ∈ σ.locals, v.slot < σ.height) (hi : intrinsic? callee n = some op)
    (h : p.Has k op 0) : p.Segment T k (k + 1) (σ.up n).outline (σ.up 1).outline := by
  unfold intrinsic? at hi
  split at hi
  · split at hi
    · cases hi
    · split at hi
      all_goals cases hi
      all_goals exact segment_op hσ h rfl trivial rfl rfl fun _ => rfl
  · cases hi

end Proto

open Proto

/-! ## Expressions -/

/-- Locals that have come to a frame, one above the other. -/
structure Shape.Grown (σ : Shape) (n : Nat) (τ : Shape) : Prop where
  height : τ.height = σ.height + n
  locals : ∃ vs : List LocalVar, τ.locals = vs ++ σ.locals ∧ vs.length = n ∧
    ∀ v ∈ vs, σ.height ≤ v.slot ∧ v.slot < τ.height

theorem Shape.Grown.refl (σ : Shape) : σ.Grown 0 σ := ⟨rfl, [], rfl, rfl, nofun⟩

theorem Shape.Grown.of_bind {σ τ : Shape} {v : LocalVar} {n : Nat} (hv : v.slot = σ.height)
    (h : (σ.bind v).Grown n τ) : σ.Grown (n + 1) τ := by
  obtain ⟨hh, vs, hl, hn, hs⟩ := h
  change τ.height = σ.height + 1 + n at hh
  refine ⟨by omega, vs ++ [v], by rw [hl]; simp [Shape.bind], by simp [hn], fun u hu => ?_⟩
  rcases List.mem_append.mp hu with hu | hu
  · have := hs u hu
    change σ.height + 1 ≤ u.slot ∧ _ at this
    omega
  · rw [List.mem_singleton.mp hu]
    omega

theorem Shape.Grown.fits {σ τ : Shape} {n : Nat} {T : Option Target} (h : σ.Grown n τ)
    (hσ : σ.Fits T) : τ.Fits T := by
  obtain ⟨hh, vs, hl, _, hs⟩ := h
  refine ⟨fun v hv => ?_, fun t ht => ?_⟩
  · rcases List.mem_append.mp (hl ▸ hv) with hv | hv
    · exact (hs v hv).2
    · have := hσ.below v hv
      omega
  · have ha := hσ.aims t ht
    have := ha.height
    refine ⟨by omega, fun v hv hlt => ?_⟩
    rcases List.mem_append.mp (hl ▸ hv) with hv | hv
    · have := (hs v hv).1
      omega
    · exact ha.locals v hv hlt

theorem LaysBindings.grown {p : Proto} {outer : List Scene} {T : Option Target} {σ τ : Shape}
    {bs : List (Bound Expr)} {k m : Nat} (h : LaysBindings p outer T σ bs k m τ) :
    σ.Grown bs.length τ := by
  match bs, h with
  | [], .nil => exact .refl σ
  | _ :: _, .cons _ hs hr => exact .of_bind hs hr.grown

theorem Declares.grown {names : List String} {σ τ : Shape} (h : Declares names σ τ) :
    σ.Grown names.length τ := by
  induction h with
  | nil => exact .refl _
  | cons hs _ ih => exact .of_bind hs ih

theorem Proto.Segment.scope {p : Proto} {T : Option Target} {σ τ : Shape} {vs : List LocalVar}
    {n b m : Nat} (hσ : σ.Fits T) (hg : σ.Grown n τ) (hv : τ.locals = vs ++ σ.locals)
    (hl : vs.length = n) (he : Leaves p b vs m) :
    p.Segment T b m (τ.up 1).outline (σ.up 1).outline := by
  obtain ⟨hh, us, hus, _, hs⟩ := hg
  have huv : us = vs := List.append_cancel_right (hus.symm.trans hv)
  subst huv
  have hτ : τ = ⟨σ.height + us.length, us ++ σ.locals⟩ := by
    rw [hl, ← hh, ← hv]
  rw [hτ]
  exact .leaves hσ.below (fun v hm => ⟨(hs v hm).1, by have := (hs v hm).2; omega⟩) he

theorem Proto.Segment.body {p : Proto} {T : Option Target} {σ τ : Shape} {n a b : Nat} {o : Outline}
    (hg : σ.Grown n τ) (h : p.Segment (some ⟨⟨a, σ.height, n⟩, τ.locals⟩) a b τ.outline o) :
    p.Segment T a b τ.outline o where
  walk := h.walk
  outlined := by
    obtain ⟨A, hA⟩ := h.outlined
    have hle := h.walk.le
    refine ⟨A, fun S hS hb => ?_⟩
    obtain ⟨hin, hall⟩ := hA S hS hb
    refine ⟨hin, fun hk hm _ => hall hk hm fun t ht => ?_⟩
    cases ht
    refine ⟨hk, by change a < _; omega, ?_⟩
    have : Target.outline ⟨⟨a, σ.height, n⟩, τ.locals⟩ = τ.outline := by
      change Shape.outline ⟨σ.height + n, _⟩ = _
      rw [← hg.height]
    rw [this]
    exact hin

theorem Shape.Grown.fits_target {σ τ : Shape} {n a : Nat} {T : Option Target} (h : σ.Grown n τ)
    (hσ : σ.Fits T) : τ.Fits (some ⟨⟨a, σ.height, n⟩, τ.locals⟩) where
  below := (h.fits hσ).below
  aims t ht := by
    cases ht
    exact ⟨Nat.le_of_eq h.height.symm, fun v hv _ => hv⟩

mutual

/-- Every expression leaves one more value. -/
theorem Lays.segment {p : Proto} {outer : List Scene} {T : Option Target} {σ : Shape} {e : Expr}
    {k m : Nat} (h : Lays p outer T σ e k m) (hσ : σ.Fits T) :
    p.Segment T k m σ.outline (σ.up 1).outline :=
  match h, hσ with
  | .literal h, hσ => .loads hσ.below h
  | .quote h, hσ => .loads hσ.below h
  | .vector h ho, hσ =>
    (h.segment hσ).seq (segment_op hσ.below ho rfl trivial rfl rfl fun _ => rfl)
  | .set h ho _, hσ =>
    (h.segment hσ).seq (segment_op hσ.below ho rfl trivial rfl rfl fun _ => rfl)
  | .map he h ho _, hσ => (h.segment hσ).seq (.entries hσ.below he ho)
  | .localRef h, hσ => .access (n := 0) hσ.below h
    (fun _ hs ho => segment_op (t := 0) hσ.below ho rfl hs rfl rfl fun _ => rfl)
    (fun _ hi ho => segment_op (t := 0) hσ.below ho rfl hi rfl rfl fun _ => rfl)
  | .varRef hn h _, hσ => segment_op (t := 0) hσ.below h rfl ⟨_, hn⟩ rfl rfl fun _ => rfl
  | .theVar hn h, hσ => .loads hσ.below (.const hn h)
  | .cond ht hj hd hd' hy hj' he he' hn, hσ => (ht.segment hσ).seq
    (.branches hσ.below hj hd hd' (hy.segment hσ) hj' he he' (hn.segment hσ))
  | .block h, hσ => h.segment hσ
  | .letIn hb hv hl h he, hσ =>
    ((hb.segment hσ).seq (h.segment (hb.grown.fits hσ))).seq (.scope hσ hb.grown hv hl he)
  | .loop hb hv hl h he, hσ =>
    ((hb.segment hσ).seq (.body hb.grown (h.segment (hb.grown.fits_target hσ)))).seq
      (.scope hσ hb.grown hv hl he)
  | .recur hn h hr hs hl hd, hσ => (h.segment hσ).seq (.again hσ hn hr hs hl hd)
  | .fn hq _ _ hc ho hp, hσ => .closure hσ.below hq hc ho hp
  | .declared hn h, hσ => .loads hσ.below (.const hn h)
  | .define h hn hs hp hn' hc, hσ =>
    (((h.segment hσ).seq (.stores hσ.below hn hs)).seq (.drops hσ.below hp)).seq
      (.loads hσ.below (.const hn' hc))
  | .setLocal h ha, hσ => (h.segment hσ).seq (.access hσ.below ha
    (fun _ hs ho => segment_op (t := 1) hσ.below ho rfl (Nat.lt_succ_of_lt hs) rfl rfl fun _ => rfl)
    (fun _ hi ho => segment_op (t := 1) hσ.below ho rfl hi rfl rfl fun _ => rfl))
  | .setVar h hn hs, hσ => (h.segment hσ).seq (.stores hσ.below hn hs)
  | .intrinsic hi h ho _, hσ => (h.segment hσ).seq (segment_intrinsic hσ.below hi ho)
  | .call _ hf h ho _, hσ =>
    ((hf.segment hσ).seq (h.segment (hσ.up 1))).seq (.calls hσ.below ho)
termination_by structural h

theorem LaysAll.segment {p : Proto} {outer : List Scene} {T : Option Target} {σ : Shape}
    {es : List Expr} {k m : Nat} (h : LaysAll p outer T σ es k m) (hσ : σ.Fits T) :
    p.Segment T k m σ.outline (σ.up es.length).outline :=
  match h, hσ with
  | .nil, _ => .refl
  | .cons h hr, hσ => by
    have := hr.segment (hσ.up 1)
    rw [Shape.up_up, Nat.add_comm 1] at this
    exact (h.segment hσ).seq this
termination_by structural h

theorem LaysBody.segment {p : Proto} {outer : List Scene} {T : Option Target} {σ : Shape}
    {es : List Expr} {k m : Nat} (h : LaysBody p outer T σ es k m) (hσ : σ.Fits T) :
    p.Segment T k m σ.outline (σ.up 1).outline :=
  match h, hσ with
  | .nil h, hσ => .loads hσ.below (.nil h)
  | .last h, hσ => h.segment hσ
  | .cons h hp hr, hσ => ((h.segment hσ).seq (.drops hσ.below hp)).seq (hr.segment hσ)
termination_by structural h

theorem LaysElse.segment {p : Proto} {outer : List Scene} {T : Option Target} {σ : Shape}
    {o : Option Expr} {k m : Nat} (h : LaysElse p outer T σ o k m) (hσ : σ.Fits T) :
    p.Segment T k m σ.outline (σ.up 1).outline :=
  match h, hσ with
  | .none h, hσ => .loads hσ.below (.nil h)
  | .some h, hσ => h.segment hσ
termination_by structural h

theorem LaysBindings.segment {p : Proto} {outer : List Scene} {T : Option Target} {σ τ : Shape}
    {bs : List (Bound Expr)} {k m : Nat} (h : LaysBindings p outer T σ bs k m τ)
    (hσ : σ.Fits T) : p.Segment T k m σ.outline τ.outline :=
  match h, hσ with
  | .nil, _ => .refl
  | .cons (v := v) h hs hr, hσ =>
    have hbind : (σ.up 1).outline.Into (σ.bind v).outline :=
      Shape.into_outline rfl fun _ hu => List.mem_cons_of_mem v hu
    ((h.segment hσ).weaken hbind).seq (hr.segment (hσ.bind hs))
termination_by structural h

end

/-! ## Whole functions -/

/-- Outlines for all places of a function in which scopes end as they should. -/
structure Proto.Neat (p : Proto) (S : Nat → Outline) : Prop extends p.Outlined S where
  tidy : ∀ k i, p.Boundary k → p.chunk.fetch k = .ok i → p.Tidy S k i

/-- A function whose body is a stretch from the beginning of its code to the last instruction. -/
theorem Proto.neat_of_segment {p : Proto} {τ : Shape} {m : Nat}
    (h : p.Segment none 0 m τ.outline (τ.up 1).outline) (hτ : ∀ v ∈ τ.locals, v.slot < τ.height)
    (hh : τ.height = p.arity + 1) (hr : p.Has m .ret 0) (hm : p.chunk.size = m + 1) :
    ∃ S, p.Neat S := by
  obtain ⟨A, hA⟩ := h.outlined
  have hn : p.next ⟨.ret, 0, m + 1⟩ = m + 1 := rfl
  have hw : p.Walk m p.chunk.size := hm ▸ hn ▸ .one hr
  obtain ⟨hin, hall⟩ := hA (fun j => if j < m then A j else (τ.up 1).outline)
    (fun j _ hlt => if_pos hlt) (by rw [if_neg (Nat.lt_irrefl m)]; exact .refl _)
  have hadmits : ∀ k, p.Boundary k → k < p.chunk.size → ∃ i, p.chunk.fetch k = .ok i ∧
      p.Admits (fun j => if j < m then A j else (τ.up 1).outline) k i ∧
      p.Tidy (fun j => if j < m then A j else (τ.up 1).outline) k i := by
    intro k hk hlt
    by_cases hkm : k < m
    · exact hall .refl (by omega) nofun k hk hkm
    · cases Segment.eq_of_walk hr (h.walk.compare hk (by omega)) (by change k < m + 1; omega)
      refine ⟨_, hr, ⟨⟨trivial, ?_, fun s hs => ?_⟩, nofun⟩, fun hc => nomatch hc⟩
      · rw [if_neg (Nat.lt_irrefl m)]
        exact Nat.le_add_left 1 _
      · rw [if_neg (Nat.lt_irrefl m)] at hs ⊢
        obtain ⟨v, hv, _, rfl⟩ := Shape.mem_held.mp hs
        exact hτ v hv
  refine ⟨fun j => if j < m then A j else (τ.up 1).outline, ⟨h.walk.trans hw, hin.height.trans hh,
    fun k hk hlt => ?_, m, h.walk, hm.symm, hr, ?_⟩, fun k i hk hi => ?_⟩
  · obtain ⟨i, hi, ha, _⟩ := hadmits k hk hlt
    exact ⟨i, hi, ha⟩
  · rw [if_neg (Nat.lt_irrefl m)]
    change τ.height + 1 = _
    omega
  · obtain ⟨j, hj, _, ht⟩ := hadmits k hk (Chunk.fetch_lt hi)
    rw [hi] at hj
    cases hj
    exact ht

theorem LaysFn.neat {p : Proto} {outer : List Scene} {self : String} {as : List (Arity Expr)}
    (h : LaysFn p outer self as) : ∃ S, p.Neat S := by
  cases h with
  | @mk _ _ _ params body v τ m ha _ hs hd h hr hm =>
    have hfits : (Shape.mk 1 [v]).Fits none := by
      refine ⟨fun u hu => ?_, nofun⟩
      rw [List.mem_singleton.mp hu, hs]
      exact Nat.zero_lt_one
    have hg := hd.grown
    refine neat_of_segment (.body hg (h.segment (hg.fits_target hfits)))
      (hg.fits hfits).below ?_ hr hm
    rw [hg.height, ha, Nat.add_comm]

theorem LaysForm.neat {p : Proto} {e : Expr} (h : LaysForm p e) : ∃ S, p.Neat S := by
  obtain ⟨v, m, hv, hl, hr, hm⟩ := h.code
  have hfits : (Shape.mk 1 [v]).Fits none := by
    refine ⟨fun u hu => ?_, nofun⟩
    rw [List.mem_singleton.mp hu, hv]
    exact Nat.zero_lt_one
  exact neat_of_segment (hl.segment hfits) hfits.below (by rw [h.arity]) hr hm

theorem Proto.Laid.wellFormed {p : Proto} (h : p.Laid) : p.WellFormed := by
  induction h with
  | mk h _ ih =>
    obtain ⟨S, hS⟩ := h.neat
    exact .mk hS.toOutlined ih

theorem LaysForm.wellFormed {p : Proto} {e : Expr} (h : LaysForm p e) (hs : ∀ q ∈ p.subs, q.Laid) :
    p.WellFormed := by
  obtain ⟨S, hS⟩ := h.neat
  exact .mk hS.toOutlined fun q hq => (hs q hq).wellFormed

end TwinLisp
