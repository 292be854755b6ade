import TwinLisp.Proofs.Machine.Runs
import TwinLisp.Proofs.Variables.Abreast

/-! Instructions of well-formed code in both machines. An instruction takes the same values away in
both, and whatever it reads or writes in a slot or in a cell it reads or writes in a cell of the ideal
machine.

* `Facing`: an instruction that is due in both machines.
* `Facing.freed`, `Facing.arrive`: before an instruction and after it.
* `exec_tandem`, `endFrame_tandem`: every instruction but calls and the end of a function, and that
  one. -/

namespace TwinLisp

/-- Whatever an instruction takes away lies at the top. -/
theorem Instruction.le_spares {i : Instruction} (hi : i.op ≠ .recur) (height : Nat) :
    height - i.takes ≤ i.spares height := by
  obtain ⟨op, n, next⟩ := i
  cases op <;> first | exact absurd rfl hi | exact Nat.le_refl _ | exact Nat.sub_le _ _

namespace Machine.Ideal

open Act Typed

variable {B : Origin} {ρ ρ' : List Nat} {lim even d n m : Nat} {fs fs' : Array Activation}
  {a a' b : Activation} {i : Instruction}

/-- An instruction that is due in both machines. The ideal one has freed the slots that the instruction
takes away, so that its running function is `b`. -/
structure Facing (B : Origin) (ρ : List Nat) (lim : Nat) (fs fs' : Array Activation)
    (a a' b : Activation) (d n : Nat) (i : Instruction) : Prop where
  due : Due B.ground fs a d i
  fetched : a.closure.proto.chunk.fetch a.ip = .ok i
  stacked : Stacked ρ fs fs' a.base
  twin : Twin ρ a a'
  origin : Over B ρ (Showing fs' a') lim (fs'.push a')
  above : ∃ rest : Array Activation, fs' = B.frames ++ rest
  full : a'.closure.cells.size = a.closure.proto.captures.size + (n - a.base)
  low : B.ground.base ≤ a.base
  height : n = a.base + a.outline.height
  freed : b = a'.keeping (i.spares (n - a.base))
  ready : a.base + i.spares (n - a.base) ≤ lim

/-- Both machines before the instruction. -/
abbrev Before (B : Origin) (ρ : List Nat) (lim : Nat) (fs fs' : Array Activation)
    (a a' b : Activation) (d n : Nat) (i : Instruction) (s t : State) : Prop :=
  Inside B.ground fs a d i.next a.outline s ∧
    Work ρ (Showing fs' a') lim a.base (fs.push { a with ip := i.next })
      (fs'.push { b with ip := i.next }) n s t

namespace Facing

variable (h : Facing B ρ lim fs fs' a a' b d n i)

include h

theorem shown_lt {x j : Nat} (hx : Shown fs' x j) : x < a'.base :=
  h.twin.base.symm ▸ h.stacked.lt_of_shown hx

theorem showing_iff (x j : Nat) : Showing fs' b x j ↔
    (Showing fs' a').below (a.base + i.spares (n - a.base)) x j := by
  rw [h.freed, showing_keeping (fun _ _ hx => h.shown_lt hx), h.twin.base]

theorem lt_of_showing {x j : Nat} (hx : Showing fs' b x j) : x < a.base + i.spares (n - a.base) :=
  ((h.showing_iff x j).mp hx).2

theorem lt_lim {x j : Nat} (hx : Showing fs' b x j) : x < lim :=
  Nat.lt_of_lt_of_le (h.lt_of_showing hx) h.ready

/-- Values that are taken away lie above all slots that show cells. -/
theorem lt_of_takes {k : Nat} (hs : ∀ height, i.spares height = height - k)
    (hk : k ≤ a.outline.height) {x j : Nat} (hx : Showing fs' b x j) : x < n - k := by
  have hlt := h.lt_of_showing hx
  have hheight := h.height
  rw [hs] at hlt
  omega

theorem cell {x : Nat} (hx : x < a.outline.height) : ∃ j, a'.cell? (a.base + x) = some j ∧
    a'.closure.cells[a'.closure.proto.captures.size + x]? = some j := by
  have hheight := h.height
  have hlt : a'.closure.proto.captures.size + x < a'.closure.cells.size := by
    rw [h.full, h.twin.proto]
    omega
  have hget := Array.getElem?_eq_getElem hlt
  refine ⟨_, cell?_eq_some_iff.mpr ⟨by rw [h.twin.base]; omega, ?_⟩, hget⟩
  rw [h.twin.base, Nat.add_sub_cancel_left]
  exact hget

/-- A slot that an instruction leaves alone shows its cell all the time. -/
theorem showing {x j : Nat} (hx : a.base + x < a.base + i.spares (n - a.base))
    (hj : a'.cell? (a.base + x) = some j) : Showing fs' b (a.base + x) j :=
  (h.showing_iff _ _).mpr ⟨.inr hj, hx⟩

theorem overFreed (t : Nat) : Over B ρ (Showing fs' b) lim (fs'.push { b with ip := t }) := by
  have hb := h.origin.cut (m := a.base + i.spares (n - a.base))
    (Nat.le_trans h.low (Nat.le_add_right _ _))
  refine ⟨hb.world, hb.low, exists_push h.above _, fun x hx j => ?_⟩
  rw [h.showing_iff]
  exact hb.below x hx j

theorem freedWork (hi : i.op ≠ .recur) {s t : State} (hs : Before B ρ lim fs fs' a a' b d n i s t) :
    Work ρ (Showing fs' b) lim a.base (fs.push { a with ip := i.next })
      (fs'.push { b with ip := i.next }) n s t := by
  have hheight := h.height
  refine (hs.2.cut (Nat.le_add_right _ _) ?_).as h.showing_iff
  refine hs.1.slot_lt fun s hs => Nat.lt_of_lt_of_le (h.due.admits.fits.kept s hs) ?_
  have := Instruction.le_spares hi (n - a.base)
  rwa [show n - a.base = a.outline.height by omega] at this ⊢

theorem twinFreed (hρ : ρ <+: ρ') {t : Nat} (ht : t ∈ a.closure.proto.targets i) :
    Twin ρ' { a with ip := t } { b with ip := t } := by
  have := ((h.twin.keeping (i.spares (n - a.base))).move h.fetched ht).mono hρ
  rwa [← h.freed] at this

theorem arrive (hρ : ρ <+: ρ') {t : Nat} (ht : t ∈ a.closure.proto.targets i) {lim' m : Nat}
    (hl : ∀ x j, Showing fs' b x j → x < lim') (hlim : B.ground.base ≤ lim') (hm : a.base ≤ m)
    {s t' : State} (hw : Work ρ' (Showing fs' b) lim' even (fs.push { a with ip := t })
      (fs'.push { b with ip := t }) m s t') : Abreast B s t' :=
  ⟨ρ', lim', fs, fs', { a with ip := t }, { b with ip := t }, m, h.stacked.mono hρ, h.twinFreed hρ ht,
    ((h.overFreed t).mono hρ).ofLim hlim, h.above, hm, .inl hl, hw.odd⟩

end Facing

/-- Both go on after an instruction. -/
abbrev Proceeds (B : Origin) (P : State → State → Prop) (x y : Run (Option Value)) : Prop :=
  Paired B P x y fun o o' s t => o' = o ∧ o = none ∧ Abreast B s t

/-! ## What instructions are made of -/

section Parts

variable {W : Display}

section Same

variable {P R : State → State → Prop}

theorem constant_tandem (hp : a'.closure.proto = a.closure.proto) (hR : ∀ s t, P s t → R s t)
    (k : Nat) : Tandem P (constant a k) (constant a' k) (fun u v s t => v = u ∧ P s t) R := by
  unfold constant
  rw [hp]
  cases a.closure.proto.chunk.constants[k]? with
  | none => exact Run.fail_tandem hR
  | some v => exact .pure fun _ _ h => ⟨rfl, h⟩

theorem varConstant_tandem (hp : a'.closure.proto = a.closure.proto) (hR : ∀ s t, P s t → R s t)
    (k : Nat) : Tandem P (varConstant a k) (varConstant a' k) (fun u v s t => v = u ∧ P s t) R := by
  refine (constant_tandem hp hR k).bind_same fun v => ?_
  cases v with
  | var x => exact .pure fun _ _ h => ⟨rfl, h⟩
  | _ => exact Run.fail_tandem hR

theorem mapOf_tandem (hR : ∀ s t, P s t → R s t) (items : List Value) :
    Tandem P (mapOf items) (mapOf items) (fun u v s t => v = u ∧ P s t) R := by
  unfold mapOf
  dsimp only
  split
  · exact Run.fail_tandem hR
  · exact .pure fun _ _ h => ⟨rfl, h⟩

theorem setOf_tandem (hR : ∀ s t, P s t → R s t) (items : List Value) :
    Tandem P (Machine.setOf items) (Machine.setOf items) (fun u v s t => v = u ∧ P s t) R := by
  unfold Machine.setOf
  split
  · exact Run.fail_tandem hR
  · exact .pure fun _ _ h => ⟨rfl, h⟩

theorem ofFault_tandem {α : Type} (hR : ∀ s t, P s t → R s t) (r : Except RuntimeFault α) :
    Tandem P (Run.ofFault r) (Run.ofFault r) (fun u v s t => v = u ∧ P s t) R :=
  Run.ofFault_tandem (fun _ _ _ h => ⟨rfl, h⟩) hR

end Same

theorem deref_tandem (ho : Over B ρ W lim fs') (v : Var) (span : Span) :
    Paired B (Work ρ W lim even fs fs' n) (Run.deref v span) (Run.deref v span)
      fun u v s t => v = u ∧ Work ρ W lim even fs fs' n s t := by
  refine Tandem.bind_same (Q := fun _ => Work ρ W lim even fs fs' n)
    (.askStore fun s t h => ⟨?_, h⟩) fun o => ?_
  · rw [h.doubles.store]
    rfl
  · cases o with
    | none => exact .raise fun _ _ h => h.torn ho
    | some x => exact .pure fun _ _ h => ⟨rfl, h⟩

theorem assign_tandem (v : Var) (x : Value) :
    Paired B (Work ρ W lim even fs fs' n) (Run.assign v x) (Run.assign v x)
      fun _ _ => Work ρ W lim even fs fs' n :=
  .updateStore fun s t h => {
    rest := congrArg (fun u : State => { u with
      store := t.store.setVar v x
      machine := t.machine }) h.rest
    frames := h.frames
    frames' := h.frames'
    size := h.size
    even := h.even
    doubles := { h.doubles with
      store := by
        show t.store.setVar v x = _
        rw [h.doubles.store]
        rfl } }

theorem binary_tandem (ho : Over B ρ W lim fs') (hW : ∀ x j, W x j → x < n - 2)
    (op : Value → Value → Except RuntimeFault Value) :
    Paired B (Work ρ W lim even fs fs' n) (binary op) (binary op)
      fun _ _ => Work ρ W lim even fs fs' (n - 2 + 1) := by
  have hle : n - 1 - 1 = n - 2 := by omega
  refine (pop_tandem ho fun x j hx => ?_).bind_same fun y => ?_
  · have := hW x j hx
    omega
  refine (pop_tandem ho fun x j hx => hle ▸ hW x j hx).bind_same fun x => ?_
  rw [hle]
  exact (ofFault_tandem (P := Work ρ W lim even fs fs' (n - 2)) (fun _ _ h => h.torn ho)
    (op x y)).bind_same fun v => push_tandem ho v

theorem jump_tandem {ip t : Nat} {distance : Int}
    (ht : (ip : Int) + distance = t) :
    Paired B (Work ρ W lim even (fs.push a) (fs'.push b) n) (jump ip distance) (jump ip distance)
      fun _ _ => Work ρ W lim even (fs.push { a with ip := t }) (fs'.push { b with ip := t }) n := by
  have hlt : ¬ (ip : Int) + distance < 0 := by omega
  have hto : ((ip : Int) + distance).toNat = t := by omega
  unfold jump
  rw [if_neg hlt, hto]
  exact goTo_tandem t

end Parts

/-! ## Single instructions -/

namespace Facing

variable (h : Facing B ρ lim fs fs' a a' b d n i) {P : State → State → Prop}

include h

theorem proceed (ht : i.next ∈ a.closure.proto.targets i) (hm : a.base ≤ m) {x y : Run Unit}
    (hx : Paired B P x y fun _ _ => Work ρ (Showing fs' b) lim even
      (fs.push { a with ip := i.next }) (fs'.push { b with ip := i.next }) m) :
    Proceeds B P (do x; return none) (do y; return none) :=
  hx.bind fun _ _ => .pure fun _ _ hw =>
    ⟨rfl, rfl, h.arrive (List.prefix_refl ρ) ht (fun _ _ => h.lt_lim) h.origin.low hm hw⟩

end Facing

/-- Both machines before an instruction that finds the slots freed. -/
abbrev Free (ρ : List Nat) (lim : Nat) (fs fs' : Array Activation) (a b : Activation) (next n : Nat) :
    State → State → Prop :=
  Work ρ (Showing fs' b) lim a.base (fs.push { a with ip := next }) (fs'.push { b with ip := next }) n

section Single

variable {operand next : Nat} {op : Opcode} (h : Facing B ρ lim fs fs' a a' b d n ⟨op, operand, next⟩)
  (call call' : Caller) (entry : Nat)

include h

/-- An instruction other than `recur` finds the slots freed. -/
theorem Facing.free (hi : op ≠ .recur) {x y : Run (Option Value)}
    (hx : Proceeds B (Free ρ lim fs fs' a b next n) x y) :
    Proceeds B (Before B ρ lim fs fs' a a' b d n ⟨op, operand, next⟩) x y :=
  hx.pre fun _ _ hs => h.freedWork hi hs

theorem Facing.torn {s t : State} (hs : Work ρ (Showing fs' b) lim even
    (fs.push { a with ip := next }) (fs'.push { b with ip := next }) m s t) : Torn B s t :=
  hs.torn (h.overFreed next)

theorem Facing.push (ht : next ∈ a.closure.proto.targets ⟨op, operand, next⟩) (v : Value)
    (hm : a.base ≤ m) :
    Proceeds B (Work ρ (Showing fs' b) lim even (fs.push { a with ip := next })
        (fs'.push { b with ip := next }) m)
      (do Machine.push v; return none) (do Machine.push v; return none) :=
  h.proceed ht (Nat.le_succ_of_le hm) (push_tandem (h.overFreed next) v)

end Single

/-! ## New functions -/

theorem slotCell_eq {k j : Nat}
    (hj : a'.closure.cells[a'.closure.proto.captures.size + k]? = some j) :
    slotCell a' k = Pure.pure j := by
  unfold slotCell cellOf
  rw [hj]

section Closures

variable {operand next : Nat} (h : Facing B ρ lim fs fs' a a' b d n ⟨.closure, operand, next⟩)

include h

/-- The captured cells are the open cells of slots in one machine and the cells of slots in the other. -/
theorem captures_tandem {p : Proto} {count ip : Nat} (acc acc' : Array Nat) (hρ : ρ <+: ρ')
    (hacc : Copies ρ' ⟨p, acc⟩ ⟨p, acc'⟩)
    (hp : ∀ j < count, ∃ c : Capture,
      a.closure.proto.chunk.code[ip + 2 * j]? = some (if c.isLocal then 1 else 0) ∧
      a.closure.proto.chunk.code[ip + 2 * j + 1]? = some c.index ∧
      a.closure.proto.Reaches a.outline c) :
    Paired B (Free ρ' lim fs fs' a b next n) (Machine.captures a acc count ip)
      (captures a' acc' count ip) fun r r' s t => r'.2 = r.2 ∧ r.2 = ip + 2 * count ∧
        ∃ ρ₂, ρ' <+: ρ₂ ∧ Copies ρ₂ ⟨p, r.1⟩ ⟨p, r'.1⟩ ∧ Free ρ₂ lim fs fs' a b next n s t := by
  induction count generalizing ip acc acc' ρ' with
  | zero => exact .pure fun s t hs => ⟨rfl, rfl, ρ', List.prefix_refl ρ', hacc, hs⟩
  | succ count ih =>
    obtain ⟨c, hl, hx, hreach⟩ := hp 0 (Nat.zero_lt_succ _)
    rw [Nat.mul_zero, Nat.add_zero] at hl hx
    unfold Machine.captures captures
    simp only [h.twin.proto, hl, hx]
    have hrest : ∀ {ρ₁ : List Nat} (id j : Nat), ρ' <+: ρ₁ → ρ₁[id]? = some j →
        Paired B (Free ρ₁ lim fs fs' a b next n) (Machine.captures a (acc.push id) count (ip + 2))
          (captures a' (acc'.push j) count (ip + 2)) fun r r' s t =>
            r'.2 = r.2 ∧ r.2 = ip + 2 * (count + 1) ∧ ∃ ρ₂, ρ' <+: ρ₂ ∧
              Copies ρ₂ ⟨p, r.1⟩ ⟨p, r'.1⟩ ∧ Free ρ₂ lim fs fs' a b next n s t := by
      intro ρ₁ id j hρ₁ hj
      refine (ih _ _ (hρ.trans hρ₁) ((hacc.mono hρ₁).push hj) fun k hk => ?_).post
        fun r r' s t hr => ?_
      · obtain ⟨c, hl, hx, hc⟩ := hp (k + 1) (Nat.succ_lt_succ hk)
        refine ⟨c, ?_, ?_, hc⟩
        · rw [← hl]
          congr 1
          omega
        · rw [← hx]
          congr 1
          omega
      · obtain ⟨he, hto, ρ₂, hρ₂, hr⟩ := hr
        exact ⟨he, by omega, ρ₂, hρ₁.trans hρ₂, hr⟩
    unfold Proto.Reaches at hreach
    cases hloc : c.isLocal with
    | true =>
      rw [hloc] at hreach
      simp only [if_true] at hreach
      have hne : ¬ ((1 : UInt8) = 0) := by decide
      obtain ⟨j, hcell, hj⟩ := h.cell hreach.2
      have hheight := h.height
      have hshow : Showing fs' b (a.base + c.index.toNat) j := h.showing (by
        show _ < a.base + (n - a.base - 0)
        have := hreach.2
        omega) hcell
      simp only [if_true, if_neg hne, slotCell_eq hj]
      refine (openCell_tandem hshow (h.lt_lim hshow)).bind fun id j' s t hs => ?_
      obtain ⟨rfl, ρ₁, hρ₁, hid, hs⟩ := hs
      exact hrest id j' hρ₁ hid s t hs
    | false =>
      rw [hloc] at hreach
      simp only [Bool.false_eq_true, if_false] at hreach ⊢
      simp only [if_true]
      exact (cellOf_tandem (h.twin.mono hρ) hreach).bind fun id j => Tandem.given fun hid =>
        hrest id j (List.prefix_refl ρ') hid

/-- A new function holds cells that stand for those of the other one. -/
theorem makeClosure_tandem :
    Paired B (Free ρ lim fs fs' a b next n) (Machine.makeClosure a ⟨.closure, operand, next⟩)
      (makeClosure a' ⟨.closure, operand, next⟩) fun _ _ => Abreast B := by
  obtain ⟨q, hq, hpairs, hreach⟩ := h.due.admits.fits.means
  have hnext : next + 2 * q.captures.size ∈ a.closure.proto.targets ⟨.closure, operand, next⟩ := by
    rw [Proto.targets, Proto.next]
    simp only [hq, List.mem_singleton]
  have hheight := h.height
  unfold Machine.makeClosure makeClosure
  simp only [h.twin.proto, hq]
  refine (captures_tandem h (p := q) #[] #[] (List.prefix_refl ρ)
    ⟨rfl, rfl, fun i id hi => by cases hi⟩ fun j hj => ?_).bind fun r r' => ?_
  · have hc := Array.getElem?_eq_getElem hj
    exact ⟨_, (hpairs j _ hc).1, (hpairs j _ hc).2, hreach _ (Array.getElem_mem hj)⟩
  · obtain ⟨cells, after⟩ := r
    obtain ⟨cells', after'⟩ := r'
    rintro s t ⟨rfl, rfl, ρ₂, hρ₂, hcopies, hs⟩
    refine Tandem.bind (goTo_tandem (next + 2 * q.captures.size)) (fun _ _ => ?_) s t hs
    refine (newClosure_tandem hcopies).bind_same fun id => ?_
    exact (push_tandem ((h.overFreed _).mono hρ₂) _).post fun _ _ _ _ hw =>
      h.arrive hρ₂ hnext (fun _ _ => h.lt_lim) h.origin.low (by omega) hw

end Closures

/-! ## Instructions -/

theorem Facing.leap {operand next : Nat} {op : Opcode}
    (h : Facing B ρ lim fs fs' a a' b d n ⟨op, operand, next⟩) {t : Nat} {distance : Int}
    (hto : (next : Int) + distance = t) (ht : t ∈ a.closure.proto.targets ⟨op, operand, next⟩)
    (hm : a.base ≤ m) :
    Proceeds B (Work ρ (Showing fs' b) lim even (fs.push { a with ip := next })
        (fs'.push { b with ip := next }) m)
      (do jump next distance; return none) (do jump next distance; return none) :=
  (jump_tandem hto).bind fun _ _ => .pure fun _ _ hw =>
    ⟨rfl, rfl, h.arrive (List.prefix_refl ρ) ht (fun _ _ => h.lt_lim) h.origin.low hm hw⟩

/-- Closing cells does nothing in the ideal machine, where all cells are closed. The slots of the others
are dropped next. -/
theorem closeUpvalue_tandem {operand next : Nat}
    (h : Facing B ρ lim fs fs' a a' b d n ⟨.closeUpvalue, operand, next⟩) :
    Proceeds B (Free ρ lim fs fs' a b next n) (do closeSlots (a.base + operand); return none)
      (return none) := by
  have hheight := h.height
  have hmeans : operand < a.outline.height := h.due.admits.fits.means
  have hready : a.base + (n - a.base) ≤ lim := h.ready
  have ht : next ∈ a.closure.proto.targets ⟨.closeUpvalue, operand, next⟩ := List.mem_singleton.mpr rfl
  obtain ⟨m, hm, hle⟩ := h.due.between.sound.code.closing h.due.between.wellFormed h.twin.visits
    h.fetched
  have hlim : min lim (a.base + operand) = a.base + operand := Nat.min_eq_right (by omega)
  have hclose : Paired B (Free ρ lim fs fs' a b next n) (closeSlots (a.base + operand)) (Pure.pure ())
      fun _ _ => Work ρ (Showing fs' b) (a.base + operand) a.base (fs.push { a with ip := next })
        (fs'.push { b with ip := next }) n :=
    (closeSlots_pure (a.base + operand)).post fun _ _ _ _ hw => by rwa [hlim] at hw
  refine hclose.bind fun _ _ => .pure fun s t hw => ⟨rfl, rfl, ?_⟩
  have hdrop : n ≤ a.base + operand + (m + 1) := by
    have hle : a.outline.height ≤ operand + m + 1 := hle
    omega
  exact ⟨ρ, a.base + operand, fs, fs', { a with ip := next }, { b with ip := next }, n, h.stacked,
    h.twinFreed (List.prefix_refl ρ) ht,
    (h.overFreed next).ofLim (Nat.le_trans h.low (Nat.le_add_right _ _)), h.above,
    hheight ▸ Nat.le_add_right _ _, .inr ⟨m, hm, hdrop⟩, hw.odd⟩

theorem recur_tandem {operand next : Nat} (call call' : Caller) (entry : Nat)
    (h : Facing B ρ lim fs fs' a a' b d n ⟨.recur, operand, next⟩) :
    Proceeds B (Before B ρ lim fs fs' a a' b d n ⟨.recur, operand, next⟩)
      (Machine.exec call entry a ⟨.recur, operand, next⟩)
      (Machine.exec call' entry a' ⟨.recur, operand, next⟩) := by
  have hheight := h.height
  have ho := h.overFreed next
  have hmeans : operand % 256 + operand / 256 ≤ a.outline.height := h.due.admits.fits.means
  have hready : a.base + operand % 256 ≤ lim := h.ready
  have hlt : ∀ x j, Showing fs' b x j → x < a.base + operand % 256 := fun _ _ => h.lt_of_showing
  show Proceeds B _
    (do closeSlots (a.base + operand % 256)
        let args ← popMany (operand / 256)
        truncate (a.base + operand % 256)
        append args
        return none)
    (do closeSlots (a'.base + operand % 256)
        let args ← popMany (operand / 256)
        truncate (a'.base + operand % 256)
        append args
        return none)
  rw [h.twin.base]
  have hclose : Paired B (Before B ρ lim fs fs' a a' b d n ⟨.recur, operand, next⟩)
      (closeSlots (a.base + operand % 256)) (closeSlots (a.base + operand % 256))
      fun _ _ => Free ρ lim fs fs' a b next n :=
    (closeSlots_cut (Nat.le_add_right _ _) hready).imp (fun _ _ hs => hs.2)
      (fun _ _ _ _ hs => hs.as h.showing_iff) fun _ _ hs => hs
  refine hclose.bind fun _ _ => (popMany_tandem ho fun x j hx => ?_).bind_same fun args => ?_
  · have := hlt x j hx
    omega
  · refine (truncate_tandem (by omega) hlt).bind fun _ _ => ?_
    exact h.proceed (List.mem_singleton.mpr rfl) (by omega) (append_tandem args)

theorem exec_tandem {call call' : Caller} {entry : Nat} (h : Facing B ρ lim fs fs' a a' b d n i)
    (hret : i.op ≠ .ret) (hcall : i.op ≠ .call) :
    Proceeds B (Before B ρ lim fs fs' a a' b d n i) (Machine.exec call entry a i)
      (exec call' entry a' i) := by
  obtain ⟨op, operand, next⟩ := i
  have hheight : n = a.base + a.outline.height := h.height
  have htakes : Instruction.takes ⟨op, operand, next⟩ ≤ a.outline.height := h.due.admits.fits.takes
  have hmeans := h.due.admits.fits.means
  have hproto := h.twin.proto
  have ho := h.overFreed next
  have hnext : ∀ {x : Nat}, x = next → x ∈ [next] := List.mem_singleton.mpr
  cases op with
  | const =>
    refine h.free (by simp) ((constant_tandem hproto (fun _ _ => h.torn) operand).bind_same fun v => ?_)
    exact h.push (hnext rfl) v (by omega)
  | nil | true | false => exact h.free (by simp) (h.push (hnext rfl) _ (by omega))
  | pop =>
    have htakes : 1 ≤ a.outline.height := htakes
    exact h.free (by simp) (h.proceed (hnext rfl) (m := n - 1) (by omega)
      ((pop_tandem ho fun _ _ => h.lt_of_takes (fun _ => rfl) htakes).bind fun _ _ =>
        .pure fun _ _ hs => hs.2))
  | popN =>
    have htakes : operand + 1 ≤ a.outline.height := htakes
    have hlt : ∀ x j, Showing fs' b x j → x < n - 1 - operand := fun x j hx => by
      have := h.lt_of_takes (k := operand + 1) (fun _ => rfl) htakes hx
      omega
    refine h.free (by simp) ((pop_tandem ho fun x j hx => ?_).bind_same fun v => ?_)
    · have := hlt x j hx
      omega
    · exact (drop_tandem ho hlt).bind fun _ _ => h.push (hnext rfl) v (by omega)
  | getLocal =>
    obtain ⟨j, hcell, hj⟩ := h.cell hmeans
    have hmeans : operand < a.outline.height := hmeans
    have hshow : Showing fs' b (a.base + operand) j := h.showing (by
      show _ < a.base + (n - a.base - 0)
      omega) hcell
    refine h.free (by simp) ?_
    show Proceeds B _ (do Machine.push (← slot (a.base + operand)); return none)
      (do Machine.push (← readCell (← slotCell a' operand)); return none)
    rw [slotCell_eq hj, pure_bind]
    exact (slot_readCell hshow).bind_same fun v => h.push (hnext rfl) v (by omega)
  | setLocal =>
    have htakes : 1 ≤ a.outline.height := htakes
    obtain ⟨j, hcell, hj⟩ := h.cell hmeans
    have hmeans : operand < a.outline.height := hmeans
    have hshow : Showing fs' b (a.base + operand) j := h.showing (by
      show _ < a.base + (n - a.base)
      omega) hcell
    refine h.free (by simp) ?_
    show Proceeds B _ (do setSlot (a.base + operand) (← top); return none)
      (do let id ← slotCell a' operand; writeCell id (← top); return none)
    rw [slotCell_eq hj, pure_bind]
    exact (top_tandem ho (by omega)).bind_same fun v => h.proceed (hnext rfl) (by omega)
      (setSlot_writeCell hshow (h.lt_lim hshow) v)
  | getUpvalue =>
    refine h.free (by simp) ((cellOf_tandem h.twin hmeans).bind fun id j => Tandem.given fun hj => ?_)
    exact (readCell_tandem hj).bind_same fun v => h.push (hnext rfl) v (by omega)
  | setUpvalue =>
    have htakes : 1 ≤ a.outline.height := htakes
    refine h.free (by simp) ((cellOf_tandem h.twin hmeans).bind fun id j => Tandem.given fun hj => ?_)
    exact (top_tandem ho (by omega)).bind_same fun v => h.proceed (hnext rfl) (by omega)
      (writeCell_tandem hj (fun _ _ => h.lt_lim) v)
  | closeUpvalue => exact h.free (by simp) (closeUpvalue_tandem h)
  | getVar =>
    refine h.free (by simp) ((varConstant_tandem hproto (fun _ _ => h.torn) operand).bind_same fun v => ?_)
    exact (deref_tandem ho v _).bind_same fun x => h.push (hnext rfl) x (by omega)
  | setVar =>
    have htakes : 1 ≤ a.outline.height := htakes
    refine h.free (by simp) ((top_tandem ho (by omega)).bind_same fun x => ?_)
    refine (varConstant_tandem hproto (fun _ _ => h.torn) operand).bind_same fun v => ?_
    exact h.proceed (hnext rfl) (by omega) (assign_tandem v x)
  | add | subtract | multiply | divide | less | greater | equal =>
    have htakes : 2 ≤ a.outline.height := htakes
    exact h.free (by simp) (h.proceed (hnext rfl) (m := n - 2 + 1) (by omega)
      (binary_tandem ho (fun _ _ => h.lt_of_takes (fun _ => rfl) htakes) _))
  | negate =>
    have htakes : 1 ≤ a.outline.height := htakes
    refine h.free (by simp) ((pop_tandem ho fun _ _ =>
      h.lt_of_takes (fun _ => rfl) htakes).bind_same fun x => ?_)
    exact (ofFault_tandem (fun _ _ => h.torn) (Number.negate x)).bind_same fun v =>
      h.push (hnext rfl) v (by omega)
  | not =>
    have htakes : 1 ≤ a.outline.height := htakes
    exact h.free (by simp) ((pop_tandem ho fun _ _ =>
      h.lt_of_takes (fun _ => rfl) htakes).bind_same fun x => h.push (hnext rfl) _ (by omega))
  | jump =>
    have hmeans : operand < 32768 := hmeans
    refine h.free (by simp) (h.leap (t := next + operand) ?_ (List.mem_singleton.mpr rfl) (by omega))
    rw [Chunk.signedWord, if_pos hmeans]
    rfl
  | jumpIfFalse =>
    have hmeans : operand < 32768 := hmeans
    have htakes : 1 ≤ a.outline.height := htakes
    refine h.free (by simp) ((pop_tandem ho fun _ _ =>
      h.lt_of_takes (fun _ => rfl) htakes).bind_same fun x => ?_)
    split
    · exact .pure fun _ _ hw => ⟨rfl, rfl, h.arrive (List.prefix_refl ρ) List.mem_cons_self
        (fun _ _ => h.lt_lim) h.origin.low (by omega) hw⟩
    · refine h.leap (t := next + operand) ?_ (List.mem_cons_of_mem _ List.mem_cons_self) (by omega)
      rw [Chunk.signedWord, if_pos hmeans]
      rfl
  | loop =>
    have hmeans : operand ≤ next := hmeans
    refine h.free (by simp) (h.leap (t := next - operand) ?_ (List.mem_singleton.mpr rfl) (by omega))
    dsimp only
    omega
  | call => exact absurd rfl hcall
  | closure =>
    exact h.free (by simp) ((makeClosure_tandem h).bind fun _ _ => .pure fun _ _ hs => ⟨rfl, rfl, hs⟩)
  | recur => exact recur_tandem call call' entry h
  | ret => exact absurd rfl hret
  | vector =>
    have htakes : operand ≤ a.outline.height := htakes
    refine h.free (by simp) ((popMany_tandem ho fun _ _ =>
      h.lt_of_takes (fun _ => rfl) htakes).bind_same fun vs => ?_)
    exact h.push (hnext rfl) _ (by omega)
  | map =>
    have htakes : operand * 2 ≤ a.outline.height := htakes
    refine h.free (by simp) ((popMany_tandem ho fun _ _ =>
      h.lt_of_takes (fun _ => rfl) htakes).bind_same fun vs => ?_)
    exact (mapOf_tandem (fun _ _ => h.torn) vs).bind_same fun v => h.push (hnext rfl) v (by omega)
  | set =>
    have htakes : operand ≤ a.outline.height := htakes
    refine h.free (by simp) ((popMany_tandem ho fun _ _ =>
      h.lt_of_takes (fun _ => rfl) htakes).bind_same fun vs => ?_)
    exact (setOf_tandem (fun _ _ => h.torn) vs).bind_same fun v => h.push (hnext rfl) v (by omega)

/-! ## The end of a function -/

/-- Both runs have ended. -/
def Finished (B : Origin) (s t : State) : Prop :=
  ∃ ρ lim even fs n, B.world <+: ρ ∧ (∀ x j, Shown B.frames x j → x < lim) ∧
    Work ρ (Shown B.frames) lim even fs B.frames n s t

theorem exists_of_push {pre gs rest : Array Activation} {c : Activation}
    (h : gs.push c = pre ++ rest) (hs : pre.size ≤ gs.size) :
    ∃ rest : Array Activation, gs = pre ++ rest := by
  have hpos : rest ≠ #[] := by
    rintro rfl
    have := congrArg Array.size h
    simp at this
    omega
  have hpop : (gs.push c).pop = gs := Array.pop_push
  refine ⟨rest.pop, ?_⟩
  rw [← hpop, h, Array.pop_append, if_neg (by simpa using hpos)]

theorem abreast_of_stacked {top : Nat} (h : Stacked ρ fs fs' top) (ho : Over B ρ (Shown fs') lim fs')
    (hs : B.frames.size < fs'.size) (hl : ∀ x j, Shown fs' x j → x < lim) (hm : top ≤ m) {s t : State}
    (hw : Work ρ (Shown fs') lim even fs fs' m s t) : Abreast B s t := by
  obtain ⟨rest, hrest⟩ := ho.frames
  cases h with
  | nil => exact absurd hs (Nat.not_lt_zero _)
  | @push gs gs' c c' _ h hc _ htop =>
    rw [Array.size_push] at hs
    have hshown : ∀ x j, Showing gs' c' x j ↔ Shown (gs'.push c') x j := fun _ _ => shown_push.symm
    exact ⟨ρ, lim, gs, gs', c, c', m, h, hc, { ho with
        below := fun x hx j => (hshown x j).trans (ho.below x hx j) },
      exists_of_push hrest (Nat.le_of_lt_succ hs), Nat.le_trans htop hm,
      .inl fun x j hx => hl x j ((hshown x j).mp hx), (hw.as hshown).odd⟩

/-- When a function ends, its slots are gone in both machines. The function below goes on, or the run
has ended. -/
theorem endFrame_tandem {operand next : Nat}
    (h : Facing B ρ lim fs fs' a a' b d n ⟨.ret, operand, next⟩) :
    Paired B (Free ρ lim fs fs' a b next n) (endFrame a B.frames.size) (endFrame a' B.frames.size)
      fun o o' s t => o' = o ∧ (o = none ∧ Abreast B s t ∨ o ≠ none ∧ Finished B s t) := by
  have hheight := h.height
  have hready : a.base + (n - a.base - 1) ≤ lim := h.ready
  have htakes : 1 ≤ a.outline.height := h.due.admits.fits.takes
  have ho := h.overFreed next
  have hbelow : ∀ x j, Shown fs' x j ↔ (Showing fs' b).below a.base x j := fun x j => by
    refine ⟨fun hx => ⟨.inl hx, h.stacked.lt_of_shown hx⟩, ?_⟩
    rintro ⟨hx | hx, hlt⟩
    · exact hx
    · have := base_le_of_cell? hx
      rw [h.freed] at this
      exact absurd hlt (Nat.not_lt.mpr (h.twin.base ▸ this))
  have hlim : ∀ x j, Shown fs' x j → x < lim := fun x j hx => by
    have := h.stacked.lt_of_shown hx
    omega
  have hover : ∀ {gs'}, (∃ rest : Array Activation, gs' = B.frames ++ rest) →
      Over B ρ (Shown fs') lim gs' := fun hg =>
    ⟨ho.world, ho.low, hg, fun x hx j => (hbelow x j).trans
      ((and_iff_left (Nat.lt_of_lt_of_le hx h.low)).trans (ho.below x hx j))⟩
  rw [endFrame_eq, endFrame_eq, h.twin.base, h.twin.counted]
  refine (pop_tandem ho fun _ _ => h.lt_of_takes (fun _ => rfl) htakes).bind_same fun v => ?_
  refine Tandem.bind (Q := fun _ _ => Work ρ (Shown fs') lim a.base (fs.push { a with ip := next })
    (fs'.push { b with ip := next }) (n - 1)) ?_ fun _ _ => ?_
  · exact (closeSlots_cut (Nat.le_refl _) (by omega)).post fun _ _ _ _ hw => hw.as hbelow
  refine (truncate_tandem (m := a.base) (by omega) fun _ _ => h.stacked.lt_of_shown).bind
    fun _ _ => ?_
  refine Tandem.bind (Q := fun _ _ => Work ρ (Shown fs') lim a.base fs fs' a.base)
    (.update fun s t hw => ?_) fun _ _ => ?_
  · have := (hw.mapFrames Array.pop Array.pop).atDepth (· - a.counted.toNat)
    rwa [Array.pop_push, Array.pop_push] at this
  refine Tandem.bind_same (Q := fun size s t => size = fs'.size ∧
    Work ρ (Shown fs') lim a.base fs fs' a.base s t) (.ask fun s t hw => ?_) fun size =>
      Tandem.given fun hsize => ?_
  · rw [hw.frames, hw.frames', h.stacked.size_eq]
    exact ⟨rfl, rfl, hw⟩
  subst hsize
  obtain ⟨rest, hrest⟩ := h.above
  by_cases hle : fs'.size ≤ B.frames.size
  · -- nothing stands above the frames that were there before
    have hnil : fs' = B.frames := by
      have hsize := congrArg Array.size hrest
      rw [Array.size_append] at hsize
      rw [hrest, Array.size_eq_zero_iff.mp (show rest.size = 0 by omega), Array.append_empty]
    rw [if_pos hle]
    exact .pure fun s t hw => ⟨rfl, .inr ⟨nofun, ρ, lim, a.base, fs, a.base, h.origin.world,
      hnil ▸ hlim, hnil ▸ hw⟩⟩
  · rw [if_neg hle]
    refine (push_tandem (hover ⟨rest, hrest⟩) v).bind fun _ _ => .pure fun s t hw =>
      ⟨rfl, .inl ⟨rfl, ?_⟩⟩
    exact abreast_of_stacked h.stacked (hover ⟨rest, hrest⟩) (Nat.not_le.mp hle) hlim
      (Nat.le_succ _) hw

end Machine.Ideal

end TwinLisp
