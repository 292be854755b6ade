import TwinLisp.Bytecode.Listing
import TwinLisp.Proofs.Machine.Survival

/-! Listings beside the machine. Both read the bytes of any code alike: a listing shows what the
machine reads, and the machine goes where the listing says. A listing takes the whole code apart,
whatever its bytes are.

* `Proto.entry`, `Proto.shown?`: a listing made of what the machine reads.
* `Proto.Tiles`: the offsets of a listing.
* `Proto.Goes`: where a listing says that an instruction goes.
* `Machine.goes_as_listed`: both readings of a function. -/

namespace TwinLisp

namespace Chunk

variable {c : Chunk} {at_ : Nat}

/-! ## What can be read -/

theorem fetch_eq_ok {i : Instruction} (h : c.fetch at_ = .ok i) :
    ∃ b, c.code[at_]? = some b ∧ Opcode.ofByte? b = some i.op ∧
      c.operand? (at_ + 1) i.op.width = some i.operand ∧ i.next = at_ + 1 + i.op.width := by
  unfold fetch at h
  split at h
  · cases h
  · rename_i b hb
    split at h
    · cases h
    · rename_i op hop
      split at h
      · cases h
      · rename_i n hn
        cases h
        exact ⟨b, hb, hop, hn, rfl⟩

theorem readWord?_eq_some {n : Nat} (h : c.readWord? at_ = some n) :
    at_ + 1 < c.size ∧ n = (c.code.getD at_ 0).toNat * 256 + (c.code.getD (at_ + 1) 0).toNat := by
  unfold readWord? at h
  split at h
  · rename_i x y hx hy
    cases h
    refine ⟨(Array.getElem?_eq_some_iff.mp hy).1, ?_⟩
    simp only [Chunk.wordOf, Array.getD_eq_getD_getElem?, hx, hy, Option.getD_some]
  · cases h

theorem readWord?_eq_none (h : c.readWord? at_ = none) : c.size ≤ at_ + 1 := by
  unfold readWord? at h
  split at h
  · cases h
  · rename_i hno
    by_contra hlt
    have h₁ : at_ + 1 < c.code.size := Nat.not_le.mp hlt
    exact hno _ _ (Array.getElem?_eq_getElem (Nat.lt_of_succ_lt h₁)) (Array.getElem?_eq_getElem h₁)

theorem getElem?_eq_getD (h : at_ < c.size) :
    c.code[at_]? = some (c.code.getD at_ 0) := by
  have hlt : at_ < c.code.size := h
  rw [Array.getD_eq_getD_getElem?, Array.getElem?_eq_getElem hlt, Option.getD_some]

theorem operand?_isSome {op : Opcode} (h : at_ < c.size) :
    (c.operand? (at_ + 1) op.width).isSome ↔ at_ + 1 + op.width ≤ c.size := by
  have hbyte : (c.code[at_ + 1]?.map UInt8.toNat).isSome ↔ at_ + 2 ≤ c.size := by
    rw [Option.isSome_map, isSome_getElem?]
    exact Iff.rfl
  have hword : (c.readWord? (at_ + 1)).isSome ↔ at_ + 3 ≤ c.size := by
    cases hw : c.readWord? (at_ + 1) with
    | none => exact iff_of_false nofun (Nat.not_le.mpr (Nat.lt_succ_of_le (readWord?_eq_none hw)))
    | some n => exact iff_of_true rfl (readWord?_eq_some hw).1
  cases op <;> first | exact iff_of_true rfl h | exact hbyte | exact hword

theorem next_le_size {i : Instruction} (h : c.fetch at_ = .ok i) : i.next ≤ c.size := by
  obtain ⟨b, _, _, hn, hnext⟩ := fetch_eq_ok h
  rw [hnext]
  exact (operand?_isSome (fetch_lt h)).mp (Option.isSome_of_mem hn)

end Chunk

namespace Proto

variable (p : Proto)

/-! ## Listings of what the machine reads -/

/-- The lines of an instruction that has been read, and the offset of the next. -/
def entry (at_ : Nat) (i : Instruction) : List String × Nat :=
  let c := p.chunk
  let line (s : String) : List String := [gutter c at_ ++ s]
  match i.op with
  | .const | .getVar | .setVar =>
    (line (columns i.op (toString i.operand) ++ " (" ++ constantText c i.operand ++ ")"), i.next)
  | .popN | .getLocal | .setLocal | .getUpvalue | .setUpvalue | .closeUpvalue | .call | .vector
  | .map | .set => (line (columns i.op (toString i.operand)), i.next)
  | .jump | .jumpIfFalse =>
    let distance := Chunk.signedWord i.operand
    (line (columns i.op (toString distance) ++ " -> " ++ fourDigits (i.next + distance)), i.next)
  | .loop =>
    (line (columns i.op (toString i.operand) ++ " -> " ++ fourDigits ((i.next : Int) - i.operand)),
      i.next)
  | .recur => (line (columns i.op (toString i.first) ++ " from " ++ toString i.second), i.next)
  | .closure =>
    match p.subs[i.operand]? with
    | none => (line (columns i.op (toString i.operand) ++ " (?)"), i.next)
    | some sub =>
      let (rest, stop) := captureLines c sub.captures.size i.next
      (line (columns i.op (toString i.operand) ++ " (<fn " ++ sub.name ++ ">)") ++ rest, stop)
  | op => (line op.mnemonic, i.next)

/-- What can be listed of an offset by reading as the machine does; past the end of the code there
is nothing to read. -/
def shown? (at_ : Nat) : Option (List String × Nat) :=
  match p.chunk.code[at_]?, p.chunk.fetch at_ with
  | none, _ => none
  | some _, .ok i => some (p.entry at_ i)
  | some b, .error _ =>
    match Opcode.ofByte? b with
    | none => some ([gutter p.chunk at_ ++ "<invalid 0x" ++ Text.hexByte b ++ ">"], at_ + 1)
    | some op => some ([gutter p.chunk at_ ++ op.mnemonic ++ " <truncated>"], p.chunk.size)

variable {p} {at_ : Nat}

theorem instruction_eq_entry {i : Instruction} (h : p.chunk.fetch at_ = .ok i) :
    p.instruction at_ = p.entry at_ i := by
  obtain ⟨b, hb, hop, hn, hnext⟩ := Chunk.fetch_eq_ok h
  have hle := Chunk.next_le_size h
  obtain ⟨op, n, next⟩ := i
  dsimp only at hop hn hnext hle
  subst hnext
  have hb' : p.chunk.code.getD at_ 0 = b := by
    rw [Array.getD_eq_getD_getElem?, hb, Option.getD_some]
  unfold instruction
  simp only [hb', hop, if_neg (Nat.not_lt.mpr hle)]
  cases op with
  | nil | true | false | pop | add | subtract | multiply | divide | negate | equal | less | greater
  | not | ret => rfl
  | popN | getLocal | setLocal | getUpvalue | setUpvalue | closeUpvalue | call =>
    obtain ⟨x, hx, rfl⟩ := Option.map_eq_some_iff.mp hn
    simp only [entry, Array.getD_eq_getD_getElem?, hx, Option.getD_some]
  | const | getVar | setVar | jump | jumpIfFalse | loop | vector | map | set =>
    have hw : p.chunk.readWord? (at_ + 1) = some n := hn
    simp only [entry, hw, Option.getD_some]
  | closure =>
    have hw : p.chunk.readWord? (at_ + 1) = some n := hn
    cases hsub : p.subs[n]? with
    | none => simp only [entry, hw, hsub, Option.getD_some]
    | some sub => simp only [entry, hw, hsub, Option.getD_some]
  | recur =>
    obtain ⟨-, rfl⟩ := Chunk.readWord?_eq_some hn
    have hlow := (p.chunk.code.getD (at_ + 1 + 1) 0).toNat_lt
    simp only [entry, Instruction.first, Instruction.second]
    rw [Nat.mul_add_mod_of_lt hlow, show ∀ m n : Nat, n < 256 → (m * 256 + n) / 256 = m by omega]
    exact hlow

/-- A listing shows of every offset within the code what can be read there. -/
theorem shown?_eq_instruction (h : at_ < p.chunk.size) :
    p.shown? at_ = some (p.instruction at_) := by
  have hb := Chunk.getElem?_eq_getD h
  unfold shown?
  rw [hb]
  cases hf : p.chunk.fetch at_ with
  | ok i => exact congrArg some (instruction_eq_entry hf).symm
  | error e =>
    unfold Chunk.fetch at hf
    rw [hb] at hf
    unfold instruction
    cases hop : Opcode.ofByte? (p.chunk.code.getD at_ 0) with
    | none => simp only [hop]
    | some op =>
      have hcut : p.chunk.size < at_ + 1 + op.width := by
        simp only [hop] at hf
        split at hf
        · rename_i hn
          by_contra hle
          have := (Chunk.operand?_isSome h).mpr (Nat.not_lt.mp hle)
          rw [hn] at this
          cases this
        · cases hf
      simp only [hop, if_pos hcut]

/-! ## The offsets of a listing -/

theorem captureLines_le (c : Chunk) (count : Nat) (h : at_ ≤ c.size) :
    (captureLines c count at_).2 ≤ c.size := by
  induction count generalizing at_ with
  | zero => exact h
  | succ count ih =>
    unfold captureLines
    split
    · rename_i x y hx hy
      exact ih (Array.getElem?_eq_some_iff.mp hy).1
    · exact Nat.le_refl _

theorem entry_next_le {i : Instruction} (h : i.next ≤ p.chunk.size) :
    (p.entry at_ i).2 ≤ p.chunk.size := by
  obtain ⟨op, n, next⟩ := i
  cases op with
  | closure =>
    unfold entry
    dsimp only
    split
    · exact h
    · exact captureLines_le _ _ h
  | _ => exact h

theorem instruction_next_le (h : at_ < p.chunk.size) : (p.instruction at_).2 ≤ p.chunk.size := by
  have hshown := shown?_eq_instruction h
  unfold shown? at hshown
  split at hshown
  · cases hshown
  · rename_i i _ hf
    exact Option.some.inj hshown ▸ entry_next_le (Chunk.next_le_size hf)
  · split at hshown
    · exact Option.some.inj hshown ▸ h
    · exact Option.some.inj hshown ▸ Nat.le_refl p.chunk.size

/-- The offsets of the instructions between an offset and the end of the code. -/
inductive Tiles (p : Proto) : Nat → List Nat → Prop
  | done : Tiles p p.chunk.size []
  | next {k : Nat} {ks : List Nat} (inside : k < p.chunk.size) (ahead : k < (p.instruction k).2)
    (rest : Tiles p (p.instruction k).2 ks) : Tiles p k (k :: ks)

theorem exists_tiles (acc : List String) (h : at_ ≤ p.chunk.size) :
    ∃ ks, p.Tiles at_ ks ∧
      p.codeLines at_ acc = acc.reverse ++ ks.flatMap fun k => (p.instruction k).1 := by
  fun_induction codeLines p at_ acc with
  | case1 k acc hk ih =>
    obtain ⟨ks, hks, hlines⟩ := ih (instruction_next_le hk)
    refine ⟨k :: ks, .next hk (lt_instruction_next p k hk) hks, ?_⟩
    rw [hlines, List.reverse_append, List.reverse_reverse, List.flatMap_cons, List.append_assoc]
  | case2 k acc hk =>
    obtain rfl : k = p.chunk.size := Nat.le_antisymm h (Nat.not_lt.mp hk)
    exact ⟨[], .done, (List.append_nil _).symm⟩

/-! ## Where instructions go -/

/-- The listing of an instruction shows an offset as the one to go to. -/
def Aims (p : Proto) (k : Nat) (op : Opcode) (target : Nat) : Prop :=
  ∃ distance, (p.instruction k).1 =
    [gutter p.chunk k ++ (columns op distance ++ " -> " ++ fourDigits target)]

/-- The frames after a call, which begins a compiled function or has been made elsewhere. -/
def Called (fs frames : Array Activation) : Prop :=
  frames = fs ∨ ∃ c base, frames = fs.push ⟨c, 0, base, true⟩

/-- Where an instruction of the function on top of `fs` goes by its listing, with `top` on top of the
stack: the frames after it. -/
def Goes (p : Proto) (fs : Array Activation) (a : Activation) (top : Option Value) (op : Opcode)
    (frames : Array Activation) : Prop :=
  let onward (ip : Nat) : Array Activation := fs.push { a with ip := ip }
  let next := (p.instruction a.ip).2
  match op with
  | .jump | .loop => ∃ target, p.Aims a.ip op target ∧ frames = onward target
  | .jumpIfFalse => ∃ v, top = some v ∧
      if v.truthy then frames = onward next
      else ∃ target, p.Aims a.ip op target ∧ frames = onward target
  | .call => Called (onward next) frames
  | .ret => frames = fs
  | _ => frames = onward next

theorem entry_next {i : Instruction} (h : i.op ≠ .closure) : (p.entry at_ i).2 = i.next := by
  obtain ⟨op, n, next⟩ := i
  cases op with
  | closure => exact absurd rfl h
  | _ => rfl

theorem aims_of_fetch {i : Instruction} {distance : Int} {target : Nat}
    (h : p.chunk.fetch at_ = .ok i) (ht : (i.next : Int) + distance = target)
    (hop : (i.op = .jump ∨ i.op = .jumpIfFalse) ∧ distance = Chunk.signedWord i.operand ∨
      i.op = .loop ∧ distance = -(i.operand : Int)) : p.Aims at_ i.op target := by
  unfold Aims
  rw [instruction_eq_entry h, ← ht]
  obtain ⟨op, n, next⟩ := i
  rcases hop with ⟨rfl | rfl, rfl⟩ | ⟨rfl, rfl⟩
  · exact ⟨_, rfl⟩
  · exact ⟨_, rfl⟩
  · exact ⟨_, rfl⟩

end Proto

namespace Machine

open Act Proto

variable {L : Limits} {fs gs : Array Activation} {d n : Nat} {c : Caller} {a : Activation}

/-- An action after which the machine has certain frames. -/
abbrev Leads {α : Type} (L : Limits) (fs : Array Activation) (d : Nat) (b : Run α)
    (Q : Array Activation → Prop) : Prop :=
  Meets (Steady L fs d) b (fun _ s => Q s.machine.frames) fun _ _ => True

variable {α : Type} {Q : Array Activation → Prop}

theorem Kept.leads {b : Run α} (h : Kept (Steady L fs d) b) (hQ : Q fs) : Leads L fs d b Q :=
  h.imp (fun _ hs => hs) (fun _ _ hs => hs.frames ▸ hQ) fun _ _ _ => trivial

theorem Kept.thenMeets {I : State → Prop} {β : Type} {b : Run α} (h : Kept I b) {f : α → Run β}
    {P : β → State → Prop} (hf : ∀ x, Meets I (f x) P fun _ _ => True) :
    Meets I (b >>= f) P fun _ _ => True :=
  Alike.bind (h.imp (fun _ hs => hs) (fun _ _ hs => hs) fun _ _ _ => trivial) hf

theorem Leads.none {b : Run Unit} (h : Leads L fs d b Q) :
    Leads L fs d (do b; return none : Run (Option Value)) Q :=
  Alike.bind h fun _ => .pure fun _ hs => hs

theorem jump_leads {ip : Nat} {distance : Int}
    (h : ∀ target : Nat, (ip : Int) + distance = target → Q (gs.push { a with ip := target })) :
    Leads L (gs.push a) d (jump ip distance) Q := by
  unfold jump
  split
  · exact Run.fail_meets fun _ _ => trivial
  · rename_i hle
    refine (goTo_meets _).post fun _ s hs => ?_
    rw [hs.frames, modify_push]
    exact h _ (Int.toNat_of_nonneg (Int.not_lt.mp hle)).symm

theorem pop_meets (top : Option Value) :
    Meets (fun s => s.machine.stack.back? = top ∧ Steady L fs d s) pop
      (fun v s => top = some v ∧ Steady L fs d s) fun _ _ => True := by
  rintro s ⟨rfl, hs⟩
  refine ⟨rfl, ?_⟩
  have hkept := (pop_kept s hs).2
  unfold pop at hkept ⊢
  split at hkept
  · simp only [*]
    trivial
  · rename_i v hv
    simp only [hv]
    exact ⟨rfl, hkept⟩

theorem callValue_leads (hc : survival.Callers n c c) (count : Nat) :
    Leads L fs d (callValue c count) (Called fs) := by
  refine (ask_kept _).thenMeets fun size => ?_
  refine Run.guard_alike (fun _ _ _ => trivial) fun _ => ?_
  refine (slot_kept _).thenMeets fun f => ?_
  have hout : Leads L fs d
      (do let args ← popMany count; let callee ← pop; push (← callOut c callee args))
      (Called fs) := by
    refine (popMany_kept count).thenMeets fun args => pop_kept.thenMeets fun callee => ?_
    exact Kept.thenMeets (callOut_alike hc callee args) fun v => (push_kept v).leads (.inl rfl)
  cases f with
  | closure id name =>
    refine (closureOf_kept id).thenMeets fun k => ?_
    refine Run.guard_alike (fun _ _ _ => trivial) fun _ => ?_
    exact (pushFrame_meets k _ true).imp (fun _ h => h) (fun _ s h => .inr ⟨_, _, h.frames⟩)
      fun _ _ _ => trivial
  | _ => exact hout

theorem captures_as_listed (acc : Array Nat) (count ip : Nat) :
    Meets (Steady L fs d) (captures a acc count ip) (fun r s =>
      r.2 = (captureLines a.closure.proto.chunk count ip).2 ∧ Steady L fs d s) fun _ _ => True := by
  induction count generalizing acc ip with
  | zero => exact .pure fun _ h => ⟨rfl, h⟩
  | succ count ih =>
    unfold captures captureLines
    cases hx : a.closure.proto.chunk.code[ip]? with
    | none => exact Run.fail_meets fun _ _ => trivial
    | some x =>
      cases hy : a.closure.proto.chunk.code[ip + 1]? with
      | none => exact Run.fail_meets fun _ _ => trivial
      | some y =>
        dsimp only
        split
        · exact Kept.thenMeets (cellOf_kept a _) fun id => ih _ _
        · exact Kept.thenMeets (openCell_kept _) fun id => ih _ _

theorem makeClosure_leads {operand next : Nat}
    (h : a.closure.proto.chunk.fetch a.ip = .ok ⟨.closure, operand, next⟩) :
    Leads L (gs.push { a with ip := next }) d (makeClosure a ⟨.closure, operand, next⟩) fun frames =>
      frames = gs.push { a with ip := (a.closure.proto.instruction a.ip).2 } := by
  unfold makeClosure
  cases hsub : a.closure.proto.subs[operand]? with
  | none => exact Run.fail_meets fun _ _ => trivial
  | some p =>
    have hnext : (a.closure.proto.instruction a.ip).2 =
        (captureLines a.closure.proto.chunk p.captures.size next).2 := by
      rw [instruction_eq_entry h]
      simp only [entry, hsub]
    rw [hnext]
    refine Alike.bind (captures_as_listed _ _ _) fun r => Alike.given fun hr => ?_
    obtain ⟨cells, ip⟩ := r
    dsimp only at hr
    subst hr
    refine Alike.bind (goTo_meets _) fun _ => ?_
    rw [modify_push]
    have hstored : Kept (Steady L (gs.push { a with
        ip := (captureLines a.closure.proto.chunk p.captures.size next).2 }) d)
        (Act.onStore (Store.newClosure ⟨p, cells⟩)) :=
      .onStore fun s h => h.ofStore rfl h.regular.sound
    exact hstored.thenMeets fun id => (push_kept _).imp (fun _ hs => hs) (fun _ _ hs => hs.frames)
      fun _ _ _ => trivial

/-- An instruction that succeeds goes where its listing says. -/
theorem exec_goes_as_listed (hc : survival.Callers n c c) (entry : Nat) {i : Instruction}
    {top : Option Value} (h : a.closure.proto.chunk.fetch a.ip = .ok i) :
    Meets (fun s => s.machine.stack.back? = top ∧ Steady L (gs.push { a with ip := i.next }) d s)
      (exec c entry a i) (fun _ s => a.closure.proto.Goes gs a top i.op s.machine.frames)
      fun _ _ => True := by
  have hnext : i.op ≠ .closure → (a.closure.proto.instruction a.ip).2 = i.next := fun hne => by
    rw [instruction_eq_entry h, entry_next hne]
  have haims : ∀ {distance : Int} {target : Nat}, (i.next : Int) + distance = target →
      ((i.op = .jump ∨ i.op = .jumpIfFalse) ∧ distance = Chunk.signedWord i.operand ∨
        i.op = .loop ∧ distance = -(i.operand : Int)) → a.closure.proto.Aims a.ip i.op target :=
    fun ht hop => aims_of_fetch h ht hop
  obtain ⟨op, operand, next⟩ := i
  dsimp only at hnext haims ⊢
  cases op with
  | jump =>
    refine (Leads.none (jump_leads fun t ht => ?_)).pre fun _ hs => hs.2
    exact ⟨t, haims ht (.inl ⟨.inl rfl, rfl⟩), rfl⟩
  | loop =>
    refine (Leads.none (jump_leads fun t ht => ?_)).pre fun _ hs => hs.2
    exact ⟨t, haims ht (.inr ⟨rfl, rfl⟩), rfl⟩
  | jumpIfFalse =>
    refine Alike.bind (pop_meets top) fun v => Alike.given fun hv => ?_
    split
    · rename_i ht
      refine (Leads.none ((pure_kept ()).leads ?_) : Leads L _ d _ (a.closure.proto.Goes gs a top _))
      refine ⟨v, hv, ?_⟩
      rw [if_pos ht, hnext nofun]
    · rename_i ht
      refine (Leads.none (jump_leads fun t hj => ?_) :
        Leads L _ d _ (a.closure.proto.Goes gs a top _))
      refine ⟨v, hv, ?_⟩
      rw [if_neg ht]
      exact ⟨t, haims hj (.inl ⟨.inr rfl, rfl⟩), rfl⟩
  | call =>
    refine (Leads.none (callValue_leads hc operand)).imp (fun _ hs => hs.2) (fun _ s hs => ?_)
      fun _ _ h => h
    show Called (gs.push { a with ip := (a.closure.proto.instruction a.ip).2 }) s.machine.frames
    rwa [hnext nofun]
  | closure => exact (Leads.none (makeClosure_leads h)).pre fun _ hs => hs.2
  | ret =>
    refine (endFrame_meets a entry).imp (fun _ hs => hs.2) (fun o s hs => ?_) fun _ _ _ => trivial
    have := hs.1.frames
    rwa [Array.pop_push] at this
  | _ =>
    refine (exec_lingers entry a operand next (by decide)).imp (fun _ hs => hs.2) (fun _ s hs => ?_)
      fun _ _ _ => trivial
    show s.machine.frames = gs.push { a with ip := (a.closure.proto.instruction a.ip).2 }
    rw [hnext nofun]
    exact hs.2.frames

theorem tick_top (top : Option Value) :
    Meets (fun s => s.machine.stack.back? = top) tick (fun _ s => s.machine.stack.back? = top)
      (fun _ _ => True : RuntimeError → State → Prop) := by
  have hcount : Meets (fun s => s.machine.stack.back? = top)
      (Act.update fun s => s.mapMachine fun m => { m with steps := m.steps + 1 })
      (fun _ s => s.machine.stack.back? = top) (fun _ _ => True : RuntimeError → State → Prop) :=
    .update fun _ h => h
  refine Alike.bind hcount fun _ => ?_
  refine Alike.bind (Q := fun _ s => s.machine.stack.back? = top) (.ask fun _ h => h) fun b => ?_
  cases b with
  | none => exact .pure fun _ h => h
  | some budget =>
    refine Alike.bind (Q := fun _ s => s.machine.stack.back? = top) (.ask fun _ h => h) fun n => ?_
    split
    · exact Run.fail_meets fun _ _ => trivial
    · exact .pure fun _ h => h

theorem goTo_top (top : Option Value) (ip : Nat) :
    Meets (fun s => s.machine.stack.back? = top) (goTo ip) (fun _ s => s.machine.stack.back? = top)
      (fun _ _ => True : RuntimeError → State → Prop) := .update fun _ h => h

theorem step_goes_as_listed (hc : survival.Callers n c c) (entry : Nat) (top : Option Value) :
    Meets (fun s => s.machine.stack.back? = top ∧ Steady L (gs.push a) d s) (step c entry)
      (fun _ s => ∃ i, a.closure.proto.chunk.fetch a.ip = .ok i ∧
        a.closure.proto.Goes gs a top i.op s.machine.frames) fun _ _ => True := by
  have hrunning : Meets (fun s => s.machine.stack.back? = top ∧ Steady L (gs.push a) d s) running
      (fun x s => x = a ∧ s.machine.stack.back? = top ∧ Steady L (gs.push a) d s)
      (fun _ _ => True : RuntimeError → State → Prop) := by
    refine Alike.bind (Q := fun o s => o = some a ∧ s.machine.stack.back? = top ∧
      Steady L (gs.push a) d s) (.ask fun s h => ⟨by rw [h.2.frames, Array.back?_push], h⟩) fun o => ?_
    cases o with
    | none => exact Run.fail_meets fun _ _ => trivial
    | some x => exact .pure fun s h => ⟨Option.some.inj h.1, h.2⟩
  refine Alike.bind hrunning fun x => Alike.given fun hx => ?_
  subst hx
  refine Alike.mapFault ?_
  refine Alike.bind (((tick_top top).and tick_kept).imp (fun _ h => h) (fun _ _ h => h)
    fun _ _ _ => trivial) fun _ => ?_
  refine Alike.bind (Q := fun i s => x.closure.proto.chunk.fetch x.ip = .ok i ∧
    s.machine.stack.back? = top ∧ Steady L (gs.push x) d s)
    (Run.ofFault_meets (fun _ _ h hf => ⟨hf, h⟩) fun _ _ _ _ => trivial) fun i =>
      Alike.given fun hf => ?_
  refine Alike.bind (((goTo_top top i.next).and (goTo_meets (R := fun _ _ => True) i.next)).imp
    (fun _ h => h) (fun _ _ h => h) fun _ _ _ => trivial) fun _ => ?_
  rw [modify_push]
  exact (exec_goes_as_listed hc entry hf).post fun _ _ h => ⟨i, hf, h⟩

/-- Listings and the machine read code alike, whatever its bytes are. A listing shows what can be read
at each offset, and its instructions follow one another from the beginning of the code to its end.
Where the machine executes an instruction, it goes on as the listing says: a jump goes to the offset
that is shown, a call to the beginning of the called function, and all others to the next line. -/
theorem goes_as_listed (p : Proto) :
    (∀ k < p.chunk.size, p.shown? k = some (p.instruction k)) ∧
    (∃ ks, p.Tiles 0 ks ∧ p.codeLines 0 [] = ks.flatMap fun k => (p.instruction k).1) ∧
    ∀ (n entry : Nat) (s t : State) (fs : Array Activation) (a : Activation) (r : Option Value),
      Upright s → s.parked = none → (s.Literate fun _ _ _ => True) →
      s.machine.frames = fs.push a → a.closure.proto = p →
      step (Engine.ofFuel n).call entry s = .ok r t →
      ∃ i, p.chunk.fetch a.ip = .ok i ∧
        p.Goes fs a s.machine.stack.back? i.op t.machine.frames := by
  refine ⟨fun k hk => shown?_eq_instruction hk, ?_, ?_⟩
  · obtain ⟨ks, hks, hlines⟩ := exists_tiles [] (Nat.zero_le p.chunk.size)
    exact ⟨ks, hks, hlines⟩
  · rintro n entry s t fs a r hs hp hl hfs rfl hstep
    have hsteady : Steady s.config.limits (fs.push a) s.depth s := ⟨rfl, hs, hp, hl, hfs, rfl⟩
    have hf : Watch.Faithful Upright step := fun _ _ _ _ => rfl
    have hc := (callers_survival hf n).self
    have hgoes := (step_goes_as_listed hc entry s.machine.stack.back? s ⟨rfl, hsteady⟩).2
    rwa [show Engine.equipped Run.assign step n = Engine.ofFuel n from rfl, hstep] at hgoes

/-- A jump past the end of the code, and a byte that is cut off. -/
def leap : Proto := ⟨"leap", 0, ⟨#[22, 0, 5, 5], #[], #[]⟩, #[], #[]⟩

/-- A machine that has executed some instructions and is at an offset of it. -/
def leaping (steps ip : Nat) : State := (State.bare .empty .standard).mapMachine fun m =>
  { m with frames := #[⟨⟨leap, #[]⟩, ip, 0, false⟩], steps := steps }

/-- The machine is at the offset that the listing shows. -/
theorem leap_goes_as_listed :
    ∃ i, leap.chunk.fetch 0 = .ok i ∧
      leap.Goes #[] ⟨⟨leap, #[]⟩, 0, 0, false⟩ none i.op #[⟨⟨leap, #[]⟩, 8, 0, false⟩] := by
  have hl : (leaping 0 0).Literate fun _ _ _ => True := by
    intro i g hg
    cases hg
  have hs : Upright (leaping 0 0) := ⟨Nat.zero_le _, (by decide : 1 ≤ 513), .nil⟩
  have hrunning : running (leaping 0 0) = .ok ⟨⟨leap, #[]⟩, 0, 0, false⟩ (leaping 0 0) := rfl
  have htick : tick (leaping 0 0) = .ok () (leaping 1 0) := rfl
  have hfetch : Run.ofFault (leap.chunk.fetch 0) (leaping 1 0) = .ok ⟨.jump, 5, 3⟩ (leaping 1 0) :=
    rfl
  have hgoTo : goTo 3 (leaping 1 0) = .ok () (leaping 1 3) := rfl
  have hexec : exec (Engine.ofFuel 3).call 0 ⟨⟨leap, #[]⟩, 0, 0, false⟩ ⟨.jump, 5, 3⟩ (leaping 1 3) =
    .ok none (leaping 1 8) := rfl
  have hstep : step (Engine.ofFuel 3).call 0 (leaping 0 0) = .ok none (leaping 1 8) := by
    unfold step
    simp only [Act.bind_apply, hrunning]
    unfold Act.within Act.mapFault
    simp only [Act.bind_apply, htick, hfetch, hgoTo, hexec]
  exact (goes_as_listed leap).2.2 3 0 (leaping 0 0) (leaping 1 8) #[] ⟨⟨leap, #[]⟩, 0, 0, false⟩ none
    hs rfl hl rfl rfl hstep

end Machine

end TwinLisp
