import TwinLisp.Proofs.Bytecode.Binders
import TwinLisp.Proofs.Bytecode.Prototypes
import TwinLisp.Proofs.Expr.Literals
import TwinLisp.Proofs.Expr.Prepared
import TwinLisp.Proofs.Locals.Named

/-! The steps of a compilation by what they can fail for. Most of them need room alone; those that
compile something also need it to belong to the compiled subset, and its locals to be bound inside of
what is compiled.

* `CompileFault.Capacity`: the faults that tell of missing room.
* `CompileError.Excused`: what can be wrong with an expression that is compiled.
* `Build.Roomy`: a step that fails for want of room alone.
* `Build.Compiles`: a step that succeeds for members of the subset alone, and has an excuse else. -/

namespace TwinLisp

/-- There is no room: too many constants, locals, captured variables, arguments or items, or code that
is too long to be jumped over. -/
inductive CompileFault.Capacity : CompileFault → Prop
  | constants : Capacity .tooManyConstants
  | locals : Capacity .tooManyLocals
  | upvalues : Capacity .tooManyUpvalues
  | arguments {n} (h : 255 < n) : Capacity (.tooManyArguments n)
  | jump : Capacity .jumpTooLarge
  | items {n : Nat} (h : 65535 < n) :
    Capacity (.unsupported ("collection literal of " ++ toString n ++ " items"))

/-- What can be wrong with an expression inside a number of frames: it finds no room, it refers to one
of these frames, or it does not belong to the subset. -/
def CompileError.Excused (around : Nat) (fits : Bool) (xs : List Binding) (e : CompileError) : Prop :=
  e.cause.Capacity ∨ (∃ x ∈ xs, x.frame + 1 < around ∧ e.cause = .unresolvedBinding x.name) ∨
    fits = false ∧ ∃ what, e.cause = .unsupported what

theorem CompileError.Excused.mono {around : Nat} {c d : Bool} {xs ys : List Binding}
    {e : CompileError} (h : e.Excused around c xs) (hc : c = false → d = false) (hx : xs ⊆ ys) :
    e.Excused around d ys := by
  rcases h with h | ⟨x, hm, h⟩ | ⟨h, hw⟩
  · exact .inl h
  · exact .inr (.inl ⟨x, hx hm, h⟩)
  · exact .inr (.inr ⟨hc h, hw⟩)

namespace Build

variable {α β : Type} {P : Builder → Prop} {Q : α → Builder → Prop} {R : β → Builder → Prop}

/-! ## Steps that need room alone -/

/-- The targets of `recur`, of all functions. -/
def targets (b : Builder) : List (Option RecurTarget) := (b.level :: b.enclosing).map Level.target

/-- A step that fails for want of room alone, and keeps the targets. -/
structure Roomy (x : Build α) : Prop where
  targets : ∀ b a b', x b = .ok (a, b') → Build.targets b' = Build.targets b
  room : ∀ b e, x b = .error e → e.cause.Capacity

theorem bind_eq_error {x : Build α} {f : α → Build β} {b : Builder} {e : CompileError}
    (h : (x >>= f) b = .error e) : x b = .error e ∨ ∃ a b', x b = .ok (a, b') ∧ f a b' = .error e := by
  change (x b).bind (fun r => f r.1 r.2) = _ at h
  cases hx : x b with
  | error e' =>
    rw [hx] at h
    cases h
    exact .inl rfl
  | ok r =>
    rw [hx] at h
    exact .inr ⟨r.1, r.2, rfl, h⟩

namespace Roomy

theorem bind {x : Build α} {f : α → Build β} (h : Roomy x) (hf : ∀ a, Roomy (f a)) :
    Roomy (x >>= f) where
  targets b y b' hx := by
    obtain ⟨a, b₁, h₁, h₂⟩ := bind_eq_ok hx
    rw [(hf a).targets b₁ y b' h₂, h.targets b a b₁ h₁]
  room b e hx := by
    rcases bind_eq_error hx with h₁ | ⟨a, b₁, -, h₂⟩
    · exact h.room b e h₁
    · exact (hf a).room b₁ e h₂

theorem pure {a : α} : Roomy (Pure.pure a) where
  targets b _ b' h := by
    cases h
    rfl
  room b e h := by cases h

theorem fail {cause : CompileFault} {span : Span} (h : cause.Capacity) :
    Roomy (Build.fail cause span : Build α) where
  targets _ _ _ hx := absurd hx fail_ne_ok
  room b e hx := by
    cases hx
    exact h

theorem ask {f : Level → α} : Roomy (Build.ask f) where
  targets b _ b' h := by
    cases h
    rfl
  room b e h := by cases h

theorem onLevel {f : Level → Level} (h : ∀ l, (f l).target = l.target) : Roomy (Build.onLevel f) where
  targets b _ b' hx := by
    cases hx
    rw [Build.targets, Build.targets, List.map_cons, List.map_cons, h]
  room b e hx := by cases hx

theorem onLevel? {f : Level → Except CompileError Level}
    (h : ∀ l l', f l = .ok l' → l'.target = l.target)
    (hr : ∀ l e, f l = .error e → e.cause.Capacity) : Roomy (Build.onLevel? f) where
  targets b _ b' hx := by
    rw [Build.onLevel?] at hx
    split at hx
    · next l' hl =>
      cases hx
      rw [Build.targets, Build.targets, List.map_cons, List.map_cons, h b.level l' hl]
    · cases hx
  room b e hx := by
    rw [Build.onLevel?] at hx
    split at hx
    · cases hx
    · next e' he =>
      cases hx
      exact hr b.level e he

end Roomy

variable {span : Span} {o : Opcode}

theorem roomy_onChunk {f : Chunk → Chunk} : Roomy (onChunk f) := .onLevel fun _ => rfl

theorem roomy_op : Roomy (op o span) := roomy_onChunk

theorem roomy_opByte {x : UInt8} : Roomy (opByte o x span) := roomy_onChunk

theorem roomy_byte {x : UInt8} : Roomy (byte x span) := roomy_onChunk

theorem roomy_opWord {n : Nat} : Roomy (opWord o n span) := roomy_onChunk

theorem roomy_opConstant {v : Value} : Roomy (opConstant o v span) := by
  refine .onLevel? (fun l l' h => ?_) fun l e h => ?_
  · dsimp only at h
    split at h
    · cases h
    · cases h
      rfl
  · dsimp only at h
    split at h
    · next e' c hc =>
      cases h
      rw [Chunk.addConstant] at hc
      split at hc
      · cases hc
        exact .constants
      · cases hc
    · cases h

theorem roomy_jump : Roomy (jump o span) := roomy_onChunk.bind fun _ => .ask

theorem roomy_land {i : Nat} : Roomy (land i) := by
  refine .onLevel? (fun l l' h => ?_) fun l e h => ?_
  · dsimp only at h
    split at h
    · cases h
    · cases h
      rfl
  · dsimp only at h
    split at h
    · next e' hc =>
      cases h
      rw [Chunk.patchJump] at hc
      split at hc
      · cases hc
      · cases hc
        exact .jump
    · cases h

theorem roomy_loopTo {start : Nat} : Roomy (loopTo start span) := by
  refine .onLevel? (fun l l' h => ?_) fun l e h => ?_
  · dsimp only at h
    split at h
    · cases h
    · cases h
      rfl
  · dsimp only at h
    split at h
    · next e' c hc =>
      cases h
      rw [Chunk.emitLoop] at hc
      split at hc
      · cases hc
      · cases hc
        exact .jump
    · cases h

theorem roomy_literal {v : Value} : Roomy (literal v span) := by
  unfold literal
  split
  · exact roomy_op
  · exact roomy_op
  · exact roomy_op
  · exact roomy_opConstant

theorem roomy_collect {n : Nat} : Roomy (collect o n span) := by
  unfold collect
  split
  · next h => exact .fail (.items h)
  · exact roomy_opWord

theorem roomy_call {n : Nat} : Roomy (call n span) := by
  unfold call
  split
  · next h => exact .fail (.arguments h)
  · exact roomy_opByte

theorem roomy_recurTo {t : RecurTarget} {n : Nat} : Roomy (recurTo t n span) :=
  roomy_opByte.bind fun _ => roomy_byte.bind fun _ => roomy_loopTo

theorem roomy_setArity {n : Nat} : Roomy (setArity n span) := by
  unfold setArity
  split
  · exact .fail .locals
  · exact .onLevel fun _ => rfl

theorem roomy_setHeight {n : Nat} : Roomy (setHeight n) := .onLevel fun _ => rfl

theorem roomy_dropped : Roomy dropped := .onLevel fun _ => rfl

theorem roomy_openScope : Roomy openScope := .onLevel fun _ => rfl

theorem roomy_declare {name : String} : Roomy (declare name span) := by
  refine .onLevel? (fun l l' h => ?_) fun l e h => ?_
  · rw [Level.declare] at h
    split at h
    · cases h
    · cases h
      rfl
  · rw [Level.declare] at h
    split at h
    · cases h
      exact .locals
    · cases h

theorem roomy_closeScope : Roomy (closeScope span) := by
  refine .onLevel? (fun l l' h => ?_) fun l e h => ?_
  · rw [Level.closeScope] at h
    dsimp only at h
    split at h
    · cases h
      rfl
    · split at h
      · cases h
      · cases h
        split <;> rfl
  · rw [Level.closeScope] at h
    dsimp only at h
    split at h
    · cases h
    · split at h
      · cases h
        exact .locals
      · cases h

theorem roomy_declareParams (params : List String) : Roomy (declareParams span params) := by
  induction params with
  | nil => exact .pure
  | cons p rest ih =>
    have hraise : Roomy (onLevel fun l => { l with height := l.height + 1 }) := .onLevel fun _ => rfl
    exact hraise.bind fun _ => roomy_declare.bind fun _ => ih

theorem roomy_writeCaptures (cs : List Capture) : Roomy (writeCaptures span cs) := by
  induction cs with
  | nil => exact .pure
  | cons c cs ih => exact roomy_byte.bind fun _ => roomy_byte.bind fun _ => ih

theorem roomy_closure {p : Proto} : Roomy (closure p span) := by
  have hpush : Roomy (onLevel fun l => { l with subs := l.subs.push p }) := .onLevel fun _ => rfl
  have hrest : ∀ n, Roomy (onLevel (fun l => { l with subs := l.subs.push p }) >>= fun _ =>
      opWord .closure n span >>= fun _ => writeCaptures span p.captures.toList) := fun n =>
    hpush.bind fun _ => roomy_opWord.bind fun _ => roomy_writeCaptures _
  refine Roomy.ask.bind fun n => ?_
  dsimp only
  split
  · exact (Roomy.fail .constants).bind fun _ => hrest n
  · exact hrest n

/-! ## Steps that compile something -/

/-- A step that compiles something inside a number of frames: where it succeeds this belongs to the
subset and refers to none of these frames, where it fails there is an excuse. -/
def Compiles (around : Nat) (P : Builder → Prop) (x : Build α) (fits : Bool) (xs : List Binding)
    (Q : α → Builder → Prop) : Prop :=
  ∀ b, P b → (∀ a b', x b = .ok (a, b') → Q a b' ∧ fits = true ∧ ∀ y ∈ xs, around ≤ y.frame + 1) ∧
    ∀ e, x b = .error e → e.Excused around fits xs

namespace Compiles

variable {around : Nat} {c d : Bool} {xs ys : List Binding}

theorem bind {x : Build α} {f : α → Build β} (h : Compiles around P x c xs Q)
    (hf : ∀ a, Compiles around (Q a) (f a) d ys R) :
    Compiles around P (x >>= f) (c && d) (xs ++ ys) R := by
  intro b hb
  obtain ⟨hok, herr⟩ := h b hb
  refine ⟨fun y b' hx => ?_, fun e hx => ?_⟩
  · obtain ⟨a, b₁, h₁, h₂⟩ := bind_eq_ok hx
    obtain ⟨hq, hc, hxs⟩ := hok a b₁ h₁
    obtain ⟨hr, hd, hys⟩ := (hf a b₁ hq).1 y b' h₂
    refine ⟨hr, by rw [hc, hd]; rfl, fun z hz => ?_⟩
    exact (List.mem_append.mp hz).elim (hxs z) (hys z)
  · rcases bind_eq_error hx with h₁ | ⟨a, b₁, h₁, h₂⟩
    · exact (herr e h₁).mono (fun h => by rw [h]; rfl) (List.subset_append_left xs ys)
    · refine ((hf a b₁ (hok a b₁ h₁).1).2 e h₂).mono (fun h => ?_) (List.subset_append_right xs ys)
      rw [h, Bool.and_false]

theorem after {x : Build α} {f : α → Build β} (h : Compiles around P x true [] Q)
    (hf : ∀ a, Compiles around (Q a) (f a) d ys R) : Compiles around P (x >>= f) d ys R :=
  h.bind hf

theorem before {x : Build α} {f : α → Build β} (h : Compiles around P x c xs Q)
    (hf : ∀ a, Compiles around (Q a) (f a) true [] R) : Compiles around P (x >>= f) c xs R := by
  have hall := h.bind hf
  rwa [Bool.and_true, List.append_nil] at hall

theorem imp {x : Build α} {S : α → Builder → Prop} (h : Compiles around P x c xs Q)
    (hs : ∀ a b, Q a b → S a b) : Compiles around P x c xs S := fun b hb =>
  ⟨fun a b' hx => ((h b hb).1 a b' hx).imp_left (hs a b'), (h b hb).2⟩

theorem pure {a : α} (h : ∀ b, P b → Q a b) : Compiles around P (Pure.pure a) true [] Q :=
  fun b hb => ⟨fun _ _ he => by cases he; exact ⟨h b hb, rfl, nofun⟩, fun _ he => by cases he⟩

theorem ask {f : Level → α} : Compiles around P (Build.ask f) true [] fun _ => P :=
  fun b hb => ⟨fun _ _ he => by cases he; exact ⟨hb, rfl, nofun⟩, fun _ he => by cases he⟩

theorem unsupported {what : String} {span : Span} :
    Compiles around P (fail (.unsupported what) span) false xs Q := fun _ _ =>
  ⟨fun _ _ h => absurd h fail_ne_ok, fun e h => by cases h; exact .inr (.inr ⟨rfl, what, rfl⟩)⟩

end Compiles

/-- The functions of a compilation are as drawn, and have certain targets. -/
def Aiming (ts : List (Option RecurTarget)) (P : Builder → Prop) (b : Builder) : Prop :=
  P b ∧ targets b = ts

theorem Roomy.compiles {around : Nat} {x : Build α} (hx : Roomy x) (h : Agree P x x Q)
    (ts : List (Option RecurTarget)) :
    Compiles around (Aiming ts P) x true [] fun a => Aiming ts (Q a) := fun b hb =>
  ⟨fun a b' h' => ⟨⟨(h b hb.1).2 a b' h', (hx.targets b a b' h').trans hb.2⟩, rfl, nofun⟩,
    fun e he => .inl (hx.room b e he)⟩

variable {around : Nat} {ks : List Sketch} {ts : List (Option RecurTarget)} {fs : List Cells}
variable {h : Nat} {c : Bool} {xs : List Binding}

theorem leavingOne_compiles {x : Build Unit}
    (hx : Compiles around (Aiming ts (As (⟨fs, h⟩ :: ks))) x c xs fun _ =>
      Aiming ts fun b => ∃ h', As (⟨fs, h'⟩ :: ks) b) :
    Compiles around (Aiming ts (As (⟨fs, h⟩ :: ks))) (leavingOne x) c xs fun _ =>
      Aiming ts (As (⟨fs, h + 1⟩ :: ks)) := by
  have hheight : Agree (As (⟨fs, h⟩ :: ks)) (ask Level.height) (ask Level.height) fun n b =>
      n = h ∧ As (⟨fs, h⟩ :: ks) b := by
    refine fun b hb => ⟨rfl, fun n b' hx => ?_⟩
    cases hx
    exact ⟨hb.height, hb⟩
  refine (Roomy.ask.compiles hheight ts).bind fun n => ?_
  rintro b ⟨⟨rfl, hb⟩, ht⟩
  exact (hx.before fun _ => roomy_setHeight.compiles (setHeight_agree (n + 1)) ts) b ⟨hb, ht⟩

/-! ## Targets -/

variable {span : Span} {t u : Option RecurTarget}

theorem askTarget_compiles {P : Builder → Prop} :
    Compiles around (Aiming (t :: ts) P) (ask Level.target) true [] fun a b =>
      a = t ∧ Aiming (t :: ts) P b := by
  rintro b ⟨hb, ht⟩
  refine ⟨fun a b' hx => ?_, fun e he => by cases he⟩
  cases hx
  exact ⟨⟨(List.cons.inj ht).1, hb, ht⟩, rfl, nofun⟩

theorem setTarget_compiles {P : Builder → Prop} {Q : Unit → Builder → Prop}
    (h : Agree P (setTarget t) (setTarget t) Q) :
    Compiles around (Aiming (u :: ts) P) (setTarget t) true [] fun a => Aiming (t :: ts) (Q a) := by
  rintro b ⟨hb, ht⟩
  refine ⟨fun a b' hx => ⟨⟨(h b hb).2 a b' hx, ?_⟩, rfl, nofun⟩, fun e he => by cases he⟩
  cases hx
  exact congrArg (t :: ·) (List.cons.inj ht).2

/-- The target that the program asks for is there, so only its slots may be out of reach. -/
theorem recurTarget_compiles {a : RecurTarget} :
    Compiles around (Aiming (some a :: ts) (As ks)) (recurTarget a.arity span) true [] fun _ =>
      Aiming (some a :: ts) (As ks) := by
  have hroom : Compiles around (Aiming (some a :: ts) (As ks))
      (if a.arity > 255 ∨ a.firstSlot > 255 then fail .tooManyLocals span else pure a) true []
      fun _ => Aiming (some a :: ts) (As ks) := by
    split
    · exact (Roomy.fail .locals).compiles Agree.fail _
    · exact .pure fun _ h => h
  refine askTarget_compiles.bind fun found => ?_
  rintro b ⟨rfl, hb⟩
  simpa only [ne_eq, not_true_eq_false, if_false] using hroom b hb

theorem enter_compiles {name self : String} :
    Compiles around (Aiming ts (As ks)) (enter name self) true [] fun _ =>
      Aiming (none :: ts) (As (.start self :: ks)) := by
  rintro b ⟨hb, ht⟩
  refine ⟨fun a b' hx => ⟨⟨(enter_agree b hb).2 a b' hx, ?_⟩, rfl, nofun⟩, fun e he => by cases he⟩
  cases hx
  exact congrArg (none :: ·) ht

theorem leave_compiles {k : Sketch} :
    Compiles around (Aiming (u :: t :: ts) fun b => ∃ i, As (i :: k :: ks) b) leave true [] fun _ =>
      Aiming (t :: ts) (As (k :: ks)) := by
  rintro ⟨level, enclosing⟩ ⟨hb, ht⟩
  have hok : ∀ a b', leave ⟨level, enclosing⟩ = .ok (a, b') → targets b' = t :: ts := by
    intro a b' hx
    cases enclosing with
    | nil => cases ht
    | cons outer rest =>
      cases hx
      exact (List.cons.inj ht).2
  refine ⟨fun a b' hx => ⟨⟨(leave_agree _ hb).2 a b' hx, hok a b' hx⟩, rfl, nofun⟩, fun e he => ?_⟩
  cases enclosing <;> cases he

theorem parameters_compiles (span : Span) (ks : List Sketch) (ts : List (Option RecurTarget))
    (self : String) (params : List String) :
    ∃ g : Cells, g.map Prod.fst = params.reverse ++ [self] ∧ Below [g] (1 + params.length) ∧
      Compiles around (Aiming (none :: ts) (As (.start self :: ks))) (parameters params span) true []
        fun _ => Aiming (some ⟨0, 1, params.length⟩ :: ts) (As (⟨[g], 1 + params.length⟩ :: ks)) := by
  obtain ⟨g, hnames, hg, hdeclare⟩ := declareParams_agree span ks params (Below.start self)
  refine ⟨g, hnames, hg, ?_⟩
  refine (roomy_setArity.compiles (quiet_setArity.agree _) _).bind fun _ => ?_
  refine ((roomy_declareParams params).compiles hdeclare _).bind fun _ => ?_
  exact setTarget_compiles (quiet_setTarget.agree _)

/-! ## Names -/

theorem le_of_holds {slot : Nat} {x : Binding} {vs : List LocalVar}
    (h : LocalVar.holds around slot x vs = true) : around ≤ x.frame + 1 := by
  induction vs with
  | nil => cases h
  | cons v earlier ih =>
    rw [LocalVar.holds] at h
    split at h
    · simp only [Bool.and_eq_true, beq_iff_eq] at h
      omega
    · exact ih h

/-- What is found in a function or captured from the functions around is none of the frames that were
there before them. -/
theorem le_of_leadsTo {x : Binding} {ls : List Level} {c : Capture}
    (h : Level.leadsTo around x ls c = true) : around ≤ x.frame + 1 := by
  induction ls generalizing c with
  | nil => cases h
  | cons l outer ih =>
    obtain ⟨isLocal, i⟩ := c
    cases isLocal with
    | true =>
      rw [Level.leadsTo] at h
      have hle := le_of_holds h
      rw [Level.framesWith] at hle
      omega
    | false =>
      rw [Level.leadsTo] at h
      split at h
      · exact ih h
      · cases h

theorem capture_target {l l' : Level} {c : Capture} {i : UInt8}
    (h : l.capture c span = .ok (i, l')) : l'.target = l.target := by
  rw [Level.capture] at h
  split at h
  · cases h
    rfl
  · split at h
    · cases h
    · cases h
      rfl

theorem capture_room {l : Level} {c : Capture} {e : CompileError}
    (h : l.capture c span = .error e) : e.cause.Capacity := by
  rw [Level.capture] at h
  split at h
  · cases h
  · split at h
    · cases h
      exact .upvalues
    · cases h

theorem captureFrom_targets {name : String} {ls ls' : List Level} {r : Option Capture}
    (h : Builder.captureFrom name span ls = .ok (r, ls')) :
    ls'.map Level.target = ls.map Level.target := by
  induction ls generalizing r ls' with
  | nil =>
    cases h
    rfl
  | cons l outer ih =>
    rw [Builder.captureFrom] at h
    split at h
    · cases h
      rfl
    · split at h
      · cases h
      · next hr =>
        cases h
        rw [List.map_cons, List.map_cons, ih hr]
      · next hr =>
        split at h
        · cases h
        · next hi =>
          cases h
          rw [List.map_cons, List.map_cons, ih hr, capture_target hi]

theorem captureFrom_room {name : String} {ls : List Level} {e : CompileError}
    (h : Builder.captureFrom name span ls = .error e) : e.cause.Capacity := by
  induction ls generalizing e with
  | nil => cases h
  | cons l outer ih =>
    rw [Builder.captureFrom] at h
    split at h
    · cases h
    · split at h
      · next hr =>
        cases h
        exact ih hr
      · cases h
      · split at h
        · next hi =>
          cases h
          exact capture_room hi
        · cases h

/-- A name that no function knows is looked for in the frames around all of them. -/
theorem find?_of_captureFrom {name : String} {ls ls' : List Level} {outer : Scopes}
    (hd : Drawn ks ls) (h : Builder.captureFrom name span ls = .ok (none, ls')) :
    Scopes.find? name (Sketch.scopes ks ++ outer) = outer.find? name := by
  induction hd generalizing ls' with
  | nil => rfl
  | @cons k l ks ls hk hks ih =>
    rw [Builder.captureFrom] at h
    have hfinds := hk.locals.finds name (Sketch.scopes ks ++ outer)
    cases hf : l.find? name with
    | some v =>
      rw [hf] at h
      cases h
    | none =>
      rw [hf] at h
      rw [show LocalVar.latest? name l.locals = none from hf] at hfinds
      rw [Sketch.scopes_cons, hfinds]
      simp only at h
      split at h
      · cases h
      · next hr => exact ih hr
      · split at h <;> cases h

theorem byName_compiles {x : Binding} {outer : Scopes}
    (hx : Scopes.find? x.name (Sketch.scopes ks ++ outer) = some ⟨x.name, x.frame + 1, x.index⟩) :
    Compiles (List.length outer) (Aiming ts (As ks)) (byName x span) true [x] fun _ =>
      Aiming ts (As ks) := by
  rintro b ⟨hb, ht⟩
  constructor
  · intro a b' h
    obtain ⟨hb', hd⟩ := byName_designates hb hx h
    refine ⟨⟨hb', ?_⟩, rfl, ?_⟩
    · rw [← ht]
      rw [byName, access, Builder.access] at h
      split at h
      · cases h
        rfl
      · split at h
        · cases h
        · cases h
        · next hc =>
          split at h
          · cases h
          · next hi =>
            cases h
            rw [targets, targets, List.map_cons, List.map_cons, captureFrom_targets hc,
              capture_target hi]
    · rw [List.forall_mem_singleton]
      cases a <;> exact le_of_leadsTo hd
  · intro e h
    rw [byName, access, Builder.access] at h
    split at h
    · cases h
    · next hf =>
      split at h
      · next hc =>
        cases h
        exact .inl (captureFrom_room hc)
      · next hc =>
        cases h
        cases hb with
        | @cons _ _ ks _ hk hks =>
          refine .inr (.inl ⟨x, List.mem_singleton_self x, ?_, rfl⟩)
          have hfinds := hk.locals.finds x.name (Sketch.scopes ks ++ outer)
          rw [show LocalVar.latest? x.name b.level.locals = none from hf] at hfinds
          rw [Sketch.scopes_cons, hfinds, find?_of_captureFrom hks hc] at hx
          exact Scopes.frame_lt_of_find? hx
      · split at h
        · next hi =>
          cases h
          exact .inl (capture_room hi)
        · cases h

end Build

end TwinLisp
