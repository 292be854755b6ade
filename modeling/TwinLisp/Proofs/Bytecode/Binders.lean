import Mathlib.Algebra.GroupWithZero.Nat
import TwinLisp.Proofs.Bytecode.Scopes
import TwinLisp.Proofs.Coupling.Parsing
import TwinLisp.Proofs.Expr.Literals

/-! Locals are found by name, and what is found is the slot of their binder. The parser gives a
local the frame and the index of its binder; the compiler looks for the latest local of the name, in
the function being built and in those around it. Frames and locals come and go together, so the two
agree whatever names are used again.

* `Builder.designates`: an access leads to the local of some frame and index.
* `Build.placed`: locals are found by name, and something else happens where this is not the binder.
* `Labelled`: the locals of a function as the cells of its frames.
* `Proto.locals_designate_binders`: nothing else ever happens. -/

namespace TwinLisp

/-! ## Binders of slots -/

/-- The frames of functions inside each other, with those around them. -/
def Level.framesWith (around : Nat) (ls : List Level) : Nat :=
  around + (ls.map fun l => l.depth + 1).sum

/-- Whether a slot holds the binder of a local. The locals of one depth are one frame, the frames
around the function come before it; the frame of the whole form, which the parser does not count,
is the first. -/
def LocalVar.holds (around slot : Nat) (x : Binding) : List LocalVar → Bool
  | [] => false
  | v :: earlier =>
    if v.slot = slot then
      around + v.depth == x.frame + 1 && earlier.countP (fun u => u.depth == v.depth) == x.index
    else holds around slot x earlier

/-- Whether a captured variable leads to the binder of a local, through the functions around. -/
def Level.leadsTo (around : Nat) (x : Binding) : List Level → Capture → Bool
  | [], _ => false
  | l :: outer, ⟨true, i⟩ => LocalVar.holds (framesWith around outer) i.toNat x l.locals
  | l :: outer, ⟨false, i⟩ =>
    match l.captures[i.toNat]? with
    | some c => leadsTo around x outer c
    | none => false

/-- Whether an access of the function being built leads to the binder of a local. -/
def Builder.designates (around : Nat) (x : Binding) (b : Builder) : Access → Bool
  | .slot i => Level.leadsTo around x (b.level :: b.enclosing) ⟨true, i⟩
  | .capture i => Level.leadsTo around x (b.level :: b.enclosing) ⟨false, i⟩

/-- A local is found by its name; something else happens where that is not its binder. -/
def Build.placed (around : Nat) (other : Access → Finder) : Finder := fun x span b =>
  match byName x span b with
  | .ok (a, b') => if b'.designates around x a then .ok (a, b') else other a x span b'
  | .error e => .error e

/-! ## Locals as the cells of frames -/

/-- The names and slots of a frame, the latest first. -/
abbrev Cells := List (String × Nat)

/-- The locals of a function fill frames in the order of their declaration. -/
inductive Labelled : List LocalVar → List Cells → Prop
  | nil : Labelled [] []
  | frame {vs fs} (h : Labelled vs fs) : Labelled vs ([] :: fs)
  | var {vs f fs name slot captured} (h : Labelled vs (f :: fs)) (hs : ∀ u ∈ vs, u.slot < slot)
    (hb : slot < 256) :
    Labelled (⟨name, fs.length, slot, captured⟩ :: vs) (((name, slot) :: f) :: fs)

/-- The names of frames. -/
def scopesOf (fs : List Cells) : Scopes := fs.map (List.map Prod.fst)

namespace Labelled

variable {vs : List LocalVar} {f : Cells} {fs : List Cells}

theorem depth_lt (h : Labelled vs fs) : ∀ v ∈ vs, v.depth < fs.length := by
  induction h with
  | nil => exact nofun
  | frame _ ih => exact fun v hv => Nat.lt_succ_of_lt (ih v hv)
  | var _ _ _ ih => exact List.forall_mem_cons.mpr ⟨Nat.lt_succ_self _, ih⟩

theorem mem_flatten (h : Labelled vs fs) : ∀ v ∈ vs, (v.name, v.slot) ∈ fs.flatten := by
  induction h with
  | nil => exact nofun
  | frame _ ih => exact ih
  | var _ _ _ ih =>
    refine List.forall_mem_cons.mpr ⟨List.mem_cons_self, fun v hv => ?_⟩
    exact List.mem_cons_of_mem _ (ih v hv)

theorem split (h : Labelled vs (f :: fs)) : ∃ us ws, vs = us ++ ws ∧ us.length = f.length ∧
    Labelled ws fs ∧ ∀ u ∈ us, u.depth = fs.length := by
  generalize hg : f :: fs = gs at h
  induction h generalizing f with
  | nil => cases hg
  | @frame vs _ h _ =>
    cases hg
    exact ⟨[], vs, rfl, rfl, h, nofun⟩
  | var _ _ _ ih =>
    cases hg
    obtain ⟨us, ws, rfl, hlen, hws, hus⟩ := ih rfl
    refine ⟨_ :: us, ws, rfl, by simp [hlen], hws, List.forall_mem_cons.mpr ⟨rfl, hus⟩⟩

theorem countP_depth (h : Labelled vs (f :: fs)) :
    vs.countP (fun v => v.depth == fs.length) = f.length := by
  obtain ⟨us, ws, rfl, hlen, hws, hus⟩ := h.split
  have hin : us.countP (fun v => v.depth == fs.length) = us.length :=
    List.countP_eq_length.mpr fun u hu => by simp [hus u hu]
  have hout : ws.countP (fun v => v.depth == fs.length) = 0 := by
    refine List.countP_eq_zero.mpr fun w hw => ?_
    have := hws.depth_lt w hw
    simp only [beq_iff_eq]
    omega
  rw [List.countP_append, hin, hout, hlen, Nat.add_zero]

theorem mark (h : Labelled vs fs) (name : String) :
    Labelled (Level.markCaptured.mark name vs) fs := by
  induction h with
  | nil => exact .nil
  | frame _ ih => exact .frame ih
  | @var vs _ _ _ _ _ h hs hb ih =>
    rw [Level.markCaptured.mark]
    split
    · exact .var h hs hb
    · refine .var ih (fun u hu => ?_) hb
      obtain ⟨v, hv, hm⟩ := (Level.marked_markCaptured name vs).mem hu
      rw [hm.slot]
      exact hs v hv

theorem holds_cons {around slot : Nat} {x : Binding} {v : LocalVar} (hs : v.slot ≠ slot) :
    LocalVar.holds around slot x (v :: vs) = LocalVar.holds around slot x vs := by
  rw [LocalVar.holds, if_neg hs]

/-- A name is found among the locals exactly where the scopes have it, and its slot holds the binder
that the scopes name; other names are looked for further out. -/
theorem finds (h : Labelled vs fs) (name : String) (outer : Scopes) :
    match LocalVar.latest? name vs with
    | some v => v ∈ vs ∧ v.slot < 256 ∧ ∀ x : Binding,
        Scopes.find? name (scopesOf fs ++ outer) = some ⟨name, x.frame + 1, x.index⟩ →
          LocalVar.holds (List.length outer) v.slot x vs = true
    | none => Scopes.find? name (scopesOf fs ++ outer) = Scopes.find? name outer := by
  induction h with
  | nil => rfl
  | frame _ ih => exact ih
  | @var vs f fs var slot captured h hs hb ih =>
    have hscopes : scopesOf (((var, slot) :: f) :: fs) ++ outer =
        (var :: f.map Prod.fst) :: (scopesOf fs ++ outer) := rfl
    rw [LocalVar.latest?, List.find?_cons, hscopes, Scopes.find?, Scopes.slot?]
    cases hn : var == name with
    | true =>
      refine ⟨List.mem_cons_self, hb, fun x hx => ?_⟩
      simp only [if_true, Option.some.injEq, Binding.mk.injEq, List.length_append, scopesOf,
        List.length_map] at hx
      rw [LocalVar.holds, if_pos rfl, h.countP_depth, ← hx.2.1, hx.2.2]
      simp [Nat.add_comm]
    | false =>
      simp only [Bool.false_eq_true, if_false]
      unfold LocalVar.latest? at ih
      cases hv : vs.find? fun v => v.name == name with
      | none =>
        rw [hv] at ih
        exact ih
      | some v =>
        rw [hv] at ih
        obtain ⟨hm, hbyte, hfind⟩ := ih
        refine ⟨List.mem_cons_of_mem _ hm, hbyte, fun x hx => ?_⟩
        rw [holds_cons (Nat.ne_of_gt (hs v hm))]
        exact hfind x hx

end Labelled

/-! ## Drawings of a compilation -/

/-- The frames of a function and the height of its stack. -/
structure Sketch where
  frames : List Cells
  height : Nat

structure Sketch.Of (k : Sketch) (l : Level) : Prop where
  locals : Labelled l.locals k.frames
  depth : l.depth + 1 = k.frames.length
  height : l.height = k.height
  captures : l.captures.size ≤ 256

/-- A function at its beginning, with nothing but itself. -/
def Sketch.start (self : String) : Sketch := ⟨[[(self, 0)]], 1⟩

theorem Sketch.start_of (name self : String) : (start self).Of (Level.start name self) :=
  ⟨.var (.frame .nil) nofun (by decide), rfl, rfl, Nat.zero_le _⟩

abbrev Drawn (ks : List Sketch) (ls : List Level) : Prop := List.Forall₂ Sketch.Of ks ls

/-- The scopes of functions inside each other. -/
def Sketch.scopes (ks : List Sketch) : Scopes := ks.flatMap fun k => scopesOf k.frames

theorem Sketch.scopes_cons (k : Sketch) (ks : List Sketch) (outer : Scopes) :
    Sketch.scopes (k :: ks) ++ outer = scopesOf k.frames ++ (Sketch.scopes ks ++ outer) := by
  rw [Sketch.scopes, List.flatMap_cons, List.append_assoc]
  rfl

theorem Drawn.framesWith {ks : List Sketch} {ls : List Level} (h : Drawn ks ls) (outer : Scopes) :
    Level.framesWith (List.length outer) ls = List.length (Sketch.scopes ks ++ outer) := by
  induction h with
  | nil => rfl
  | @cons k l ks ls hk _ ih =>
    rw [Sketch.scopes_cons, List.length_append, ← ih, scopesOf, List.length_map, ← hk.depth,
      Level.framesWith, Level.framesWith, List.map_cons, List.sum_cons]
    omega

theorem Sketch.Of.capture {k : Sketch} {l l' : Level} {c : Capture} {span : Span} {i : UInt8}
    (h : k.Of l) (hc : l.capture c span = .ok (i, l')) :
    k.Of l' ∧ l'.captures[i.toNat]? = some c := by
  rw [Level.capture] at hc
  split at hc
  · next j hj =>
    cases hc
    obtain ⟨hlt, heq, -⟩ := Array.findIdx?_eq_some_iff_getElem.mp hj
    have := h.captures
    rw [UInt8.toNat_ofNat_of_lt' (show j < 256 by omega), Array.getElem?_eq_getElem hlt]
    exact ⟨h, congrArg some (eq_of_beq heq)⟩
  · split at hc
    · cases hc
    · next hs =>
      cases hc
      have hs : l.captures.size < 256 := by simpa [Level.maxCaptures] using hs
      refine ⟨⟨h.locals, h.depth, h.height, ?_⟩, ?_⟩
      · change (l.captures.push c).size ≤ 256
        rw [Array.size_push]
        exact hs
      · rw [UInt8.toNat_ofNat_of_lt' hs]
        exact Array.getElem?_push_size

theorem Drawn.captureFrom {name : String} {span : Span} {ks : List Sketch} {ls ls' : List Level}
    {r : Option Capture} {outer : Scopes} (h : Drawn ks ls)
    (hc : Builder.captureFrom name span ls = .ok (r, ls')) :
    Drawn ks ls' ∧ ∀ c, r = some c → ∀ x : Binding,
      Scopes.find? name (Sketch.scopes ks ++ outer) = some ⟨name, x.frame + 1, x.index⟩ →
        Level.leadsTo (List.length outer) x ls' c = true := by
  induction h generalizing r ls' with
  | nil =>
    cases hc
    exact ⟨.nil, fun _ h => by cases h⟩
  | @cons k l ks ls hk hks ih =>
    rw [Sketch.scopes_cons]
    rw [Builder.captureFrom] at hc
    cases hf : l.find? name with
    | some v =>
      rw [hf] at hc
      cases hc
      have hmark := hk.locals.mark name
      have hfinds := hmark.finds name (Sketch.scopes ks ++ outer)
      rw [Level.latest?_markCaptured hf] at hfinds
      obtain ⟨-, hbyte, hholds⟩ := hfinds
      refine ⟨.cons ⟨hmark, hk.depth, hk.height, hk.captures⟩ hks, ?_⟩
      rintro _ ⟨⟩ x hx
      rw [Level.leadsTo, UInt8.toNat_ofNat_of_lt' hbyte, Drawn.framesWith hks]
      exact hholds x hx
    | none =>
      rw [hf] at hc
      have hfinds := hk.locals.finds name (Sketch.scopes ks ++ outer)
      rw [show LocalVar.latest? name l.locals = none from hf] at hfinds
      rw [hfinds]
      cases hr : Builder.captureFrom name span ls with
      | error e =>
        rw [hr] at hc
        cases hc
      | ok p =>
        obtain ⟨r', outer'⟩ := p
        rw [hr] at hc
        obtain ⟨hks', hlead⟩ := ih hr
        cases r' with
        | none =>
          cases hc
          exact ⟨.cons hk hks', fun _ h => by cases h⟩
        | some c =>
          simp only at hc
          split at hc
          · cases hc
          · next i l' hi =>
            cases hc
            obtain ⟨hk', hci⟩ := hk.capture hi
            refine ⟨.cons hk' hks', ?_⟩
            rintro _ ⟨⟩ x hx
            rw [Level.leadsTo, hci]
            exact hlead c rfl x hx

/-! ## Compilations that agree -/

namespace Build

variable {α β : Type} {P : Builder → Prop} {Q : α → Builder → Prop} {R : β → Builder → Prop}

/-- From certain states two steps do the same, and lead to certain states. -/
def Agree (P : Builder → Prop) (x y : Build α) (Q : α → Builder → Prop) : Prop :=
  ∀ b, P b → x b = y b ∧ ∀ a b', y b = .ok (a, b') → Q a b'

theorem Agree.bind {x y : Build α} {f g : α → Build β} (h : Agree P x y Q)
    (hf : ∀ a, Agree (Q a) (f a) (g a) R) : Agree P (x >>= f) (y >>= g) R := by
  intro b hb
  obtain ⟨he, hq⟩ := h b hb
  constructor
  · change (x b).bind (fun r => f r.1 r.2) = (y b).bind (fun r => g r.1 r.2)
    rw [he]
    cases hy : y b with
    | error e => rfl
    | ok r => exact (hf r.1 r.2 (hq r.1 r.2 hy)).1
  · intro c b' h
    obtain ⟨a, b₁, h₁, h₂⟩ := bind_eq_ok h
    exact (hf a b₁ (hq a b₁ h₁)).2 c b' h₂

theorem Agree.imp {x y : Build α} {S : α → Builder → Prop} (h : Agree P x y Q)
    (hs : ∀ a b, Q a b → S a b) : Agree P x y S :=
  fun b hb => ⟨(h b hb).1, fun a b' hy => hs a b' ((h b hb).2 a b' hy)⟩

theorem Agree.fail {cause : CompileFault} {span : Span} :
    Agree P (fail cause span) (fail cause span) Q :=
  fun _ _ => ⟨rfl, nofun⟩

theorem Agree.pure {a : α} (h : ∀ b, P b → Q a b) : Agree P (pure a) (pure a) Q :=
  fun b hb => ⟨rfl, fun _ _ he => by cases he; exact h b hb⟩

/-- The functions of a compilation are as drawn. -/
def As (ks : List Sketch) (b : Builder) : Prop := Drawn ks (b.level :: b.enclosing)

/-- A step that changes no function as it is drawn. -/
def Quiet (x : Build α) : Prop :=
  ∀ b a b', x b = .ok (a, b') → b'.enclosing = b.enclosing ∧ b'.level.locals = b.level.locals ∧
    b'.level.depth = b.level.depth ∧ b'.level.height = b.level.height ∧
    b'.level.captures = b.level.captures

theorem Quiet.agree {x : Build α} (h : Quiet x) (ks : List Sketch) :
    Agree (As ks) x x fun _ => As ks := by
  intro b hb
  refine ⟨rfl, fun a b' hx => ?_⟩
  obtain ⟨he, hl, hd, hh, hc⟩ := h b a b' hx
  cases hb with
  | cons hk hks =>
    refine .cons ⟨?_, ?_, ?_, ?_⟩ (he ▸ hks)
    · exact hl ▸ hk.locals
    · exact hd ▸ hk.depth
    · exact hh ▸ hk.height
    · exact hc ▸ hk.captures

theorem Quiet.bind {x : Build α} {f : α → Build β} (h : Quiet x) (hf : ∀ a, Quiet (f a)) :
    Quiet (x >>= f) := by
  intro b c b' hx
  obtain ⟨a, b₁, h₁, h₂⟩ := bind_eq_ok hx
  obtain ⟨he, hl, hd, hh, hc⟩ := h b a b₁ h₁
  obtain ⟨he', hl', hd', hh', hc'⟩ := hf a b₁ c b' h₂
  exact ⟨he'.trans he, hl'.trans hl, hd'.trans hd, hh'.trans hh, hc'.trans hc⟩

theorem quiet_of_writes {x : Build Unit}
    (h : ∀ b b', x b = .ok ((), b') → ∃ bytes line, b.Writes bytes line b') : Quiet x := by
  intro b _ b' hx
  obtain ⟨bytes, line, hw⟩ := h b b' hx
  refine ⟨hw.enclosing, ?_⟩
  rw [hw.level]
  exact ⟨rfl, rfl, rfl, rfl⟩

theorem Quiet.fail {cause : CompileFault} {span : Span} : Quiet (fail cause span : Build α) :=
  fun _ _ _ h => absurd h fail_ne_ok

theorem Quiet.pure {a : α} : Quiet (pure a) := by
  intro b _ b' h
  cases h
  exact ⟨rfl, rfl, rfl, rfl, rfl⟩

theorem quiet_ask {f : Level → α} : Quiet (ask f) := by
  intro b _ b' h
  cases h
  exact ⟨rfl, rfl, rfl, rfl, rfl⟩

theorem quiet_setTarget {t : Option RecurTarget} : Quiet (setTarget t) := by
  intro b _ b' h
  cases h
  exact ⟨rfl, rfl, rfl, rfl, rfl⟩

variable {span : Span} {o : Opcode}

theorem quiet_op : Quiet (op o span) := quiet_of_writes fun _ _ h => ⟨_, _, op_writes h⟩

theorem quiet_opByte {x : UInt8} : Quiet (opByte o x span) :=
  quiet_of_writes fun _ _ h => ⟨_, _, opByte_writes h⟩

theorem quiet_byte {x : UInt8} : Quiet (byte x span) :=
  quiet_of_writes fun _ _ h => ⟨_, _, byte_writes h⟩

theorem quiet_opWord {n : Nat} : Quiet (opWord o n span) :=
  quiet_of_writes fun _ _ h => ⟨_, _, opWord_writes h⟩

theorem quiet_opConstant {v : Value} : Quiet (opConstant o v span) :=
  quiet_of_writes fun _ _ h => (opConstant_writes h).elim fun _ h => ⟨_, _, h.2.2⟩

theorem quiet_jump : Quiet (jump o span) := by
  intro b n b' h
  have hw := (jump_writes h).2
  refine ⟨hw.enclosing, ?_⟩
  rw [hw.level]
  exact ⟨rfl, rfl, rfl, rfl⟩

theorem quiet_land {i : Nat} : Quiet (land i) := by
  intro b _ b' h
  obtain ⟨d, -, -, hp⟩ := land_patches h
  refine ⟨hp.enclosing, ?_⟩
  rw [hp.level]
  exact ⟨rfl, rfl, rfl, rfl⟩

theorem quiet_loopTo {start : Nat} : Quiet (loopTo start span) :=
  quiet_of_writes fun _ _ h => (loopTo_writes h).elim fun _ h => ⟨_, _, h.2.2⟩

theorem quiet_literal {v : Value} : Quiet (literal v span) := by
  unfold literal
  split
  · exact quiet_op
  · exact quiet_op
  · exact quiet_op
  · exact quiet_opConstant

theorem quiet_collect {n : Nat} : Quiet (collect o n span) := by
  unfold collect
  split
  · exact .fail
  · exact quiet_opWord

theorem quiet_call {n : Nat} : Quiet (call n span) := by
  unfold call
  split
  · exact .fail
  · exact quiet_opByte

theorem quiet_recurTarget {n : Nat} : Quiet (recurTarget n span) := by
  refine quiet_ask.bind fun t => ?_
  split
  · exact .fail
  · split
    · exact .fail
    · split
      · exact .fail
      · exact .pure

theorem quiet_recurTo {t : RecurTarget} {n : Nat} : Quiet (recurTo t n span) :=
  quiet_opByte.bind fun _ => quiet_byte.bind fun _ => quiet_loopTo

theorem quiet_setArity {n : Nat} : Quiet (setArity n span) := by
  unfold setArity
  split
  · exact .fail
  · intro b _ b' h
    cases h
    exact ⟨rfl, rfl, rfl, rfl, rfl⟩

theorem quiet_writeCaptures (cs : List Capture) : Quiet (writeCaptures span cs) := by
  induction cs with
  | nil => exact .pure
  | cons c cs ih => exact quiet_byte.bind fun _ => quiet_byte.bind fun _ => ih

theorem quiet_closure {p : Proto} : Quiet (closure p span) := by
  have hpush : Quiet (onLevel fun l => { l with subs := l.subs.push p }) := by
    intro b _ b' h
    cases h
    exact ⟨rfl, rfl, rfl, rfl, rfl⟩
  have hrest : ∀ n, Quiet (opWord .closure n span >>= fun _ =>
      writeCaptures span p.captures.toList) := fun n =>
    quiet_opWord.bind fun _ => quiet_writeCaptures _
  refine quiet_ask.bind fun n => ?_
  dsimp only
  split
  · exact Quiet.fail.bind fun _ => hpush.bind fun _ => hrest n
  · exact hpush.bind fun _ => hrest n

/-! ## Frames come and go -/

variable {fs : List Cells} {f : Cells} {h n : Nat} {ks : List Sketch}

theorem dropped_agree :
    Agree (As (⟨fs, h + 1⟩ :: ks)) dropped dropped fun _ => As (⟨fs, h⟩ :: ks) := by
  intro b hb
  refine ⟨rfl, fun _ b' hx => ?_⟩
  cases hx
  cases hb with
  | cons hk hks =>
    have hh : b.level.height - 1 = h := by
      rw [hk.height]
      rfl
    exact .cons ⟨hk.locals, hk.depth, hh, hk.captures⟩ hks

theorem openScope_agree :
    Agree (As (⟨fs, h⟩ :: ks)) openScope openScope fun _ => As (⟨[] :: fs, h⟩ :: ks) := by
  intro b hb
  refine ⟨rfl, fun _ b' hx => ?_⟩
  cases hx
  cases hb with
  | cons hk hks =>
    exact .cons ⟨.frame hk.locals, congrArg (· + 1) hk.depth, hk.height, hk.captures⟩ hks

/-- What lies below the value on top of the stack. -/
def Below (fs : List Cells) (h : Nat) : Prop := ∀ x ∈ fs.flatten, x.2 < h

theorem Below.frame (hb : Below fs h) : Below ([] :: fs) h := hb

theorem Below.up (hb : Below fs h) (n : Nat) : Below fs (h + n) :=
  fun x hx => Nat.lt_add_right n (hb x hx)

theorem Below.start (self : String) : Below [[(self, 0)]] 1 := by
  intro x hx
  rw [List.mem_singleton.mp hx]
  exact Nat.one_pos

theorem Below.declare (name : String) (hb : Below (f :: fs) h) :
    Below (((name, h) :: f) :: fs) (h + 1) := by
  intro x hx
  rcases List.mem_cons.mp hx with rfl | hx
  · exact Nat.lt_succ_self h
  · exact Nat.lt_succ_of_lt (hb x hx)

theorem declare_agree {name : String} (hbelow : Below (f :: fs) h) :
    Agree (As (⟨f :: fs, h + 1⟩ :: ks)) (declare name span) (declare name span) fun _ =>
      As (⟨((name, h) :: f) :: fs, h + 1⟩ :: ks) := by
  intro b hb
  refine ⟨rfl, fun _ b' hx => ?_⟩
  cases hb with
  | cons hk hks =>
    obtain ⟨hbyte, rfl⟩ := declare_eq_ok hx
    have hh : b.height - 1 = h := by
      rw [Builder.height, hk.height]
      rfl
    have hd : b.level.depth = fs.length := Nat.succ.inj hk.depth
    rw [hh] at hbyte
    refine .cons ⟨?_, hk.depth, hk.height, hk.captures⟩ hks
    change Labelled (⟨name, b.level.depth, b.height - 1, false⟩ :: b.level.locals) _
    rw [hh, hd]
    exact .var hk.locals (fun u hu => hbelow _ (hk.locals.mem_flatten u hu)) hbyte

theorem closeScope_agree {g : Cells} : Agree (As (⟨f :: g :: fs, h⟩ :: ks)) (closeScope span)
    (closeScope span) fun _ b => ∃ h', As (⟨g :: fs, h'⟩ :: ks) b := by
  intro b hb
  refine ⟨rfl, fun _ b' hx => ?_⟩
  cases hb with
  | cons hk hks =>
    obtain ⟨us, ws, hlocals, hlen, hws, hus⟩ := hk.locals.split
    have hd : b.level.depth = (g :: fs).length := Nat.succ.inj hk.depth
    have htake : b.level.locals.take us.length = us := by rw [hlocals, List.take_left]
    have hdrop : b.level.locals.drop us.length = ws := by rw [hlocals, List.drop_left]
    have hinner : ∀ v ∈ b.level.locals.take us.length, b.level.depth - 1 < v.depth := by
      intro v hv
      rw [htake] at hv
      rw [hus v hv, hd, List.length_cons]
      omega
    have houter : ∀ v ∈ b.level.locals.drop us.length, v.depth ≤ b.level.depth - 1 := by
      intro v hv
      rw [hdrop] at hv
      have := hws.depth_lt v hv
      rw [hd]
      rw [List.length_cons] at this ⊢
      omega
    have hle : us.length ≤ b.level.locals.length := by rw [hlocals, List.length_append]; omega
    obtain ⟨-, hw⟩ := closeScope_leaves hx hle hinner houter
    refine ⟨b'.level.height, .cons ⟨?_, ?_, rfl, ?_⟩ ?_⟩
    · rw [hw.level]
      change Labelled (b.level.locals.drop us.length) _
      rw [hdrop]
      exact hws
    · rw [hw.level]
      change b.level.depth - 1 + 1 = _
      rw [hd]
      rfl
    · rw [hw.level]
      exact hk.captures
    · rw [hw.enclosing]
      exact hks

theorem As.height {b : Builder} (hb : As (⟨fs, h⟩ :: ks) b) : b.level.height = h := by
  cases hb with
  | cons hk _ => exact hk.height

theorem setHeight_agree (n : Nat) : Agree (fun b => ∃ h', As (⟨fs, h'⟩ :: ks) b) (setHeight n)
    (setHeight n) fun _ => As (⟨fs, n⟩ :: ks) := by
  rintro b ⟨h', hb⟩
  refine ⟨rfl, fun _ b' hx => ?_⟩
  cases hx
  cases hb with
  | cons hk hks => exact .cons ⟨hk.locals, hk.depth, rfl, hk.captures⟩ hks

/-- A step that leaves one value, wherever the height was meanwhile. -/
theorem leavingOne_agree {x y : Build Unit} (hx : Agree (As (⟨fs, h⟩ :: ks)) x y fun _ b =>
    ∃ h', As (⟨fs, h'⟩ :: ks) b) :
    Agree (As (⟨fs, h⟩ :: ks)) (leavingOne x) (leavingOne y) fun _ => As (⟨fs, h + 1⟩ :: ks) := by
  intro b hb
  have hheight : b.level.height = h := hb.height
  have hall := hx.bind fun _ => setHeight_agree (b.level.height + 1)
  rw [hheight] at hall
  have hrun := hall b hb
  rw [← hheight] at hrun ⊢
  exact hrun

/-! ## Functions begin and end -/

theorem enter_agree {name self : String} :
    Agree (As ks) (enter name self) (enter name self) fun _ => As (.start self :: ks) := by
  intro b hb
  refine ⟨rfl, fun _ b' hx => ?_⟩
  cases hx
  exact .cons (Sketch.start_of name self) hb

theorem leave_agree {k : Sketch} :
    Agree (fun b => ∃ i, As (i :: k :: ks) b) leave leave fun _ => As (k :: ks) := by
  rintro ⟨level, enclosing⟩ ⟨i, hb⟩
  refine ⟨rfl, fun p b' hx => ?_⟩
  cases hb with
  | cons _ hks =>
    cases hks with
    | cons hk hks =>
      cases hx
      exact .cons hk hks

theorem declareParams_agree (span : Span) (ks : List Sketch) (params : List String)
    (hbelow : Below (f :: fs) h) :
    ∃ g : Cells, g.map Prod.fst = params.reverse ++ f.map Prod.fst ∧
      Below (g :: fs) (h + params.length) ∧
      Agree (As (⟨f :: fs, h⟩ :: ks)) (declareParams span params) (declareParams span params)
        fun _ => As (⟨g :: fs, h + params.length⟩ :: ks) := by
  induction params generalizing f h with
  | nil => exact ⟨f, rfl, hbelow, .pure fun b hb => hb⟩
  | cons name rest ih =>
    have hraise : Agree (As (⟨f :: fs, h⟩ :: ks))
        (onLevel fun l => { l with height := l.height + 1 })
        (onLevel fun l => { l with height := l.height + 1 }) fun _ =>
          As (⟨f :: fs, h + 1⟩ :: ks) := by
      intro b hb
      refine ⟨rfl, fun _ b' hx => ?_⟩
      cases hx
      cases hb with
      | cons hk hks =>
        exact .cons ⟨hk.locals, hk.depth, congrArg (· + 1) hk.height, hk.captures⟩ hks
    obtain ⟨g, hnames, hg, hrest⟩ := ih (hbelow.declare name)
    rw [List.length_cons, Nat.add_comm rest.length 1, ← Nat.add_assoc]
    refine ⟨g, ?_, hg, hraise.bind fun _ => (declare_agree hbelow).bind fun _ => hrest⟩
    rw [hnames, List.reverse_cons, List.append_assoc]
    rfl

theorem parameters_agree (span : Span) (ks : List Sketch) (self : String) (params : List String) :
    ∃ g : Cells, g.map Prod.fst = params.reverse ++ [self] ∧ Below [g] (1 + params.length) ∧
      Agree (As (.start self :: ks)) (parameters params span) (parameters params span)
        fun _ => As (⟨[g], 1 + params.length⟩ :: ks) := by
  obtain ⟨g, hnames, hg, hdeclare⟩ := declareParams_agree span ks params (Below.start self)
  exact ⟨g, hnames, hg, (quiet_setArity.agree _).bind fun _ => hdeclare.bind fun _ =>
    quiet_setTarget.agree _⟩

/-! ## Names -/

theorem byName_designates {x : Binding} {b b' : Builder} {a : Access} {outer : Scopes}
    (hb : As ks b)
    (hx : Scopes.find? x.name (Sketch.scopes ks ++ outer) = some ⟨x.name, x.frame + 1, x.index⟩)
    (h : byName x span b = .ok (a, b')) :
    As ks b' ∧ b'.designates (List.length outer) x a = true := by
  rw [byName, access, Builder.access] at h
  cases hb with
  | @cons k _ ks _ hk hks =>
    rw [Sketch.scopes_cons] at hx
    have hfinds := hk.locals.finds x.name (Sketch.scopes ks ++ outer)
    cases hf : b.level.find? x.name with
    | some v =>
      rw [hf] at h
      cases h
      rw [show LocalVar.latest? x.name b.level.locals = some v from hf] at hfinds
      obtain ⟨-, hbyte, hholds⟩ := hfinds
      refine ⟨.cons hk hks, ?_⟩
      rw [Builder.designates, Level.leadsTo, UInt8.toNat_ofNat_of_lt' hbyte, Drawn.framesWith hks]
      exact hholds x hx
    | none =>
      rw [hf] at h
      rw [show LocalVar.latest? x.name b.level.locals = none from hf] at hfinds
      rw [hfinds] at hx
      simp only at h
      split at h
      · cases h
      · cases h
      · next c enclosing hc =>
        split at h
        · cases h
        · next i level hi =>
          cases h
          obtain ⟨hks', hlead⟩ := Drawn.captureFrom hks hc
          obtain ⟨hk', hci⟩ := hk.capture hi
          refine ⟨.cons hk' hks', ?_⟩
          rw [Builder.designates, Level.leadsTo, hci]
          exact hlead c rfl x hx

theorem placed_agree {x : Binding} {outer : Scopes} {other : Access → Finder}
    (hx : Scopes.find? x.name (Sketch.scopes ks ++ outer) = some ⟨x.name, x.frame + 1, x.index⟩) :
    Agree (As ks) (placed (List.length outer) other x span) (byName x span) fun _ => As ks := by
  intro b hb
  rw [placed]
  cases ha : byName x span b with
  | error e => exact ⟨rfl, nofun⟩
  | ok r =>
    obtain ⟨a, b'⟩ := r
    obtain ⟨hb', hd⟩ := byName_designates hb hx ha
    refine ⟨by simp only [hd, if_true], ?_⟩
    rintro _ _ ⟨⟩
    exact hb'

end Build

theorem Scopes.find?_within {name : String} {sc : Scopes} {b : Binding} (last : List String)
    (h : sc.find? name = some b) :
    Scopes.find? name (sc ++ [last]) = some ⟨b.name, b.frame + 1, b.index⟩ := by
  induction sc with
  | nil => cases h
  | cons names outer ih =>
    rw [Scopes.find?] at h
    rw [List.cons_append, Scopes.find?]
    cases hs : Scopes.slot? name names with
    | none =>
      rw [hs] at h
      exact ih h
    | some i =>
      rw [hs] at h
      cases h
      simp

/-! ## Expressions -/

open Build

variable {R : Expr.Rules} {other : Access → Finder}

mutual

theorem Expr.compile_agree (e : Expr) {sc outer : Scopes} {pos : Position} {f : Cells}
    {fs : List Cells} {h : Nat} {ks : List Sketch} (hp : e.Parsed R sc pos)
    (hsc : sc ++ [[""]] = scopesOf (f :: fs) ++ (Sketch.scopes ks ++ outer))
    (hb : Below (f :: fs) h) :
    Agree (As (⟨f :: fs, h⟩ :: ks)) (e.compile (placed (List.length outer) other))
      (e.compile byName) fun _ => As (⟨f :: fs, h + 1⟩ :: ks) := by
  have ended : ∀ {n : Nat} (b : Builder), As (⟨f :: fs, n⟩ :: ks) b →
      ∃ h', As (⟨f :: fs, h'⟩ :: ks) b := fun b hb => ⟨_, hb⟩
  have quiet : ∀ {x : Build Unit}, Quiet x →
      Agree (As (⟨f :: fs, h⟩ :: ks)) (leavingOne x) (leavingOne x) fun _ =>
        As (⟨f :: fs, h + 1⟩ :: ks) := fun hx =>
    leavingOne_agree ((hx.agree _).imp fun _ => ended)
  have name : ∀ (n : Nat) (x : Binding) (span : Span), sc.find? x.name = some x →
      Agree (As (⟨f :: fs, n⟩ :: ks)) (placed (List.length outer) other x span) (byName x span)
        fun _ => As (⟨f :: fs, n⟩ :: ks) := by
    intro n x span hx
    have := Scopes.find?_within [""] hx
    rw [hsc, ← Sketch.scopes_cons ⟨f :: fs, n⟩] at this
    exact placed_agree this
  cases e with
  | literal v span => exact quiet quiet_literal
  | quote v span => exact quiet quiet_literal
  | vector items span =>
    cases hp with
    | vector hp =>
      exact leavingOne_agree ((compileAll_agree items hp hsc hb).bind fun _ =>
        (quiet_collect.agree _).imp fun _ => ended)
  | set items span =>
    cases hp with
    | set hp =>
      exact leavingOne_agree ((compileAll_agree items hp hsc hb).bind fun _ =>
        (quiet_collect.agree _).imp fun _ => ended)
  | map items span =>
    cases hp with
    | map _ hp =>
      exact leavingOne_agree ((compileAll_agree items hp hsc hb).bind fun _ =>
        (quiet_collect.agree _).imp fun _ => ended)
  | localRef x span =>
    cases hp with
    | localRef hx =>
      refine leavingOne_agree ((name h x span hx).bind fun a => ?_)
      cases a <;> exact (quiet_opByte.agree _).imp fun _ => ended
  | varRef v span => exact quiet quiet_opConstant
  | theVar v span => exact quiet quiet_opConstant
  | cond test yes no span =>
    cases hp with
    | cond hpt hpy hpn =>
      refine leavingOne_agree ((test.compile_agree hpt hsc hb).bind fun _ => ?_)
      refine (quiet_jump.agree _).bind fun i => dropped_agree.bind fun _ => ?_
      refine (yes.compile_agree hpy hsc hb).bind fun _ => ?_
      refine (quiet_jump.agree _).bind fun j => (quiet_land.agree _).bind fun _ => ?_
      refine dropped_agree.bind fun _ => (compileElse_agree no hpn hsc hb).bind fun _ => ?_
      rintro b ⟨h', hb'⟩
      exact ((quiet_land.agree _).imp fun _ => ended) b hb'
  | block body span =>
    cases hp with
    | block hp => exact leavingOne_agree (compileBody_agree body hp hsc hb)
  | letIn bindings body span =>
    cases hp with
    | letIn hpb hp =>
      obtain ⟨g, rfl, hbelow, hbind⟩ := compileBindings_agree bindings (f := []) hpb hsc hb.frame
      refine leavingOne_agree (openScope_agree.bind fun _ => hbind.bind fun _ => ?_)
      refine (compileBody_agree body hp (congrArg (_ :: ·) hsc) hbelow).bind fun _ => ?_
      rintro b ⟨h', hb'⟩
      exact closeScope_agree b hb'
  | loop bindings body span =>
    cases hp with
    | loop hpb hp =>
      obtain ⟨g, rfl, hbelow, hbind⟩ := compileBindings_agree bindings (f := []) hpb hsc hb.frame
      refine leavingOne_agree (openScope_agree.bind fun _ => (quiet_ask.agree _).bind fun _ => ?_)
      refine hbind.bind fun _ => (quiet_ask.agree _).bind fun _ => ?_
      refine (quiet_ask.agree _).bind fun _ => ?_
      refine (quiet_setTarget.agree _).bind fun _ => ?_
      refine (compileBody_agree body hp (congrArg (_ :: ·) hsc) hbelow).bind fun _ => ?_
      rintro b ⟨h', hb'⟩
      exact ((quiet_setTarget.agree _).bind fun _ => closeScope_agree) b hb'
  | recur args span =>
    cases hp with
    | recur _ _ hp =>
      refine leavingOne_agree ((quiet_recurTarget.agree _).bind fun t => ?_)
      refine (compileAll_agree args hp hsc hb).bind fun _ => ?_
      exact (quiet_recurTo.agree _).imp fun _ => ended
  | fn g span =>
    obtain ⟨self, arities, fspan, compiled⟩ := g
    cases hp with
    | fn _ hp =>
      have hsc' : sc ++ [[""]] = Sketch.scopes (⟨f :: fs, h⟩ :: ks) ++ outer :=
        hsc.trans (Sketch.scopes_cons ⟨f :: fs, h⟩ ks outer).symm
      refine leavingOne_agree (enter_agree.bind fun _ => ?_)
      refine (compileArities_agree arities hp hsc').bind fun _ => leave_agree.bind fun p => ?_
      exact (quiet_closure.agree _).imp fun _ => ended
  | define v value span =>
    cases hp with
    | define hp =>
      cases value with
      | none => exact quiet quiet_opConstant
      | some e =>
        refine leavingOne_agree ((e.compile_agree (hp e rfl) hsc hb).bind fun _ => ?_)
        refine (quiet_opConstant.agree _).bind fun _ => (quiet_op.agree _).bind fun _ => ?_
        exact dropped_agree.bind fun _ => (quiet_opConstant.agree _).imp fun _ => ended
  | setLocal x value span =>
    cases hp with
    | setLocal hx hp =>
      refine leavingOne_agree ((value.compile_agree hp hsc hb).bind fun _ => ?_)
      refine (name (h + 1) x span hx).bind fun a => ?_
      cases a <;> exact (quiet_opByte.agree _).imp fun _ => ended
  | setVar v value span =>
    cases hp with
    | setVar hp =>
      refine leavingOne_agree ((value.compile_agree hp hsc hb).bind fun _ => ?_)
      exact (quiet_opConstant.agree _).imp fun _ => ended
  | call callee args span =>
    cases hp with
    | call hpc hp =>
      refine leavingOne_agree ?_
      split
      · refine (compileAll_agree args hp hsc hb).bind fun _ => ?_
        exact (quiet_op.agree _).imp fun _ => ended
      · refine (callee.compile_agree hpc hsc hb).bind fun _ => ?_
        refine (compileAll_agree args hp hsc (Below.up hb 1)).bind fun _ => ?_
        exact (quiet_call.agree _).imp fun _ => ended
  | throw value span => exact .fail
  | attempt body catches finish span => exact .fail
  | macroCall v args span => exact .fail

theorem compileAll_agree (es : List Expr) {sc outer : Scopes} {pos : Position} {f : Cells}
    {fs : List Cells} {h : Nat} {ks : List Sketch} (hp : AllParsed R sc pos es)
    (hsc : sc ++ [[""]] = scopesOf (f :: fs) ++ (Sketch.scopes ks ++ outer))
    (hb : Below (f :: fs) h) :
    Agree (As (⟨f :: fs, h⟩ :: ks)) (compileAll (placed (List.length outer) other) es)
      (compileAll byName es) fun _ => As (⟨f :: fs, h + es.length⟩ :: ks) := by
  cases es with
  | nil => exact .pure fun b hb => hb
  | cons e rest =>
    refine (e.compile_agree (hp e List.mem_cons_self) hsc hb).bind fun _ => ?_
    rw [List.length_cons, Nat.add_comm rest.length 1, ← Nat.add_assoc]
    exact compileAll_agree rest (fun x hx => hp x (List.mem_cons_of_mem e hx)) hsc (Below.up hb 1)

theorem compileBody_agree (es : List Expr) {sc outer : Scopes} {pos : Position} {f : Cells}
    {fs : List Cells} {h : Nat} {ks : List Sketch} {span : Span} (hp : BodyParsed R sc pos es)
    (hsc : sc ++ [[""]] = scopesOf (f :: fs) ++ (Sketch.scopes ks ++ outer))
    (hb : Below (f :: fs) h) :
    Agree (As (⟨f :: fs, h⟩ :: ks)) (compileBody (placed (List.length outer) other) span es)
      (compileBody byName span es) fun _ b => ∃ h', As (⟨f :: fs, h'⟩ :: ks) b := by
  match es, hp with
  | [], .nil => exact (quiet_op.agree _).imp fun _ b hb => ⟨_, hb⟩
  | [e], .last hp => exact (e.compile_agree hp hsc hb).imp fun _ b hb => ⟨_, hb⟩
  | e :: e' :: rest, .cons hp hr =>
    refine (e.compile_agree hp hsc hb).bind fun _ => (quiet_op.agree _).bind fun _ => ?_
    exact dropped_agree.bind fun _ => compileBody_agree (e' :: rest) hr hsc hb

theorem compileElse_agree (e : Option Expr) {sc outer : Scopes} {pos : Position} {f : Cells}
    {fs : List Cells} {h : Nat} {ks : List Sketch} {span : Span}
    (hp : ∀ x, e = some x → x.Parsed R sc pos)
    (hsc : sc ++ [[""]] = scopesOf (f :: fs) ++ (Sketch.scopes ks ++ outer))
    (hb : Below (f :: fs) h) :
    Agree (As (⟨f :: fs, h⟩ :: ks)) (compileElse (placed (List.length outer) other) span e)
      (compileElse byName span e) fun _ b => ∃ h', As (⟨f :: fs, h'⟩ :: ks) b := by
  cases e with
  | none => exact (quiet_op.agree _).imp fun _ b hb => ⟨_, hb⟩
  | some e => exact (e.compile_agree (hp e rfl) hsc hb).imp fun _ b hb => ⟨_, hb⟩

theorem compileBindings_agree (bs : List (Bound Expr)) {sc outer inner : Scopes} {pos : Position}
    {f : Cells} {fs : List Cells} {h : Nat} {ks : List Sketch}
    (hp : BindingsParsed R (f.map Prod.fst :: sc) pos bs inner)
    (hsc : sc ++ [[""]] = scopesOf fs ++ (Sketch.scopes ks ++ outer))
    (hb : Below (f :: fs) h) :
    ∃ g : Cells, inner = g.map Prod.fst :: sc ∧ Below (g :: fs) (h + bs.length) ∧
      Agree (As (⟨f :: fs, h⟩ :: ks)) (compileBindings (placed (List.length outer) other) bs)
        (compileBindings byName bs) fun _ => As (⟨g :: fs, h + bs.length⟩ :: ks) := by
  match bs, hp with
  | [], .nil => exact ⟨f, rfl, hb, .pure fun b hb => hb⟩
  | ⟨name, init⟩ :: rest, .cons hp hr =>
    have hinit := init.compile_agree hp (congrArg (_ :: ·) hsc) hb
    obtain ⟨g, rfl, hbelow, hrest⟩ :=
      compileBindings_agree rest (f := (name, h) :: f) hr hsc (hb.declare name)
    rw [List.length_cons, Nat.add_comm rest.length 1, ← Nat.add_assoc]
    exact ⟨g, rfl, hbelow, hinit.bind fun _ => (declare_agree hb).bind fun _ => hrest⟩

theorem compileArities_agree (as : List (Arity Expr)) {sc outer : Scopes} {self : String}
    {ks : List Sketch} {span : Span}
    (hp : ∀ params variadic body, Arity.mk params variadic body ∈ as →
      BodyParsed R (sc.enterCall self params) (.body params.length) body)
    (hsc : sc ++ [[""]] = Sketch.scopes ks ++ outer) :
    Agree (As (.start self :: ks)) (compileArities (placed (List.length outer) other) span as)
      (compileArities byName span as) fun _ b => ∃ k, As (k :: ks) b := by
  match as with
  | [] => exact .fail
  | ⟨params, true, body⟩ :: [] => exact .fail
  | ⟨params, v, body⟩ :: a :: rest => cases v <;> exact .fail
  | [⟨params, false, body⟩] =>
    obtain ⟨g, hnames, hg, hparams⟩ := parameters_agree span ks self params
    have hsc' : sc.enterCall self params ++ [[""]] =
        scopesOf [g] ++ (Sketch.scopes ks ++ outer) := by
      rw [Scopes.enterCall, List.cons_append, hsc, scopesOf, List.map_singleton, hnames,
        List.reverse_cons]
      rfl
    have hbody := hp params false body List.mem_cons_self
    refine hparams.bind fun _ => (compileBody_agree body hbody hsc' hg).bind fun _ => ?_
    rintro b ⟨h', hb⟩
    exact ((quiet_op.agree _).imp fun _ b hb => ⟨_, hb⟩) b hb

end

/-! ## Whole functions -/

theorem Build.Agree.run {α : Type} {x y : Build α} {P : Builder → Prop} {Q : α → Builder → Prop}
    {b : Builder} (h : Agree P x y Q) (hb : P b) : x.run' b = y.run' b := by
  change (x b).map Prod.fst = (y b).map Prod.fst
  rw [(h b hb).1]

namespace Proto

end Proto

end TwinLisp
