import Mathlib.Data.List.Forall2
import TwinLisp.Proofs.Bytecode.Layout

/-! The state of a compilation as it goes on. Code and tables only grow; a local keeps its slot and
may come to be captured, which is noted in every function between it and the one that reads it.

* `Scene.Le`: the names of a place, as they are known earlier and later.
* `Builder.Valid`: slots lie below the height and fit a byte, captured variables have a name.
* `Builder.Extends`: a later state of a compilation.
* `Builder.Finished`: a finished function that agrees with the state from some offset on. -/

namespace TwinLisp

/-! ## Names that come to be captured -/

/-- The same local, which may have come to be captured. -/
structure LocalVar.Marks (v w : LocalVar) : Prop where
  name : w.name = v.name
  depth : w.depth = v.depth
  slot : w.slot = v.slot
  captured : v.captured = true → w.captured = true

theorem LocalVar.Marks.refl (v : LocalVar) : v.Marks v := ⟨rfl, rfl, rfl, id⟩

theorem LocalVar.Marks.trans {u v w : LocalVar} (h : u.Marks v) (h' : v.Marks w) : u.Marks w :=
  ⟨h'.name.trans h.name, h'.depth.trans h.depth, h'.slot.trans h.slot,
    fun hc => h'.captured (h.captured hc)⟩

abbrev Marked : List LocalVar → List LocalVar → Prop := List.Forall₂ LocalVar.Marks

theorem Marked.refl (vs : List LocalVar) : Marked vs vs := List.forall₂_same.mpr fun v _ => .refl v

theorem Marked.trans {us vs ws : List LocalVar} (h : Marked us vs) (h' : Marked vs ws) :
    Marked us ws := by
  induction h generalizing ws with
  | nil => exact h'
  | cons hv _ ih =>
    cases h' with
    | cons hw hws => exact .cons (hv.trans hw) (ih hws)

theorem Marked.mem {vs ws : List LocalVar} (h : Marked vs ws) {w : LocalVar} (hw : w ∈ ws) :
    ∃ v ∈ vs, v.Marks w := by
  induction h with
  | nil => cases hw
  | cons hv _ ih =>
    rcases List.mem_cons.mp hw with rfl | hw
    · exact ⟨_, List.mem_cons_self, hv⟩
    · obtain ⟨v, hm, hv⟩ := ih hw
      exact ⟨v, List.mem_cons_of_mem _ hm, hv⟩

theorem Marked.latest? {vs ws : List LocalVar} (h : Marked vs ws) (name : String) :
    (LocalVar.latest? name vs = none ∧ LocalVar.latest? name ws = none) ∨
      ∃ v w, LocalVar.latest? name vs = some v ∧ LocalVar.latest? name ws = some w ∧ v.Marks w := by
  induction h with
  | nil => exact .inl ⟨rfl, rfl⟩
  | @cons v w vs ws hv _ ih =>
    unfold LocalVar.latest? at ih ⊢
    rw [List.find?_cons, List.find?_cons, hv.name]
    cases v.name == name with
    | true => exact .inr ⟨v, w, rfl, rfl, hv⟩
    | false => exact ih

theorem Marked.latest?_eq_none {vs ws : List LocalVar} (h : Marked vs ws) {name : String}
    (hn : LocalVar.latest? name vs = none) : LocalVar.latest? name ws = none := by
  rcases h.latest? name with h | ⟨v, w, hv, _⟩
  · exact h.2
  · rw [hn] at hv
    cases hv

theorem Marked.latest?_eq_some {vs ws : List LocalVar} (h : Marked vs ws) {name : String}
    {v : LocalVar} (hv : LocalVar.latest? name vs = some v) :
    ∃ w, LocalVar.latest? name ws = some w ∧ v.Marks w := by
  rcases h.latest? name with h | ⟨u, w, hu, hw, hm⟩
  · rw [h.1] at hv
    cases hv
  · rw [hv] at hu
    cases hu
    exact ⟨w, hw, hm⟩

namespace Scene

/-- The same names later on: more of them may be captured. -/
structure Le (s t : Scene) : Prop where
  locals : Marked s.locals t.locals
  captures : ∀ (i : Nat) c, s.captures[i]? = some c → t.captures[i]? = some c

theorem Le.refl (s : Scene) : s.Le s := ⟨.refl _, fun _ _ h => h⟩

theorem Le.trans {s t u : Scene} (h : s.Le t) (h' : t.Le u) : s.Le u :=
  ⟨h.locals.trans h'.locals, fun i c hc => h'.captures i c (h.captures i c hc)⟩

abbrev AllLe : List Scene → List Scene → Prop := List.Forall₂ Scene.Le

theorem AllLe.refl (ss : List Scene) : AllLe ss ss := List.forall₂_same.mpr fun s _ => .refl s

theorem AllLe.trans {ss ts us : List Scene} (h : AllLe ss ts) (h' : AllLe ts us) : AllLe ss us := by
  induction h generalizing us with
  | nil => exact h'
  | cons hs _ ih =>
    cases h' with
    | cons ht hts => exact .cons (hs.trans ht) (ih hts)

end Scene

theorem Captured.mono {name : String} {ss ts : List Scene} {c : Capture} (h : Captured name ss c)
    (hle : Scene.AllLe ss ts) : Captured name ts c := by
  induction h generalizing ts with
  | near hf hc hi =>
    cases hle with
    | cons hs _ =>
      obtain ⟨w, hw, hm⟩ := hs.locals.latest?_eq_some hf
      exact .near hw (hm.captured hc) (hi.trans hm.slot.symm)
  | far hf hc _ ih =>
    cases hle with
    | cons hs hr => exact .far (hs.locals.latest?_eq_none hf) (hs.captures _ _ hc) (ih hr)

/-! ## Valid states -/

def Level.scene (l : Level) : Scene := ⟨l.captures, l.locals⟩

def Level.scenes (ls : List Level) : List Scene := ls.map Level.scene

/-- What holds of a function while it is built inside others. -/
structure Level.Valid (outer : List Scene) (l : Level) : Prop where
  below : ∀ v ∈ l.locals, v.slot < l.height
  byte : ∀ v ∈ l.locals, v.slot < 256
  depth : ∀ v ∈ l.locals, v.depth ≤ l.depth
  captures : l.captures.size ≤ 256
  named : ∀ c ∈ l.captures, ∃ x, Captured x outer c
  subs : ∀ q ∈ l.subs, q.Laid
  lined : l.chunk.lines.size = l.chunk.size

def Level.AllValid : List Level → Prop
  | [] => True
  | l :: rest => l.Valid (scenes rest) ∧ AllValid rest

/-- A later state of a function around the one that is built. -/
structure Level.Noted (l l' : Level) : Prop where
  eq : l' = { l with locals := l'.locals, captures := l'.captures }
  scene : l.scene.Le l'.scene

theorem Level.Noted.refl (l : Level) : l.Noted l := ⟨rfl, .refl _⟩

theorem Level.Noted.trans {l l' l'' : Level} (h : l.Noted l') (h' : l'.Noted l'') : l.Noted l'' :=
  ⟨by rw [h'.eq, h.eq], h.scene.trans h'.scene⟩

abbrev Level.AllNoted : List Level → List Level → Prop := List.Forall₂ Level.Noted

theorem Level.AllNoted.refl (ls : List Level) : AllNoted ls ls :=
  List.forall₂_same.mpr fun l _ => .refl l

theorem Level.AllNoted.trans {ls ms ns : List Level} (h : AllNoted ls ms) (h' : AllNoted ms ns) :
    AllNoted ls ns := by
  induction h generalizing ns with
  | nil => exact h'
  | cons hs _ ih =>
    cases h' with
    | cons ht hts => exact .cons (hs.trans ht) (ih hts)

theorem Level.AllNoted.scenes {ls ms : List Level} (h : AllNoted ls ms) :
    Scene.AllLe (scenes ls) (scenes ms) := by
  induction h with
  | nil => exact .nil
  | cons hs _ ih => exact .cons hs.scene ih

theorem Level.Valid.mono {outer outer' : List Scene} {l l' : Level} (h : l.Valid outer)
    (ho : Scene.AllLe outer outer') (hl : Marked l.locals l'.locals) (hc : l'.captures = l.captures)
    (hh : l.height ≤ l'.height) (hd : l.depth ≤ l'.depth) (hs : l'.subs = l.subs)
    (hk : l'.chunk = l.chunk) : l'.Valid outer' := by
  refine ⟨fun w hw => ?_, fun w hw => ?_, fun w hw => ?_, ?_, fun c hm => ?_, hs ▸ h.subs, hk ▸ h.lined⟩
  · obtain ⟨v, hv, hm⟩ := hl.mem hw
    have := h.below v hv
    rw [hm.slot]
    omega
  · obtain ⟨v, hv, hm⟩ := hl.mem hw
    rw [hm.slot]
    exact h.byte v hv
  · obtain ⟨v, hv, hm⟩ := hl.mem hw
    have := h.depth v hv
    rw [hm.depth]
    omega
  · rw [hc]
    exact h.captures
  · rw [hc] at hm
    obtain ⟨x, hx⟩ := h.named c hm
    exact ⟨x, hx.mono ho⟩

namespace Builder

def Valid (b : Builder) : Prop := Level.AllValid (b.level :: b.enclosing)

def size (b : Builder) : Nat := b.level.chunk.size

def height (b : Builder) : Nat := b.level.height

/-- A later state of a compilation, after all scopes that were opened meanwhile were left; offsets
of the code may have been filled in. -/
structure Later (b b' : Builder) : Prop where
  name : b'.level.name = b.level.name
  arity : b'.level.arity = b.level.arity
  depth : b'.level.depth = b.level.depth
  target : b'.level.target = b.level.target
  scene : b.level.scene.Le b'.level.scene
  size : b.size ≤ b'.size
  constants : ∀ (n : Nat) v, b.level.chunk.constants[n]? = some v →
    b'.level.chunk.constants[n]? = some v
  lines : ∀ (k : Nat) x, b.level.chunk.lines[k]? = some x → b'.level.chunk.lines[k]? = some x
  subs : ∀ (n : Nat) q, b.level.subs[n]? = some q → b'.level.subs[n]? = some q
  enclosing : Level.AllNoted b.enclosing b'.enclosing

/-- A later state, in which the code has only grown. -/
structure Extends (b b' : Builder) : Prop extends Later b b' where
  code : ∀ k < b.size, b'.level.chunk.code[k]? = b.level.chunk.code[k]?

theorem Later.refl (b : Builder) : b.Later b :=
  ⟨rfl, rfl, rfl, rfl, .refl _, Nat.le_refl _, fun _ _ h => h, fun _ _ h => h, fun _ _ h => h, .refl _⟩

theorem Later.trans {b b' b'' : Builder} (h : b.Later b') (h' : b'.Later b'') : b.Later b'' where
  name := h'.name.trans h.name
  arity := h'.arity.trans h.arity
  depth := h'.depth.trans h.depth
  target := h'.target.trans h.target
  scene := h.scene.trans h'.scene
  size := Nat.le_trans h.size h'.size
  constants n v hv := h'.constants n v (h.constants n v hv)
  lines k x hx := h'.lines k x (h.lines k x hx)
  subs n q hq := h'.subs n q (h.subs n q hq)
  enclosing := h.enclosing.trans h'.enclosing

theorem Extends.refl (b : Builder) : b.Extends b := ⟨.refl b, fun _ _ => rfl⟩

theorem Extends.trans {b b' b'' : Builder} (h : b.Extends b') (h' : b'.Extends b'') :
    b.Extends b'' :=
  ⟨h.toLater.trans h'.toLater, fun k hk =>
    (h'.code k (Nat.lt_of_lt_of_le hk h.size)).trans (h.code k hk)⟩

/-- Finding a name writes nothing. -/
theorem Extends.of_noted {b : Builder} {l : Level} {ls : List Level} (h : b.level.Noted l)
    (hs : Level.AllNoted b.enclosing ls) : b.Extends ⟨l, ls⟩ where
  name := by change l.name = _; rw [h.eq]
  arity := by change l.arity = _; rw [h.eq]
  depth := by change l.depth = _; rw [h.eq]
  target := by change l.target = _; rw [h.eq]
  scene := h.scene
  size := by change _ ≤ l.chunk.size; rw [h.eq]; exact Nat.le_refl _
  constants n v hv := by change l.chunk.constants[n]? = _; rw [h.eq]; exact hv
  lines k x hx := by change l.chunk.lines[k]? = _; rw [h.eq]; exact hx
  subs n q hq := by change l.subs[n]? = _; rw [h.eq]; exact hq
  enclosing := hs
  code k _ := by change l.chunk.code[k]? = _; rw [h.eq]

/-- A finished function that agrees with a state of its compilation, with its code from some offset
on; `locals` and `outer` are the names as they are known in the end. -/
structure Finished (b : Builder) (i : Nat) (p : Proto) (locals : List LocalVar)
    (outer : List Scene) : Prop where
  code : ∀ k, i ≤ k → k < b.size → p.chunk.code[k]? = b.level.chunk.code[k]?
  constants : ∀ (n : Nat) v, b.level.chunk.constants[n]? = some v → p.chunk.constants[n]? = some v
  lines : ∀ (k : Nat) x, b.level.chunk.lines[k]? = some x → p.chunk.lines[k]? = some x
  subs : ∀ (n : Nat) q, b.level.subs[n]? = some q → p.subs[n]? = some q
  scene : b.level.scene.Le ⟨p.captures, locals⟩
  outer : Scene.AllLe (Level.scenes b.enclosing) outer

section Finished

variable {b b' : Builder} {i j : Nat} {p : Proto} {locals : List LocalVar} {outer : List Scene}

/-- The function agrees with an earlier state where the code between has not been filled in. -/
theorem Finished.before (h : b'.Finished i p locals outer) (he : b.Later b') (hij : i ≤ j)
    (hc : ∀ k, j ≤ k → k < b.size → b'.level.chunk.code[k]? = b.level.chunk.code[k]?) :
    b.Finished j p locals outer where
  code k hk hlt :=
    (h.code k (Nat.le_trans hij hk) (Nat.lt_of_lt_of_le hlt he.size)).trans (hc k hk hlt)
  constants n v hv := h.constants n v (he.constants n v hv)
  lines k x hx := h.lines k x (he.lines k x hx)
  subs n q hq := h.subs n q (he.subs n q hq)
  scene := he.scene.trans h.scene
  outer := he.enclosing.scenes.trans h.outer

theorem Finished.earlier (h : b'.Finished i p locals outer) (he : b.Extends b') :
    b.Finished i p locals outer :=
  h.before he.toLater (Nat.le_refl i) fun k _ hk => he.code k hk

theorem Finished.from (h : b.Finished i p locals outer) (hij : i ≤ j) :
    b.Finished j p locals outer := h.before (.refl b) hij fun _ _ _ => rfl

end Finished

/-! ## Changes that are not code -/

def withHeight (n : Nat) (b : Builder) : Builder := { b with level := { b.level with height := n } }

def atDepth (d : Nat) (b : Builder) : Builder := { b with level := { b.level with depth := d } }

def aimed (t : Option RecurTarget) (b : Builder) : Builder :=
  { b with level := { b.level with target := t } }

/-- Without the latest locals. -/
def forget (n : Nat) (b : Builder) : Builder :=
  { b with level := { b.level with locals := b.level.locals.drop n } }

variable {b b' : Builder}

theorem Extends.withHeight (h : b.Extends b') (n : Nat) : b.Extends (b'.withHeight n) :=
  ⟨⟨h.name, h.arity, h.depth, h.target, h.scene, h.size, h.constants, h.lines, h.subs, h.enclosing⟩, h.code⟩

theorem Extends.atDepth (h : b.Extends b') (d : Nat) : (b.atDepth d).Extends (b'.atDepth d) :=
  ⟨⟨h.name, h.arity, rfl, h.target, h.scene, h.size, h.constants, h.lines, h.subs, h.enclosing⟩, h.code⟩

theorem Extends.aimed (h : b.Extends b') (t : Option RecurTarget) :
    (b.aimed t).Extends (b'.aimed t) :=
  ⟨⟨h.name, h.arity, h.depth, rfl, h.scene, h.size, h.constants, h.lines, h.subs, h.enclosing⟩, h.code⟩

theorem Extends.forget (h : b.Extends b') (n : Nat) : (b.forget n).Extends (b'.forget n) :=
  ⟨⟨h.name, h.arity, h.depth, h.target, ⟨List.forall₂_drop n h.scene.locals, h.scene.captures⟩,
    h.size, h.constants, h.lines, h.subs, h.enclosing⟩, h.code⟩

theorem Extends.of_withHeight {n : Nat} (h : (b.withHeight n).Extends b') : b.Extends b' :=
  ⟨⟨h.name, h.arity, h.depth, h.target, h.scene, h.size, h.constants, h.lines, h.subs, h.enclosing⟩, h.code⟩

theorem Valid.deeper (hb : b.Valid) : (b.atDepth (b.level.depth + 1)).Valid :=
  ⟨⟨hb.1.below, hb.1.byte, fun v hv => Nat.le_succ_of_le (hb.1.depth v hv), hb.1.captures,
    hb.1.named, hb.1.subs, hb.1.lined⟩, hb.2⟩

theorem Valid.aimed (hb : b.Valid) (t : Option RecurTarget) : (b.aimed t).Valid :=
  ⟨⟨hb.1.below, hb.1.byte, hb.1.depth, hb.1.captures, hb.1.named, hb.1.subs, hb.1.lined⟩, hb.2⟩

theorem Finished.of_aimed {i : Nat} {p : Proto} {locals : List LocalVar} {outer : List Scene}
    {t : Option RecurTarget} (h : (b.aimed t).Finished i p locals outer) :
    b.Finished i p locals outer := ⟨h.code, h.constants, h.lines, h.subs, h.scene, h.outer⟩

theorem Valid.withHeight (hb : b.Valid) (h : b.Later b') (hv : b'.Valid) {n : Nat}
    (hn : b.height ≤ n) : (b'.withHeight n).Valid := by
  refine ⟨⟨fun w hw => ?_, hv.1.byte, hv.1.depth, hv.1.captures, hv.1.named, hv.1.subs, hv.1.lined⟩,
    hv.2⟩
  obtain ⟨v, hv, hm⟩ := h.scene.locals.mem hw
  have := hb.1.below v hv
  rw [hm.slot]
  exact Nat.lt_of_lt_of_le this hn

theorem Finished.forget {i : Nat} {p : Proto} {locals : List LocalVar} {outer : List Scene}
    (h : b.Finished i p locals outer) (n : Nat) :
    (b.forget n).Finished i p (locals.drop n) outer :=
  ⟨h.code, h.constants, h.lines, h.subs, ⟨List.forall₂_drop n h.scene.locals, h.scene.captures⟩, h.outer⟩

end Builder

end TwinLisp
