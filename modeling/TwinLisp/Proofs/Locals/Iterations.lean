import TwinLisp.Proofs.Locals.Lexical
import TwinLisp.Proofs.Machine.Rebinding

/-! Bodies that are run again. Each time an interpreted function begins, be it by a call or by a `recur`
to its head, it has a new frame, in which there are the function itself and its arguments. Functions
that have been made before see other frames only.

* `Store.Sees`, `Store.Grows`: the frames that can be seen from a frame, and stores that have grown.
* `Iterates`: the rounds of a call.
* `Chart.Mirrors.round`: the frame of a round. -/

namespace TwinLisp

open Eval

namespace Store

variable {s t u : Store}

/-! ## Seeing frames -/

/-- A frame is another one or above it. -/
inductive Sees (s : Store) : Option Nat → Nat → Prop
  | self {k} : Sees s (some k) k
  | above {k j f} (hf : s.frames[k]? = some f) (h : s.Sees f.parent j) : Sees s (some k) j

/-- Frames have remained where they were. -/
def Grows (s t : Store) : Prop :=
  ∀ (k : Nat) f, s.frames[k]? = some f →
    ∃ g, t.frames[k]? = some g ∧ g.parent = f.parent ∧ g.depth = f.depth

theorem Grows.trans (h : s.Grows t) (h' : t.Grows u) : s.Grows u := by
  intro k f hf
  obtain ⟨g, hg, hp, hd⟩ := h k f hf
  obtain ⟨g', hg', hp', hd'⟩ := h' k g hg
  exact ⟨g', hg', hp'.trans hp, hd'.trans hd⟩

theorem grows_newFrame (s : Store) (i : Option Nat) (xs : Array Value) :
    s.Grows (s.newFrame i xs).2 := by
  intro k f hf
  refine ⟨f, ?_, rfl, rfl⟩
  have hlt : k < s.frames.size := (Array.getElem?_eq_some_iff.mp hf).1
  rw [newFrame, Array.getElem?_push, if_neg (Nat.ne_of_lt hlt), hf]

theorem local?_own {k i : Nat} {f : Frame} (hf : s.frames[k]? = some f) (name : String) :
    s.local? k ⟨name, f.depth, i⟩ = f.slots[i]? := by
  have hown : s.frameAt? k f.depth = some k := frameAt?_own hf
  unfold local? holder?
  simp only [hown, hf]
  by_cases hi : i < f.slots.size
  · rw [if_pos hi, Option.bind_some, slot?, hf]
  · rw [if_neg hi, Option.bind_none, Array.getElem?_eq_none (Nat.not_lt.mp hi)]

end Store

/-! ## Rounds -/

/-- The rounds of a call of an interpreted function: with the number of those before it, each has its
frame and its arguments, and begins in a state. -/
inductive Iterates (E : Engine) (id : Nat) (name : String) (args : List Value) (g : Function)
    (body : List Expr) (s : State) : Nat → Nat → List Value → State → Prop
  | first : Iterates E id name args g body s 0 s.store.frames.size args
      { s with
        depth := s.depth + 1
        store := (s.store.newFrame g.frame (.fn id name :: args).toArray).2 }
  | again {n k xs u ys w} (h : Iterates E id name args g body s n k xs u)
    (e : flowBody E body (some k) u = .ok (.again ys) w) :
    Iterates E id name args g body s (n + 1) w.store.frames.size ys
      { w with store := (w.store.newFrame g.frame (.fn id name :: ys).toArray).2 }

variable {E : Engine} {id : Nat} {name : String} {args : List Value} {g : Function} {s u : State}

/-- From any of its rounds on, a call does what is left to do of it. -/
theorem callFunction_of_iterates (hE : E.locals = .framed) {a : Arity Expr}
    (hg : s.store.functions[id]? = some g) (ha : g.literal.arityFor? args.length = some a)
    (hv : a.variadic = false) (hd : s.depth < s.config.maxDepth) {n k : Nat} {xs : List Value}
    (h : Iterates E id name args g a.body s n k xs u) (hn : n ≤ E.rounds) :
    callFunction E id name args s =
      Act.ending (rounds E.locals (flowBody E a.body) g.frame (g.literal.name.getD "" :: a.params)
        [.fn id name] (E.rounds - n) (some k)) (fun s => { s with depth := s.depth - 1 }) u := by
  induction h with
  | first =>
    refine Chart.callFunction_begins hg ha hd ?_
    rw [hE, callSlots, hv]
    rfl
  | @again n k xs u ys w _ e ih =>
    rw [ih (Nat.le_of_succ_le hn)]
    obtain ⟨m, hm⟩ : ∃ m, E.rounds - n = m + 1 := ⟨E.rounds - (n + 1), by omega⟩
    have hm' : E.rounds - (n + 1) = m := by omega
    rw [hm, hm']
    unfold Act.ending
    rw [rounds, Act.bind_apply, e, hE]
    rfl

namespace Chart

variable {c d : Chart} {sc : Scopes} {i j : Option Nat} {t t' w : State}

/-! ## Frames of charts -/

theorem Le.grows (h : c.Le d) (m : c.Mirrors s t) (m' : d.Mirrors u t') :
    s.store.Grows u.store := by
  intro k f hf
  have hlt : k < c.frames.length := m.frames ▸ (Array.getElem?_eq_some_iff.mp hf).1
  have hk : c.frames[k]? = some c.frames[k] := List.getElem?_eq_getElem hlt
  obtain ⟨f', hf', hp, hd, -⟩ := m.frame hk
  obtain ⟨g, hg, hp', hd', -⟩ := m'.frame (getElem?_mono h.frames hk)
  obtain rfl : f' = f := Option.some.inj (hf'.symm.trans hf)
  exact ⟨g, hg, hp'.trans hp.symm, hd'.trans hd.symm⟩

/-- What is seen from a frame has been there before, however much has been added. -/
theorem Env.sees_lt (h : c.Env sc i j) (m : c.Mirrors s t) {store : Store}
    (hg : s.store.Grows store) {k : Nat} (hk : store.Sees i k) : k < s.store.frames.size := by
  induction h with
  | outermost => nomatch hk
  | @scope sc i j k' _ hframe ih =>
    obtain ⟨f, hf, hp, -⟩ := m.frame hframe
    cases hk with
    | self => exact (Array.getElem?_eq_some_iff.mp hf).1
    | above hf' h' =>
      obtain ⟨g, hg', hp', -⟩ := hg k' f hf
      cases hf'.symm.trans hg'
      rw [hp', hp] at h'
      exact ih h'
  | name _ _ ih => exact ih hk

/-- A function begins, or begins again: it has a frame of its own, which no function sees. -/
structure Begins (g : Function) (self : Value) (xs : List Value) (k : Nat) (u : State) : Prop where
  frame : ∃ depth, u.store.frames[k]? = some ⟨(self :: xs).toArray, g.frame, depth⟩ ∧
    ∀ name i, u.store.local? k ⟨name, depth, i⟩ = (self :: xs)[i]?
  unseen : ∀ {store : Store}, u.store.Grows store → ∀ (i : Nat) h, u.store.functions[i]? = some h →
    ∀ j, store.Sees h.frame j → j < k

theorem Mirrors.begins (m : c.Mirrors s t) (h : c.Env sc g.frame j) {names : List String}
    {self : Value} {xs : List Value} (hn : (self :: xs).length = names.length) :
    ∃ d t' j', c.Le d ∧
      d.Mirrors { s with store := (s.store.newFrame g.frame (self :: xs).toArray).2 } t' ∧
      d.Env (names.reverse :: sc) (some s.store.frames.size) j' ∧
      Begins g self xs s.store.frames.size
        { s with store := (s.store.newFrame g.frame (self :: xs).toArray).2 } := by
  obtain ⟨d, t', j', hle, -, hm, hg⟩ := m.names h (names.zip (self :: xs))
  rw [List.map_snd_zip (Nat.le_of_eq hn)] at hm
  rw [List.map_fst_zip (Nat.le_of_eq hn.symm)] at hg
  have hframe : (s.store.newFrame g.frame (self :: xs).toArray).2.frames[s.store.frames.size]? =
      some ⟨(self :: xs).toArray, g.frame, s.store.depthBelow g.frame⟩ := Array.getElem?_push_size
  refine ⟨d, t', j', hle, hm, hg.env, ⟨_, hframe, fun name i => ?_⟩, fun hgrow i f hf j hj => ?_⟩
  · rw [Store.local?_own hframe]
    exact List.getElem?_toArray
  obtain ⟨_, _, -, -, henv⟩ := m.function hf
  exact henv.sees_lt m ((s.store.grows_newFrame _ _).trans hgrow) hj

/-- A body leads to states with larger charts. -/
theorem flowBody_agrees (m : c.Mirrors s t) {at_ : Position} {es : List Expr}
    (he : BodyParsed rules sc at_ es) (h : c.Env sc i j) (level : Nat) :
    match flowBody (Engine.ofFuel level) es i s with
    | .ok _ u | .error (.raised _) u => ∃ d t', c.Le d ∧ d.Mirrors u t'
    | .error .exhausted _ => True := by
  have hf := Coupling.flowBody_follows shared (engines .framed .framed level) es he h s t m
  rw [Engine.framing_framed, show (lexical .framed .framed).erase = id from rfl,
    mapBytecodeAll_id] at hf
  generalize flowBody (Engine.ofFuel level) es i s = r at hf
  cases hf with
  | ok hw _ hs _ => exact ⟨_, _, hw, hs⟩
  | raised hw _ hs _ => exact ⟨_, _, hw, hs⟩
  | exhausted _ => trivial

/-- All rounds of a call begin alike, in states that charts describe. -/
theorem Mirrors.iterates (m : c.Mirrors s t) (hg : s.store.functions[id]? = some g) {a : Arity Expr}
    (ha : g.literal.arityFor? args.length = some a) (hv : a.variadic = false) {level n k : Nat}
    {xs : List Value} (h : Iterates (Engine.ofFuel level) id name args g a.body s n k xs u) :
    xs.length = a.params.length ∧ Begins g (.fn id name) xs k u ∧
      ∃ sc j, BodyParsed rules ((g.literal.name.getD "" :: a.params).reverse :: sc)
          (.body a.params.length) a.body ∧
        ∃ d t' j', c.Le d ∧ d.Mirrors u t' ∧ d.Env sc g.frame j ∧
          d.Env ((g.literal.name.getD "" :: a.params).reverse :: sc) (some k) j' := by
  obtain ⟨sc, j, -, hp, henv⟩ := m.function hg
  have hbody : BodyParsed rules ((g.literal.name.getD "" :: a.params).reverse :: sc)
      (.body a.params.length) a.body := by
    obtain ⟨params, variadic, body⟩ := a
    exact hp.arities params variadic body (FnLiteral.mem_of_arityFor? ha)
  induction h with
  | first =>
    have hslots : (Value.fn id name :: args).length =
        (g.literal.name.getD "" :: a.params).length := by
      have hlen : (callSlots (.fn id name) a args).length = _ :=
        Coupling.length_callSlots hp.literal ha
      rwa [callSlots, hv] at hlen
    have hm := m.blind (f := fun s => { s with depth := s.depth + 1 }) fun _ _ _ => rfl
    obtain ⟨d, t', j', hle, hd, he, hb⟩ := hm.begins henv hslots
    exact ⟨Nat.succ.inj hslots, hb, sc, j, hbody, d, t', j', hle, hd, henv.mono hle, he⟩
  | @again n k xs u ys w _ e ih =>
    obtain ⟨-, -, sc, j, hbody, d, t', j', hle, hd, henv, he⟩ := ih
    have hlen := length_again hd hbody he .framed level (by rw [Engine.framing_framed]; exact e)
    have hw := flowBody_agrees hd hbody he level
    rw [e] at hw
    obtain ⟨d', t'', hle', hd'⟩ := hw
    have henv' := henv.mono hle'
    have hslots : (Value.fn id name :: ys).length =
        (g.literal.name.getD "" :: a.params).length := by
      rw [List.length_cons, List.length_cons, hlen]
    obtain ⟨d'', t₃, j'', hle'', hd'', he'', hb⟩ := hd'.begins henv' hslots
    exact ⟨hlen, hb, sc, j, hbody, d'', t₃, j'', (hle.trans hle').trans hle'', hd'',
      henv'.mono hle'', he''⟩

end Chart

open Machine Machine.Typed in
/-- **Recurs to the head.** The code of such a `recur` in a compiled function ends in two instructions.
Calls of compiled functions begin at work. Where a program at work comes to these instructions and may
go on, they take the topmost values for the parameters and begin the function again; no function that is
there then or was made before ever has a cell that stands for a slot above the function's own. That slot
is left as it is, with its value and its cell, so it need not hold the function if something else has
been assigned to its name.

An interpreted function has a new frame in each round of a call, in which there are the function itself
and the values for its parameters, and which no function sees that has been made in earlier rounds,
neither then nor later. -/
theorem recur_to_head (level : Nat) :
    (∀ {p : Proto} {outer vs σ args span k m},
      Lays p outer (some ⟨⟨0, 1, p.arity⟩, vs⟩) σ (.recur args span) k m →
        ∃ n, m = n + 6 ∧ p.RecursAt n) ∧
    (∀ {n id : Nat} {s : State} {k : Closure} {args : List Value}, Coherent n s → Complete s.core →
      s.store.closures[id]? = some k → args.length = k.proto.arity →
        Act.Post (fun _ u => Running (groundOf n s) u ∧ Complete u.core) (fun _ _ => True)
          (begin id k args (groundOf n s).base true
            { s with machine := s.parked.getD .idle, parked := none })) ∧
    (∀ {G : Ground} {s : State} {fs : Array Activation} {a : Activation},
      Running G s → Complete s.core → s.machine.frames = fs.push a →
        a.closure.proto.RecursAt a.ip → Affords s 2 →
        ∃ t u, step (Engine.ofFuel level).call G.machine.frames.size s = .ok none t ∧
          step (Engine.ofFuel level).call G.machine.frames.size t = .ok none u ∧
          NextRound fs a s u ∧ (∀ l, Lasts u.core l → Fresh a.base u.core l) ∧
          ∀ v, Later (Engine.ofFuel level).call G.machine.frames.size u v →
            Running G v ∧ Complete v.core ∧ Lasts u.core v.core) ∧
    ∀ {c : Chart} {s t : State} {id : Nat} {g : Function} {args : List Value} {a : Arity Expr},
      c.Mirrors s t → s.store.functions[id]? = some g →
        g.literal.arityFor? args.length = some a → a.variadic = false →
        s.depth < s.config.maxDepth → ∀ name {n k xs u},
          Iterates (Engine.ofFuel level) id name args g a.body s n k xs u →
            xs.length = a.params.length ∧ Chart.Begins g (.fn id name) xs k u ∧
            (n ≤ (Engine.ofFuel level).rounds →
              callFunction (Engine.ofFuel level) id name args s =
                Act.ending (rounds .framed (flowBody (Engine.ofFuel level) a.body) g.frame
                  (g.literal.name.getD "" :: a.params) [.fn id name]
                  ((Engine.ofFuel level).rounds - n) (some k))
                  (fun s => { s with depth := s.depth - 1 }) u) ∧
            match flowBody (Engine.ofFuel level) a.body (some k) u with
            | .ok _ w | .error (.raised _) w => u.store.Grows w.store
            | .error .exhausted _ => True := by
  have hlocals : (Engine.ofFuel level).locals = .framed := Engine.locals_built ..
  refine ⟨Lays.recursAt, begin_running, fun h hs ha hr hb => ?_,
    fun m hg ha hv hd name n k xs u h => ?_⟩
  · obtain ⟨t, u, ht, hu, hnext, hfresh, hrun, hcomplete⟩ := h.recurs hs ha hr hb level
    refine ⟨t, u, ht, hu, hnext, hfresh, fun v hv => ?_⟩
    obtain ⟨hv, hsince⟩ := hrun.later hcomplete hv
    exact ⟨hv, hsince.complete, hsince.lasts⟩
  · obtain ⟨hlen, hbegins, sc, j, hbody, d, t', j', -, hd', -, he⟩ := m.iterates hg ha hv h
    refine ⟨hlen, hbegins, fun hn => ?_, ?_⟩
    · rw [callFunction_of_iterates hlocals hg ha hv hd h hn, hlocals]
    · have hw := Chart.flowBody_agrees hd' hbody he level
      split at hw
      · obtain ⟨d, t, hle, hm⟩ := hw
        exact hle.grows hd' hm
      · obtain ⟨d, t, hle, hm⟩ := hw
        exact hle.grows hd' hm
      · trivial

/-- The body `(recur x)`, in a function `turn` that takes an `x`. -/
def turnBody : List Expr := [.recur [.localRef ⟨"x", 0, 1⟩ .unknown] .unknown]

def turn : FnLiteral Expr := ⟨some "turn", [⟨["x"], false, turnBody⟩], .unknown, none⟩

/-- An interpreter with this function. -/
def turnState : State :=
  { State.bare .empty .standard with store := { Store.empty with functions := #[⟨turn, none⟩] } }

theorem mirrors_turnState : Chart.blank.Mirrors turnState turnState where
  apart := rfl
  frames := rfl
  frame h := nomatch h
  cells := rfl
  cell h := nomatch h
  linked h := nomatch h
  distinct h := nomatch h
  functions := rfl
  function {i g} h := by
    match i, h with
    | 0, h =>
      cases h
      refine ⟨[], none, rfl, ⟨fun a ha hv => ?_, fun params variadic body h => ?_⟩, .outermost⟩
      · cases List.mem_singleton.mp ha
        cases hv
      · cases List.mem_singleton.mp h
        refine .last (.recur rfl rfl fun e he => ?_)
        rw [List.mem_singleton.mp he]
        exact .localRef rfl

/-- The literal `(fn f [x] (fn [] x) (set! f nil) (recur 7))`. -/
def swap : FnLiteral Expr :=
  ⟨some "f", [⟨["x"], false, [
    .fn ⟨none, [⟨[], false, [.localRef ⟨"x", 0, 1⟩ .unknown]⟩], .unknown, none⟩ .unknown,
    .setLocal ⟨"f", 0, 0⟩ (.literal .nil .unknown) .unknown,
    .recur [.literal (.int 7) .unknown] .unknown]⟩], .unknown, none⟩

theorem parsed_swap : swap.Parsed .bare [] := by
  refine ⟨⟨rfl, fun a ha hv => ?_⟩, fun params variadic body h => ?_⟩
  · cases List.mem_singleton.mp ha
    cases hv
  cases List.mem_singleton.mp h
  refine .cons (.fn ⟨rfl, fun a ha hv => ?_⟩ fun params variadic body h => ?_)
    (.cons (.setLocal rfl (.literal fun _ => rfl)) (.last (.recur rfl rfl fun e he => ?_)))
  · cases List.mem_singleton.mp ha
    cases hv
  · cases List.mem_singleton.mp h
    exact .last (.localRef rfl)
  · rw [List.mem_singleton.mp he]
    exact .literal fun _ => rfl

def swapCode : Proto :=
  ⟨"f", 1, ⟨#[26, 0, 0, 1, 1, 4, 1, 7, 0, 4, 0, 0, 0, 27, 1, 1, 24, 0, 19, 28], #[.int 7],
      .replicate 20 0⟩, #[],
    #[⟨"fn", 0, ⟨#[8, 0, 28], #[], .replicate 3 0⟩, #[⟨true, 1⟩], #[]⟩]⟩

theorem ofFn_swap : Proto.ofFn swap = .ok swapCode := by with_unfolding_all rfl

section Rounds

open Machine Machine.Typed

theorem begin_swap : begin 0 ⟨swapCode, #[]⟩ [.int 6] 0 true
    { compiledState swapCode with
      machine := (compiledState swapCode).parked.getD .idle
      parked := none } = .ok () (calledAfter swapCode [.int 6] 0) := rfl

theorem step_swap : ∀ k < 6, step (Engine.ofFuel 9).call 0 (calledAfter swapCode [.int 6] k) =
    .ok none (calledAfter swapCode [.int 6] (k + 1))
  | 0, _ => rfl
  | 1, _ => rfl
  | 2, _ => rfl
  | 3, _ => rfl
  | 4, _ => rfl
  | 5, _ => rfl

theorem swap_waits : ∃ G s, ∃ a : Activation, Running G s ∧ Complete s.core ∧
    s.machine.frames = #[].push a ∧ a.closure.proto.RecursAt a.ip ∧ Affords s 2 ∧ a.base = 0 ∧
    a.closure.proto.arity = 1 ∧ s.machine.stack = #[.nil, .int 6, .int 7] ∧
    s.store.cells[0]? = some (.live 1) := by
  have hp : swapCode.Produced := .literal parsed_swap ofFn_swap
  have ha : [Value.int 6].length = swapCode.arity := rfl
  have hrun := running_calledAfter hp rfl ha begin_swap step_swap
  have hrecurs : swapCode.RecursAt 13 := ⟨rfl, rfl⟩
  have hframes : (calledAfter swapCode [.int 6] 6).machine.frames =
      #[].push ⟨⟨swapCode, #[]⟩, 13, 0, true⟩ := rfl
  have hstack : (calledAfter swapCode [.int 6] 6).machine.stack = #[.nil, .int 6, .int 7] := rfl
  have hcell : (calledAfter swapCode [.int 6] 6).store.cells[0]? = some (.live 1) := rfl
  have hfree : (calledAfter swapCode [.int 6] 6).config.limits.stepBudget = none := rfl
  have hbudget : Affords (calledAfter swapCode [.int 6] 6) 2 := fun b hb => by
    cases hfree.symm.trans hb
  exact ⟨_, _, _, hrun.1, hrun.2, hframes, hrecurs, hbudget, rfl, rfl, hstack, hcell⟩

/-- A compiled function begins again after something has captured its parameter and its own name has
been assigned to, and an interpreted one after a `recur` of its argument. -/
theorem begin_again :
    (∃ G s u, ∃ a : Activation, Running G s ∧ s.store.cells[0]? = some (.live 1) ∧
      s.machine.stack = #[.nil, .int 6, .int 7] ∧ NextRound #[] a s u ∧
      u.machine.stack.size = 2 ∧ u.machine.stack[0]? = some .nil ∧
      u.machine.stack[1]? = some (.int 7) ∧ u.store.cells[0]? = some (.closed (.int 6))) ∧
    ∃ k u, Iterates (Engine.ofFuel 9) 0 "turn" [.nil] ⟨turn, none⟩ turnBody turnState 1 k [.nil] u ∧
      Chart.Begins ⟨turn, none⟩ (.fn 0 "turn") [.nil] k u := by
  obtain ⟨-, -, hcompiled, hrounds⟩ := recur_to_head 9
  constructor
  · obtain ⟨G, s, a, hrun, hcomplete, hframes, hrecurs, hbudget, hbase, harity, hstack, hcell⟩ :=
      swap_waits
    obtain ⟨t, u, -, -, hnext, -⟩ := hcompiled hrun hcomplete hframes hrecurs hbudget
    have hself := hnext.below 0 (Nat.zero_le _)
    have hparam := hnext.params 0 (by omega)
    have hold := hnext.closed 0 1 hcell (by omega)
    have hsize := hnext.size
    rw [hstack] at hself hparam hold
    rw [hbase, harity] at hparam hsize
    exact ⟨G, s, u, a, hrun, hcell, hstack, hnext, hsize, hself, hparam, hold⟩
  · have hfirst : Iterates (Engine.ofFuel 9) 0 "turn" [.nil] ⟨turn, none⟩ turnBody turnState 0 0
      [.nil] _ := .first
    have hround := hfirst.again
      (show flowBody (Engine.ofFuel 9) turnBody (some 0) _ = .ok (.again [.nil]) _ from rfl)
    have h := hrounds mirrors_turnState (a := ⟨["x"], false, turnBody⟩) rfl rfl rfl (by decide)
      "turn" hround
    exact ⟨_, _, hround, h.2.1⟩

end Rounds

/-- The form `((fn f [x] (if x (do (set! f nil) (recur nil)) (fn? f))) true)`. -/
def forgetful : Form :=
  .list [.list [.symbol "fn" .unknown, .symbol "f" .unknown, .vector [.symbol "x" .unknown] .unknown,
    .list [.symbol "if" .unknown, .symbol "x" .unknown,
      .list [.symbol "do" .unknown,
        .list [.symbol "set!" .unknown, .symbol "f" .unknown, .atom .nil .unknown] .unknown,
        .list [.symbol "recur" .unknown, .atom .nil .unknown] .unknown] .unknown,
      .list [.symbol "fn?" .unknown, .symbol "f" .unknown] .unknown] .unknown] .unknown,
    .atom (.bool true) .unknown] .unknown

def truthOf {ε : Type} (a : Act ε Value) (s : State) : Option Bool :=
  match a s with
  | .ok (.bool b) _ => some b
  | _ => none

/-- After a `recur` to its head, the interpreted function finds itself under its name, and the compiled
one what has been assigned to it before. -/
theorem self_is_forgotten :
    [Mode.treeWalk, .hybrid, .bytecode].map (fun mode =>
      truthOf (Session.evalForm (Engine.ofFuel 20) forgetful)
        { State.fresh .empty .standard with mode := mode }) =
      [some true, some false, some false] := by
  decide +kernel

end TwinLisp
