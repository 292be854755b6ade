import TwinLisp.Proofs.Coupling.Basic
import TwinLisp.Proofs.Native.Arithmetic
import TwinLisp.Session

/-! Calls of core functions that are one instruction. The compiler knows them by the name of their
Var; the instruction computes what the native of that name computes, whatever the Var holds by then.

* `Intrinsic`: the natives with an instruction, and for how many arguments.
* `Opcode.operation`: what such an instruction computes, which the native computes as well.
* `intrinsic_call`: the code of the call, and what the instruction does. -/

namespace TwinLisp

open Machine Build Act

/-- The natives that have an instruction for calls with a number of arguments. -/
inductive Intrinsic : Native → Nat → Opcode → Prop
  | add : Intrinsic .add 2 .add
  | subtract : Intrinsic .sub 2 .subtract
  | multiply : Intrinsic .mul 2 .multiply
  | divide : Intrinsic .div 2 .divide
  | equal : Intrinsic .equal 2 .equal
  | less : Intrinsic .less 2 .less
  | greater : Intrinsic .greater 2 .greater
  | negate : Intrinsic .sub 1 .negate
  | not : Intrinsic .not 1 .not

variable {op : Native} {n : Nat} {o : Opcode}

/-- The compiler finds the instruction by the namespace and the name of the Var, for these natives
only. -/
theorem intrinsic?_eq_some_iff {v : Var} {span : Span} :
    intrinsic? (.varRef v span) n = some o ↔
      v.ns = coreNamespace ∧ ∃ op, v.name = op.text ∧ Intrinsic op n o := by
  constructor
  · intro h
    simp only [intrinsic?] at h
    split at h
    · cases h
    · next hns =>
      refine ⟨Decidable.not_not.mp hns, ?_⟩
      split at h <;> cases h
      · next hname => exact ⟨.add, hname, .add⟩
      · next hname => exact ⟨.sub, hname, .subtract⟩
      · next hname => exact ⟨.mul, hname, .multiply⟩
      · next hname => exact ⟨.div, hname, .divide⟩
      · next hname => exact ⟨.equal, hname, .equal⟩
      · next hname => exact ⟨.less, hname, .less⟩
      · next hname => exact ⟨.greater, hname, .greater⟩
      · next hname => exact ⟨.sub, hname, .negate⟩
      · next hname => exact ⟨.not, hname, .not⟩
  · rintro ⟨hns, op, hname, h⟩
    have hcore : ¬ v.ns ≠ coreNamespace := fun hn => hn hns
    simp only [intrinsic?, if_neg hcore, hname]
    cases h <;> rfl

/-! ## What is computed -/

/-- What an instruction computes from the values it takes. -/
def Opcode.operation : Opcode → List Value → Answer Value
  | .add, [x, y] => Number.add x y
  | .subtract, [x, y] => Number.sub x y
  | .multiply, [x, y] => Number.mul x y
  | .divide, [x, y] => Number.div x y
  | .equal, [x, y] => .ok (.bool (Value.same x y))
  | .less, [x, y] => Number.less x y
  | .greater, [x, y] => Number.greater x y
  | .negate, [x] => Number.negate x
  | .not, [x] => .ok (.bool !x.truthy)
  | _, _ => .error .stackUnderflow

namespace Answer

variable {name : String} {f : Value → Value → Answer Value} {x y : Value}

/-- Two arguments are folded by the operation itself, provided it refuses a first operand that is no
number as the fold does. -/
theorem fold_pair (hf : Number.isNumber x = false → f x y = .error (Number.notANumber name x)) :
    fold name f [x, y] = f x y := by
  cases hx : Number.isNumber x with
  | true =>
    have hfold : fold name f [x, y] = f x y >>= pure := by
      simp only [fold, hx, if_true, List.foldlM]
    rw [hfold, bind_pure]
  | false =>
    rw [hf hx]
    simp only [fold, hx, Bool.false_eq_true, if_false]

theorem chain_pair (hf : ∀ v, f x y = .ok v → ∃ b, v = .bool b) : chain name f [x, y] = f x y := by
  cases h : f x y with
  | error e => simp only [chain, neighbours, h, Except.map]
  | ok v =>
    obtain ⟨b, rfl⟩ := hf v h
    cases b <;> simp [chain, neighbours, h, Value.truthy, Except.map]

theorem equal_pair (name : String) (x y : Value) :
    equal name true [x, y] = .ok (.bool (Value.same x y)) := by
  simp [equal, allSame]

end Answer

namespace Number

variable {x y : Value}

theorem categories_of_not_number (name : String) (hx : isNumber x = false) :
    categories name x y = .error (notANumber name x) := by
  have hnone : category? x = none := by simpa [isNumber] using hx
  simp only [categories, hnone]

theorem bool_of_ordered {accept : Ordering → Bool} {v : Value} (h : ordered accept x y = .ok v) :
    ∃ b, v = .bool b := by
  unfold ordered at h
  cases hc : compare x y with
  | error e =>
    rw [hc] at h
    cases h
  | ok c =>
    rw [hc] at h
    cases h
    exact ⟨_, rfl⟩

end Number

/-- The native computes what the instruction computes. -/
theorem Native.call_intrinsic (run : Caller) {args : List Value} (h : Intrinsic op args.length o) :
    op.call run args = Run.ofFault (o.operation args) := by
  have refuses : ∀ {name : String} {x y : Value} {g : Number.Category → Answer Value},
      Number.isNumber x = false →
        (Number.categories name x y >>= g) = .error (Number.notANumber name x) := by
    intro name x y g hx
    rw [Number.categories_of_not_number name hx]
    rfl
  generalize hn : args.length = n at h
  cases h with
  | add | subtract | multiply | divide =>
    obtain ⟨x, y, rfl⟩ := List.length_eq_two.mp hn
    exact congrArg Run.ofFault (Answer.fold_pair refuses)
  | equal =>
    obtain ⟨x, y, rfl⟩ := List.length_eq_two.mp hn
    exact congrArg Run.ofFault (Answer.equal_pair "=" x y)
  | less | greater =>
    obtain ⟨x, y, rfl⟩ := List.length_eq_two.mp hn
    exact congrArg Run.ofFault (Answer.chain_pair fun _ => Number.bool_of_ordered)
  | negate | not =>
    obtain ⟨x, rfl⟩ := List.length_eq_one_iff.mp hn
    rfl

/-! ## What is executed -/

namespace Machine

variable {s : State}

/-- The state with another stack on its machine. -/
def onStack (s : State) (stack : Array Value) : State := s.mapMachine (mapStack fun _ => stack)

theorem pop_push {below : Array Value} {v : Value} (h : s.machine.stack = below.push v) :
    pop s = .ok v (onStack s below) := by
  have hback : s.machine.stack.back? = some v := by rw [h, Array.back?_push]
  have hpop : s.mapMachine (mapStack Array.pop) = onStack s below := by
    simp only [onStack, State.mapMachine, mapStack, h, Array.pop_push]
  simp only [pop, hback, hpop]

theorem popMany_append {below : Array Value} {args : List Value}
    (h : s.machine.stack = below ++ args.toArray) :
    popMany args.length s = .ok args (onStack s below) := by
  have hsize : s.machine.stack.size = below.size + args.length := by simp [h]
  have hlt : ¬ s.machine.stack.size < args.length := by omega
  have hsub : s.machine.stack.size - args.length = below.size := by omega
  have hargs : (s.machine.stack.extract below.size s.machine.stack.size).toList = args := by
    rw [hsize, h]
    simp
  have hbelow : s.machine.stack.shrink below.size = below := by
    rw [h, Array.shrink_eq_take]
    simp
  have hstate : s.mapMachine (mapStack fun stack => stack.shrink below.size) = onStack s below := by
    simp only [onStack, State.mapMachine, mapStack, hbelow]
  simp only [popMany, Act.bind_apply, Act.ask, if_neg hlt, hsub, hargs, truncate, Act.update, hstate]
  rfl

theorem exists_args (s : State) {n : Nat} (h : n ≤ s.machine.stack.size) :
    ∃ (below : Array Value) (args : List Value),
      s.machine.stack = below ++ args.toArray ∧ args.length = n := by
  refine ⟨s.machine.stack.extract 0 (s.machine.stack.size - n),
    (s.machine.stack.extract (s.machine.stack.size - n) s.machine.stack.size).toList, ?_, ?_⟩
  · rw [Array.toArray_toList, Array.extract_append_extract]
    simp
  · rw [Array.length_toList, Array.size_extract]
    omega

theorem binary_args {below : Array Value} {x y : Value} (f : Value → Value → Answer Value)
    (h : s.machine.stack = below ++ [x, y].toArray) :
    binary f s = (do push (← Run.ofFault (f x y)) : Run Unit) (onStack s below) := by
  have hy : pop s = .ok y (onStack s (below.push x)) := pop_push h
  have hx : pop (onStack s (below.push x)) = .ok x (onStack s below) := pop_push rfl
  simp only [binary, Act.bind_apply, hy, hx]

/-- An instruction of a native takes its arguments from the stack and puts there what it
computes. -/
theorem exec_intrinsic (h : Intrinsic op n o) {call : Caller} {entry : Nat} {a : Activation}
    {i : Instruction} (hi : i.op = o) (hs : n ≤ s.machine.stack.size) :
    exec call entry a i s = (do
      push (← Run.ofFault (o.operation (← popMany n)))
      return none : Run (Option Value)) s := by
  obtain ⟨below, args, hstack, rfl⟩ := exists_args s hs
  have hbinary : ∀ (f : Value → Value → Answer Value) x y, args = [x, y] →
      (do binary f; return none : Run (Option Value)) s = (do
        push (← Run.ofFault (f x y))
        return none : Run (Option Value)) (onStack s below) := by
    rintro f x y rfl
    rw [Act.bind_apply, binary_args f hstack, ← Act.bind_apply, bind_assoc]
  have hone : ∀ x, args = [x] → pop s = .ok x (onStack s below) := by
    rintro x rfl
    exact pop_push hstack
  rw [Act.bind_apply, popMany_append hstack]
  unfold exec
  rw [hi]
  generalize hn : args.length = n at h
  cases h with
  | negate | not =>
    obtain ⟨x, rfl⟩ := List.length_eq_one_iff.mp hn
    simp only [Act.bind_apply, hone x rfl]
    rfl
  | _ =>
    obtain ⟨x, y, rfl⟩ := List.length_eq_two.mp hn
    exact hbinary _ x y rfl

end Machine

/-- The code of such a call computes the arguments and ends in the instruction. On any stack, and
whatever values Vars have, the instruction has the value or the fault of applying the native of that
name to the topmost values, in place of which the value is put. So it has those of applying the
value of the Var, if that is still the native. -/
theorem intrinsic_call {v : Var} {args : List Expr} (h : Intrinsic op args.length o)
    (hns : v.ns = coreNamespace) (hname : v.name = op.text) (place span : Span) :
    (∀ find, (Expr.call (.varRef v place) args span).compile find = leavingOne (do
      compileAll find args
      Build.op o span)) ∧
    ∀ (E : Engine) (call : Caller) (entry : Nat) (a : Activation) (i : Instruction) (s : State),
      i.op = o → args.length ≤ s.machine.stack.size → ∀ owner,
        exec call entry a i s = (do
          push (← Value.apply E (.native owner op) (← popMany args.length))
          return none : Run (Option Value)) s ∧
        (s.store.varValue? v = some (.native owner op) →
          exec call entry a i s = (do
            let f ← Run.deref v place
            push (← Value.apply E f (← popMany args.length))
            return none : Run (Option Value)) s) := by
  refine ⟨fun find => ?_, fun E call entry a i s hi hs owner => ?_⟩
  · have hfound : intrinsic? (.varRef v place) args.length = some o :=
      intrinsic?_eq_some_iff.mpr ⟨hns, op, hname, h⟩
    simp only [Expr.compile, hfound]
  · have hnative : exec call entry a i s = (do
        push (← Value.apply E (.native owner op) (← popMany args.length))
        return none : Run (Option Value)) s := by
      obtain ⟨below, values, hstack, hlen⟩ := exists_args s hs
      have hcall : Value.apply E (.native owner op) values = Run.ofFault (o.operation values) :=
        Native.call_intrinsic E.call (hlen ▸ h)
      rw [exec_intrinsic h hi hs, Act.bind_apply, Act.bind_apply, ← hlen, popMany_append hstack]
      simp only [hcall]
    refine ⟨hnative, fun hv => ?_⟩
    have hderef : Run.deref v place s = .ok (.native owner op) s := by
      simp only [Run.deref, Act.bind_apply, Act.askStore, hv]
      rfl
    rw [hnative, Act.bind_apply (Run.deref v place), hderef]

/-- The Var under which programs find addition. -/
def plusVar : Var := ⟨0, coreNamespace, "+"⟩

/-- An interpreter on whose machine two words lie. -/
def withPair : State := onStack (State.fresh .empty .standard) #[.int 1, .int 2]

set_option maxRecDepth 2000 in
theorem pair_is_added :
    exec (fun _ _ => Act.exhausted) 0 default ⟨.add, 0, 0⟩ withPair = (do
      let f ← Run.deref plusVar .unknown
      push (← Value.apply (Engine.ofFuel 1) f (← popMany 2))
      return none : Run (Option Value)) withPair := by
  have hvar : withPair.store.varValue? plusVar = some (.native 0 .add) := rfl
  have hshape : Intrinsic .add [Expr.literal (.int 1) .unknown, .literal (.int 2) .unknown].length
      .add := .add
  have hcall := intrinsic_call (v := plusVar) hshape rfl rfl
  exact ((hcall .unknown .unknown).2 _ _ _ _ _ _ rfl (by decide) 0).2 hvar

/-- The form `(set! + -)`. -/
def rebindingPlus : Form :=
  .list [.symbol "set!" .unknown, .symbol "+" .unknown, .symbol "-" .unknown] .unknown

/-- The form `((fn [] (+ 1 2)))`. -/
def compiledSum : Form :=
  .list [.list [.symbol "fn" .unknown, .vector [] .unknown, .list [.symbol "+" .unknown,
    .atom (.int 1) .unknown, .atom (.int 2) .unknown] .unknown] .unknown] .unknown

/-- An interpreter in which addition has been given the value of subtraction. -/
def reboundPlus : State :=
  (Session.start (Session.evalForm (Engine.ofFuel 9) rebindingPlus) (State.fresh .empty .standard)).2

def wordOf {ε : Type} (a : Act ε Value) (s : State) : Option Int64 :=
  match a s with
  | .ok (.int n) _ => some n
  | _ => none

/-- The compiled call still adds, while the value of the Var subtracts. -/
theorem rebound_plus_adds :
    wordOf (Session.evalForm (Engine.ofFuel 9) compiledSum) reboundPlus = some 3 ∧
      wordOf (do Value.apply (Engine.ofFuel 9) (← Run.deref plusVar .unknown) [.int 1, .int 2])
        reboundPlus = some (-1) := by
  constructor <;> decide +kernel

end TwinLisp
