import TwinLisp.Form.Data
import TwinLisp.Macro.Builtin
import TwinLisp.Native.Arithmetic
import TwinLisp.Native.Collections
import TwinLisp.Native.Strings
/-!
What every native does. Most compute an answer from their arguments; some call functions, print,
make names or change the current namespace. A native that is given a number of arguments it does not
take fails with a fault of arity.

* `mapRows`, `filterItems`, `reduceItems`: walking sequences with a function.
* `expandOnce`: one step of macro expansion on data.
* `Native.call`: the call of a native.
-/

namespace TwinLisp

/-- How natives call functions. -/
abbrev Caller := Value → List Value → Run Value

/-- The first elements of all sequences and what follows them. -/
def firsts? : List (List Value) → Option (List Value × List (List Value))
  | [] => some ([], [])
  | [] :: _ => none
  | (x :: xs) :: rest => (firsts? rest).map fun (hs, ts) => (x :: hs, xs :: ts)

/-- Calls a function on the first elements, the second elements and so on, until a sequence ends;
results already made stand in reverse. -/
def mapRows (call : Caller) (f : Value) (acc : List Value) :
    List Value → List (List Value) → Run (List Value)
  | [], _ => pure acc.reverse
  | x :: xs, others =>
    match firsts? others with
    | none => pure acc.reverse
    | some (hs, ts) => do mapRows call f ((← call f (x :: hs)) :: acc) xs ts

def filterItems (call : Caller) (f : Value) (acc : List Value) : List Value → Run (List Value)
  | [] => pure acc.reverse
  | x :: xs => do filterItems call f (if (← call f [x]).truthy then x :: acc else acc) xs

def reduceItems (call : Caller) (f acc : Value) : List Value → Run Value
  | [] => pure acc
  | x :: xs => do reduceItems call f (← call f [acc, x]) xs

/-- A reduction without an initial value, which begins with the first element. -/
def reduceAll (call : Caller) (f : Value) : List Value → Run Value
  | [] => call f []
  | x :: xs => reduceItems call f x xs

/-- The arguments of a spreading call: the elements of the last one follow the others. -/
def spread : List Value → Answer (List Value)
  | [] => .ok []
  | [last] => Answer.itemsFor "apply" last
  | v :: rest => (spread rest).map (v :: ·)

/-- A value to throw. -/
def newExInfo (message : String) (data : Value) : Run Value :=
  Act.onStore fun s => (.exInfo s.raised message data, { s with raised := s.raised + 1 })

/-- One step of macro expansion on data; data that are no macro call stay as they are. -/
def expandOnce (call : Caller) (v : Value) : Run Value := do
  let form ← Act.ofExcept (Form.ofValue .unknown v)
  let builtin ← Act.mapFault (fun e : ParseError => (RuntimeFault.general e.message).bare)
    (Macro.expandBuiltin form)
  if let some expansion := builtin then return expansion.toValue
  let .list (.symbol name :: args) := v | return v
  let some var ← Act.resolve? name | return v
  unless ← Act.askStore (Store.isMacro var) do return v
  let some f ← Act.askStore (Store.varValue? var) | return v
  let forms ← Act.ofExcept (args.mapM (Form.ofValue .unknown))
  return (← Macro.expandUser call f forms .unknown).toValue

namespace Native

/-- Whether a value is of the kind that a native asks for. -/
def holds : Native → Value → Bool
  | isNumber, v => Number.isNumber v
  | isNil, v => v.isNil
  | isFn, v => v.isFn
  | isString, .str _ | isKeyword, .keyword _ | isSymbol, .symbol _ | isVector, .vector _
  | isMap, .map _ | isSet, .set _ | isList, .list _ => true
  | _, _ => false

open Run (ofFault fail print)

/-- The fault of a native that is given a number of arguments it does not take. -/
def misused (op : Native) (args : List Value) : Run Value :=
  fail (.wrongArity op.text args.length)

/-- The call of a native. -/
def call (run : Caller) (op : Native) (args : List Value) : Run Value :=
  match op, args with
  | add, _ => ofFault (Answer.sum args)
  | mul, _ => ofFault (Answer.product args)
  | sub, _ => ofFault (Answer.difference args)
  | div, _ => ofFault (Answer.ratioOf args)
  | less, _ => ofFault (Answer.chain "<" Number.less args)
  | greater, _ => ofFault (Answer.chain ">" Number.greater args)
  | lessEq, _ => ofFault (Answer.chain "<=" Number.lessEq args)
  | greaterEq, _ => ofFault (Answer.chain ">=" Number.greaterEq args)
  | equal, _ => ofFault (Answer.equal "=" true args)
  | notEqual, _ => ofFault (Answer.equal "not=" false args)
  | inc, [x] => ofFault (Number.add x (.int 1))
  | dec, [x] => ofFault (Number.sub x (.int 1))
  | quot, [x, y] => ofFault (Number.quot x y)
  | rem, [x, y] => ofFault (Number.rem x y)
  | mod, [x, y] => ofFault (Number.modulo x y)
  | isZero, [x] => ofFault ((Number.isZero x).map Value.bool)
  | isPos, [x] => ofFault (Answer.signTest "pos?" Number.greater x)
  | isNeg, [x] => ofFault (Answer.signTest "neg?" Number.less x)
  | max, _ => ofFault (Answer.extreme "max" Number.greater args)
  | min, _ => ofFault (Answer.extreme "min" Number.less args)
  | list, _ => pure (.list args)
  | vector, _ => pure (.vector args)
  | hashMap, _ => ofFault (Answer.hashMap args)
  | hashSet, _ => pure (.set (Value.itemsOf args))
  | count, [x] => ofFault ((Answer.size x).map Value.ofNat)
  | isEmpty, [x] => ofFault ((Answer.size x).map fun n => .bool (n == 0))
  | first, [x] => ofFault ((Answer.itemsFor "first" x).map fun xs => xs.head?.getD .nil)
  | rest, [x] => ofFault ((Answer.itemsFor "rest" x).map fun xs => .list (xs.drop 1))
  | next, [x] => ofFault ((Answer.itemsFor "next" x).map fun xs => Answer.listOrNil (xs.drop 1))
  | seq, [x] => ofFault ((Answer.itemsFor "seq" x).map Answer.listOrNil)
  | vec, [x] => ofFault ((Answer.itemsFor "vec" x).map Value.vector)
  | nth, [x, i] => ofFault ((Answer.intFor "nth" i).bind fun i => Answer.nth x i none)
  | nth, [x, i, d] => ofFault ((Answer.intFor "nth" i).bind fun i => Answer.nth x i (some d))
  | get, [x, k] => pure (Answer.lookup x k .nil)
  | get, [x, k, d] => pure (Answer.lookup x k d)
  | contains, [x, k] => ofFault (Answer.contains x k)
  | conj, x :: items => ofFault (items.foldlM Answer.conj x)
  | assoc, _ => ofFault (Answer.assoc args)
  | dissoc, _ => ofFault (Answer.dissoc args)
  | cons, [x, xs] => ofFault ((Answer.itemsFor "cons" xs).map fun xs => .list (x :: xs))
  | concat, _ => ofFault ((Answer.concat args).map Value.list)
  | into, [x, y] => ofFault ((Answer.itemsFor "into" y).bind fun ys => ys.foldlM Answer.conj x)
  | keys, [x] => ofFault (Answer.keys x)
  | vals, [x] => ofFault (Answer.vals x)
  | range, _ => ofFault (Answer.range args)
  | str, _ => pure (Answer.str args)
  | prStr, _ => pure (.str (Value.joined true args))
  | print, _ => do
    Run.print (Value.joined false args)
    return .nil
  | println, _ => do
    Run.print (Value.joined false args ++ "\n")
    return .nil
  | prn, _ => do
    Run.print (Value.joined true args ++ "\n")
    return .nil
  | subs, _ => ofFault (Answer.subs args)
  | name, [x] => ofFault (Answer.name x)
  | keyword, [x] => ofFault (Answer.keyword x)
  | symbol, [x] => ofFault (Answer.symbol x)
  | not, [x] => pure (.bool !x.truthy)
  | identity, [x] => pure x
  | isNumber, [x] | isNil, [x] | isString, [x] | isKeyword, [x] | isSymbol, [x] | isFn, [x]
  | isVector, [x] | isMap, [x] | isSet, [x] | isList, [x] => pure (.bool (holds op x))
  | apply, f :: x :: more => do run f (← ofFault (spread (x :: more)))
  | map, f :: x :: more => do
    let xs ← ofFault (Answer.itemsFor "map" x)
    let others ← ofFault (more.mapM (Answer.itemsFor "map"))
    return .list (← mapRows run f [] xs others)
  | filter, [f, x] => do
    return .list (← filterItems run f [] (← ofFault (Answer.itemsFor "filter" x)))
  | reduce, [f, x] => do reduceAll run f (← ofFault (Answer.itemsFor "reduce" x))
  | reduce, [f, init, x] => do
    reduceItems run f init (← ofFault (Answer.itemsFor "reduce" x))
  | exInfo, [message, data] =>
    match message, data with
    | .str s, .map _ | .str s, .nil => newExInfo s data
    | .str _, _ => ofFault (Answer.expects "ex-info" "a data map" data)
    | _, _ => ofFault (Answer.expects "ex-info" "a message string" message)
  | exMessage, [x] =>
    match x with
    | .exInfo _ message _ => pure (.str message)
    | _ => pure .nil
  | exData, [x] =>
    match x with
    | .exInfo _ _ data => pure data
    | _ => pure .nil
  | inNs, [x] =>
    match x with
    | .symbol ns => do
      Act.update fun s => { s with names := s.names.enter ns }
      return x
    | _ => ofFault (Answer.expects "in-ns" "a symbol" x)
  | gensym, [] => return .symbol (← Act.gensym "G")
  | gensym, [x] =>
    match x with
    | .str stem => return .symbol (← Act.gensym stem)
    | _ => ofFault (Answer.expects "gensym" "a prefix string" x)
  | deref, [x] =>
    match x with
    | .var v => Run.deref v .unknown
    | _ => ofFault (Answer.expects "deref" "a var" x)
  | macroexpand, [x] => expandOnce run x
  | _, _ => misused op args

end Native

end TwinLisp
