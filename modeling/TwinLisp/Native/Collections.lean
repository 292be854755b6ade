import TwinLisp.Native.Arguments
import TwinLisp.Number.Word
/-!
Natives on collections. Collections are immutable: an update makes a new one.

* `lookup`: the value of a key in a map, an element of a set, an element of a vector by index.
* `conj`: one more element, where the kind of collection wants it.
* `range`: an arithmetic progression.
-/

namespace TwinLisp.Answer

/-- The value of a key, or a default; in anything but a map, set or vector the default. -/
def lookup (target key default : Value) : Value :=
  let found := match target with
    | .map entries => Value.lookup? key entries
    | .set items => Value.member? key items
    | .vector items =>
      match key with
      | .int i => at? items i
      | _ => none
    | _ => none
  found.getD default

def size (v : Value) : Answer Nat :=
  match v with
  | .nil => .ok 0
  | .str s => .ok s.length
  | .list xs | .vector xs | .set xs => .ok xs.length
  | .map es => .ok es.length
  | _ => .error (.typeError ("count not supported on this type: " ++ v.typeName))

/-- One more element: a list has it first, a vector last; a map takes pairs and maps. -/
def conj (coll item : Value) : Answer Value :=
  match coll with
  | .nil => .ok (.list [item])
  | .list xs => .ok (.list (item :: xs))
  | .vector xs => .ok (.vector (xs ++ [item]))
  | .set xs => .ok (.set (Value.insertItem item xs))
  | .map es =>
    match item with
    | .vector [k, v] => .ok (.map (Value.insertEntry k v es))
    | .map more => .ok (.map (more.foldl (fun es e => Value.insertEntry e.1 e.2 es) es))
    | _ => expects "conj on a map" "a [key value] vector" item
  | _ => expects "conj" "a collection" coll

/-- A collection with some value under a key; a vector also takes the index after its last. -/
def assocOne (coll key value : Value) : Answer Value :=
  match coll with
  | .nil => .ok (.map [(key, value)])
  | .map es => .ok (.map (Value.insertEntry key value es))
  | .vector xs =>
    match intFor "assoc" key with
    | .error e => .error e
    | .ok i =>
      if i < 0 ∨ i.toNatClampNeg > xs.length then outOfBounds i xs.length
      else if i.toNatClampNeg = xs.length then .ok (.vector (xs ++ [value]))
      else .ok (.vector (xs.set i.toNatClampNeg value))
  | _ => expects "assoc" "a map or vector" coll

/-- Several keys and values one after the other. -/
def assocAll (coll : Value) : List Value → Answer Value
  | k :: v :: rest =>
    match assocOne coll k v with
    | .error e => .error e
    | .ok coll => assocAll coll rest
  | _ => .ok coll

def assoc (args : List Value) : Answer Value :=
  match args with
  | coll :: k :: v :: rest =>
    if rest.length % 2 = 0 then assocAll coll (k :: v :: rest) else wrongArity "assoc" args
  | _ => wrongArity "assoc" args

def dissoc (args : List Value) : Answer Value :=
  match args with
  | [] => wrongArity "dissoc" args
  | .map es :: keys => .ok (.map (keys.foldl (fun es k => Value.removeEntry k es) es))
  | .nil :: _ => .ok .nil
  | other :: _ => expects "dissoc" "a map" other

/-- The element at an index; without a default the index must be in range. -/
def nth (coll : Value) (index : Int64) (default : Option Value) : Answer Value :=
  match coll with
  | .nil => .ok (default.getD .nil)
  | .list xs | .vector xs => pick xs
  | .str _ => (itemsFor "nth" coll).bind pick
  | _ => expects "nth" "a sequential collection" coll
where
  /-- The element, the default or a fault. -/
  pick (xs : List Value) : Answer Value :=
    match at? xs index, default with
    | some x, _ => .ok x
    | none, some d => .ok d
    | none, none => outOfBounds index xs.length

def contains (coll key : Value) : Answer Value :=
  match coll, key with
  | .map es, _ => .ok (.bool (Value.hasKey key es))
  | .set xs, _ => .ok (.bool (Value.has key xs))
  | .vector xs, .int i => .ok (.bool (at? xs i).isSome)
  | .nil, _ => .ok (.bool false)
  | _, _ => expects "contains?" "a map, set or vector" coll

/-- A map from alternating keys and values; of equal keys the last one's value stays. -/
def hashMap (args : List Value) : Answer Value :=
  if args.length % 2 ≠ 0 then .error (.general "No value supplied for key")
  else .ok (.map (Value.entriesOf (pairs args)))
where
  /-- Neighbours as pairs. -/
  pairs : List Value → List (Value × Value)
    | k :: v :: rest => (k, v) :: pairs rest
    | _ => []

/-- The elements of all arguments. -/
def concat : List Value → Answer (List Value)
  | [] => .ok []
  | v :: rest =>
    match itemsFor "concat" v with
    | .error e => .error e
    | .ok xs => (concat rest).map (xs ++ ·)

def keys (v : Value) : Answer Value :=
  match v with
  | .map es => .ok (listOrNil (es.map Prod.fst))
  | .nil => .ok .nil
  | _ => expects "keys" "a map" v

def vals (v : Value) : Answer Value :=
  match v with
  | .map es => .ok (listOrNil (es.map Prod.snd))
  | .nil => .ok .nil
  | _ => expects "vals" "a map" v

/-- Whether a term stands before `stop` in the direction of the step. -/
def isBefore (stop step term : Int64) : Bool :=
  (0 < step && term < stop) || (step < 0 && stop < term)

/-- How far `stop` is from a term in the direction of the step. -/
def distance (stop step term : Int64) : Nat :=
  if 0 < step then (stop.toInt - term.toInt).toNat else (term.toInt - stop.toInt).toNat

theorem isBefore_iff {stop step term : Int64} : isBefore stop step term = true ↔
    (0 < step.toInt ∧ term.toInt < stop.toInt) ∨ (step.toInt < 0 ∧ stop.toInt < term.toInt) := by
  simp [isBefore, Int64.lt_iff_toInt_lt]

/-- A step leads nearer to `stop`, or past it. -/
theorem distance_lt {stop step term next : Int64} (h : isBefore stop step term = true)
    (hn : next.toInt = term.toInt + step.toInt) : distance stop step next < distance stop step term := by
  rw [isBefore_iff] at h
  simp only [distance, Int64.lt_iff_toInt_lt, Int64.toInt_zero]
  split <;> omega

/-- The terms from `term` on that stand before `stop`, behind those already found, which stand in
reverse. A sum that is no word ends the progression. -/
def progressionFrom (stop step : Int64) (found : List Value) (term : Int64) : List Value :=
  if h : isBefore stop step term = true then
    match hn : Word.ofInt? (term.toInt + step.toInt) with
    | some next =>
      have := distance_lt h (Word.ofInt?_eq_some_iff.mp hn)
      progressionFrom stop step (.int term :: found) next
    | none => (Value.int term :: found).reverse
  else found.reverse
termination_by distance stop step term

/-- The terms of an arithmetic progression before `stop` in the direction of the step. -/
def progression (start stop step : Int64) : List Value := progressionFrom stop step [] start

def range (args : List Value) : Answer Value := do
  if args.isEmpty ∨ args.length > 3 then wrongArity "range" args
  let ints ← args.mapM (intFor "range")
  let (start, stop, step) : Int64 × Int64 × Int64 := match ints with
    | [stop] => (0, stop, 1)
    | [start, stop] => (start, stop, 1)
    | [start, stop, step] => (start, stop, step)
    | _ => (0, 0, 1)
  if step = 0 then .error (.general "range step must not be zero")
  else .ok (.list (progression start stop step))

end TwinLisp.Answer
