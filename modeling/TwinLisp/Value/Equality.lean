import TwinLisp.Value.Basic
/-!
Equality of values. Numbers of different kinds differ; a list equals a vector with equal elements;
maps and sets ignore order; functions, Vars and raised values are equal only to themselves.

* `Value.same`: the relation.
* `Value.lookup?`, `Value.has`: finding a key among entries and elements.
* `Value.insertEntry`, `Value.insertItem`: an equal key or element that is there already stays where
  and as it is.
-/

namespace TwinLisp.Value

mutual

def same : Value → Value → Bool
  | nil, nil => true
  | bool a, bool b => a == b
  | int a, int b => a == b
  | ratio a, ratio b => a == b
  | double a, double b => a == b
  | decimal a, decimal b => a.same b
  | str a, str b => a == b
  | char a, char b => a == b
  | keyword a, keyword b => a == b
  | symbol a, symbol b => a == b
  | list a, list b => sameItems a b
  | list a, vector b => sameItems a b
  | vector a, list b => sameItems a b
  | vector a, vector b => sameItems a b
  | map a, map b => a.length == b.length && sameEntries a b
  | set a, set b => a.length == b.length && sameMembers a b
  | fn a _, fn b _ => a == b
  | closure a _, closure b _ => a == b
  | native a p, native b q => a == b && p == q
  | var a, var b => a.id == b.id
  | exInfo a _ _, exInfo b _ _ => a == b
  | _, _ => false
termination_by structural x => x

def sameItems : List Value → List Value → Bool
  | [], [] => true
  | x :: xs, y :: ys => same x y && sameItems xs ys
  | _, _ => false
termination_by structural x => x

/-- Every entry of the first has its key in the second, with an equal value. -/
def sameEntries : List (Value × Value) → List (Value × Value) → Bool
  | [], _ => true
  | (k, v) :: rest, other =>
    (match other.find? fun e => same k e.1 with
      | some e => same v e.2
      | none => false) && sameEntries rest other
termination_by structural x => x

/-- Every element of the first is among those of the second. -/
def sameMembers : List Value → List Value → Bool
  | [], _ => true
  | x :: rest, other => (other.any fun y => same x y) && sameMembers rest other
termination_by structural x => x

end

def lookup? (key : Value) (entries : List (Value × Value)) : Option Value :=
  (entries.find? fun e => same key e.1).map (·.2)

/-- The element equal to a value, as it is stored. -/
def member? (x : Value) (items : List Value) : Option Value := items.find? fun y => same x y

def has (x : Value) (items : List Value) : Bool := items.any fun y => same x y

def hasKey (key : Value) (entries : List (Value × Value)) : Bool :=
  entries.any fun e => same key e.1

/-- Stores a value under a key; a key that is present keeps its place and its form. -/
def insertEntry (key value : Value) : List (Value × Value) → List (Value × Value)
  | [] => [(key, value)]
  | e :: rest => if same key e.1 then (e.1, value) :: rest else e :: insertEntry key value rest

/-- Adds an element unless an equal one is present. -/
def insertItem (x : Value) (items : List Value) : List Value :=
  if has x items then items else items ++ [x]

/-- Removes the entry of a key, the others in order. -/
def removeEntry (key : Value) (entries : List (Value × Value)) : List (Value × Value) :=
  entries.eraseP fun e => same key e.1

/-- Entries stored one after the other. -/
def entriesOf (pairs : List (Value × Value)) : List (Value × Value) :=
  pairs.foldl (fun es p => insertEntry p.1 p.2 es) []

/-- Elements added one after the other. -/
def itemsOf (xs : List Value) : List Value := xs.foldl (fun ys x => insertItem x ys) []

/-- The first key that equals an earlier one. -/
def repeated? (keys : List Value) : Option Value := go [] keys
where
  /-- Walks the keys with those seen so far. -/
  go (seen : List Value) : List Value → Option Value
    | [] => none
    | k :: rest => if has k seen then some k else go (k :: seen) rest

end TwinLisp.Value
