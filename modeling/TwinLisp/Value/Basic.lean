import TwinLisp.Number.Decimal.Basic
import TwinLisp.Value.Native
/-!
Values of the language. Collections are immutable: a map keeps its entries and a set its elements
in the order of their insertion. Functions, Vars and raised values have an identity, a number that
no other such value of the same kind bears; what a function does is kept in the store.

* `Ratio`: a fraction in lowest terms whose denominator is at least two.
* `Var`: a name in a namespace, and the number of the cell that holds its value.
* `Value.typeName`, `Value.truthy`, `Value.items?`: what every value answers.
-/

namespace TwinLisp

/-- The fraction `num / den` in lowest terms, which is no integer. -/
structure Ratio where
  num : Int64
  den : Int64
  proper : 1 < den.toInt
  coprime : Int.gcd num.toInt den.toInt = 1
  deriving DecidableEq, Repr

instance : Inhabited Ratio := ⟨1, 2, by decide, by decide⟩

/-- A global variable, known by the number of its cell. -/
structure Var where
  id : Nat
  ns : String
  name : String
  deriving DecidableEq, Repr, Inhabited

/-- The namespace and the name with a slash between them. -/
def Var.qualified (v : Var) : String := v.ns ++ "/" ++ v.name

inductive Value where
  | nil
  | bool (b : Bool)
  | int (n : Int64)
  | ratio (r : Ratio)
  | double (d : Float)
  | decimal (d : Decimal)
  | str (s : String)
  | char (c : Char)
  | keyword (name : String)
  | symbol (name : String)
  | list (items : List Value)
  | vector (items : List Value)
  | map (entries : List (Value × Value))
  | set (items : List Value)
  /-- An interpreted function. -/
  | fn (id : Nat) (name : String)
  /-- A compiled function. -/
  | closure (id : Nat) (name : String)
  /-- A native, with the number of the interpreter that owns it. -/
  | native (owner : Nat) (op : Native)
  | var (v : Var)
  /-- A value to throw: a message and data. -/
  | exInfo (id : Nat) (message : String) (data : Value)
  deriving Inhabited

namespace Value

def typeName : Value → String
  | nil => "Nil"
  | bool _ => "Boolean"
  | int _ => "Int"
  | ratio _ => "Ratio"
  | double _ => "Double"
  | decimal _ => "BigDecimal"
  | str _ => "String"
  | char _ => "Char"
  | keyword _ => "Keyword"
  | symbol _ => "Symbol"
  | list _ => "List"
  | vector _ => "Vector"
  | map _ => "Map"
  | set _ => "Set"
  | fn .. | closure .. | native .. => "Fn"
  | var _ => "Var"
  | exInfo .. => "ExInfo"

/-- All values count as true but nil and false. -/
def truthy : Value → Bool
  | nil | bool false => false
  | _ => true

def isNil : Value → Bool
  | nil => true
  | _ => false

def isFn : Value → Bool
  | fn .. | closure .. | native .. => true
  | _ => false

/-- The elements of a value that can be walked as a sequence: a map yields pairs, a string its
characters, nil nothing. -/
def items? : Value → Option (List Value)
  | nil => some []
  | list xs | vector xs | set xs => some xs
  | map es => some (es.map fun e => vector [e.1, e.2])
  | str s => some (s.toList.map char)
  | _ => none

/-- An integer that is known to fit. -/
def ofNat (n : Nat) : Value := int (Int64.ofNat n)

end Value

end TwinLisp
