import TwinLisp.Names.Qualified
import TwinLisp.Native.Arguments
import TwinLisp.Value.Printing
/-!
Natives on text, keywords and symbols.
-/

namespace TwinLisp.Answer

/-- Display forms joined; nil contributes nothing. -/
def str (args : List Value) : Value :=
  .str (args.foldl (fun out v => if v.isNil then out else v.write false out) "")

/-- The characters from an index up to another one, or to the end. -/
def subs (args : List Value) : Answer Value :=
  match args with
  | [.str s, start] => (intFor "subs" start).bind fun i => cut s i (Int64.ofNat s.length)
  | [.str s, start, stop] =>
    (intFor "subs" start).bind fun i => (intFor "subs" stop).bind fun j => cut s i j
  | [other, _] | [other, _, _] => expects "subs" "a string" other
  | _ => wrongArity "subs" args
where
  /-- The characters between two indices, which must be in order and in range. -/
  cut (s : String) (start stop : Int64) : Answer Value :=
    if start < 0 ∨ stop < start ∨ stop.toNatClampNeg > s.length then outOfBounds stop s.length
    else
      let cs := s.toList.drop start.toNatClampNeg
      .ok (.str (String.ofList (cs.take (stop.toNatClampNeg - start.toNatClampNeg))))

/-- The text of a string, keyword or symbol without its namespace. -/
def name (v : Value) : Answer Value :=
  match v with
  | .str s => .ok (.str s)
  | .keyword k | .symbol k => .ok (.str (lastPart k))
  | _ => expects "name" "a string, keyword or symbol" v

def keyword (v : Value) : Answer Value :=
  match v with
  | .str s | .symbol s => .ok (.keyword s)
  | .keyword _ => .ok v
  | _ => expects "keyword" "a string" v

def symbol (v : Value) : Answer Value :=
  match v with
  | .str s | .keyword s => .ok (.symbol s)
  | .symbol _ => .ok v
  | _ => expects "symbol" "a string" v

end TwinLisp.Answer
