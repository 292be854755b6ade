import TwinLisp.Source.Span
import TwinLisp.Value.Printing
/-!
Data as it was read, each node with its place. The entries of a map are kept as one list in which
keys and values alternate.

* `Form.text`: the form as source text.
* `Form.describe`: what a form is, in a word.
-/

namespace TwinLisp

inductive Form where
  /-- Data that stand for themselves: nil, booleans, numbers, strings, characters, keywords. -/
  | atom (v : Value) (span : Span)
  | symbol (name : String) (span : Span)
  | list (items : List Form) (span : Span)
  | vector (items : List Form) (span : Span)
  | map (items : List Form) (span : Span)
  | set (items : List Form) (span : Span)
  deriving Inhabited

namespace Form

def span : Form → Span
  | atom _ s | symbol _ s | list _ s | vector _ s | map _ s | set _ s => s

def describe : Form → String
  | atom v _ => v.typeName
  | symbol .. => "symbol"
  | list .. => "list"
  | vector .. => "vector"
  | map .. => "map"
  | set .. => "set"

def symbol? : Form → Option String
  | symbol name _ => some name
  | _ => none

def isSymbol (name : String) (f : Form) : Bool := f.symbol? == some name

/-- The items of a form that begins with a symbol, and that symbol's name. -/
def headed? : Form → Option (String × List Form)
  | list (symbol name _ :: args) _ => some (name, args)
  | _ => none

mutual

def write (out : String) : Form → String
  | atom v _ => v.write true out
  | symbol name _ => out ++ name
  | list items _ => writeAll (out ++ "(") false items ++ ")"
  | vector items _ => writeAll (out ++ "[") false items ++ "]"
  | map items _ => writeAll (out ++ "\x7b") false items ++ "\x7d"
  | set items _ => writeAll (out ++ "#\x7b") false items ++ "\x7d"

/-- Appends forms with blanks between them; `more` says that one stands before. -/
def writeAll (out : String) (more : Bool) : List Form → String
  | [] => out
  | f :: rest => writeAll (write (if more then out ++ " " else out) f) true rest

end

def text (f : Form) : String := write "" f

end Form

end TwinLisp
