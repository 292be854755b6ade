import TwinLisp.Expr.Basic
/-!
Programs as text, with every resolved name spelled out: `local:x@0.1` is slot 1 of the frame at
depth 0, `var:user/f` a Var.
-/

namespace TwinLisp.Expr

/-- Appends names with blanks between them, an ampersand before the last one of a variadic list. -/
def writeParams (out : String) (variadic : Bool) (more : Bool) : List String → String
  | [] => out
  | p :: rest =>
    let out := if more then out ++ " " else out
    let out := if variadic && rest.isEmpty then out ++ "& " else out
    writeParams (out ++ p) variadic true rest

def catchClassText : CatchClass → String
  | .any => "Error"
  | .exInfo => "ExInfo"

mutual

def write (out : String) : Expr → String
  | literal v _ => v.write true out
  | quote v _ => v.write true (out ++ "(quote ") ++ ")"
  | vector items _ => writeItems (out ++ "[") false items ++ "]"
  | set items _ => writeItems (out ++ "#\x7b") false items ++ "\x7d"
  | map items _ => writePairs (out ++ "\x7b") "" items ++ "\x7d"
  | localRef b _ =>
    out ++ "local:" ++ b.name ++ "@" ++ toString b.frame ++ "." ++ toString b.index
  | varRef v _ => out ++ "var:" ++ v.qualified
  | theVar v _ => out ++ "(var " ++ v.qualified ++ ")"
  | cond test yes none _ => write (write (out ++ "(if ") test ++ " ") yes ++ ")"
  | cond test yes (some no) _ =>
    write (write (write (out ++ "(if ") test ++ " ") yes ++ " ") no ++ ")"
  | block body _ => writeBody (out ++ "(do") body ++ ")"
  | letIn bindings body _ =>
    writeBody (writeBindings (out ++ "(let [") false bindings ++ "]") body ++ ")"
  | loop bindings body _ =>
    writeBody (writeBindings (out ++ "(loop [") false bindings ++ "]") body ++ ")"
  | recur args _ => writeBody (out ++ "(recur") args ++ ")"
  | fn ⟨name, arities, _, _⟩ _ => writeArities (out ++ "(fn " ++ name.getD "fn") arities ++ ")"
  | define v none _ => out ++ "(def " ++ v.qualified ++ ")"
  | define v (some e) _ => write (out ++ "(def " ++ v.qualified ++ " ") e ++ ")"
  | setLocal b e _ => write (out ++ "(set! local:" ++ b.name ++ " ") e ++ ")"
  | setVar v e _ => write (out ++ "(set! var:" ++ v.qualified ++ " ") e ++ ")"
  | call callee args _ => writeBody (write (out ++ "(") callee) args ++ ")"
  | throw e _ => write (out ++ "(throw ") e ++ ")"
  | attempt body catches none _ => writeCatches (writeBody (out ++ "(try") body) catches ++ ")"
  | attempt body catches (some finish) _ =>
    writeBody (writeCatches (writeBody (out ++ "(try") body) catches ++ " (finally") finish ++ "))"
  | macroCall v args _ =>
    args.foldl (fun out f => f.write (out ++ " ")) (out ++ "(macro-call " ++ v.qualified) ++ ")"

/-- Appends expressions with blanks between them; `more` says that one stands before. -/
def writeItems (out : String) (more : Bool) : List Expr → String
  | [] => out
  | e :: rest => writeItems (write (if more then out ++ " " else out) e) true rest

/-- Appends alternating keys and values; `before` is what separates the next one from the last. -/
def writePairs (out before : String) : List Expr → String
  | [] => out
  | e :: rest => writePairs (write (out ++ before) e) (if before = " " then ", " else " ") rest

def writeBody (out : String) : List Expr → String
  | [] => out
  | e :: rest => writeBody (write (out ++ " ") e) rest

def writeBindings (out : String) (more : Bool) : List (Bound Expr) → String
  | [] => out
  | ⟨name, init⟩ :: rest =>
    writeBindings (write ((if more then out ++ " " else out) ++ name ++ " ") init) true rest

def writeArities (out : String) : List (Arity Expr) → String
  | [] => out
  | ⟨params, variadic, body⟩ :: rest =>
    let head := writeParams (out ++ " ([") variadic false params ++ "]"
    writeArities (writeBody head body ++ ")") rest

def writeCatches (out : String) : List (CatchClause Expr) → String
  | [] => out
  | ⟨cls, name, body⟩ :: rest =>
    let head := out ++ " (catch " ++ catchClassText cls ++ " " ++ name
    writeCatches (writeBody head body ++ ")") rest

end

def text (e : Expr) : String := write "" e

end TwinLisp.Expr
