/-!
Symbols as written. A symbol with a slash between two nonempty parts names its namespace; any other
symbol, the slash alone among them, is unqualified.

* `splitQualified`: namespace and name, parted at the first slash.
* `lastPart`: what follows the last slash.
-/

namespace TwinLisp

/-- The characters before the first slash and those after it. -/
def splitSlash : List Char → Option (List Char × List Char)
  | [] => none
  | c :: rest =>
    if c = '/' then some ([], rest)
    else (splitSlash rest).map fun (ns, name) => (c :: ns, name)

/-- Namespace and name of a qualified symbol. -/
def splitQualified (s : String) : Option (String × String) :=
  match splitSlash s.toList with
  | some (ns, name) =>
    if ns.isEmpty || name.isEmpty then none else some (String.ofList ns, String.ofList name)
  | none => none

/-- What follows the last slash, or everything if there is none. -/
def lastPart (s : String) : String :=
  String.ofList ((s.toList.reverse.takeWhile (· != '/')).reverse)

theorem splitQualified_slash : splitQualified "/" = none := by decide

end TwinLisp
