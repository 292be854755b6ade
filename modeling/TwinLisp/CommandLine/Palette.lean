/-!
Coloured text for terminals. A style stays in force across resets inside the text.
-/

namespace TwinLisp

inductive Style where
  | alarm
  | caution
  | good
  | result
  | muted
  deriving DecidableEq, Repr

/-- Whether text is coloured. -/
structure Palette where
  enabled : Bool
  deriving DecidableEq, Repr

namespace Palette

def reset : String := "\x1b[0m"

def codes : Style → String
  | .alarm => "\x1b[1;31m"
  | .caution => "\x1b[1;33m"
  | .good => "\x1b[32m"
  | .result => "\x1b[36m"
  | .muted => "\x1b[33m"

def paint (p : Palette) (style : Style) (text : String) : String :=
  if p.enabled then
    codes style ++ String.intercalate (reset ++ codes style) (text.splitOn reset) ++ reset
  else text

/-- Colours are on if they are forced, or if the output is a terminal and they are not switched
off. -/
def ofSettings (lookup : String → Option String) (terminal : Bool) : Palette :=
  let isOn (key : String) (default : Bool) := ((lookup key).map (· != "0")).getD default
  if isOn "CLICOLOR_FORCE" false then ⟨true⟩
  else if (lookup "NO_COLOR").isSome then ⟨false⟩
  else ⟨terminal && isOn "CLICOLOR" true⟩

end Palette

end TwinLisp
