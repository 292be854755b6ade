import TwinLisp.Text.Digits
import TwinLisp.Text.Printable
/-!
Quoted text. `quoted s` is `s` between double quotes with the quote, the backslash and six more
characters behind a backslash, and everything that would not be visible as its code point.
-/

namespace TwinLisp.Text

/-- A character as its code point in hexadecimal digits between braces. -/
def codePointEscape (c : Char) : List Char :=
  '\\' :: 'u' :: '{' :: (digitsOf 16 c.toNat ++ ['}'])

/-- How a character stands between quotes. -/
def escapeChar (c : Char) : List Char :=
  if c = '"' then ['\\', '"']
  else if c = '\\' then ['\\', '\\']
  else if c = '\n' then ['\\', 'n']
  else if c = '\t' then ['\\', 't']
  else if c = '\r' then ['\\', 'r']
  else if c = '\x00' then ['\\', '0']
  else if isPrintable c then [c]
  else codePointEscape c

/-- `text` between quotes, its characters escaped. -/
def quoted (text : String) : String :=
  text.foldl (fun out c => String.append out (String.ofList (escapeChar c))) "\"" ++ "\""

end TwinLisp.Text
