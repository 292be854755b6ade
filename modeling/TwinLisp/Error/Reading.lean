import TwinLisp.Source.Span
/-!
What can be wrong with source text: characters that form no token, and tokens that form no datum.
-/

namespace TwinLisp

/-- Characters that form no token. -/
inductive LexFault where
  | unexpectedChar (c : Char)
  | unterminatedString
  | invalidEscape (c : Char)
  | invalidNumber (text : String)
  | invalidCharacter (text : String)
  deriving DecidableEq, Repr

abbrev LexError := Located LexFault

/-- Tokens that form no datum. -/
inductive ReadFault where
  | unexpectedEof
  | unmatched (delimiter : String)
  | oddMap
  | unsupported (what : String)
  | scan (fault : LexFault)
  deriving DecidableEq, Repr

abbrev ReadError := Located ReadFault

def LexFault.text : LexFault → String
  | unexpectedChar c => "Unexpected character '" ++ String.singleton c ++ "'"
  | unterminatedString => "Unterminated string"
  | invalidEscape c => "Invalid escape sequence '\\" ++ String.singleton c ++ "'"
  | invalidNumber s => "Invalid number '" ++ s ++ "'"
  | invalidCharacter s => "Unsupported character literal '\\" ++ s ++ "'"

def ReadFault.text : ReadFault → String
  | unexpectedEof => "EOF while reading"
  | unmatched d => "Unmatched delimiter '" ++ d ++ "'"
  | oddMap => "Map literal must contain an even number of forms"
  | unsupported what => what ++ " is not supported"
  | scan f => f.text

def LexError.message (e : LexError) : String := e.cause.text ++ " at " ++ e.span.text

def ReadError.message (e : ReadError) : String := e.cause.text ++ " at " ++ e.span.text

/-- A fault of the scanner as a fault of the reader. -/
def ReadError.ofLex (e : LexError) : ReadError := ⟨.scan e.cause, e.span⟩

@[simp] theorem ReadError.message_ofLex (e : LexError) :
    (ReadError.ofLex e).message = e.message := rfl

end TwinLisp
