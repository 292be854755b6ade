import TwinLisp.Number.Decimal.Basic
import TwinLisp.Number.Double.Shortest
import TwinLisp.Source.Span
import TwinLisp.Text.Quoted
/-!
Tokens of the reader: literals, names, delimiters and reader marks, each with its place. A ratio
token keeps its two numbers as written.
-/

namespace TwinLisp

inductive TokenKind where
  | int (n : Int64)
  | ratio (num den : Int64)
  | double (d : Float)
  | decimal (d : Decimal)
  | str (s : String)
  | char (c : Char)
  | nil
  | true
  | false
  | symbol (name : String)
  | keyword (name : String)
  | leftParen
  | rightParen
  | leftBracket
  | rightBracket
  | leftBrace
  | rightBrace
  /-- The opening of a set. -/
  | hashBrace
  | quote
  | atSign
  | caret
  /-- The mark that drops the datum after it. -/
  | discard
  | eof

structure Token where
  kind : TokenKind
  span : Span

namespace TokenKind

def isClosing : TokenKind → Bool
  | rightParen | rightBracket | rightBrace => Bool.true
  | _ => Bool.false

def isEof : TokenKind → Bool
  | eof => Bool.true
  | _ => Bool.false

def text : TokenKind → String
  | int n => toString n.toInt
  | ratio num den => toString num.toInt ++ "/" ++ toString den.toInt
  | double d => Double.text d
  | decimal d => d.text ++ "M"
  | str s => Text.quoted s
  | char c => "\\" ++ String.singleton c
  | nil => "nil"
  | true => "true"
  | false => "false"
  | symbol s => s
  | keyword s => ":" ++ s
  | leftParen => "("
  | rightParen => ")"
  | leftBracket => "["
  | rightBracket => "]"
  | leftBrace => "\x7b"
  | rightBrace => "\x7d"
  | hashBrace => "#\x7b"
  | quote => "'"
  | atSign => "@"
  | caret => "^"
  | discard => "#_"
  | eof => "EOF"

end TokenKind

end TwinLisp
