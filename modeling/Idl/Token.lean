import Idl.Source.Span
import Idl.Text.Numeral
import Idl.Text.Quoted

/-!
# Tokens

The tokens that both dialects share.  Keywords are identifiers, so that a keyword stays usable as
a name wherever the grammar leaves no doubt, and a dotted name is one identifier.
-/

namespace Idl

inductive Punct
  | leftBrace
  | rightBrace
  | leftParen
  | rightParen
  | leftAngle
  | rightAngle
  | leftBracket
  | rightBracket
  | equals
  | semicolon
  | colon
  | comma
deriving DecidableEq, Repr

namespace Punct

def all : List Punct :=
  [leftBrace, rightBrace, leftParen, rightParen, leftAngle, rightAngle, leftBracket, rightBracket,
    equals, semicolon, colon, comma]

def char : Punct → Char
  | leftBrace => '\x7b'
  | rightBrace => '\x7d'
  | leftParen => '('
  | rightParen => ')'
  | leftAngle => '<'
  | rightAngle => '>'
  | leftBracket => '['
  | rightBracket => ']'
  | equals => '='
  | semicolon => ';'
  | colon => ':'
  | comma => ','

def text (p : Punct) : String := "`" ++ String.singleton p.char ++ "`"

def ofChar? (c : Char) : Option Punct := all.find? (·.char == c)

end Punct

inductive Token
  | identifier (name : String)
  | integer (value : Int64)
  | text (value : String)
  /-- A comment with its two slashes, up to the end of the line. -/
  | comment (text : String)
  | blank
  | newline
  | punct (mark : Punct)
deriving DecidableEq, Repr

namespace Token

def isTrivia : Token → Bool
  | comment _ | blank | newline => true
  | _ => false

def describe : Token → String
  | identifier name => "identifier `" ++ name ++ "`"
  | integer value => "integer `" ++ Text.showInt64 value ++ "`"
  | text value => "string " ++ Text.quoted value
  | comment _ => "comment"
  | blank => "whitespace"
  | newline => "newline"
  | punct mark => mark.text

end Token

def significant (tokens : List (Located Token)) : List (Located Token) :=
  tokens.filter (!·.value.isTrivia)

end Idl
