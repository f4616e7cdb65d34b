import Idl.Text.Numeral
import Idl.Text.Utf8

/-!
# Texts of commands

Commands work on bytes, and know numbers by their digits.
-/

namespace Idl

/-- A text in which every character stands for one byte. -/
abbrev Chars := List Char

namespace Chars

def ofBytes (bytes : List UInt8) : Chars := bytes.map fun b => Char.ofNat b.toNat

def toBytes (text : Chars) : List UInt8 := text.map fun c => UInt8.ofNat c.toNat

def ofString (s : String) : Chars := ofBytes (Text.encodeUtf8 s)

/-- The text that some bytes stand for; bytes that are no text stand for characters one by one. -/
def toText (text : Chars) : String :=
  (Text.decodeUtf8 (toBytes text)).toOption.getD (String.ofList text)

def le : Chars → Chars → Bool
  | [], _ => true
  | _ :: _, [] => false
  | a :: as, b :: bs => if a = b then le as bs else a.toNat ≤ b.toNat

end Chars

namespace Shell

def isIn (text : String) (c : Char) : Bool := text.toList.contains c

def isBlank (c : Char) : Bool := isIn " \t\n" c

def digits (n : Nat) : Chars := Nat.toDigits 10 n

def withZeros (length : Nat) (text : Chars) : Chars :=
  List.replicate (length - text.length) '0' ++ text

def sign : Chars → Bool × Chars
  | '-' :: cs => (true, cs)
  | '+' :: cs => (false, cs)
  | cs => (false, cs)

/-- A number at the start of a text, and what follows it. -/
def integer (text : Chars) : Int × Chars :=
  let (negative, rest) := sign (text.dropWhile isBlank)
  let (radix, rest) : Nat × Chars := match rest with
    | '0' :: 'x' :: c :: cs => if Text.isHexDigit c then (16, c :: cs) else (8, rest)
    | '0' :: _ => (8, rest)
    | _ => (10, rest)
  let own := rest.takeWhile fun c => Text.isHexDigit c && Text.digitValue c < radix
  if own.isEmpty then (0, text)
  else (Text.signed negative (Text.ofDigits radix own), rest.drop own.length)

def integer? (text : Chars) : Option Int :=
  let (value, rest) := integer text
  if rest.isEmpty && !text.isEmpty then some value else none

end Shell

end Idl
