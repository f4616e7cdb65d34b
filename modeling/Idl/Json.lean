import Idl.Text.Numeral
import Idl.Text.Quoted

/-!
# JSON

JSON values and the way they are laid out: one item or field a line, two spaces for each level.
-/

namespace Idl

inductive Json
  | null
  | bool (value : Bool)
  | int (value : Int64)
  | text (value : String)
  | list (items : List Json)
  | object (fields : List (String × Json))

namespace Json

def ofOption {α : Type} (f : α → Json) : Option α → Json
  | none => null
  | some a => f a

/-- How a character is written in a text: quotes, backslashes and control characters are
escaped, everything else stands for itself. -/
def escapeChar (c : Char) : String :=
  if c = '"' then "\\\""
  else if c = '\\' then "\\\\"
  else if c = '\x08' then "\\b"
  else if c = '\x0c' then "\\f"
  else if c = '\n' then "\\n"
  else if c = '\r' then "\\r"
  else if c = '\t' then "\\t"
  else if c.toNat < 16 then "\\u000" ++ String.ofList (Text.hexDigits c.toNat)
  else if c.toNat < 32 then "\\u00" ++ String.ofList (Text.hexDigits c.toNat)
  else String.singleton c

def quote (s : String) : String := "\"" ++ String.join (s.toList.map escapeChar) ++ "\""

def margin (level : Nat) : String := String.ofList (List.replicate (2 * level) ' ')

mutual

def pretty (level : Nat) : Json → String
  | null => "null"
  | bool true => "true"
  | bool false => "false"
  | int value => Text.showInt64 value
  | text value => quote value
  | list [] => "[]"
  | list (item :: items) =>
    "[\n" ++ margin (level + 1) ++ item.pretty (level + 1) ++ prettyItems (level + 1) items
      ++ "\n" ++ margin level ++ "]"
  | object [] => "\x7b\x7d"
  | object ((key, value) :: fields) =>
    "\x7b\n" ++ margin (level + 1) ++ quote key ++ ": " ++ value.pretty (level + 1)
      ++ prettyFields (level + 1) fields ++ "\n" ++ margin level ++ "\x7d"

def prettyItems (level : Nat) : List Json → String
  | [] => ""
  | item :: items => ",\n" ++ margin level ++ item.pretty level ++ prettyItems level items

def prettyFields (level : Nat) : List (String × Json) → String
  | [] => ""
  | (key, value) :: fields =>
    ",\n" ++ margin level ++ quote key ++ ": " ++ value.pretty level ++ prettyFields level fields

end

end Json

end Idl
