import Idl.Toml.Scalar

/-!
# Reading configuration documents

A scanner reads characters from the front and stops at the first that does not fit.
-/

namespace Idl.Toml

abbrev Scanner := StateT (List Char) Option

namespace Scanner

variable {α : Type}

def fail : Scanner α := fun _ => none

def rest : Scanner (List Char) := get

def peek? : Scanner (Option Char) := do return (← get).head?

def next : Scanner Char := fun cs =>
  match cs with
  | [] => none
  | c :: cs => some (c, cs)

def eat (text : String) : Scanner Bool := fun cs =>
  if text.toList.isPrefixOf cs then some (true, cs.drop text.length) else some (false, cs)

def expect (text : String) : Scanner Unit := do
  unless ← eat text do fail

def takeWhile (p : Char → Bool) : Scanner (List Char) := fun cs =>
  some (cs.takeWhile p, cs.dropWhile p)

/-- Reads items for as long as there are any; each must pass over something. -/
def collect (step : Scanner (Option α)) (cs : List Char) : Option (List α × List Char) :=
  match step cs with
  | none => none
  | some (none, rest) => some ([], rest)
  | some (some a, rest) =>
    if rest.length < cs.length then
      (collect step rest).map fun (items, rest) => (a :: items, rest)
    else none
termination_by cs.length

def blanks : Scanner Unit := do
  discard (takeWhile fun c => c == ' ' || c == '\t')

def isPrintable (c : Char) : Bool := c == '\t' || (c.toNat ≥ 32 && c.toNat != 127)

def comment : Scanner Unit := do
  if ← eat "#" then discard (takeWhile isPrintable)

def lineBreak : Scanner Bool := do
  if ← eat "\n" then return true else eat "\x0d\n"

def gap : Scanner Unit := do
  discard (collect (α := Unit) do
    blanks
    comment
    if ← lineBreak then return some () else return none)

def hexEscape (count : Nat) : Scanner (List Char) := fun cs =>
  let digits := cs.take count
  let n := Text.ofDigits 16 digits
  if digits.length = count && digits.all Text.isHexDigit && n.isValidChar then
    some ([Char.ofNat n], cs.drop count)
  else none

def escape : Scanner (List Char) := do
  match ← next with
  | 'b' => return ['\x08']
  | 't' => return ['\t']
  | 'n' => return ['\n']
  | 'f' => return ['\x0c']
  | 'r' => return ['\x0d']
  | 'e' => return ['\x1b']
  | '"' => return ['"']
  | '\\' => return ['\\']
  | 'x' => hexEscape 2
  | 'u' => hexEscape 4
  | 'U' => hexEscape 8
  | _ => fail

def lineText (quote : Char) (escapes : Bool) : Scanner String := do
  let parts ← collect do
    let c ← next
    if c = quote then return none
    else if c = '\\' && escapes then return some (← escape)
    else if isPrintable c then return some [c]
    else fail
  return String.ofList parts.flatten

def emptyLines : Scanner Unit := do
  discard (collect (α := Unit) do
    blanks
    if ← lineBreak then return some () else return none)

/-- An escaped end of a line takes the blanks and the empty lines behind it along. -/
def continuation : Scanner Bool := fun cs =>
  match (do blanks; lineBreak : Scanner Bool) cs with
  | some (true, rest) => (emptyLines rest).map fun (_, rest) => (true, rest)
  | _ => some (false, cs)

/-- A part of a text over several lines, or none at the three closing quotes.  Up to two quotes
before those belong to the text. -/
def blockPart (quote : Char) (escapes : Bool) : Scanner (Option (List Char)) := do
  let quotes := ((← rest).takeWhile (· == quote)).length
  if quotes = 3 then
    discard next
    discard next
    discard next
    return none
  else if quotes > 5 then fail
  else if ← eat "\n" then return some ['\n']
  else if ← eat "\x0d\n" then return some ['\x0d', '\n']
  else
    let c ← next
    if c = '\\' && escapes then
      if ← continuation then return some [] else return some (← escape)
    else if isPrintable c then return some [c]
    else fail

def blockText (quote : Char) (escapes : Bool) : Scanner String := do
  discard lineBreak
  return String.ofList (← collect (blockPart quote escapes)).flatten

def text? : Scanner (Option String) := do
  if ← eat "\"\"\"" then return some (← blockText '"' true)
  else if ← eat "\"" then return some (← lineText '"' true)
  else if ← eat "\x27\x27\x27" then return some (← blockText '\x27' false)
  else if ← eat "\x27" then return some (← lineText '\x27' false)
  else return none

def keyPart : Scanner String := do
  if ← eat "\"" then lineText '"' true
  else if ← eat "\x27" then lineText '\x27' false
  else
    let name ← takeWhile fun c =>
      ('a' ≤ c && c ≤ 'z') || ('A' ≤ c && c ≤ 'Z') || Text.isDigit c || c == '_' || c == '-'
    if name.isEmpty then fail else return String.ofList name

/-- How deep values may stand in one another, and how many parts a key may have. -/
def depthLimit : Nat := 80

def key : Scanner (List String) := do
  let first ← keyPart
  let more ← collect do
    blanks
    if ← eat "." then
      blanks
      return some (← keyPart)
    else return none
  if more.length < depthLimit then return first :: more else fail

/-- Items up to a closing mark, with commas between them; a comma may follow the last. -/
def separated (item : Scanner α) (close : String) : Scanner (List α) :=
  collect do
    gap
    if ← eat close then return none
    else
      let a ← item
      gap
      if (← eat ",") || close.toList.isPrefixOf (← rest) then return some a else fail

def scalarText : Scanner (List Char) := do
  let isPart (c : Char) : Bool :=
    c.isAlphanum || c == '+' || c == '-' || c == '.' || c == ':' || c == '_'
  let first ← takeWhile isPart
  match isDate first, ← rest with
  | true, ' ' :: c :: _ =>
    if Text.isDigit c then
      discard next
      return first ++ ' ' :: (← takeWhile isPart)
    else return first
  | _, _ => return first

def plainValue : Scanner Toml := do
  if let some found ← text? then return .text found
  else
    let cs ← scalarText
    if cs = "true".toList then return .bool true
    else if cs = "false".toList then return .bool false
    else match scalar? cs with
      | some found => return found
      | none => fail

def pair (value : Scanner Toml) : Scanner (List String × Toml) := do
  let path ← key
  gap
  expect "="
  gap
  return (path, ← value)

def value : Nat → Scanner Toml
  | 0 => plainValue
  | depth + 1 => do
    if ← eat "[" then return .list (← separated (value depth) "]")
    else if ← eat "\x7b" then
      let pairs ← separated (pair (value depth)) "\x7d"
      match pairs.foldlM (fun entries (path, value) => Node.assign path value entries) [] with
      | some entries => return .table (Node.finishEntries entries)
      | none => fail
    else plainValue

def statement : Scanner Statement := do
  if ← eat "[[" then
    blanks
    let path ← key
    blanks
    expect "]]"
    return .item path
  else if ← eat "[" then
    blanks
    let path ← key
    blanks
    expect "]"
    return .header path
  else
    let path ← key
    blanks
    expect "="
    blanks
    return .assign path (← value depthLimit)

def statements : Scanner (List Statement) :=
  collect do
    gap
    blanks
    if (← peek?).isNone then return none
    else
      let found ← statement
      blanks
      comment
      if (← lineBreak) || (← peek?).isNone then return some found else fail

end Scanner

def parse? (source : String) : Option Toml := do
  let cs := match source.toList with
    | '\ufeff' :: cs => cs
    | cs => cs
  let (statements, _) ← Scanner.statements cs
  Document.ofStatements statements

end Idl.Toml
