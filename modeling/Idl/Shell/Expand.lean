import Idl.Shell.Session

/-!
# Expansion

How words become fields: parameters, outputs of scripts and values of expressions are put in, what
was not quoted is split at separators, and patterns are replaced by the files that fit them.
-/

namespace Idl.Shell

/-- What a word becomes before it is split: characters, of which those that were put in and not
quoted may separate fields; places where a field is, even an empty one; and ends of fields. -/
inductive Glyph
  | char (c : Char) (quoted splits : Bool)
  | keep
  | cut

namespace Glyph

def ofText (quoted splits : Bool) (text : Chars) : List Glyph :=
  (if quoted then [keep] else []) ++ text.map (char · quoted splits)

def text (glyphs : List Glyph) : Chars :=
  glyphs.flatMap fun
    | char c _ _ => [c]
    | keep => []
    | cut => [' ']

end Glyph

/-! Patterns -/

def classes : List (String × String) :=
  [("alpha", "azAZ"), ("digit", "09"), ("alnum", "azAZ09"), ("upper", "AZ"), ("lower", "az"),
    ("space", "\t\r  "), ("xdigit", "09afAF"), ("punct", "!/:@[\x60\x7b~")]

/-- The ends of the ranges that the contents of brackets stand for. -/
def ranges : Nat → Chars → Chars
  | fuel + 1, '[' :: ':' :: text =>
    let name := text.takeWhile (· ≠ ':')
    ((classes.lookup (String.ofList name)).getD "").toList ++
      ranges fuel (text.drop (name.length + 2))
  | fuel + 1, low :: '-' :: high :: rest => low :: high :: ranges fuel rest
  | fuel + 1, own :: rest => own :: own :: ranges fuel rest
  | _, _ => []

def inRanges (c : Char) : Chars → Bool
  | low :: high :: rest => (low ≤ c && c ≤ high) || inRanges c rest
  | _ => false

inductive Atom
  | exactly (c : Char)
  | anything
  | run
  | oneOf (negated : Bool) (ranges : Chars)

/-- The contents of brackets behind the opening one, and what follows the closing one; the brackets
around the name of a class belong to them. -/
def brackets : Bool → Bool → List (Char × Bool) → Option (Chars × List (Char × Bool))
  | _, _, [] => none
  | first, inClass, (c, quoted) :: rest =>
    if c = ']' && !quoted && !first && !inClass then some ([], rest)
    else
      let inClass := if inClass then c ≠ ']' else c = '[' && rest.head? = some (':', false)
      (brackets false inClass rest).map (·.map (c :: ·) id)

def atoms : Nat → List (Char × Bool) → List Atom
  | fuel + 1, (c, quoted) :: rest =>
    let negated := rest.head? = some ('!', false)
    match quoted, c, brackets true false (if negated then rest.tail else rest), rest with
    | false, '*', _, _ => .run :: atoms fuel rest
    | false, '?', _, _ => .anything :: atoms fuel rest
    | false, '\\', _, (d, _) :: rest => .exactly d :: atoms fuel rest
    | false, '[', some (own, rest), _ =>
      .oneOf negated (ranges (own.length + 1) own) :: atoms fuel rest
    | _, _, _, _ => .exactly c :: atoms fuel rest
  | _, _ => []

def patternOf (glyphs : List Glyph) : List Atom :=
  atoms (glyphs.length + 1) <| glyphs.filterMap fun
    | .char c quoted _ => some (c, quoted)
    | _ => none

def fits : List Atom → Chars → Bool
  | [], text => text.isEmpty
  | .run :: rest, text => (List.range (text.length + 1)).any fun n => fits rest (text.drop n)
  | _ :: _, [] => false
  | .exactly c :: rest, d :: text => c = d && fits rest text
  | .anything :: rest, _ :: text => fits rest text
  | .oneOf negated ranges :: rest, d :: text => inRanges d ranges != negated && fits rest text

/-- Takes from a text the start or the end that fits a pattern. -/
def trimmed (operator : String) (pattern : List Atom) (text : Chars) : Chars :=
  let counts := List.range (text.length + 1)
  let cut (n : Nat) : Option Chars :=
    let (own, rest) := if operator.toList.head? = some '%'
      then (text.drop (text.length - n), text.take (text.length - n))
      else (text.take n, text.drop n)
    if fits pattern own then some rest else none
  ((if operator.length = 2 then counts.reverse else counts).findSome? cut).getD text

def isPattern (glyphs : List Glyph) : Bool :=
  glyphs.any fun
    | .char c quoted _ => !quoted && isIn "*?[" c
    | _ => false

/-- The paths that fit the parts of a path, of which the first ones are known. -/
def matching (files : FileTree) (before : Chars) : List (List Glyph) → List Chars
  | [] => [before]
  | part :: parts =>
    let place := files.find (Chars.toText (if before.isEmpty then ['.'] else before))
    let isHidden (text : Chars) : Bool := text.head? = some '.'
    let names := if !isPattern part then [Glyph.text part]
      else
        let entries := place.toOption.elim [] fun name => "." :: ".." :: files.entries name
        (entries.map Chars.ofString).filter fun name =>
          fits (patternOf part) name && (!isHidden name || isHidden (Glyph.text part))
    names.flatMap fun name =>
      let path := before ++ name
      if parts.isEmpty then if files.contains path.toText then [path] else []
      else if path.isEmpty || files.isDirectory path.toText then
        matching files (path ++ ['/']) parts
      else []

/-- The files that fit a field, in order; a field that fits none stands for itself. -/
def expandPattern (files : FileTree) (field : List Glyph) : List Chars :=
  let parts := field.splitOnP fun
    | .char c _ _ => c = '/'
    | _ => false
  match if isPattern field then matching files [] parts else [] with
  | [] => [Glyph.text field]
  | paths => paths.mergeSort Chars.le

/-! Expressions -/

abbrev Evaluation := StateT Chars Run

namespace Evaluation

def next : Evaluation Chars := do
  modify (·.dropWhile isBlank)
  get

def taken (mark : Char) : Evaluation Bool := do
  let text ← next
  let found := text.head? = some mark
  if found then set text.tail
  return found

def wrapped (x : Int) : Int := (BitVec.ofInt 64 x).toInt

def apply (operator : String) (x y : Int) : Run Int := do
  let truth (holds : Bool) : Int := if holds then 1 else 0
  let bits (f : BitVec 64 → BitVec 64 → BitVec 64) : Int := (f (.ofInt 64 x) (.ofInt 64 y)).toInt
  if y = 0 && (operator = "/" || operator = "%") then Run.fail
  return wrapped (match operator with
    | "||" => truth (x ≠ 0 || y ≠ 0)
    | "&&" => truth (x ≠ 0 && y ≠ 0)
    | "|" => bits BitVec.or
    | "^" => bits BitVec.xor
    | "&" => bits BitVec.and
    | "==" => truth (x = y)
    | "!=" => truth (x ≠ y)
    | "<=" => truth (x ≤ y)
    | ">=" => truth (x ≥ y)
    | "<" => truth (x < y)
    | ">" => truth (x > y)
    | "<<" => bits fun x _ => x.shiftLeft (y % 64).toNat
    | ">>" => bits fun x _ => x.sshiftRight (y % 64).toNat
    | "+" => x + y
    | "-" => x - y
    | "*" => x * y
    | "/" => Int.tdiv x y
    | "%" => Int.tmod x y
    | _ => y)

/-- Evaluates something of which nothing stays unless it counts. -/
def countedIf (counts : Bool) (act : Evaluation Int) : Evaluation Int := fun text => do
  let before ← get
  if counts then act text
  else
    let result ← tryCatch (act text) fun _ => return (0, text)
    set before
    return result

/-- The operators of one level between operands of the next; `value` is what was read so far. -/
def chain (operand : Evaluation Int) (operators : List String) : Nat → Int → Evaluation Int
  | 0, _ => Run.fail
  | fuel + 1, value => do
    let text ← next
    let some operator := mark? operators text | return value
    let rest := text.drop operator.length
    if rest.head?.elim false (isIn "=&|<>") then return value
    set rest
    let counts := !(operator = "&&" && value = 0 || operator = "||" && value ≠ 0)
    chain operand operators fuel (← apply operator value (← countedIf counts operand))

def primary (expression operand : Evaluation Int) : Evaluation Int := do
  if ← taken '(' then
    let value ← expression
    unless ← taken ')' do Run.fail
    return value
  if ← taken '-' then return wrapped (-(← operand))
  if ← taken '+' then return ← operand
  if ← taken '!' then return if (← operand) = 0 then 1 else 0
  if ← taken '~' then return -1 - (← operand)
  let text ← next
  let name := text.takeWhile isNameChar
  set (text.drop name.length)
  unless isName name do return ← (integer? name).elim Run.fail pure
  let value : Evaluation Int := do
    let own := ((← getThe Session).vars.lookup name).getD []
    if own.isEmpty then return 0 else (integer? own).elim Run.fail pure
  let text ← next
  let operators := ["==", "=", "+=", "-=", "*=", "/=", "%=", "<<=", ">>=", "&=", "^=", "|="]
  match mark? operators text with
  | none | some "==" => value
  | some operator =>
    set (text.drop operator.length)
    let other ← expression
    let result ← apply (String.ofList operator.toList.dropLast) (← value) other
    Run.assign name (toString result).toList
    return result

def levels : List (List String) :=
  [["||"], ["&&"], ["|"], ["^"], ["&"], ["==", "!="], ["<=", ">=", "<", ">"], ["<<", ">>"],
    ["+", "-"], ["*", "/", "%"]]

def expression : Nat → Evaluation Int
  | 0 => Run.fail
  | fuel + 1 => do
    let rec unary : Nat → Evaluation Int
      | 0 => Run.fail
      | depth + 1 => primary (expression fuel) (unary depth)
    let test ← levels.foldr (fun operators operand => do
      chain operand operators 1000 (← operand)) (unary 100)
    unless ← taken '?' do return test
    let yes ← countedIf (test ≠ 0) (expression fuel)
    unless ← taken ':' do Run.fail
    let no ← countedIf (test = 0) (expression fuel)
    return if test ≠ 0 then yes else no

end Evaluation

def evaluate (text : Chars) : Run Int := do
  if text.all isBlank then return 0
  let (value, rest) ← (Evaluation.expression 100).run text
  if rest.all isBlank then return value else Run.fail

/-! Words -/

structure Split where
  fields : List (List Glyph)
  current : Option (List Glyph)
  /-- The last field ended at a blank, and no other separator came since. -/
  atBlank : Bool

namespace Split

def close (s : Split) (atBlank : Bool) : Split :=
  s.current.elim s fun glyphs => ⟨s.fields ++ [glyphs], none, atBlank⟩

def step (separators : Chars) (s : Split) : Glyph → Split
  | .keep => { s with current := some (s.current.getD []), atBlank := false }
  | .cut => s.close false
  | .char c quoted splits =>
    if !(splits && separators.contains c) then
      { s with current := some (s.current.getD [] ++ [.char c quoted splits]), atBlank := false }
    else if isBlank c then s.close true
    else if s.current.isSome then s.close false
    else if s.atBlank then { s with atBlank := false }
    else { s with fields := s.fields ++ [[]] }

end Split

def split (separators : Chars) (glyphs : List Glyph) : List (List Glyph) :=
  ((glyphs.foldl (Split.step separators) ⟨[], none, false⟩).close false).fields

def parameter? (name : Chars) : Run (Option Chars) := do
  let s ← get
  let n := Text.ofDigits 10 name
  match name with
  | ['#'] => return some (digits s.args.length)
  | ['?'] => return some (digits s.status)
  | ['$'] => return some (digits s.id)
  | ['!'] => return s.jobs.getLast?.map (digits ·.1)
  | ['-'] => return some s.options
  | ['@'] | ['*'] => return some ([' '].intercalate s.args)
  | _ => return if isName name then s.vars.lookup name
    else if n = 0 then some s.name else s.args[n - 1]?

/-- The value of a parameter that is put in; the arguments are fields of their own. -/
def valueGlyphs (quoted : Bool) (name : Chars) (change : Chars → Chars) : Run (List Glyph) := do
  let s ← get
  let ofValue (text : Chars) : List Glyph := Glyph.ofText quoted (!quoted) (change text)
  if name = ['@'] || name = ['*'] && !quoted then
    return [Glyph.cut].intercalate (s.args.map ofValue)
  if name = ['*'] then return ofValue (((← Run.separators).take 1).intercalate s.args)
  let text ← parameter? name
  if text.isNone && s.options.contains 'u' then Run.fail
  return ofValue (text.getD [])

/-- Puts in what a part of a word stands for.  The output of a script is found by `output`, and
`word` puts in for the words within. -/
def partGlyphs (output : Script → Run Chars) (word : List Part → Run (List Glyph)) :
    Part → Run (List Glyph)
  | .text quoted text => return Glyph.ofText quoted false text
  | .output quoted script => do
    let text := ((← output script).reverse.dropWhile (· = '\n')).reverse
    return Glyph.ofText quoted (!quoted) text
  | .value quoted expression => do
    let value ← evaluate (Glyph.text (← word expression))
    return Glyph.ofText quoted (!quoted) (toString value).toList
  | .parameter quoted name use => do
    let text ← parameter? name
    let plain := valueGlyphs quoted name id
    match use with
    | .plain => plain
    | .length =>
      if text.isNone && (← get).options.contains 'u' then Run.fail
      return Glyph.ofText quoted (!quoted) (digits (text.getD []).length)
    | .change operator other =>
      let isSet := text.elim false fun text => operator.toList.head? ≠ some ':' || !text.isEmpty
      let instead : Run (List Glyph) := do
        return (if quoted then [.keep] else []) ++ (← word other).map fun
          | .char c quoted _ => .char c quoted (!quoted)
          | glyph => glyph
      match operator.toList.getLast?, isSet with
      | some '+', true | some '-', false => instead
      | some '+', false => return []
      | some '-', true | some '=', true | some '?', true => plain
      | some '?', false => Run.fail
      | some '=', false =>
        Run.assign name (Glyph.text (← word other))
        plain
      | _, _ => do valueGlyphs quoted name (trimmed operator (patternOf (← word other)))

/-- Puts in for words that are nested to some depth. -/
def glyphs (output : Script → Run Chars) : Nat → Word → Run (List Glyph)
  | 0, _ => Run.fail
  | depth + 1, word => return (← word.mapM (partGlyphs output (glyphs output depth))).flatten

def glyphsOf (output : Script → Run Chars) (word : Word) : Run (List Glyph) :=
  glyphs output 100 word

def textOf (output : Script → Run Chars) (word : Word) : Run Chars :=
  return Glyph.text (← glyphsOf output word)

def fieldsOf (output : Script → Run Chars) (words : List Word) : Run (List Chars) := do
  let fields ← words.mapM fun word => do
    let fields := split (← Run.separators) (← glyphsOf output word)
    let s ← get
    return if s.options.contains 'f' then fields.map Glyph.text
      else fields.flatMap (expandPattern s.files)
  return fields.flatten

end Idl.Shell
