import Idl.Shell.Chars

/-!
# Scripts

The commands of a script, and how they are read.  What stands on one line is run before the next
line is read, so that a fault later on does not undo what was done.
-/

namespace Idl.Shell

mutual

/-- A part of a word.  What stands in quotes is neither split nor taken for a pattern. -/
inductive Part
  | text (quoted : Bool) (text : Chars)
  | parameter (quoted : Bool) (name : Chars) (use : Use)
  | output (quoted : Bool) (script : List Command)
  | value (quoted : Bool) (expression : List Part)

/-- What becomes of the value of a parameter. -/
inductive Use
  | plain
  | length
  | change (operator : String) (word : List Part)

inductive Redirection
  | file (descriptor : Nat) (operator : String) (word : List Part)
  | document (descriptor : Nat) (text : List Part)

inductive Command
  | simple (assignments : List (Chars × List Part)) (words : List (List Part))
      (redirections : List Redirection)
  | pipeline (negated : Bool) (commands : List Command)
  /-- The second is run if the status of the first is zero, or if it is not. -/
  | follow (ifZero : Bool) (first second : Command)
  | background (command : Command)
  | subshell (body : List Command)
  | group (body : List Command)
  | redirected (command : Command) (redirections : List Redirection)
  | choice (test yes no : List Command)
  | loop (wanted : Bool) (test body : List Command)
  | each (name : Chars) (words : List (List Part)) (body : List Command)
  | select (word : List Part) (branches : List (List (List Part) × List Command))
  | function (name : Chars) (body : Command)

end

abbrev Word := List Part

abbrev Script := List Command

structure Input where
  rest : Chars
  aliases : List (Chars × Chars)

abbrev Reader := StateT Input Option

/-- Where a word stands, which says where it ends and what in it has a meaning. -/
inductive Place
  | bare
  | quotes
  | braces (quoted : Bool)
  /-- All of a document or of an expression. -/
  | whole
deriving DecidableEq

def isNameChar (c : Char) : Bool := c.isAlphanum || c = '_'

def isName (text : Chars) : Bool :=
  text.all isNameChar && text.head?.elim false (!Text.isDigit ·)

def endsWord (c : Char) : Bool := isIn " \t\n;&|<>()" c

def mark? (marks : List String) (text : Chars) : Option String :=
  marks.find? (·.toList.isPrefixOf text)

namespace Reader

def rest : Reader Chars := return (← get).rest

def goOn (rest : Chars) : Reader Unit := modify fun input => { input with rest }

def taken (mark : String) : Reader Bool := do
  let text ← rest
  let found := mark.toList.isPrefixOf text
  if found then goOn (text.drop mark.length)
  return found

def within {α : Type} (text : Chars) (reader : Reader α) : Reader α := do
  let after ← rest
  goOn text
  let result ← reader
  goOn after
  return result

def collect {α : Type} (reader : Reader (Option α)) : Reader (List α) := do
  let rec loop : Nat → Reader (List α)
    | 0 => failure
    | fuel + 1 => do
      match ← reader with
      | some item => return item :: (← loop fuel)
      | none => return []
  loop ((← rest).length + 1000)

/-- Passes over blanks, joined lines and a comment. -/
def blanks : Reader Unit := do
  let rec pass : Chars → Chars
    | ' ' :: cs | '\t' :: cs | '\\' :: '\n' :: cs => pass cs
    | cs => cs
  let text := pass (← rest)
  goOn (if text.head? = some '#' then text.dropWhile (· ≠ '\n') else text)

def lineEnds : Reader Unit := discard <| collect do
  blanks
  return if ← taken "\n" then some () else none

def atWordEnd : Reader Bool := return (← rest).head?.elim true endsWord

def peekWord : Reader String := do
  blanks
  return String.ofList ((← rest).takeWhile (!endsWord ·))

def keyword (word : String) : Reader Bool := do
  if (← peekWord) = word then taken word else return false

def require (mark : String) : Reader Unit := do
  blanks
  unless ← taken mark do failure

/-- At the end of a list of commands, or of a line. -/
def atEnd : Reader Bool := do
  let word ← peekWord
  let text ← rest
  return text.isEmpty || (mark? ["\n", ")", ";;"] text).isSome ||
    ["then", "else", "elif", "fi", "do", "done", "esac", "\x7d"].contains word

end Reader

open Reader

/-- The text up to the closing backquote, and what follows it. -/
def backquoted (quoted : Bool) : Chars → Option (Chars × Chars)
  | [] => none
  | '\x60' :: cs => some ([], cs)
  | '\\' :: c :: cs =>
    let own := if isIn "\x60$\\" c || (c = '"' && quoted) then [c] else ['\\', c]
    (backquoted quoted cs).map (·.map (own ++ ·) id)
  | c :: cs => (backquoted quoted cs).map (·.map (c :: ·) id)

/-- The text of an expression up to two closing parentheses, and what follows them. -/
def expressionText (depth : Nat) : Chars → Option (Chars × Chars)
  | [] => none
  | c :: cs =>
    if depth = 0 && c = ')' && cs.head? = some ')' then some ([], cs.tail)
    else
      let depth := if c = '(' then depth + 1 else if c = ')' then depth - 1 else depth
      (expressionText depth cs).map (·.map (c :: ·) id)

/-- The lines of a document up to its mark, and what follows them. -/
def document (strip : Bool) (mark : Chars) : List Chars → Chars × List Chars
  | [] => ([], [])
  | line :: lines =>
    let line := if strip then line.dropWhile (· = '\t') else line
    if line = mark then ([], lines)
    else (document strip mark lines).map (line ++ (if lines.isEmpty then [] else ['\n']) ++ ·) id

def joinTexts (word : Word) : Word :=
  word.foldr (fun part rest => match part, rest with
    | .text false a, .text false b :: rest => .text false (a ++ b) :: rest
    | part, rest => part :: rest) []

def parameterName (braced : Bool) : Chars → Chars
  | [] => []
  | c :: cs =>
    if Text.isDigit c then c :: (if braced then cs.takeWhile Text.isDigit else [])
    else if isIn "@*#?-$!" c then [c] else (c :: cs).takeWhile isNameChar

def assignment? : Word → Option (Chars × Word)
  | .text false text :: rest =>
    let name := text.takeWhile (· ≠ '=')
    if isName name && name.length < text.length then
      some (name, .text false (text.drop (name.length + 1)) :: rest)
    else none
  | _ => none

/-- The readers that the others are made of. -/
structure Readers where
  word : Place → Reader Word
  script : Reader Script
  command : Reader Command

namespace Readers

variable (r : Readers)

def braced (quoted : Bool) : Reader Part := do
  let text ← rest
  let measured := text.head? = some '#' && text.tail.head?.elim false (!isIn "\x7d-+=?:%#" ·)
  let text := if measured then text.tail else text
  let name := parameterName true text
  let text := text.drop name.length
  let operators := ["%%", "##", "%", "#", ":-", ":=", ":?", ":+", "-", "=", "?", "+"]
  let operator := (mark? operators text).getD ""
  goOn (text.drop operator.length)
  let word ← r.word (.braces (quoted && !operator.toList.all (isIn "%#")))
  require "\x7d"
  if name.isEmpty then failure
  return .parameter quoted name
    (if measured then .length else if operator.isEmpty then .plain else .change operator word)

/-- What stands behind a dollar sign. -/
def dollar (quoted : Bool) : Reader Part := do
  let text ← rest
  if ← taken "((" then
    let (own, after) ← expressionText 0 (text.drop 2)
    goOn after
    return .value quoted (← within own (r.word .whole))
  else if ← taken "(" then
    let script ← r.script
    require ")"
    return .output quoted script
  else if ← taken "\x7b" then r.braced quoted
  else
    let name := parameterName false text
    goOn (text.drop name.length)
    return if name.isEmpty then .text quoted ['$'] else .parameter quoted name .plain

def parts (place : Place) : Reader (Option Word) := do
  let quoted := place ≠ .bare && place ≠ .braces false
  let inBraces := place = .braces true || place = .braces false
  match ← rest with
  | [] => if place = .bare || place = .whole then return none else failure
  | c :: cs =>
    if place = .bare && endsWord c || place = .quotes && c = '"' || inBraces && c = '\x7d' then
      return none
    goOn cs
    if c = '\\' then
      match cs with
      | [] => return some [.text true ['\\']]
      | d :: cs =>
        let meant := !quoted || isIn "\x60$\\\n" d || d = '"' && place ≠ .whole ||
          d = '\x7d' && inBraces
        if meant then goOn cs
        return some (if d = '\n' then [] else [.text true [if meant then d else '\\']])
    else if c = '\'' && !quoted then
      let own := cs.takeWhile (· ≠ '\'')
      if own.length = cs.length then failure
      goOn (cs.drop (own.length + 1))
      return some [.text true own]
    else if c = '"' && place ≠ .whole then
      let own ← r.word .quotes
      require "\""
      return some (match own with
        | [.parameter _ ['@'] .plain] => own
        | _ => .text true [] :: own)
    else if c = '\x60' then
      let (own, after) ← backquoted quoted cs
      goOn after
      return some [.output quoted (← within own r.script)]
    else if c = '$' then return some [← r.dollar quoted]
    else return some [.text quoted [c]]

def argument? : Reader (Option Word) := do
  blanks
  if ← atWordEnd then return none else return some (← r.word .bare)

def argument : Reader Word := do
  let some word ← r.argument? | failure
  return word

def redirection : Reader (Option Redirection) := do
  blanks
  let text ← rest
  let number := (text.take 1).takeWhile Text.isDigit
  let text := text.drop number.length
  let some operator := mark? ["<<-", "<<", "<&", "<>", "<", ">>", ">&", ">|", ">"] text
    | return none
  goOn (text.drop operator.length)
  let descriptor := if !number.isEmpty then Text.ofDigits 10 number
    else if text.head? = some '<' then 0 else 1
  let word ← r.argument
  if operator ≠ "<<" && operator ≠ "<<-" then return some (.file descriptor operator word)
  -- The lines of the document are below the line that asks for it, which is still to be read.
  let line := (← rest).takeWhile (· ≠ '\n')
  let below := ((← rest).drop (line.length + 1)).splitOnP (· = '\n')
  let (mark, quoted) := word.foldr (fun part (mark, quoted) => match part with
    | .text own text => (text ++ mark, own || quoted)
    | _ => (mark, quoted)) (([] : Chars), false)
  let (own, after) := document (operator = "<<-") mark below
  goOn (line ++ '\n' :: ['\n'].intercalate after)
  return some (.document descriptor
    (← if quoted then pure [.text true own] else within own (r.word .whole)))

/-- Reads a simple command of which the words so far, last one first, are known. -/
def simple : Nat → List (Chars × Word) → List Word → List Redirection → Reader Command
  | 0, _, _, _ => failure
  | fuel + 1, assignments, words, redirections => do
    if let some own ← r.redirection then
      return ← simple fuel assignments words (redirections ++ [own])
    if ← atWordEnd then
      match words, ← taken "(" with
      | [[.text false name]], true =>
        require ")"
        lineEnds
        return .function name (← r.command)
      | _, true => failure
      | words, false =>
        if assignments.isEmpty && words.isEmpty && redirections.isEmpty then failure
        return .simple assignments words.reverse redirections
    let word ← r.word .bare
    let input ← get
    let name := match words, word with
      | [], [.text false text] => text
      | _, _ => []
    match input.aliases.lookup name, if words.isEmpty then assignment? word else none with
    | some meant, _ =>
      set (⟨meant ++ input.rest, input.aliases.filter (·.1 ≠ name)⟩ : Input)
      if assignments.isEmpty && redirections.isEmpty then r.command
      else simple fuel assignments [] redirections
    | none, some own => simple fuel (assignments ++ [own]) [] redirections
    | none, none => simple fuel assignments (word :: words) redirections

/-- A script that is not empty, up to a mark. -/
def upTo (mark : String) : Reader Script := do
  let script ← r.script
  require mark
  if script.isEmpty then failure else return script

def loopBody : Reader Script := do
  lineEnds
  require "do"
  r.upTo "done"

def choice : Reader Command := do
  let test ← r.upTo "then"
  let yes ← r.upTo ""
  if (← peekWord) = "elif" then
    goOn ((← rest).drop 2)
    return .choice test yes [← r.command]
  if ← keyword "else" then return .choice test yes (← r.upTo "fi")
  require "fi"
  return .choice test yes []

def branch : Reader (Option (List Word × Script)) := do
  lineEnds
  if ← keyword "esac" then return none
  discard (taken "(")
  let first ← r.argument
  let others ← collect do
    blanks
    if ← taken "|" then return some (← r.argument) else return none
  require ")"
  let script ← r.script
  -- What ends the last branch may be left for the next to find.
  unless (← taken ";;") || (← peekWord) = "esac" do failure
  return some (first :: others, script)

def compound : String → Reader Command
  | "if" => r.choice
  | "while" => do return .loop true (← r.upTo "") (← r.loopBody)
  | "until" => do return .loop false (← r.upTo "") (← r.loopBody)
  | "for" => do
    let name ← peekWord
    goOn ((← rest).drop name.length)
    lineEnds
    let words ← if ← keyword "in" then collect r.argument?
      else pure [[.parameter true ['@'] .plain]]
    blanks
    discard (taken ";")
    return .each name.toList words (← r.loopBody)
  | "case" => do
    let word ← r.argument
    lineEnds
    require "in"
    return .select word (← collect r.branch)
  | "(" => do return .subshell (← r.upTo ")")
  | _ => do return .group (← r.upTo "\x7d")

def anyCommand : Reader Command := do
  let word ← peekWord
  let start := if (← rest).head? = some '(' then "(" else word
  if ["if", "while", "until", "for", "case", "(", "\x7b"].contains start then
    goOn ((← rest).drop start.length)
    let command ← r.compound start
    let redirections ← collect r.redirection
    return if redirections.isEmpty then command else .redirected command redirections
  else r.simple 10000 [] [] []

def pipeline : Reader Command := do
  let negated ← keyword "!"
  let first ← r.anyCommand
  let others ← collect do
    blanks
    if (mark? ["||"] (← rest)).isSome then return none
    unless ← taken "|" do return none
    lineEnds
    return some (← r.anyCommand)
  return if others.isEmpty && !negated then first else .pipeline negated (first :: others)

def andOr : Reader Command := do
  let first ← r.pipeline
  let others ← collect do
    blanks
    let both ← taken "&&"
    unless both || (← taken "||") do return none
    lineEnds
    return some (both, ← r.pipeline)
  return others.foldl (fun before (both, command) => .follow both before command) first

/-- The commands up to the end of a line, or of the list they are in. -/
def line : Reader Script := collect do
  if ← atEnd then return none
  let command ← r.andOr
  if ← atEnd then return some command
  if ← taken "&" then return some (.background command)
  require ";"
  return some command

def lines : Reader Script := do
  let scripts ← collect do
    lineEnds
    if ← atEnd then return none else return some (← r.line)
  return scripts.flatten

/-- The readers for scripts that are nested to some depth. -/
def ofDepth : Nat → Readers
  | 0 => ⟨fun _ => failure, failure, failure⟩
  | depth + 1 =>
    let r := ofDepth depth
    ⟨fun place => do return joinTexts (← collect (r.parts place)).flatten, r.lines, r.anyCommand⟩

end Readers

/-- Reads the commands of the next line that has some. -/
def readLine : Reader (Option Script) := do
  lineEnds
  if (← rest).isEmpty then return none
  let script ← (Readers.ofDepth 200).line
  unless (← rest).head?.elim true (· = '\n') do failure
  return some script

end Idl.Shell
