import Idl.Diagnostic
import Idl.Text.Blank
import Idl.Token

/-!
# From characters to tokens

The scanner cuts a text into pieces.  A piece is a token or a fault, never empty, and the pieces
side by side are the text again.  After a fault the scanner goes on one character beyond the place
where it noticed the fault, so that one run reports every lexical fault of the text.
-/

namespace Idl

def byteSize : List Char → Nat
  | [] => 0
  | c :: cs => c.utf8Size + byteSize cs

/-- A lexical fault; lengths and offsets count bytes from the start of the piece. -/
inductive LexFault
  | unterminatedString (length : Nat)
  | unexpectedCharacter
  | invalidEscape (offset : Nat)
  | integerOutOfRange (length : Nat)
deriving DecidableEq, Repr

def LexFault.diagnostic (start : Nat) : LexFault → Diagnostic
  | unterminatedString length =>
    .error .unterminatedString "unterminated string literal"
      (.between start (start + length)) Code.unterminatedString.description
      (some "add closing `\"` before the end of the line")
  | unexpectedCharacter =>
    .error .unexpectedCharacter "unexpected character"
      (.between start (start + 1)) Code.unexpectedCharacter.description none
  | invalidEscape offset =>
    .error .invalidEscape "invalid escape sequence"
      (.between (start + offset) (start + offset + 1)) Code.invalidEscape.description
      (some "valid escapes: `\\n`, `\\r`, `\\t`, `\\\\`, `\\'`, `\\\"`, `\\0`")
  | integerOutOfRange length =>
    .error .invalidInteger "integer literal out of range"
      (.between start (start + length)) Code.invalidInteger.description
      (some "integers must fit in a signed 64-bit value")

namespace Lexer

def isIdentStart (c : Char) : Bool := ('a' ≤ c && c ≤ 'z') || ('A' ≤ c && c ≤ 'Z') || c == '_'

def isIdentChar (c : Char) : Bool := isIdentStart c || Text.isDigit c

def escaped? (c : Char) : Option Char :=
  if c = 'n' then some '\n'
  else if c = 'r' then some '\r'
  else if c = 't' then some '\t'
  else if c = '0' then some '\x00'
  else if c = '\\' || c = '\'' || c = '"' then some c
  else none

inductive TextEnd
  | closed
  | cutShort
  | badEscape
deriving DecidableEq, Repr

/-- The inside of a string: the characters it stands for, the characters read, how it ends, and
what follows, beginning with the closing quote, the line end or the bad backslash. -/
structure TextBody where
  content : List Char
  read : List Char
  ending : TextEnd
  rest : List Char

def textBody : List Char → TextBody
  | [] => ⟨[], [], .cutShort, []⟩
  | '\\' :: c :: cs =>
    match escaped? c with
    | some e =>
      let body := textBody cs
      { body with content := e :: body.content, read := '\\' :: c :: body.read }
    | none => ⟨[], [], .badEscape, '\\' :: c :: cs⟩
  | c :: cs =>
    if c = '\\' then ⟨[], [], .badEscape, c :: cs⟩
    else if c = '"' then ⟨[], [], .closed, c :: cs⟩
    else if c = '\n' || c = '\r' then ⟨[], [], .cutShort, c :: cs⟩
    else
      let body := textBody cs
      { body with content := c :: body.content, read := c :: body.read }

theorem textBody_read_append_rest (cs : List Char) :
    (textBody cs).read ++ (textBody cs).rest = cs := by
  fun_induction textBody cs <;> simp_all +zetaDelta

theorem textBody_rest_of_closed (cs : List Char) (h : (textBody cs).ending = .closed) :
    ∃ rest, (textBody cs).rest = '"' :: rest := by
  fun_induction textBody cs <;> simp_all +zetaDelta

structure Numeral where
  read : List Char
  negative : Bool
  radix : Nat
  digits : List Char
  rest : List Char

def Numeral.value (n : Numeral) : Int := Text.signed n.negative (Text.ofDigits n.radix n.digits)

def unsignedNumeral (cs : List Char) : Numeral :=
  let decimal : Numeral :=
    ⟨cs.takeWhile Text.isDigit, false, 10, cs.takeWhile Text.isDigit, cs.dropWhile Text.isDigit⟩
  match cs with
  | '0' :: x :: h :: cs =>
    if (x = 'x' || x = 'X') && Text.isHexDigit h then
      let digits := (h :: cs).takeWhile Text.isHexDigit
      ⟨'0' :: x :: digits, false, 16, digits, (h :: cs).dropWhile Text.isHexDigit⟩
    else decimal
  | _ => decimal

def signedNumeral (cs : List Char) : Numeral :=
  match cs with
  | '+' :: cs =>
    let n := unsignedNumeral cs
    { n with read := '+' :: n.read }
  | '-' :: cs =>
    let n := unsignedNumeral cs
    { n with read := '-' :: n.read, negative := true }
  | cs => unsignedNumeral cs

/-- The numeral at the beginning of a text.  It has a digit, and neither an identifier character
nor a dot follows it. -/
def numeral? (cs : List Char) : Option Numeral :=
  let n := signedNumeral cs
  if n.digits.isEmpty then none
  else match n.rest with
    | c :: _ => if isIdentChar c || c = '.' then none else some n
    | [] => some n

theorem unsignedNumeral_read_append_rest (cs : List Char) :
    (unsignedNumeral cs).read ++ (unsignedNumeral cs).rest = cs := by
  unfold unsignedNumeral
  simp only
  split
  · split <;> simp [List.takeWhile_append_dropWhile]
  · simp [List.takeWhile_append_dropWhile]

theorem unsignedNumeral_read_ne_nil (cs : List Char) (h : (unsignedNumeral cs).digits ≠ []) :
    (unsignedNumeral cs).read ≠ [] := by
  unfold unsignedNumeral at h ⊢
  simp only at h ⊢
  split
  · split <;> simp_all
  · simp_all

theorem signedNumeral_read_append_rest (cs : List Char) :
    (signedNumeral cs).read ++ (signedNumeral cs).rest = cs := by
  unfold signedNumeral
  split <;> simp [unsignedNumeral_read_append_rest]

theorem numeral?_eq_some_signed {cs : List Char} {n : Numeral} (h : numeral? cs = some n) :
    n = signedNumeral cs ∧ n.digits ≠ [] := by
  unfold numeral? at h
  simp only at h
  split at h
  · simp at h
  · rename_i hd
    have hd : (signedNumeral cs).digits ≠ [] := by simpa using hd
    split at h
    · split at h
      · simp at h
      · obtain rfl := Option.some.inj h
        exact ⟨rfl, hd⟩
    · obtain rfl := Option.some.inj h
      exact ⟨rfl, hd⟩

theorem numeral?_eq_some {cs : List Char} {n : Numeral} (h : numeral? cs = some n) :
    n.read ++ n.rest = cs ∧ n.read ≠ [] := by
  obtain ⟨rfl, hd⟩ := numeral?_eq_some_signed h
  refine ⟨signedNumeral_read_append_rest cs, ?_⟩
  unfold signedNumeral at hd ⊢
  split
  · simp
  · simp
  · exact unsignedNumeral_read_ne_nil _ (by simp_all)

/-- What continues an identifier: identifier characters, and dots that a new segment follows. -/
def identTail : List Char → List Char × List Char
  | [] => ([], [])
  | [c] => if isIdentChar c then ([c], []) else ([], [c])
  | c :: d :: cs =>
    if isIdentChar c then
      let (read, rest) := identTail (d :: cs)
      (c :: read, rest)
    else if c = '.' && isIdentStart d then
      let (read, rest) := identTail cs
      (c :: d :: read, rest)
    else ([], c :: d :: cs)

theorem identTail_append (cs : List Char) : (identTail cs).1 ++ (identTail cs).2 = cs := by
  fun_induction identTail cs <;> simp_all

structure Cut (input : List Char) where
  outcome : Except LexFault Token
  text : List Char
  rest : List Char
  text_append_rest : text ++ rest = input
  text_ne_nil : text ≠ []

theorem Cut.rest_length_lt {input : List Char} (c : Cut input) : c.rest.length < input.length := by
  have hlength := congrArg List.length c.text_append_rest
  have hpos : 0 < c.text.length := List.length_pos_iff.2 c.text_ne_nil
  simp only [List.length_append] at hlength
  omega

/-- A fault noticed behind `read`; the character there belongs to the piece. -/
def faultAfter {input : List Char} (fault : LexFault) (read rest : List Char)
    (hinput : read ++ rest = input) (hread : read ≠ []) : Cut input where
  outcome := .error fault
  text := read ++ rest.take 1
  rest := rest.drop 1
  text_append_rest := by rw [List.append_assoc, List.take_append_drop, hinput]
  text_ne_nil := by simp [hread]

def cutText (c : Char) (cs : List Char) : Cut (c :: cs) :=
  let body := textBody cs
  have hbody : body.read ++ body.rest = cs := textBody_read_append_rest cs
  match h : body.ending with
  | .closed =>
    { outcome := .ok (.text (String.ofList body.content))
      text := c :: body.read ++ ['"']
      rest := body.rest.tail
      text_append_rest := by
        obtain ⟨rest, hrest⟩ := textBody_rest_of_closed cs h
        have hrest : body.rest = '"' :: rest := hrest
        rw [hrest] at hbody
        simp [hrest, ← hbody]
      text_ne_nil := by simp }
  | .cutShort =>
    { outcome := .error (.unterminatedString (1 + byteSize body.read))
      text := c :: body.read ++ body.rest.take 1
      rest := body.rest.drop 1
      text_append_rest := by
        rw [List.append_assoc, List.take_append_drop, List.cons_append, hbody]
      text_ne_nil := by simp }
  | .badEscape =>
    { outcome := .error (.invalidEscape (1 + byteSize body.read))
      text := c :: body.read ++ body.rest.take 2
      rest := body.rest.drop 2
      text_append_rest := by
        rw [List.append_assoc, List.take_append_drop, List.cons_append, hbody]
      text_ne_nil := by simp }

def cutRun (token : List Char → Token) (p : Char → Bool) (c : Char) (cs : List Char) :
    Cut (c :: cs) where
  outcome := .ok (token (c :: cs.takeWhile p))
  text := c :: cs.takeWhile p
  rest := cs.dropWhile p
  text_append_rest := by simp [List.takeWhile_append_dropWhile]
  text_ne_nil := by simp

def cutChar (outcome : Except LexFault Token) (c : Char) (cs : List Char) : Cut (c :: cs) where
  outcome := outcome
  text := [c]
  rest := cs
  text_append_rest := rfl
  text_ne_nil := by simp

/-- The text of a comment, without the carriage returns that end its line. -/
def commentText (cs : List Char) : String := String.ofList (Text.dropEndWhile (· == '\r') cs)

/-- Cuts the first piece off a text that is not empty.  A comment is tried first, then a string,
a numeral, an identifier, a mark, a line feed and blanks. -/
def cut (c : Char) (cs : List Char) : Cut (c :: cs) :=
  if c = '/' && cs.head? = some '/' then
    cutRun (fun text => .comment (commentText text)) (· != '\n') c cs
  else if c = '"' then cutText c cs
  else match h : numeral? (c :: cs) with
  | some n =>
    have hn := numeral?_eq_some h
    match Text.int64? n.value with
    | some value =>
      { outcome := .ok (.integer value)
        text := n.read
        rest := n.rest
        text_append_rest := hn.1
        text_ne_nil := hn.2 }
    | none => faultAfter (.integerOutOfRange (byteSize n.read)) n.read n.rest hn.1 hn.2
  | none =>
    if isIdentStart c then
      { outcome := .ok (.identifier (String.ofList (c :: (identTail cs).1)))
        text := c :: (identTail cs).1
        rest := (identTail cs).2
        text_append_rest := by simp [identTail_append]
        text_ne_nil := by simp }
    else match Punct.ofChar? c with
    | some mark => cutChar (.ok (.punct mark)) c cs
    | none =>
      if c = '\n' then cutChar (.ok .newline) c cs
      else if Text.isBlank c then
        cutRun (fun _ => .blank) (fun d => Text.isBlank d && d != '\n') c cs
      else cutChar (.error .unexpectedCharacter) c cs

structure Piece where
  outcome : Except LexFault Token
  text : List Char

def pieces (cs : List Char) : List Piece :=
  match cs with
  | [] => []
  | c :: cs =>
    let first := cut c cs
    ⟨first.outcome, first.text⟩ :: pieces first.rest
termination_by cs.length
decreasing_by
  exact first.rest_length_lt

def locate (start : Nat) : List Piece → List (Located (Except LexFault Token))
  | [] => []
  | p :: ps =>
    let stop := start + byteSize p.text
    ⟨p.outcome, .between start stop⟩ :: locate stop ps

/-- The tokens of a text, or a diagnostic for each of its lexical faults. -/
def tokenize (source : List Char) : Except (List Diagnostic) (List (Located Token)) :=
  let outcomes := locate 0 (pieces source)
  let faults := outcomes.filterMap fun o =>
    match o.value with
    | .error fault => some (fault.diagnostic o.span.start)
    | .ok _ => none
  if faults.isEmpty then
    .ok (outcomes.filterMap fun o =>
      match o.value with
      | .ok token => some ⟨token, o.span⟩
      | .error _ => none)
  else .error faults

end Lexer

end Idl
