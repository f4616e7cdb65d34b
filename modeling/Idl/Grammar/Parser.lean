import Idl.Diagnostic
import Idl.Dialect
import Idl.Schema.Type
import Idl.Token

/-!
# The parser monad

A parser reads a stream of tokens from the front.  It never goes back: what is to be read next is
decided by looking at a few tokens ahead.  Trivia stand anywhere among the tokens; whatever reads a
token or looks at it passes over those in front of it first.  A failure either is complete in itself
(a `Refusal`) or says what was expected at the tokens that were left, and where the declaration that
was being read began.
-/

namespace Idl

/-- A construct that is well formed token by token and yet not allowed. -/
inductive Refusal
  | missingPackage (dialect : Dialect) (span : Span)
  | invalidName (what : String) (name : Located String)
  | invalidOptionName (key : Located String)
  | invalidType (name : Located String)
  | tagOutOfRange (tag : Located Int64)
  | binaryMapKey (span : Span)
  | customMapKey (name : String) (span : Span)
  | containerMapValue (span : Span)
  | textEnumValue (name : String) (span : Span)
  | enumValueOptions (name : String) (span : Span)
  | nestedContainer (span : Span)
  | baseMethodMessage (role : String) (base : BaseType) (span : Span)
  | streamingMessage (span : Span)
  | baseRpcMessage (name : Located String)
  | unsupportedSyntax (version : Located String)
  | unknownFlag (flag : Located String)
deriving DecidableEq, Repr

def Refusal.diagnostic : Refusal → Diagnostic
  | missingPackage dialect span =>
    .error .missingPackage "missing package declaration" span "expected `package` here"
      (some (match dialect with
        | .native => "start the file with `package name`"
        | .protobuf => "add `package name;` after the syntax statement"))
  | invalidName what name =>
    .error .invalidIdentifier ("invalid " ++ what ++ " `" ++ name.value ++ "`") name.span
      "not a lowercase identifier"
      (some "names start with `a-z` and contain only `a-z`, `0-9` and `_`")
  | invalidOptionName key =>
    .error .invalidOptionName ("invalid option name `" ++ key.value ++ "`") key.span
      Code.invalidOptionName.description
      (some "option names are lowercase and contain a `.`, like `proto.gopkg`")
  | invalidType name =>
    .error .invalidFieldType ("invalid field type `" ++ name.value ++ "`") name.span
      Code.invalidFieldType.description
      (some "types are base types or lowercase `name` / `ref.name` references")
  | tagOutOfRange tag =>
    .error .tagOutOfRange ("field tag " ++ Text.showInt64 tag.value ++ " is out of range") tag.span
      "must be between 1 and 255" none
  | binaryMapKey span =>
    .error .invalidMapKey "map key can't set binary type" span Code.invalidMapKey.description none
  | customMapKey name span =>
    .error .invalidMapKey ("map key must be a base type, found `" ++ name ++ "`") span
      Code.invalidMapKey.description none
  | containerMapValue span =>
    .error .invalidMapValue "map value can't be a container" span Code.invalidMapValue.description
      (some "wrap the container in a message")
  | textEnumValue name span =>
    .error .invalidEnumValue ("enum value `" ++ name ++ "` must be an integer") span
      Code.invalidEnumValue.description
      (some ("enum values are numbers; " ++
        "leave the value out to count on from the previous one"))
  | enumValueOptions name span =>
    .error .invalidEnumValue ("options on enum value `" ++ name ++ "` are not supported") span
      Code.invalidEnumValue.description
      (some "move the option into the enum body as `option name = value;`")
  | nestedContainer span =>
    .error .nestedContainer "repeated field can't hold a container" span
      Code.nestedContainer.description (some "wrap the inner container in a message")
  | baseMethodMessage role base span =>
    .error .invalidMethodMessage
      ("method " ++ role ++ " must be a custom message type, found `" ++ base.name ++ "`") span
      Code.invalidMethodMessage.description none
  | streamingMessage span =>
    .error .invalidMethodMessage "streaming rpc is not supported" span
      Code.invalidMethodMessage.description none
  | baseRpcMessage name =>
    .error .invalidMethodMessage
      ("rpc message must be a message type, found `" ++ name.value ++ "`") name.span
      Code.invalidMethodMessage.description none
  | unsupportedSyntax version =>
    .error .unsupportedSyntax ("unsupported syntax `" ++ version.value ++ "`") version.span
      Code.unsupportedSyntax.description (some "use \"proto3\" or \"proto2\"")
  | unknownFlag flag =>
    .error .unexpectedToken ("unknown service flag `" ++ flag.value ++ "`") flag.span
      "unknown flag" (some "use `call:` or `notify:`")

/-- What a parser reads from. -/
class TokenStream (σ : Type) where
  /-- Passes over the trivia in front. -/
  skip : σ → σ
  /-- The token in front, trivia or not, and what is behind it. -/
  next? : σ → Option (Located Token × σ)
  /-- How many tokens that are no trivia are left. -/
  remaining : σ → Nat

/-- The tokens of a text, with the trivia among them. -/
structure Tokens where
  list : List (Located Token)
deriving DecidableEq, Repr

instance : TokenStream Tokens where
  skip tokens := ⟨tokens.list.dropWhile (·.value.isTrivia)⟩
  next? tokens := match tokens.list with
    | [] => none
    | t :: rest => some (t, ⟨rest⟩)
  remaining tokens := (significant tokens.list).length

inductive Fault (σ : Type)
  | refused (reason : Refusal)
  /-- `what` was expected at the tokens `stop`; the innermost declaration that was being read
  begins at the tokens `start`. -/
  | expected (what : String) (stop : σ) (start : Option σ)
deriving DecidableEq, Repr

/-- The first token of a declaration that is not the token where its reading stopped. -/
def Tokens.begun? (start stop : Tokens) : Option (Located Token) :=
  (start.list.take (start.list.length - stop.list.length)).find? (!·.value.isTrivia)

def Fault.diagnostic (tokens : Tokens) : Fault Tokens → Diagnostic
  | refused reason => reason.diagnostic
  | expected what stop start =>
    match stop.list.find? (!·.value.isTrivia) with
    | none =>
      let stop := match (significant tokens.list).getLast? with
        | some last => last.span.stop
        | none => 0
      .error .incompleteInput ("unexpected end of input, expected " ++ what) (.point stop)
        "input ends here" (some "the declaration is incomplete")
    | some found =>
      let report := Diagnostic.error .unexpectedToken
        ("expected " ++ what ++ ", found " ++ found.value.describe) found.span "unexpected token"
        (some "check syntax and token positioning")
      match start.bind (·.begun? stop) with
      | some first =>
        { report with labels := report.labels ++ [⟨first.span, "while parsing this", false⟩] }
      | none => report

abbrev Parser (σ : Type) := StateT σ (Except (Fault σ))

namespace Parser

open TokenStream

variable {σ : Type} [TokenStream σ] {α β : Type}

def refuse (reason : Refusal) : Parser σ α := fun _ => .error (.refused reason)

/-- Stops because `what` is not there, and begins there too. -/
def expected (what : String) : Parser σ α := fun tokens =>
  .error (.expected what tokens (some tokens))

/-- Remembers where `p` began, unless a part of `p` has remembered its own beginning. -/
def commit (p : Parser σ α) : Parser σ α := fun tokens =>
  match p tokens with
  | .error (.expected what stop none) => .error (.expected what stop (some tokens))
  | result => result

/-- The next tokens that are no trivia, at most so many of them. -/
def lookahead : Nat → σ → List (Located Token)
  | 0, _ => []
  | n + 1, tokens =>
    match next? (skip tokens) with
    | none => []
    | some (t, rest) => t :: lookahead n rest

def peek? : Parser σ (Option Token) := fun tokens =>
  .ok ((lookahead 1 tokens).head?.map (·.value), tokens)

def peekMany (n : Nat) : Parser σ (List Token) := fun tokens =>
  .ok ((lookahead n tokens).map (·.value), tokens)

/-- The range of the next token, empty at the start of the text when no token is left. -/
def nextSpan : Parser σ Span := fun tokens =>
  .ok (((lookahead 1 tokens).head?.map (·.span)).getD default, tokens)

/-- Reads one token for which `accept` has a value; `what` names what is expected. -/
def token (what : String) (accept : Token → Option α) : Parser σ (Located α) := fun tokens =>
  let tokens := skip tokens
  match next? tokens with
  | none => .error (.expected what tokens none)
  | some (t, rest) =>
    match accept t.value with
    | some a => .ok (⟨a, t.span⟩, rest)
    | none => .error (.expected what tokens none)

def punct (mark : Punct) : Parser σ Span := do
  let found ← token mark.text fun t => if t = .punct mark then some () else none
  return found.span

def atPunct (mark : Punct) : Parser σ Bool := return (← peek?) == some (.punct mark)

def atWord (word : String) : Parser σ Bool := return (← peek?) == some (.identifier word)

def punct? (mark : Punct) : Parser σ (Option Span) := do
  if ← atPunct mark then some <$> punct mark else return none

def terminator : Parser σ Unit := discard (punct? .semicolon)

def identifier : Parser σ (Located String) :=
  token "identifier" fun
    | .identifier name => some name
    | _ => none

def word (text : String) : Parser σ Span := do
  let found ← token text fun t => if t = .identifier text then some () else none
  return found.span

def textLiteral : Parser σ (Located String) :=
  token "string literal" fun
    | .text value => some value
    | _ => none

def integer : Parser σ (Located Int64) :=
  token "integer" fun
    | .integer value => some value
    | _ => none

/-- Collects what `next` finds until it finds nothing more.  A `next` that finds something without
reading a token would do so forever, and ends the list. -/
def collect (next : Parser σ (Option α)) (tokens : σ) : Except (Fault σ) (List α × σ) :=
  match next tokens with
  | .error fault => .error fault
  | .ok (none, rest) => .ok ([], rest)
  | .ok (some a, rest) =>
    if remaining rest < remaining tokens then
      match collect next rest with
      | .error fault => .error fault
      | .ok (as, rest) => .ok (a :: as, rest)
    else .ok ([a], rest)
termination_by remaining tokens

/-- The parser that may use itself on what is left after at least one token was read. -/
def recursive (body : Parser σ α → Parser σ α) (tokens : σ) : Except (Fault σ) (α × σ) :=
  body
    (fun rest =>
      if remaining rest < remaining tokens then recursive body rest
      else .error (.expected "declaration" rest none))
    tokens
termination_by remaining tokens

def terminators : Parser σ Unit := discard (collect (punct? .semicolon))

def block (statement : Parser σ α) : Parser σ (List α) := do
  discard (punct .leftBrace)
  let statements ← collect do
    terminators
    if ← atPunct .rightBrace then return none else return some (← statement)
  discard (punct .rightBrace)
  return statements

def run (p : Parser Tokens α) (tokens : List (Located Token)) : Except Diagnostic α :=
  match p ⟨tokens⟩ with
  | .ok (a, _) => .ok a
  | .error fault => .error (fault.diagnostic ⟨tokens⟩)

end Parser

end Idl
