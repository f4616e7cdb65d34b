import Idl.Schema.Documented
import Idl.Source.Lines
import Idl.Token

/-!
# Comments

A declaration takes the comment that ends its line, and the comments that stand alone on the lines
directly above it.  Declarations take comments in the order of the source, and a comment that is
taken is not there for the next.
-/

namespace Idl

structure Comment where
  start : Nat
  line : Nat
  text : String
  /-- Nothing but blanks stands before it on its line. -/
  ownLine : Bool
deriving DecidableEq, Repr

namespace Comment

/-- The comments among some tokens, where `code` tells whether the line has had another token. -/
def collect (index : LineIndex) (code : Bool) : List (Located Token) → List Comment
  | [] => []
  | ⟨.newline, _⟩ :: tokens => collect index false tokens
  | ⟨.blank, _⟩ :: tokens => collect index code tokens
  | ⟨.comment text, span⟩ :: tokens =>
    ⟨span.start, index.line span.start, text, !code⟩ :: collect index code tokens
  | _ :: tokens => collect index true tokens

/-- The comment that ends the line of a declaration, which starts at an offset on that line. -/
def tailAt? (comments : List Comment) (line offset : Nat) : Option Comment :=
  comments.find? fun c => c.line == line && !c.ownLine && decide (offset < c.start)

def above (comments : List Comment) : Nat → List Comment
  | 0 => []
  | line + 1 =>
    match comments.find? fun c => c.line == line && c.ownLine with
    | some c => above comments line ++ [c]
    | none => []

def docAt (comments : List Comment) (index : LineIndex) (offset : Nat) : Doc × List Comment :=
  let line := index.line offset
  let tail := tailAt? comments line offset
  let lines := above comments line
  (⟨lines.map (·.text), tail.map (·.text)⟩,
    comments.filter fun c => !(tail.toList ++ lines).contains c)

/-- Serves declarations in the given order; each is named by its rank and its offset. -/
def distribute (index : LineIndex) : List Comment → List (Nat × Nat) → List (Nat × Doc)
  | _, [] => []
  | comments, (rank, offset) :: rest =>
    let (doc, comments) := docAt comments index offset
    (rank, doc) :: distribute index comments rest

end Comment

def Schema.attachComments (schema : Schema) (source : String) (tokens : List (Located Token)) :
    Schema :=
  let index := LineIndex.ofText source
  let comments := Comment.collect index false tokens
  let places := schema.documentedAt.zipIdx.map fun (span, rank) => (rank, span.start)
  let served := Comment.distribute index comments (places.mergeSort (·.2 ≤ ·.2))
  schema.withDocs ((served.mergeSort (·.1 ≤ ·.1)).map (·.2))

end Idl
