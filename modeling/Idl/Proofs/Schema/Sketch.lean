import Idl.Grammar.Parts
import Idl.Proofs.Schema.Tree

/-!
# Redrawn declarations

A declaration is compared with another by leaving out what does not matter: places and comments
mostly, and of options, fields and enums what the comparison is not about.  How the parts are
redrawn is said once, and nested messages follow.  Schemas whose messages are redrawn alike have
like declarations at each path.
-/

namespace Idl

open List

/-- The value alone, at no place. -/
def Located.unplaced {α : Type} (x : Located α) : Located α := ⟨x.value, default⟩

/-- How the parts of a message are redrawn, at no place and without comments if nothing else is
said. -/
structure Redraw where
  options : List OptionDecl → List OptionDecl
  field : Field → Field
  enum : EnumDef → EnumDef
  name : Located String → Located String := Located.unplaced
  doc : Doc → Doc := fun _ => .none

namespace Redraw

/-- One after the other. -/
def andThen (first second : Redraw) : Redraw where
  options := second.options ∘ first.options
  field := second.field ∘ first.field
  enum := second.enum ∘ first.enum
  name := second.name ∘ first.name
  doc := second.doc ∘ first.doc

/-- Messages and enums have the names that they had. -/
structure KeepsNames (how : Redraw) : Prop where
  name (name : Located String) : (how.name name).value = name.value
  enum (enum : EnumDef) : (how.enum enum).name.value = enum.name.value

end Redraw

namespace Message

mutual

def redraw (how : Redraw) : Message → Message
  | ⟨name, doc, fields, messages, enums, options⟩ =>
    ⟨how.name name, how.doc doc, fields.map how.field, redrawAll how messages, enums.map how.enum,
      how.options options⟩

def redrawAll (how : Redraw) : List Message → List Message
  | [] => []
  | message :: messages => message.redraw how :: redrawAll how messages

end

theorem redrawAll_eq_map (how : Redraw) (messages : List Message) :
    redrawAll how messages = messages.map (·.redraw how) := by
  induction messages with
  | nil => rfl
  | cons message messages ih => rw [redrawAll, map_cons, ih]

theorem redraw_eq (how : Redraw) (m : Message) :
    m.redraw how =
      { name := how.name m.name
        doc := how.doc m.doc
        fields := m.fields.map how.field
        messages := m.messages.map (·.redraw how)
        enums := m.enums.map how.enum
        options := how.options m.options } := by
  obtain ⟨name, doc, fields, messages, enums, options⟩ := m
  rw [redraw, redrawAll_eq_map]

theorem redraw_redraw (first second : Redraw) (m : Message) :
    (m.redraw first).redraw second = m.redraw (first.andThen second) := by
  induction m using induction_nested with
  | h m ih =>
    have hmessages : (m.messages.map (·.redraw first)).map (·.redraw second) =
        m.messages.map (·.redraw (first.andThen second)) := by
      rw [map_map]
      exact map_congr_left ih
    rw [redraw_eq first, redraw_eq second, redraw_eq (first.andThen second)]
    simp only [hmessages, map_map]
    rfl

theorem map_redraw_andThen
    {first first' : Redraw} {messages messages' : List Message} (second : Redraw)
    (h : messages.map (·.redraw first) = messages'.map (·.redraw first')) :
    messages.map (·.redraw (first.andThen second)) =
      messages'.map (·.redraw (first'.andThen second)) := by
  have hmap := congrArg (List.map (·.redraw second)) h
  simpa only [map_map, Function.comp_def, redraw_redraw] using hmap

end Message

/-! ## Statements -/

namespace MessageStatement

def redraw (how : Redraw) : MessageStatement → MessageStatement
  | field f => field (how.field f)
  | option o => option o
  | message m => message (m.redraw how)
  | enum e => enum (how.enum e)

end MessageStatement

namespace Message

/-- The statements of the message, options apart: enums, messages, fields. -/
def statements (m : Message) : List MessageStatement :=
  m.enums.map .enum ++ m.messages.map .message ++ m.fields.map .field

/-- A message without options is redrawn statement by statement. -/
theorem redraw_eq_ofStatements
    {how : Redraw} {m : Message} (hdoc : how.doc m.doc = .none)
    (hoptions : how.options m.options = []) :
    m.redraw how = ofStatements (how.name m.name) (m.statements.map (·.redraw how)) := by
  have hnone : ∀ {α β : Type} (xs : List α), xs.filterMap (fun _ => (none : Option β)) = [] :=
    fun xs => filterMap_eq_nil_iff.2 fun _ _ => rfl
  rw [redraw_eq, hdoc, hoptions]
  simp [ofStatements, statements, filterMap_append, filterMap_map, Function.comp_def,
    hnone, MessageStatement.redraw, MessageStatement.field?, MessageStatement.message?,
    MessageStatement.enum?, MessageStatement.option?]

end Message

/-! ## Declarations at a path -/

namespace Message

theorem descend_redraw (how : Redraw) (m : Message) (path : List Nat) :
    (m.redraw how).descend path = (m.descend path).map (·.redraw how) := by
  induction path generalizing m with
  | nil => rfl
  | cons i path ih =>
    rw [descend_cons, descend_cons, redraw_eq]
    simp only [getElem?_map]
    cases m.messages[i]? with
    | none => rfl
    | some sub => exact ih sub

theorem name_redraw (how : Redraw) (m : Message) : (m.redraw how).name = how.name m.name := by
  rw [redraw_eq]

end Message

namespace Schema

/-- A field, by the path of its message and its index there. -/
def field? (schema : Schema) (path : MessagePath) (index : Nat) : Option Field :=
  (schema.message? path).bind (·.fields[index]?)

variable {how how' : Redraw} {schema schema' : Schema}

theorem message?_of_redraw
    (h : schema'.messages.map (·.redraw how') = schema.messages.map (·.redraw how))
    (path : MessagePath) :
    (schema'.message? path).map (·.redraw how') = (schema.message? path).map (·.redraw how) := by
  have heq : ∀ (how : Redraw) (schema : Schema) (i : Nat) (rest : List Nat),
      (schema.message? (i :: rest)).map (·.redraw how) =
        (schema.messages.map (·.redraw how))[i]?.bind (·.descend rest) := by
    intro how schema i rest
    rw [message?, getElem?_map]
    cases schema.messages[i]? with
    | none => rfl
    | some m => exact (m.descend_redraw how rest).symm
  cases path with
  | nil => rfl
  | cons i rest => rw [heq, heq, h]

theorem enum?_of_redraw
    (henums : schema'.enums.map how'.enum = schema.enums.map how.enum)
    (h : schema'.messages.map (·.redraw how') = schema.messages.map (·.redraw how))
    (path : EnumPath) :
    (schema'.enum? path).map how'.enum = (schema.enum? path).map how.enum := by
  obtain ⟨owner, index⟩ := path
  cases owner with
  | none =>
    simp only [enum?]
    rw [← getElem?_map, ← getElem?_map, henums]
  | some owner =>
    have heq : ∀ (how : Redraw) (schema : Schema),
        ((schema.message? owner).bind (·.enums[index]?)).map how.enum =
          ((schema.message? owner).map (·.redraw how)).bind (·.enums[index]?) := by
      intro how schema
      cases schema.message? owner with
      | none => rfl
      | some m =>
        rw [Option.map_some, Option.bind_some, Option.bind_some, Message.redraw_eq,
          getElem?_map]
    simp only [enum?]
    rw [heq, heq, message?_of_redraw h]

theorem field?_of_redraw
    (h : schema'.messages.map (·.redraw how') = schema.messages.map (·.redraw how))
    (path : MessagePath) (index : Nat) :
    (schema'.field? path index).map how'.field = (schema.field? path index).map how.field := by
  have heq : ∀ (how : Redraw) (schema : Schema), (schema.field? path index).map how.field =
      ((schema.message? path).map (·.redraw how)).bind (·.fields[index]?) := by
    intro how schema
    unfold field?
    cases schema.message? path with
    | none => rfl
    | some m =>
      rw [Option.map_some, Option.bind_some, Option.bind_some, Message.redraw_eq, getElem?_map]
  rw [heq, heq, message?_of_redraw h]

end Schema

end Idl
