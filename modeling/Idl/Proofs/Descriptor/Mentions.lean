import Idl.Descriptor.Describe
import Idl.Proofs.Schema.Tree

/-!
# What the descriptor of a message depends on

The descriptor of a message holds a copy for each field that is bound to a message, its own fields
and those of the messages nested in it.  It depends on nothing else of the arena: where two ways of
copying agree on the messages that are mentioned, they lead to one descriptor.
-/

namespace Idl

variable {field : Field} {m : Message} {ref : MessageRef}

/-- The message that a type name is bound to, if it is bound to a message. -/
def TypeName.message? (type : TypeName) : Option MessageRef :=
  match type.target with
  | some (.message ref) => some ref
  | _ => none

/-- The message that the type of a field is bound to. -/
def Field.message? (field : Field) : Option MessageRef := field.type.custom?.bind (·.message?)

/-! ## Fields -/

/-- The descriptor of a field without the copy in it. -/
def FieldDesc.withoutCopy (desc : FieldDesc) : FieldDesc :=
  { desc with type := { desc.type with message := none } }

section Fields

variable {copy copy' : MessageRef → Option MessageDesc}

theorem TypeName.embed_eq (copy : MessageRef → Option MessageDesc) (type : TypeName) :
    type.embed copy = type.message?.bind copy := by
  unfold embed message?
  cases type.target with
  | none => rfl
  | some target => cases target <;> rfl

theorem FieldType.describe_eq (copy : MessageRef → Option MessageDesc) (type : FieldType) :
    type.describe copy = { type.describe (fun _ => none) with
      message := (type.custom?.bind (·.message?)).bind copy } := by
  cases type with
  | single element | list element | map key element =>
    cases element <;> simp [describe, custom?, elem, ElemType.custom?, TypeName.embed_eq]

/-- A field holds the copy of the message that it is bound to, and no copy if there is none. -/
theorem Field.message_describe (copy : MessageRef → Option MessageDesc) (field : Field) :
    (field.describe copy).type.message = field.message?.bind copy := by
  simp only [describe, FieldType.describe_eq copy]
  rfl

theorem Field.withoutCopy_describe (copy : MessageRef → Option MessageDesc) (field : Field) :
    (field.describe copy).withoutCopy = field.describe fun _ => none := by
  have hnone : (field.describe fun _ => none).type.message = none := by
    rw [message_describe]
    cases field.message? <;> rfl
  simp only [FieldDesc.withoutCopy, describe, FieldType.describe_eq copy] at hnone ⊢
  generalize (field.type.describe fun _ => none) = plain at hnone ⊢
  obtain ⟨kind, key, value, keyBase, valueBase, isCustom, message⟩ := plain
  obtain rfl : message = none := hnone
  rfl

theorem Field.describe_congr (h : ∀ ref, field.message? = some ref → copy ref = copy' ref) :
    field.describe copy = field.describe copy' := by
  have hcopy : field.message?.bind copy = field.message?.bind copy' := by
    cases hmessage : field.message? with
    | none => rfl
    | some ref => exact h ref hmessage
  unfold Field.message? at hcopy
  simp only [describe, FieldType.describe_eq copy, FieldType.describe_eq copy', hcopy]

end Fields

/-! ## Messages -/

namespace Message

mutual

/-- The messages that the fields of a message, or of messages nested in it, are bound to. -/
def mentions : Message → List MessageRef
  | ⟨_, _, fields, messages, _, _⟩ => fields.filterMap (·.message?) ++ mentionsAll messages

def mentionsAll : List Message → List MessageRef
  | [] => []
  | message :: messages => message.mentions ++ mentionsAll messages

end

theorem mentionsAll_eq (messages : List Message) :
    mentionsAll messages = messages.flatMap (·.mentions) := by
  induction messages with
  | nil => rfl
  | cons message messages ih => rw [mentionsAll, ih, List.flatMap_cons]

theorem mem_mentions_iff :
    ref ∈ m.mentions ↔
      (∃ field ∈ m.fields, field.message? = some ref) ∨ ∃ sub ∈ m.messages, ref ∈ sub.mentions := by
  obtain ⟨name, doc, fields, messages, enums, options⟩ := m
  simp [mentions, mentionsAll_eq]

variable {copy copy' : MessageRef → Option MessageDesc}

theorem describeAll_eq_map (copy : MessageRef → Option MessageDesc) (messages : List Message) :
    describeAll copy messages = messages.map (·.describe copy) := by
  induction messages with
  | nil => rfl
  | cons message messages ih => rw [describeAll, ih, List.map_cons]

theorem describe_eq (copy : MessageRef → Option MessageDesc) (m : Message) :
    m.describe copy =
      { name := m.name.value
        doc := m.doc.describe
        options := OptionDecl.describeAll m.options
        fields := m.fields.map (·.describe copy)
        messages := m.messages.map (·.describe copy)
        enums := m.enums.map (·.describe) } := by
  obtain ⟨name, doc, fields, messages, enums, options⟩ := m
  rw [describe, describeAll_eq_map]

@[simp] theorem name_describe (copy : MessageRef → Option MessageDesc) (m : Message) :
    (m.describe copy).name = m.name.value := by
  rw [describe_eq]

@[simp] theorem getElem?_fields_describe
    (copy : MessageRef → Option MessageDesc) (m : Message) (i : Nat) :
    (m.describe copy).fields[i]? = m.fields[i]?.map (·.describe copy) := by
  rw [describe_eq, List.getElem?_map]

@[simp] theorem getElem?_messages_describe
    (copy : MessageRef → Option MessageDesc) (m : Message) (i : Nat) :
    (m.describe copy).messages[i]? = m.messages[i]?.map (·.describe copy) := by
  rw [describe_eq, List.getElem?_map]

/-- A field that is bound to a message is described with the copy of that message. -/
theorem message_of_getElem?_fields
    {i : Nat} {fieldDesc : FieldDesc} (hfield : m.fields[i]? = some field)
    (hdesc : (m.describe copy).fields[i]? = some fieldDesc) (href : field.message? = some ref) :
    fieldDesc.type.message = copy ref := by
  rw [getElem?_fields_describe, hfield] at hdesc
  cases hdesc
  rw [Field.message_describe, href, Option.bind_some]

mutual

/-- The descriptor of a message depends only on copies of what is mentioned in it. -/
theorem describe_congr : ∀ m : Message, (∀ ref ∈ m.mentions, copy ref = copy' ref) →
    m.describe copy = m.describe copy'
  | ⟨name, doc, fields, messages, enums, options⟩, h => by
    have hfields : fields.map (·.describe copy) = fields.map (·.describe copy') := by
      refine List.map_congr_left fun field hfield => Field.describe_congr fun ref href => ?_
      exact h ref (mem_mentions_iff.2 (Or.inl ⟨field, hfield, href⟩))
    have hmessages := describeAll_congr messages fun ref href => by
      apply h ref
      rw [mentions]
      exact List.mem_append_right _ href
    rw [describe, describe, hfields, hmessages]

theorem describeAll_congr : ∀ messages : List Message,
    (∀ ref ∈ mentionsAll messages, copy ref = copy' ref) →
    describeAll copy messages = describeAll copy' messages
  | [], _ => rfl
  | message :: messages, h => by
    rw [mentionsAll] at h
    have hfirst := describe_congr message fun ref href => h ref (List.mem_append_left _ href)
    have hrest := describeAll_congr messages fun ref href => h ref (List.mem_append_right _ href)
    rw [describeAll, describeAll, hfirst, hrest]

end

end Message

end Idl
