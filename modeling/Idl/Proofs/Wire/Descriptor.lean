import Idl.Proofs.Wire.Reader
import Idl.Wire.Descriptor

/-!
# Descriptors survive the wire

The reader of each part of a descriptor accepts the bytes that are written for it, as long as no
table has two entries for one key.  Messages hold messages, as nested declarations and as copies in
their fields; the reader of a message accepts them all because the name that comes first leaves
fewer bytes to whatever is read inside.
-/

namespace Idl

open Wire Reader List

variable {limit : Nat}

/-- No key has two entries. -/
def Assoc.Keyed {κ α : Type} (table : Assoc κ α) : Prop := (table.map (·.1)).Nodup

/-! ## Parts without messages -/

/-- One of finitely many values is written as its index among them. -/
theorem accepts_idxOf
    {α : Type} [BEq α] [LawfulBEq α] {all : List α} {a : α} (ha : a ∈ all)
    (hall : all.length ≤ 2 ^ 32) :
    Accepts limit (.choice (all.map pure)) (writeIndex (all.idxOf a)) a := by
  have hlt : all.idxOf a < all.length := idxOf_lt_length_of_mem ha
  have hread : (all.map pure)[all.idxOf a]? = some (pure a : Reader α) := by
    rw [getElem?_map, getElem?_eq_getElem hlt, getElem_idxOf hlt]
    rfl
  have hchoice := accepts_choice (Nat.lt_of_lt_of_le hlt hall) hread
    (Accepts.pure a : Accepts limit _ _ _)
  rwa [append_nil] at hchoice

theorem BaseType.accepts (base : BaseType) : Accepts limit BaseType.read base.write base :=
  accepts_idxOf (by cases base <;> decide) (by decide)

theorem FieldKind.accepts (kind : FieldKind) : Accepts limit FieldKind.read kind.write kind :=
  accepts_idxOf (by cases kind <;> decide) (by decide)

theorem CallMode.accepts (mode : CallMode) : Accepts limit CallMode.read mode.write mode :=
  accepts_idxOf (by cases mode <;> decide) (by decide)

theorem DocDesc.accepts (doc : DocDesc) : Accepts limit DocDesc.read doc.write doc := by
  have hlines : Accepts limit (.list .text) (writeList writeText doc.lines) doc.lines :=
    accepts_list (fun line _ => writeText_ne_nil line) fun line _ => accepts_text line
  exact hlines.bind ((accepts_text doc.tail).bind_pure _)

theorem accepts_doc (doc : Option DocDesc) :
    Accepts limit (.option DocDesc.read) (writeOption DocDesc.write doc) doc :=
  accepts_option fun doc _ => doc.accepts

theorem OptionsDesc.accepts_value (value : Option OptionValue) :
    Accepts limit OptionsDesc.readValue (OptionsDesc.writeValue value) value := by
  rcases value with _ | value | value
  · have hnone : Accepts limit (pure none : Reader (Option OptionValue)) [] none :=
      Accepts.pure none
    exact accepts_choice (by decide) rfl hnone
  · exact accepts_choice (by decide) rfl ((accepts_int value).bind_pure _)
  · exact accepts_choice (by decide) rfl ((accepts_text value).bind_pure _)

theorem OptionsDesc.accepts {options : OptionsDesc} (hkeys : options.Keyed) :
    Accepts limit OptionsDesc.read (OptionsDesc.write options) options :=
  accepts_table hkeys fun entry _ => accepts_value entry.2

theorem PackageDesc.accepts
    (package : PackageDesc) : Accepts limit PackageDesc.read package.write package :=
  (accepts_text package.package).bind ((accepts_doc package.doc).bind_pure _)

theorem ImportDesc.accepts (item : ImportDesc) : Accepts limit ImportDesc.read item.write item := by
  rw [ImportDesc.write, append_assoc]
  exact (accepts_text item.localName).bind ((accepts_text item.file).bind
    ((accepts_doc item.doc).bind_pure _))

theorem EnumValueDesc.accepts
    (value : EnumValueDesc) : Accepts limit EnumValueDesc.read value.write value := by
  rw [EnumValueDesc.write, append_assoc]
  exact (accepts_text value.name).bind ((accepts_int value.number).bind
    ((accepts_doc value.doc).bind_pure _))

theorem append_ne_nil_of_text {name : String} {bytes : Bytes} : writeText name ++ bytes ≠ [] := by
  intro hnil
  exact writeText_ne_nil name (append_eq_nil_iff.1 hnil).1

theorem EnumDesc.accepts {enum : EnumDesc} (hkeys : enum.options.Keyed) :
    Accepts limit EnumDesc.read enum.write enum := by
  have hvalues : Accepts limit (.list EnumValueDesc.read)
      (writeList EnumValueDesc.write enum.values) enum.values := by
    refine accepts_list ?_ fun value _ => value.accepts
    intro value _
    rw [EnumValueDesc.write, append_assoc]
    exact append_ne_nil_of_text
  simp only [EnumDesc.write, append_assoc]
  exact (accepts_text enum.name).bind ((accepts_doc enum.doc).bind
    ((OptionsDesc.accepts hkeys).bind (hvalues.bind_pure _)))

theorem accepts_enums {enums : List EnumDesc} (hkeys : ∀ enum ∈ enums, enum.options.Keyed) :
    Accepts limit (.list EnumDesc.read) (writeList EnumDesc.write enums) enums := by
  refine accepts_list ?_ fun enum henum => EnumDesc.accepts (hkeys enum henum)
  intro enum _
  simp only [EnumDesc.write, append_assoc]
  exact append_ne_nil_of_text

/-! ## Messages -/

theorem writeFields_eq (fields : List FieldDesc) :
    writeFields fields = fields.flatMap (·.write) := by
  induction fields with
  | nil => rfl
  | cons field fields ih => rw [writeFields, ih, flatMap_cons]

theorem writeMessages_eq
    (messages : List MessageDesc) : writeMessages messages = messages.flatMap (·.write) := by
  induction messages with
  | nil => rfl
  | cons message messages ih => rw [writeMessages, ih, flatMap_cons]

theorem writeMessage?_eq
    (message : Option MessageDesc) :
    writeMessage? message = writeOption MessageDesc.write message := by
  cases message <;> rfl

theorem MessageDesc.write_eq (message : MessageDesc) :
    message.write = writeText message.name ++ (writeOption DocDesc.write message.doc ++
      (OptionsDesc.write message.options ++ (writeList FieldDesc.write message.fields ++
        (writeList MessageDesc.write message.messages ++
          writeList EnumDesc.write message.enums)))) := by
  obtain ⟨name, doc, options, fields, messages, enums⟩ := message
  rw [MessageDesc.write, writeFields_eq, writeMessages_eq]
  simp only [append_assoc, writeList]

theorem FieldDesc.write_eq (field : FieldDesc) :
    field.write = writeText field.name ++ (writeInt field.tag ++ (field.type.write ++
      (OptionsDesc.write field.options ++ writeOption DocDesc.write field.doc))) := by
  obtain ⟨name, tag, type, options, doc⟩ := field
  rw [FieldDesc.write]
  simp only [append_assoc]

theorem TypeDesc.write_eq (type : TypeDesc) :
    type.write = type.kind.write ++ (writeText type.key ++ (writeText type.value ++
      (writeOption BaseType.write type.keyBase ++ (writeOption BaseType.write type.valueBase ++
        (writeBool type.isCustom ++ writeOption MessageDesc.write type.message))))) := by
  obtain ⟨kind, key, value, keyBase, valueBase, isCustom, message⟩ := type
  rw [TypeDesc.write, writeMessage?_eq]
  simp only [append_assoc]

theorem MessageDesc.write_ne_nil (message : MessageDesc) : message.write ≠ [] := by
  rw [message.write_eq]
  exact append_ne_nil_of_text

theorem FieldDesc.write_ne_nil (field : FieldDesc) : field.write ≠ [] := by
  rw [field.write_eq]
  exact append_ne_nil_of_text

/-- The tables of the message, of its fields and enums, and of all messages inside it, have distinct
keys. -/
inductive MessageDesc.Keyed : MessageDesc → Prop
  | intro {message : MessageDesc}
      (options : message.options.Keyed)
      (fields : ∀ field ∈ message.fields, field.options.Keyed)
      (copies : ∀ field ∈ message.fields, ∀ copy ∈ field.type.message, MessageDesc.Keyed copy)
      (messages : ∀ inner ∈ message.messages, MessageDesc.Keyed inner)
      (enums : ∀ enum ∈ message.enums, enum.options.Keyed) : MessageDesc.Keyed message

section Inner

variable {inner : Reader MessageDesc}

theorem TypeDesc.accepts
    {type : TypeDesc} (hcopy : ∀ copy ∈ type.message, Accepts limit inner copy.write copy) :
    Accepts limit (TypeDesc.readWith inner) type.write type := by
  have hbase (base : Option BaseType) :
      Accepts limit (.option BaseType.read) (writeOption BaseType.write base) base :=
    accepts_option fun base _ => base.accepts
  rw [type.write_eq]
  obtain ⟨kind, key, value, keyBase, valueBase, isCustom, message⟩ := type
  exact kind.accepts.bind ((accepts_text key).bind ((accepts_text value).bind
    ((hbase keyBase).bind ((hbase valueBase).bind ((accepts_bool isCustom).bind
      ((accepts_option hcopy).bind_pure _))))))

theorem FieldDesc.accepts
    {field : FieldDesc} (hkeys : field.options.Keyed)
    (hcopy : ∀ copy ∈ field.type.message, Accepts limit inner copy.write copy) :
    Accepts limit (FieldDesc.readWith inner) field.write field := by
  rw [field.write_eq]
  obtain ⟨name, tag, type, options, doc⟩ := field
  exact (accepts_text name).bind ((accepts_int tag).bind
    ((TypeDesc.accepts hcopy).bind ((OptionsDesc.accepts hkeys).bind
      ((accepts_doc doc).bind_pure _))))

end Inner

theorem MessageDesc.Keyed.accepts {message : MessageDesc} (hkeys : message.Keyed) :
    Accepts limit MessageDesc.read message.write message := by
  -- the messages inside are accepted below any limit, so also where the inner reader stands in
  induction hkeys generalizing limit with
  | @intro message options fields _ _ enums hcopies hmessages =>
    refine accepts_recursive fun size inner hinner => ?_
    have hfields : Accepts size (.list (FieldDesc.readWith inner))
        (writeList FieldDesc.write message.fields) message.fields :=
      accepts_list (fun field _ => field.write_ne_nil) fun field hfield =>
        FieldDesc.accepts (fields field hfield) fun copy hcopy =>
          (hcopies field hfield copy hcopy).congr hinner
    have hinside : Accepts size (.list inner)
        (writeList MessageDesc.write message.messages) message.messages :=
      accepts_list (fun message _ => message.write_ne_nil) fun message hmessage =>
        (hmessages message hmessage).congr hinner
    have hname : 0 < (writeText message.name).length :=
      length_pos_of_ne_nil (writeText_ne_nil message.name)
    rw [message.write_eq]
    refine (accepts_text message.name).bind_of_le (?_ : Accepts size _ _ _) (by omega)
    obtain ⟨name, doc, _, _, _, _⟩ := message
    exact (accepts_doc doc).bind ((OptionsDesc.accepts options).bind
      (hfields.bind (hinside.bind ((accepts_enums enums).bind_pure _))))

/-! ## Services, projects and files -/

/-- The tables of the method and of its messages have distinct keys. -/
structure MethodDesc.Keyed (method : MethodDesc) : Prop where
  options : method.options.Keyed
  request : ∀ message ∈ method.request, message.Keyed
  reply : ∀ message ∈ method.reply, message.Keyed

structure ServiceDesc.Keyed (service : ServiceDesc) : Prop where
  options : service.options.Keyed
  methods : ∀ method ∈ service.methods, method.Keyed

structure ProjectDesc.Keyed (project : ProjectDesc) : Prop where
  areas : project.areas.Keyed
  options : ∀ area ∈ project.areas, area.2.Keyed

/-- No table in the descriptor has two entries for one key. -/
structure FileDesc.Keyed (file : FileDesc) : Prop where
  options : file.options.Keyed
  enums : ∀ enum ∈ file.enums, enum.options.Keyed
  messages : ∀ message ∈ file.messages, message.Keyed
  services : ∀ service ∈ file.services, service.Keyed
  projects : ∀ project ∈ file.projects, project.Keyed

theorem MethodDesc.Keyed.accepts {method : MethodDesc} (hkeys : method.Keyed) :
    Accepts limit MethodDesc.read method.write method := by
  have hid : Accepts limit (.option .int) (writeOption writeInt method.id) method.id :=
    accepts_option fun id _ => accepts_int id
  have hrequest : Accepts limit (.option MessageDesc.read)
      (writeOption MessageDesc.write method.request) method.request :=
    accepts_option fun message hmessage => (hkeys.request message hmessage).accepts
  have hreply : Accepts limit (.option MessageDesc.read)
      (writeOption MessageDesc.write method.reply) method.reply :=
    accepts_option fun message hmessage => (hkeys.reply message hmessage).accepts
  simp only [MethodDesc.write, append_assoc]
  exact (accepts_text method.name).bind ((accepts_doc method.doc).bind
    ((OptionsDesc.accepts hkeys.options).bind (hid.bind (method.mode.accepts.bind
      (hrequest.bind (hreply.bind_pure _))))))

theorem ServiceDesc.Keyed.accepts {service : ServiceDesc} (hkeys : service.Keyed) :
    Accepts limit ServiceDesc.read service.write service := by
  have hmethods : Accepts limit (.list MethodDesc.read)
      (writeList MethodDesc.write service.methods) service.methods := by
    refine accepts_list ?_ fun method hmethod => (hkeys.methods method hmethod).accepts
    intro method _
    simp only [MethodDesc.write, append_assoc]
    exact append_ne_nil_of_text
  simp only [ServiceDesc.write, append_assoc]
  exact (accepts_text service.name).bind ((accepts_doc service.doc).bind
    ((OptionsDesc.accepts hkeys.options).bind (hmethods.bind_pure _)))

theorem ProjectDesc.Keyed.accepts {project : ProjectDesc} (hkeys : project.Keyed) :
    Accepts limit ProjectDesc.read project.write project := by
  have hareas : Accepts limit (.table OptionsDesc.read)
      (writeTable OptionsDesc.write project.areas) project.areas :=
    accepts_table hkeys.areas fun area harea => OptionsDesc.accepts (hkeys.options area harea)
  simp only [ProjectDesc.write, append_assoc]
  exact (accepts_text project.name).bind ((accepts_doc project.doc).bind (hareas.bind_pure _))

theorem FileDesc.Keyed.accepts
    {file : FileDesc} (hkeys : file.Keyed) : Accepts limit FileDesc.read file.write file := by
  have himports : Accepts limit (.list ImportDesc.read)
      (writeList ImportDesc.write file.imports) file.imports := by
    refine accepts_list ?_ fun item _ => item.accepts
    intro item _
    rw [ImportDesc.write, append_assoc]
    exact append_ne_nil_of_text
  have hmessages : Accepts limit (.list MessageDesc.read)
      (writeList MessageDesc.write file.messages) file.messages :=
    accepts_list (fun message _ => message.write_ne_nil) fun message hmessage =>
      (hkeys.messages message hmessage).accepts
  have hservices : Accepts limit (.list ServiceDesc.read)
      (writeList ServiceDesc.write file.services) file.services := by
    refine accepts_list ?_ fun service hservice => (hkeys.services service hservice).accepts
    intro service _
    simp only [ServiceDesc.write, append_assoc]
    exact append_ne_nil_of_text
  have hprojects : Accepts limit (.list ProjectDesc.read)
      (writeList ProjectDesc.write file.projects) file.projects := by
    refine accepts_list ?_ fun project hproject => (hkeys.projects project hproject).accepts
    intro project _
    simp only [ProjectDesc.write, append_assoc]
    exact append_ne_nil_of_text
  simp only [FileDesc.write, append_assoc]
  exact (accepts_text file.file).bind (file.package.accepts.bind
    ((OptionsDesc.accepts hkeys.options).bind (himports.bind ((accepts_enums hkeys.enums).bind
      (hmessages.bind (hservices.bind (hprojects.bind_pure _)))))))

end Idl
