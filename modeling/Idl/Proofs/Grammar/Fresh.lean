import Idl.Proofs.Grammar.Parts

/-!
# References as they are read

In a schema that was just read no import and no type name is bound, in either dialect, and a message
that is made up for a method has a single field and nothing else.  Attaching comments changes none
of this.
-/

namespace Idl

variable {schema : Schema} {source : String} {dialect : Dialect} {config : ParseConfig}

def TypeName.Unbound (type : TypeName) : Prop := type.target = none

def ElemType.Unbound (elem : ElemType) : Prop := ∀ type, elem.custom? = some type → type.Unbound

/-- A request or a reply as it is read: a bare name that is not bound, or a message that has one
field without options, of a type that is not bound. -/
inductive MethodMessage.Fresh : MethodMessage → Prop
  | inline {name : Located String} {field : Field} (hoptions : field.options = [])
      (htype : field.Each TypeName.Unbound) : Fresh (.inline (.ofStatements name [.field field]))
  | stub (name : Located String) : Fresh (.stub name none)

def Method.Fresh (method : Method) : Prop := ∀ message ∈ method.messages, message.Fresh

def Service.Fresh (service : Service) : Prop := ∀ method ∈ service.methods, method.Fresh

/-- The imports of a schema are bound to nothing. -/
def Schema.Unbound (schema : Schema) : Prop := ∀ item ∈ schema.imports, item.target = none

/-- No type name in a schema is bound, and the messages of its methods are as they are read. -/
structure Schema.Fresh (schema : Schema) : Prop where
  messages : ∀ message ∈ schema.messages, message.Each TypeName.Unbound
  services : ∀ service ∈ schema.services, service.Fresh

open Idl.Parser

section Grammars

variable {source : List (Located Token)} {config : ParseConfig}

/-! ## Fields -/

theorem ElemType.unbound_base (base : BaseType) : (ElemType.base base).Unbound := by
  rintro _ ⟨⟩

theorem ElemType.unbound_custom (name : Located String) :
    (ElemType.custom (.unbound name)).Unbound := by
  rintro _ ⟨⟩
  rfl

theorem FieldType.Around.unbound
    {elem : PlainParser WrittenElem} (helem : elem.Within source fun found => found.type.Unbound)
    {tokens : List (Located Token)} (htokens : tokens <:+ source) {words : List String}
    {type : FieldType} (h : type.Around elem tokens words) : type.elem.Unbound := by
  obtain ⟨-, found, inner, after, heq, hinner, hfound, -⟩ := h
  rw [heq]
  exact helem inner found after (hinner.trans htokens) hfound

theorem Native.within_unboundElem :
    Native.elemType.Within source fun found => found.type.Unbound := by
  refine .after fun bracket => ?_
  split
  · exact .after fun _ => .after fun _ => .after fun _ =>
      .pure (ElemType.unbound_base _)
  · refine .after fun name => ?_
    split
    · exact .pure (ElemType.unbound_base _)
    · dsimp only
      split
      · exact .pure (ElemType.unbound_custom name)
      · exact .refuse _

theorem Native.within_unboundField : Native.field.Within source (·.Each TypeName.Unbound) :=
  (within_field (.any _) (.any _) (fun _ _ _ htokens h =>
    (around_of_fieldType h).unbound within_unboundElem htokens) (.any _)).mono fun _ h => h.1.2.2.1

theorem Protobuf.within_unboundElem :
    Protobuf.elemType.Within source fun found => found.type.Unbound := by
  refine .after fun name => ?_
  split
  · exact .pure (ElemType.unbound_base _)
  · exact .pure (ElemType.unbound_custom name)

theorem Protobuf.within_unboundField : Protobuf.field.Within source (·.Each TypeName.Unbound) :=
  (within_field (Q := fun type => type.elem.Unbound) (.any _) fun _ _ _ _ htokens h =>
    (around_of_fieldType h).unbound within_unboundElem htokens).mono fun _ h => h.2.2.1

/-! ## Services -/

theorem Native.within_freshMessage (fieldName role : String) :
    (Native.methodMessage fieldName role).Within source fun found =>
      ∀ message ∈ found, message.Fresh := by
  refine within_unboundElem.bind fun elem helem => ?_
  split
  next => exact .refuse _
  next type htype =>
    split
    · exact .pure fun _ heq => by cases heq
    · refine .pure fun _ heq => ?_
      cases heq
      rw [htype] at helem
      exact MethodMessage.Fresh.inline rfl helem

theorem Method.fresh_of_messages
    {method : Method} (hrequest : ∀ message ∈ method.request, message.Fresh)
    (hreply : ∀ message ∈ method.reply, message.Fresh) : method.Fresh := by
  intro message hmessage
  rcases List.mem_append.1 hmessage with hmem | hmem
  · exact hrequest message (by simpa using hmem)
  · exact hreply message (by simpa using hmem)

theorem Native.within_freshMethod : (Native.method config).Within source Method.Fresh := by
  refine .after fun name => .commit (.after fun _ =>
    .after fun closed => ?_)
  extract_lets jp
  have hjp : ∀ request : Option MethodMessage, (∀ message ∈ request, message.Fresh) →
      (jp request).Within source Method.Fresh := by
    intro request hrequest
    refine .after fun _ => (within_freshMessage _ _).bind fun reply hreply =>
      .after fun _ => .of_join fun id => ?_
    exact .after fun _ => .after fun _ =>
      .pure (Method.fresh_of_messages hrequest hreply)
  split
  · exact hjp none fun _ heq => by cases heq
  · exact (within_freshMessage _ _).bind hjp

theorem Protobuf.within_freshMessage :
    Protobuf.rpcMessage.Within source MethodMessage.Fresh := by
  refine .after fun name => ?_
  split
  · exact .refuse _
  · split
    · exact .refuse _
    · exact .pure (MethodMessage.Fresh.stub name)

theorem Protobuf.within_freshMethod : (Protobuf.rpc config).Within source Method.Fresh := by
  refine .after fun _ => .commit (.after fun name =>
    .after fun _ => within_freshMessage.bind fun request hrequest =>
    .after fun _ => .after fun _ => .after fun _ =>
    within_freshMessage.bind fun reply hreply => .after fun _ =>
    .after fun _ => .of_join fun id => .after fun _ => .of_join fun options =>
    .after fun _ => .pure ?_)
  apply Method.fresh_of_messages
  · rintro _ ⟨⟩
    exact hrequest
  · rintro _ ⟨⟩
    exact hreply

/-! ## Schemas -/

/-- What is known of fields and services, whatever their dialect. -/
def Facts.fresh : Facts where
  name _ := True
  option _ := True
  field := (·.Each TypeName.Unbound)
  service := Service.Fresh
  project _ := True

theorem Dialect.ensures_fresh
    (config : ParseConfig) (dialect : Dialect) (source : List (Located Token)) :
    dialect.Ensures config source Facts.fresh := by
  cases dialect with
  | native =>
    exact ⟨fun _ => .any _, .any _, Native.within_unboundField, (Native.within_service
      (F := Facts.fresh) (fun _ => .any _) (.any _) Native.within_freshMethod
      fun _ _ h => h).mono fun _ h => h.methods, .any _, .any _, .any _⟩
  | protobuf =>
    exact ⟨.any _, ⟨.any _, .all fun _ _ _ => trivial⟩, Protobuf.within_unboundField,
      (Protobuf.within_service (F := Facts.fresh) (.any _) (.any _) Protobuf.within_freshMethod
        fun _ _ h => h).mono fun _ h => h.methods, trivial, .any _, .any _⟩

theorem Schema.Follows.fresh (h : schema.Follows Facts.fresh) : schema.Fresh :=
  ⟨fun m hm path sub hsub => (h.messages m hm path sub hsub).fields, h.services⟩

theorem Schema.Follows.unbound {F : Facts} (h : schema.Follows F) : schema.Unbound :=
  fun item hitem => (h.imports item hitem).target

end Grammars

/-! ## Comments -/

section Comments

variable {how : Relabel}

theorem FieldType.custom?_relabel (type : FieldType) :
    (type.relabel how).custom? = type.custom?.map (·.relabel how) := by
  cases type with
  | single elem | list elem | map key elem => cases elem <;> rfl

theorem Message.each_unbound_relabel_iff (m : Message) :
    (m.relabel how).Each TypeName.Unbound ↔ m.Each TypeName.Unbound := by
  refine Message.forall_descend_relabel_iff how
    (P := fun m => ∀ field ∈ m.fields, field.Each TypeName.Unbound) (fun m => ?_) m
  rw [Message.relabel_eq]
  simp only [List.forall_mem_map, Field.Each, Field.relabel, FieldType.custom?_relabel,
    Option.map_eq_some_iff, forall_exists_index, and_imp, forall_apply_eq_imp_iff₂]
  rfl

theorem Schema.fresh_withDocs (h : schema.Fresh) (docs : List Doc) :
    (schema.withDocs docs).Fresh where
  messages := by
    refine (Schema.withDocs_iff (P := fun schema => ∀ m ∈ schema.messages,
      m.Each TypeName.Unbound) (fun schema => ?_) schema docs).2 h.messages
    simp only [Schema.relabel, List.forall_mem_map, Message.each_unbound_relabel_iff]
  services := by
    have hmessages := schema.messages_withDocs docs
    intro service hservice method hmethod message hmessage
    obtain ⟨service', hservice', heq⟩ := exists_mem_of_map_eq hmessages hservice
    obtain ⟨method', hmethod', heq⟩ := exists_mem_of_map_eq heq hmethod
    exact h.services service' hservice' method' hmethod' message (heq ▸ hmessage)

theorem Schema.unbound_withDocs (h : schema.Unbound) (docs : List Doc) :
    (schema.withDocs docs).Unbound := by
  refine (Schema.withDocs_iff (P := Schema.Unbound) (fun schema => ?_) schema docs).2 h
  simp only [Schema.Unbound, Schema.relabel, List.forall_mem_map]
  rfl

end Comments

/-- In a schema that was read from a text no type name is bound, and the messages of methods are as
they are read. -/
theorem fresh_of_parse (h : dialect.parse config source = .ok schema) : schema.Fresh := by
  obtain ⟨tokens, built, docs, -, hbuild, rfl⟩ := Dialect.exists_of_parse h
  exact Schema.fresh_withDocs
    (Dialect.follows_of_build hbuild (dialect.ensures_fresh config _)).fresh docs

/-- The imports of a schema that was read from a text are bound to nothing. -/
theorem unbound_of_parse (h : dialect.parse config source = .ok schema) : schema.Unbound := by
  obtain ⟨tokens, built, docs, -, hbuild, rfl⟩ := Dialect.exists_of_parse h
  exact Schema.unbound_withDocs
    (Dialect.follows_of_build hbuild (dialect.ensures_fresh config _)).unbound docs

end Idl
