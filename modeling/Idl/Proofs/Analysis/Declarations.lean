import Idl.Analysis.Definition
import Idl.Proofs.Schema.Tree
import Mathlib.Data.List.Nodup
import Mathlib.Data.List.Range

/-!
# The declarations of a schema

The messages and enums of a schema are what stands at its paths, at any depth.  The main statement
is that entering definitions walks through exactly these, each of them once, and then through the
services.
-/

namespace Idl

open List

variable {d : Definition} {schema : Schema} {body : Message} {path : TypePath}

/-! ## Definitions in a message -/

theorem Definition.mem_enums_iff {owner : Option MessagePath} {enums : List EnumDef} :
    d ∈ Definition.enums owner enums ↔
      ∃ index body, d = .enum ⟨owner, index⟩ body ∧ enums[index]? = some body := by
  simp only [Definition.enums, mem_map, Prod.exists, mem_zipIdx_iff_getElem?]
  constructor
  · rintro ⟨body, index, hbody, rfl⟩
    exact ⟨index, body, rfl, hbody⟩
  · rintro ⟨index, body, rfl, hbody⟩
    exact ⟨body, index, hbody, rfl⟩

theorem Definition.nodup_enums (owner : Option MessagePath) (enums : List EnumDef) :
    (Definition.enums owner enums).Nodup := by
  have hindices : (enums.zipIdx.map Prod.snd).Nodup := by
    rw [zipIdx_map_snd]
    exact nodup_range'
  refine (Nodup.of_map Prod.snd hindices).map ?_
  rintro ⟨body, index⟩ ⟨body', index'⟩ heq
  simp only [Definition.enum.injEq, EnumPath.mk.injEq, true_and] at heq
  exact Prod.ext heq.2 heq.1

namespace Message

/-- The definitions that a message at a path makes itself: the message and its enums. -/
def Owns (path : MessagePath) (m : Message) (d : Definition) : Prop :=
  d = .message path m ∨ d ∈ Definition.enums (some path) m.enums

theorem Owns.path_eq
    {path path' : MessagePath} {m m' : Message} (h : m.Owns path d) (h' : m'.Owns path' d)
    : path = path' := by
  simp only [Owns, Definition.mem_enums_iff] at h h'
  rcases h with rfl | ⟨index, body, rfl, -⟩
  · rcases h' with heq | ⟨_, _, heq, -⟩
    · exact (Definition.message.inj heq).1
    · cases heq
  · rcases h' with heq | ⟨_, _, heq, -⟩
    · cases heq
    · cases heq
      rfl

mutual

theorem mem_definitions_iff (path : MessagePath) : ∀ m : Message,
      d ∈ m.definitions path ↔ ∃ rest sub, m.descend rest = some sub ∧ sub.Owns (path ++ rest) d
  | ⟨name, doc, fields, messages, enums, options⟩ => by
    rw [definitions, cons_append, mem_cons, mem_append, mem_allDefinitions_iff,
      ← or_assoc]
    constructor
    · rintro (hown | ⟨i, m, rest, hm, sub, hsub, hown⟩)
      · refine ⟨[], _, rfl, ?_⟩
        rw [append_nil]
        exact hown
      · refine ⟨i :: rest, sub, ?_, by simpa using hown⟩
        rw [descend_cons]
        simp [hm, hsub]
    · rintro ⟨rest, sub, hsub, hown⟩
      cases rest with
      | nil =>
        cases hsub
        rw [append_nil] at hown
        exact Or.inl hown
      | cons i rest =>
        rw [descend_cons] at hsub
        obtain ⟨m, hm, hsub⟩ := Option.bind_eq_some_iff.1 hsub
        exact Or.inr ⟨i, m, rest, hm, sub, hsub, by simpa using hown⟩

theorem mem_allDefinitions_iff (path : MessagePath) (index : Nat) : ∀ messages : List Message,
      d ∈ allDefinitions path index messages ↔
        ∃ (i : Nat) (m : Message) (rest : List Nat), messages[i]? = some m ∧
          ∃ sub, m.descend rest = some sub ∧ sub.Owns (path ++ [index + i] ++ rest) d
  | [] => by simp [allDefinitions]
  | message :: messages => by
    rw [allDefinitions, mem_append, mem_definitions_iff, mem_allDefinitions_iff]
    constructor
    · rintro (⟨rest, sub, hsub, hown⟩ | ⟨i, m, rest, hm, sub, hsub, hown⟩)
      · exact ⟨0, message, rest, rfl, sub, hsub, hown⟩
      · refine ⟨i + 1, m, rest, hm, sub, hsub, ?_⟩
        rwa [Nat.add_assoc, Nat.add_comm 1 i] at hown
    · rintro ⟨i, m, rest, hm, sub, hsub, hown⟩
      cases i with
      | zero =>
        cases hm
        exact Or.inl ⟨rest, sub, hsub, hown⟩
      | succ i =>
        refine Or.inr ⟨i, m, rest, hm, sub, hsub, ?_⟩
        rwa [Nat.add_assoc, Nat.add_comm 1 i]

end

mutual

theorem nodup_definitions (path : MessagePath) : ∀ m : Message, (m.definitions path).Nodup
  | ⟨name, doc, fields, messages, enums, options⟩ => by
    -- what is nested deeper stands at a longer path
    have hbelow : ∀ d, d ∈ allDefinitions path 0 messages →
        ¬ Owns path ⟨name, doc, fields, messages, enums, options⟩ d := by
      intro d hd hown
      obtain ⟨i, m, rest, -, sub, -, hdeep⟩ := (mem_allDefinitions_iff path 0 messages).1 hd
      have hpath := congrArg List.length (hown.path_eq hdeep)
      simp at hpath
    rw [definitions, cons_append, nodup_cons, nodup_append]
    refine ⟨?_, Definition.nodup_enums _ _, nodup_allDefinitions path 0 messages, ?_⟩
    · intro hmem
      rcases mem_append.1 hmem with hmem | hmem
      · obtain ⟨_, _, heq, -⟩ := Definition.mem_enums_iff.1 hmem
        cases heq
      · exact hbelow _ hmem (Or.inl rfl)
    · rintro d hd _ hd' rfl
      exact hbelow d hd' (Or.inr hd)

theorem nodup_allDefinitions (path : MessagePath) (index : Nat) :
    ∀ messages : List Message, (allDefinitions path index messages).Nodup
  | [] => by simp [allDefinitions]
  | message :: messages => by
    rw [allDefinitions, nodup_append]
    refine ⟨nodup_definitions _ message, nodup_allDefinitions path (index + 1) messages, ?_⟩
    rintro d hd _ hd' rfl
    obtain ⟨rest, sub, -, hown⟩ := (mem_definitions_iff _ message).1 hd
    obtain ⟨i, m, rest', -, sub', -, hown'⟩ := (mem_allDefinitions_iff _ _ messages).1 hd'
    have hpath := hown.path_eq hown'
    simp only [append_assoc, cons_append, nil_append, append_cancel_left_eq,
      List.cons.injEq] at hpath
    omega

end

end Message

/-! ## Definitions in a schema -/

/-- The way to a message or to an enum. -/
inductive TypePath
  | message (path : MessagePath)
  | enum (path : EnumPath)
deriving DecidableEq, Repr

namespace Schema

/-- The definition at a path. -/
def typeAt? (schema : Schema) : TypePath → Option Definition
  | .message path => (schema.message? path).map (.message path)
  | .enum path => (schema.enum? path).map (.enum path)

/-- The name of the message or the enum at a path. -/
def typeName? (schema : Schema) (path : TypePath) : Option String :=
  (schema.typeAt? path).map (·.name.value)

theorem typeName?_message (schema : Schema) (path : MessagePath) :
    schema.typeName? (.message path) = (schema.message? path).map (·.name.value) := by
  simp [typeName?, typeAt?, Function.comp_def, Definition.name]

theorem typeName?_enum (schema : Schema) (path : EnumPath) :
    schema.typeName? (.enum path) = (schema.enum? path).map (·.name.value) := by
  simp [typeName?, typeAt?, Function.comp_def, Definition.name]

theorem typeAt?_eq_some_message_iff {p : MessagePath} :
    schema.typeAt? path = some (.message p body) ↔
      path = .message p ∧ schema.message? p = some body := by
  cases path with
  | message path =>
    simp only [typeAt?, Option.map_eq_some_iff, Definition.message.injEq, TypePath.message.injEq]
    grind
  | enum path => simp [typeAt?]

theorem typeAt?_eq_some_enum_iff {p : EnumPath} {body : EnumDef} :
    schema.typeAt? path = some (.enum p body) ↔
      path = .enum p ∧ schema.enum? p = some body := by
  cases path with
  | message path => simp [typeAt?]
  | enum path =>
    simp only [typeAt?, Option.map_eq_some_iff, Definition.enum.injEq, TypePath.enum.injEq]
    grind

theorem typeAt?_ne_service (schema : Schema) (path : TypePath) (body : Service) :
    schema.typeAt? path ≠ some (.service body) := by
  cases path <;> simp [typeAt?]

theorem typeAt?_inj
    {path' : TypePath} (h : schema.typeAt? path = some d) (h' : schema.typeAt? path' = some d) :
    path = path' := by
  cases d with
  | message p body =>
    rw [(typeAt?_eq_some_message_iff.1 h).1, (typeAt?_eq_some_message_iff.1 h').1]
  | enum p body => rw [(typeAt?_eq_some_enum_iff.1 h).1, (typeAt?_eq_some_enum_iff.1 h').1]
  | service body => exact absurd h (typeAt?_ne_service schema path body)

/-- The definitions of messages and enums, in the order in which they are entered. -/
def types (schema : Schema) : List Definition :=
  Definition.enums none schema.enums ++ Message.allDefinitions [] 0 schema.messages

theorem definitions_eq (schema : Schema) :
    schema.definitions = schema.types ++ schema.services.map .service := rfl

/-- Messages and enums are entered from every path where there is one. -/
theorem mem_types_iff :
    d ∈ schema.types ↔ ∃ path, schema.typeAt? path = some d := by
  rw [types, mem_append, Message.mem_allDefinitions_iff, Definition.mem_enums_iff]
  simp only [nil_append, Nat.zero_add, cons_append, Message.Owns,
    Definition.mem_enums_iff]
  constructor
  · rintro (⟨index, body, rfl, hbody⟩ |
      ⟨i, m, rest, hm, sub, hsub, rfl | ⟨index, body, rfl, hbody⟩⟩)
    · exact ⟨_, typeAt?_eq_some_enum_iff.2 ⟨rfl, hbody⟩⟩
    · have hpath := message?_eq_some_iff.2 ⟨i, m, rest, rfl, hm, hsub⟩
      exact ⟨_, typeAt?_eq_some_message_iff.2 ⟨rfl, hpath⟩⟩
    · have howner := message?_eq_some_iff.2 ⟨i, m, rest, rfl, hm, hsub⟩
      refine ⟨_, typeAt?_eq_some_enum_iff.2 ⟨rfl, ?_⟩⟩
      simp [enum?, howner, hbody]
  · rintro ⟨path, hpath⟩
    cases d with
    | message p body =>
      obtain ⟨i, m, rest, rfl, hm, hsub⟩ :=
        message?_eq_some_iff.1 (typeAt?_eq_some_message_iff.1 hpath).2
      exact Or.inr ⟨i, m, rest, hm, body, hsub, Or.inl rfl⟩
    | enum p body =>
      obtain ⟨owner, index⟩ := p
      have hbody := (typeAt?_eq_some_enum_iff.1 hpath).2
      cases owner with
      | none => exact Or.inl ⟨index, body, rfl, hbody⟩
      | some owner =>
        obtain ⟨sub, howner, hbody⟩ := Option.bind_eq_some_iff.1 hbody
        obtain ⟨i, m, rest, rfl, hm, hsub⟩ := message?_eq_some_iff.1 howner
        exact Or.inr ⟨i, m, rest, hm, sub, hsub, Or.inr ⟨index, body, rfl, hbody⟩⟩
    | service body => exact absurd hpath (typeAt?_ne_service schema path body)

theorem nodup_types (schema : Schema) : schema.types.Nodup := by
  refine nodup_append.2 ⟨Definition.nodup_enums _ _, Message.nodup_allDefinitions _ _ _, ?_⟩
  rintro d hd _ hd' rfl
  obtain ⟨index, body, rfl, -⟩ := Definition.mem_enums_iff.1 hd
  obtain ⟨i, m, rest, -, sub, -, hown⟩ := (Message.mem_allDefinitions_iff _ _ _).1 hd'
  simp [Message.Owns, Definition.mem_enums_iff] at hown

/-- The names of messages and enums are distinct when no two paths lead to one name. -/
theorem nodup_map_name_types_iff :
    (schema.types.map (·.name.value)).Nodup ↔
      ∀ path path' name, schema.typeName? path = some name → schema.typeName? path' = some name →
        path = path' := by
  rw [nodup_map_iff_inj_on schema.nodup_types]
  simp only [mem_types_iff, typeName?, Option.map_eq_some_iff]
  constructor
  · rintro h path path' name ⟨d, hd, hname⟩ ⟨d', hd', hname'⟩
    obtain rfl := h d ⟨path, hd⟩ d' ⟨path', hd'⟩ (hname.trans hname'.symm)
    exact typeAt?_inj hd hd'
  · rintro h d ⟨path, hd⟩ d' ⟨path', hd'⟩ hname
    obtain rfl := h path path' _ ⟨d, hd, hname⟩ ⟨d', hd', rfl⟩
    exact Option.some.inj (hd.symm.trans hd')

/-- The names of all definitions are distinct when those of types are, those of services are, and
no service has the name of a type. -/
theorem nodup_map_name_definitions_iff :
    (schema.definitions.map (·.name.value)).Nodup ↔
      (∀ path path' name, schema.typeName? path = some name →
        schema.typeName? path' = some name → path = path') ∧
      (schema.services.map (·.name.value)).Nodup ∧
      ∀ service ∈ schema.services, ∀ path, schema.typeName? path ≠ some service.name.value := by
  have hservices : (schema.services.map Definition.service).map (·.name.value) =
      schema.services.map (·.name.value) := by
    rw [map_map]
    rfl
  have htypes : ∀ name, name ∈ schema.types.map (·.name.value) ↔
      ∃ path, schema.typeName? path = some name := by
    intro name
    simp only [mem_map, mem_types_iff, typeName?, Option.map_eq_some_iff]
    grind
  rw [definitions_eq, map_append, hservices, nodup_append, nodup_map_name_types_iff]
  refine and_congr_right fun _ => and_congr_right fun _ => ?_
  constructor
  · intro h service hservice path hname
    exact h _ ((htypes _).2 ⟨path, hname⟩) _ (mem_map_of_mem hservice) rfl
  · rintro h name hname _ hname' rfl
    obtain ⟨path, hpath⟩ := (htypes name).1 hname
    obtain ⟨service, hservice, rfl⟩ := mem_map.1 hname'
    exact h service hservice path hpath

theorem mem_definitions_message_iff {path : MessagePath} :
    .message path body ∈ schema.definitions ↔ schema.message? path = some body := by
  simp [definitions_eq, mem_types_iff, typeAt?_eq_some_message_iff]

theorem mem_definitions_enum_iff {path : EnumPath} {body : EnumDef} :
    .enum path body ∈ schema.definitions ↔ schema.enum? path = some body := by
  simp [definitions_eq, mem_types_iff, typeAt?_eq_some_enum_iff]

theorem mem_definitions_service_iff {body : Service} :
    .service body ∈ schema.definitions ↔ body ∈ schema.services := by
  simp [definitions_eq, mem_types_iff, typeAt?_ne_service]

end Schema

end Idl
