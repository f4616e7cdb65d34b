import Idl.Proofs.Analysis.Schedule
import Idl.Proofs.Descriptor.Mentions

/-!
# Where copies end

In a descriptor every field that is bound to a message holds a copy of it, which holds copies in
turn.  Going down from a declaration, from copy to copy, no message is opened a second time: where
one is met again, its copy has a name and nothing else, and there is no other place where a copy
lacks anything.  Since each copy that is opened is that of another message, copies are nested at
most as deep as there are messages.
-/

namespace Idl

open List

/-! ## Opening copies -/

namespace Arena

variable {arena : Arena} {opened : List MessageRef} {ref : MessageRef}

theorem copy_eq (arena : Arena) (opened : List MessageRef) (ref : MessageRef) :
    arena.copy opened ref = (arena.message? ref).map fun message =>
      if ref ∈ opened then .named message.name.value
      else message.describe (arena.copy (ref :: opened)) := by
  rw [copy]
  split
  next hmessage => rw [hmessage, Option.map_none]
  next message hmessage =>
    rw [hmessage, Option.map_some]
    split <;> rfl

/-- A copy has the name of its message, whether it is opened or not. -/
theorem map_name_copy (arena : Arena) (opened : List MessageRef) (ref : MessageRef) :
    (arena.copy opened ref).map (·.name) = (arena.message? ref).map (·.name.value) := by
  rw [copy_eq, Option.map_map]
  congr 1
  funext message
  simp only [Function.comp_apply]
  split
  · rfl
  · exact message.name_describe _

/-- The copy of a message as it is made by calls that are nested up to some depth, one for each
message that is mentioned in a message that is opened. -/
inductive Copied (arena : Arena) :
    Nat → List MessageRef → MessageRef → Option MessageDesc → Prop
  | missing {depth opened ref} (hmessage : arena.message? ref = none) :
      Copied arena depth opened ref none
  | named {depth opened ref message} (hmessage : arena.message? ref = some message)
      (hopened : ref ∈ opened) : Copied arena depth opened ref (some (.named message.name.value))
  | opened {depth opened ref message} {copy : MessageRef → Option MessageDesc}
      (hmessage : arena.message? ref = some message) (hopened : ref ∉ opened)
      (hcopy : ∀ next ∈ message.mentions, Copied arena depth (ref :: opened) next (copy next)) :
      Copied arena (depth + 1) opened ref (some (message.describe copy))

/-- Calls, however deep, have one outcome only. -/
theorem Copied.eq_copy
    {depth : Nat} {result : Option MessageDesc} (h : arena.Copied depth opened ref result) :
    result = arena.copy opened ref := by
  induction h with
  | missing hmessage => rw [copy_eq, hmessage, Option.map_none]
  | named hmessage hopened => rw [copy_eq, hmessage, Option.map_some, if_pos hopened]
  | @opened depth opened ref message copy hmessage hopened _ ih =>
    rw [copy_eq, hmessage, Option.map_some, if_neg hopened, message.describe_congr ih]

/-- It is enough that calls may be nested as deep as there are messages left to open. -/
theorem copied_copy
    {depth : Nat} (h : unseen (fun ref => ref) arena.messageRefs opened ≤ depth)
    (ref : MessageRef) :
    arena.Copied depth opened ref (arena.copy opened ref) := by
  induction depth using Nat.strongRecOn generalizing opened ref with
  | ind depth ih =>
    rw [copy_eq]
    cases hmessage : arena.message? ref with
    | none => exact .missing hmessage
    | some message =>
      rw [Option.map_some]
      split
      next hopened => exact .named hmessage hopened
      next hnew =>
        have hlt := unseen_cons_lt (fun ref => ref) (mem_messageRefs hmessage) hnew
        obtain ⟨less, rfl⟩ := Nat.exists_eq_succ_of_ne_zero (show depth ≠ 0 by omega)
        exact .opened hmessage hnew fun next _ => ih less less.lt_succ_self (by omega) next

/-- Calls that are nested as deep as there are messages have an outcome, and no other than that
of copying. -/
theorem copied_iff {result : Option MessageDesc} :
    arena.Copied arena.messageRefs.length opened ref result ↔ result = arena.copy opened ref := by
  constructor
  · exact fun h => h.eq_copy
  · rintro rfl
    exact copied_copy countP_le_length ref

end Arena

/-! ## Descriptors in full -/

/-- The descriptor has all that the message declares.  A field holds a copy if it is bound to a
message of the arena, which has the name of that message, and no copy otherwise. -/
structure MessageDesc.Full (arena : Arena) (message : Message) (desc : MessageDesc) : Prop where
  name : desc.name = message.name.value
  doc : desc.doc = message.doc.describe
  options : desc.options = OptionDecl.describeAll message.options
  enums : desc.enums = message.enums.map (·.describe)
  messages : desc.messages.map (·.name) = message.messages.map (·.name.value)
  fields : desc.fields.map (·.withoutCopy) = message.fields.map (·.describe fun _ => none)
  copies : desc.fields.map (·.type.message.map (·.name)) =
    message.fields.map fun field => (field.message?.bind arena.message?).map (·.name.value)

theorem Message.full_describe
    {arena : Arena} {copy : MessageRef → Option MessageDesc}
    (hcopy : ∀ ref, (copy ref).map (·.name) = (arena.message? ref).map (·.name.value))
    (message : Message) : (message.describe copy).Full arena message := by
  rw [describe_eq]
  refine ⟨rfl, rfl, rfl, rfl, ?_, ?_, ?_⟩
  · simp
  · simp [Field.withoutCopy_describe]
  · simp only [map_map]
    refine map_congr_left fun field _ => ?_
    simp only [Function.comp_apply, Field.message_describe]
    cases field.message? with
    | none => rfl
    | some ref => exact hcopy ref

/-! ## Places in a descriptor -/

/-- The descriptors of requests and replies of all methods. -/
def FileDesc.methodMessages (desc : FileDesc) : List MessageDesc :=
  desc.services.flatMap fun service => service.methods.flatMap fun method =>
    method.request.toList ++ method.reply.toList

/-- The name of a request or a reply. -/
def MethodMessage.name : MethodMessage → String
  | inline message => message.name.value
  | stub name _ => name.value

namespace Program

theorem methodMessages_describe (arena : Arena) (program : Program) :
    (program.describe arena).methodMessages =
      program.schema.methodMessages.map (·.describe arena) := by
  simp [FileDesc.methodMessages, Schema.methodMessages, describe, Service.describe, Method.describe,
    Method.messages, flatMap_map, map_flatMap, Option.toList_map]

/-- The places of messages in the descriptor of a program: `desc` is there for `message`, inside the
copies of a chain of messages, of which the last comes first.  A bare name of a request or a reply
is a copy already. -/
inductive Places (arena : Arena) (program : Program) :
    List MessageRef → Message → MessageDesc → Prop
  | declared {i : Nat} {message : Message} {desc : MessageDesc}
      (hmessage : program.schema.messages[i]? = some message)
      (hdesc : (program.describe arena).messages[i]? = some desc) :
      Places arena program [] message desc
  | inline {i : Nat} {message : Message} {desc : MessageDesc}
      (hmessage : program.schema.methodMessages[i]? = some (.inline message))
      (hdesc : (program.describe arena).methodMessages[i]? = some desc) :
      Places arena program [] message desc
  | stub {i : Nat} {name : Located String} {ref : MessageRef} {target : Message}
      {desc : MessageDesc}
      (hmessage : program.schema.methodMessages[i]? = some (.stub name (some ref)))
      (htarget : arena.message? ref = some target)
      (hdesc : (program.describe arena).methodMessages[i]? = some desc) :
      Places arena program [ref] { target with name } desc
  | nested {chain : List MessageRef} {message sub : Message} {desc subDesc : MessageDesc} {i : Nat}
      (h : Places arena program chain message desc)
      (hmessage : message.messages[i]? = some sub) (hdesc : desc.messages[i]? = some subDesc) :
      Places arena program chain sub subDesc
  | copied {chain : List MessageRef} {message target : Message} {desc copy : MessageDesc} {i : Nat}
      {field : Field} {fieldDesc : FieldDesc} {ref : MessageRef}
      (h : Places arena program chain message desc)
      (hfield : message.fields[i]? = some field) (hdesc : desc.fields[i]? = some fieldDesc)
      (href : field.message? = some ref) (htarget : arena.message? ref = some target)
      (hcopy : fieldDesc.type.message = some copy) :
      Places arena program (ref :: chain) target copy

variable {arena : Arena} {program : Program} {chain : List MessageRef} {message : Message}
  {desc : MessageDesc}

/-- At each place a message is described inside the copies of the chain, all of other messages, or
else its copy has been opened before. -/
theorem Places.cases_desc (h : program.Places arena chain message desc) :
    (chain.Nodup ∧ desc = message.describe (arena.copy chain)) ∨
      ∃ ref enclosing, chain = ref :: enclosing ∧ enclosing.Nodup ∧ ref ∈ enclosing ∧
        desc = .named message.name.value := by
  induction h with
  | declared hmessage hdesc =>
    left
    rw [describe, Message.describeAll_eq_map, getElem?_map, hmessage] at hdesc
    exact ⟨nodup_nil, (Option.some.inj hdesc).symm⟩
  | inline hmessage hdesc =>
    left
    rw [methodMessages_describe, getElem?_map, hmessage] at hdesc
    exact ⟨nodup_nil, (Option.some.inj hdesc).symm⟩
  | @stub i name ref target desc hmessage htarget hdesc =>
    left
    rw [methodMessages_describe, getElem?_map, hmessage] at hdesc
    refine ⟨by simp, (Option.some.inj hdesc).symm.trans ?_⟩
    have hcopy : arena.copy [] ref = some (target.describe (arena.copy [ref])) := by
      simp [Arena.copy_eq arena [] ref, htarget]
    simp only [MethodMessage.describe, Option.bind_some, hcopy]
    rw [Message.describe_eq _ target, Message.describe_eq]
  | nested _ hmessage hdesc ih =>
    -- a bare name has nothing nested in it and no fields, so that the way ends there
    obtain ⟨hnodup, rfl⟩ | ⟨ref, enclosing, -, -, -, rfl⟩ := ih
    · left
      rw [Message.getElem?_messages_describe, hmessage] at hdesc
      exact ⟨hnodup, (Option.some.inj hdesc).symm⟩
    · cases hdesc
  | @copied chain _ target _ _ _ _ _ ref _ hfield hdesc href htarget hcopy ih =>
    obtain ⟨hnodup, rfl⟩ | ⟨ref, enclosing, -, -, -, rfl⟩ := ih
    · have hopen := Message.message_of_getElem?_fields hfield hdesc href
      rw [hcopy, Arena.copy_eq, htarget] at hopen
      cases hopen
      by_cases hopened : ref ∈ chain
      · right
        exact ⟨ref, chain, rfl, hnodup, hopened, if_pos hopened⟩
      · left
        exact ⟨nodup_cons.2 ⟨hopened, hnodup⟩, if_neg hopened⟩
    · cases hdesc

/-- Where a message is in full, there is a place for each message that a field of it is bound to. -/
theorem Places.exists_copied
    (h : program.Places arena chain message desc) (hnodup : chain.Nodup) {i : Nat} {field : Field}
    {ref : MessageRef} {target : Message} (hfield : message.fields[i]? = some field)
    (href : field.message? = some ref) (htarget : arena.message? ref = some target) :
    ∃ fieldDesc copy, desc.fields[i]? = some fieldDesc ∧ fieldDesc.type.message = some copy ∧
      program.Places arena (ref :: chain) target copy := by
  obtain ⟨-, rfl⟩ | ⟨_, _, rfl, -, hopened, -⟩ := h.cases_desc
  · have hdesc : (message.describe (arena.copy chain)).fields[i]? =
        some (field.describe (arena.copy chain)) := by
      rw [Message.getElem?_fields_describe, hfield, Option.map_some]
    have hcopy := Message.message_of_getElem?_fields hfield hdesc href
    rw [Arena.copy_eq, htarget, Option.map_some] at hcopy
    exact ⟨_, _, hdesc, hcopy, h.copied hfield hdesc href htarget hcopy⟩
  · exact absurd hopened (nodup_cons.1 hnodup).1

theorem map_name_messages_describe (arena : Arena) (program : Program) :
    (program.describe arena).messages.map (·.name) =
      program.schema.messages.map (·.name.value) := by
  simp [describe, Message.describeAll_eq_map]

theorem map_name_methodMessages_describe (arena : Arena) (program : Program) :
    (program.describe arena).methodMessages.map (·.name) =
      program.schema.methodMessages.map (·.name) := by
  rw [methodMessages_describe, map_map]
  refine map_congr_left fun message _ => ?_
  cases message with
  | inline message => exact message.name_describe _
  | stub name target =>
    simp only [Function.comp_apply, MethodMessage.describe, MethodMessage.name]
    split <;> rfl

/-- In any arena, whatever type names are bound to, copying ends: calls that are nested as deep as
there are messages have one outcome.  Each message of the program and each request and reply has a
place in the descriptor, a bare name that stands for no message being all there is.  At every place,
either no message is opened twice on the way and the descriptor is full, or the last message was
opened on the way already and the descriptor is but a name. -/
theorem describe_cuts_recursion (arena : Arena) (program : Program) :
    (∀ opened ref result,
      arena.Copied arena.messageRefs.length opened ref result ↔ result = arena.copy opened ref) ∧
    (program.describe arena).messages.map (·.name) =
      program.schema.messages.map (·.name.value) ∧
    (program.describe arena).methodMessages.map (·.name) =
      program.schema.methodMessages.map (·.name) ∧
    (∀ (i : Nat) name target, program.schema.methodMessages[i]? = some (.stub name target) →
      target.bind arena.message? = none →
        (program.describe arena).methodMessages[i]? = some (.named name.value)) ∧
    ∀ chain message desc, program.Places arena chain message desc →
      (chain.Nodup ∧ desc.Full arena message) ∨
        ∃ ref enclosing, chain = ref :: enclosing ∧ enclosing.Nodup ∧ ref ∈ enclosing ∧
          desc = .named message.name.value := by
  refine ⟨fun _ _ _ => Arena.copied_iff, map_name_messages_describe arena program,
    map_name_methodMessages_describe arena program, ?_, ?_⟩
  · intro i name target hstub htarget
    have hcopy : target.bind (arena.copy []) = none := by
      cases target with
      | none => rfl
      | some ref =>
        have hmessage : arena.message? ref = none := htarget
        rw [Option.bind_some, Arena.copy_eq, hmessage, Option.map_none]
    simp only [methodMessages_describe, getElem?_map, hstub, Option.map_some,
      MethodMessage.describe, hcopy]
  · intro chain message desc hplace
    obtain ⟨hnodup, rfl⟩ | hnamed := hplace.cases_desc
    · exact Or.inl ⟨hnodup, message.full_describe (arena.map_name_copy chain)⟩
    · exact Or.inr hnamed

end Program

/-- A message that holds itself and another, which holds no message that holds it. -/
def loopPasses : List Pass :=
  [.load "p.wproto" .native ⟨false⟩ ("package p message c { int32 i = 1 } " ++
      "message b { message n { c f = 1 } n x = 1 c y = 2 } message r { r s = 1 b t = 2 }"),
    .checkDefinitions ⟨false⟩ 0, .bindReferences 0]

/-- The message holds a copy of itself, in which it is bound to itself and to the other again. -/
theorem exists_loop :
    ∃ program r inner s t, (Arena.afterAll loopPasses)[0]? = some program ∧
      (Arena.afterAll loopPasses).message? ⟨0, [2]⟩ = some r ∧
      program.Places (Arena.afterAll loopPasses) [⟨0, [2]⟩] r inner ∧ r.fields = [s, t] ∧
      s.message? = some ⟨0, [2]⟩ ∧ t.message? = some ⟨0, [1]⟩ := by
  have hfields : ((Arena.afterAll loopPasses)[0]?.bind (·.schema.messages[2]?)).map
      (·.fields.map (·.message?)) = some [some ⟨0, [2]⟩, some ⟨0, [1]⟩] := by
    decide +kernel
  obtain ⟨r, hr, hfields⟩ := Option.map_eq_some_iff.1 hfields
  obtain ⟨program, hprogram, hr⟩ := Option.bind_eq_some_iff.1 hr
  simp only [map_eq_cons_iff, map_eq_nil_iff] at hfields
  obtain ⟨s, _, hfields, hs, t, _, rfl, ht, rfl⟩ := hfields
  have hmessage : (Arena.afterAll loopPasses).message? ⟨0, [2]⟩ = some r := by
    simp [Arena.message?, hprogram, Schema.message?, hr, Message.descend]
  have houter : (program.describe (Arena.afterAll loopPasses)).messages[2]? =
      some (r.describe ((Arena.afterAll loopPasses).copy [])) := by
    simp [Program.describe, Message.describeAll_eq_map, hr]
  obtain ⟨_, inner, -, -, hinner⟩ := (Program.Places.declared hr houter).exists_copied
    nodup_nil (i := 0) (by rw [hfields]; rfl) hs hmessage
  exact ⟨program, r, inner, s, t, hprogram, hmessage, hinner, hfields, hs, ht⟩

theorem Program.describe_cuts_recursion_loop :
    ∃ program r last, (Arena.afterAll loopPasses)[0]? = some program ∧
      program.Places (Arena.afterAll loopPasses) [⟨0, [2]⟩, ⟨0, [2]⟩] r last ∧
      r.fields.length = 2 ∧ last = .named r.name.value := by
  obtain ⟨program, r, inner, s, t, hprogram, hmessage, hinner, hfields, hs, -⟩ := exists_loop
  obtain ⟨_, last, -, -, hlast⟩ := hinner.exists_copied (by simp) (i := 0)
    (by rw [hfields]; rfl) hs hmessage
  obtain ⟨-, -, -, -, hplaces⟩ := describe_cuts_recursion (Arena.afterAll loopPasses) program
  obtain ⟨hnodup, -⟩ | ⟨_, _, -, -, -, hnamed⟩ := hplaces _ _ _ hlast
  · simp at hnodup
  · exact ⟨program, r, last, hprogram, hlast, by rw [hfields]; rfl, hnamed⟩

end Idl
