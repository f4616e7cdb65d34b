import Mathlib.Logic.Relation
import Idl.Proofs.Descriptor.Expansion

/-!
# Copies of messages without recursion

A message refers to the messages that are mentioned in it.  Where no way along these references
leads back to a message on it, no copy is cut short, so that a message looks the same wherever it
is copied: as it does at its own place, in the descriptor of the program that declares it.
-/

namespace Idl

open Relation List

/-! ## Paths in descriptors -/

def MessageDesc.descend (desc : MessageDesc) : List Nat → Option MessageDesc
  | [] => some desc
  | i :: path => desc.messages[i]?.bind (·.descend path)

def FileDesc.message? (desc : FileDesc) : MessagePath → Option MessageDesc
  | [] => none
  | i :: path => desc.messages[i]?.bind (·.descend path)

theorem Message.descend_describe
    (copy : MessageRef → Option MessageDesc) (m : Message) (path : List Nat) :
    (m.describe copy).descend path = (m.descend path).map (·.describe copy) := by
  induction path generalizing m with
  | nil => rfl
  | cons i path ih =>
    rw [MessageDesc.descend, descend_cons, getElem?_messages_describe]
    cases m.messages[i]? with
    | none => rfl
    | some sub => exact ih sub

theorem Program.message?_describe (arena : Arena) (program : Program) (path : MessagePath) :
    (program.describe arena).message? path =
      (program.schema.message? path).map (·.describe (arena.copy [])) := by
  cases path with
  | nil => rfl
  | cons i path =>
    simp only [FileDesc.message?, Schema.message?, describe, Message.describeAll_eq_map,
      getElem?_map]
    cases program.schema.messages[i]? with
    | none => rfl
    | some m => exact m.descend_describe _ path

/-! ## References -/

namespace Arena

variable {arena : Arena} {ref next : MessageRef} {opened opened' : List MessageRef}

/-- A field of the one message, or of a message nested in it at any depth, is bound to the other. -/
def Refers (arena : Arena) (ref next : MessageRef) : Prop :=
  ∃ message, arena.message? ref = some message ∧ next ∈ message.mentions

/-- No way along references leads from the message to a cycle of references. -/
def Acyclic (arena : Arena) (ref : MessageRef) : Prop :=
  ∀ reached, ReflTransGen arena.Refers ref reached → ¬ TransGen arena.Refers reached reached

/-- None of the messages can be reached from the message. -/
def Apart (arena : Arena) (opened : List MessageRef) (ref : MessageRef) : Prop :=
  ∀ other ∈ opened, ¬ ReflTransGen arena.Refers ref other

theorem Acyclic.of_refers (h : arena.Acyclic ref) (hnext : arena.Refers ref next) :
    arena.Acyclic next :=
  fun reached hreached => h reached (hreached.head hnext)

/-- It is enough to look at the messages that are mentioned in a message. -/
theorem acyclic_of_mentions
    {refs : List MessageRef} (hrefs : (arena.message? ref).map (·.mentions) = some refs)
    (h : ∀ next ∈ refs, arena.Acyclic next) : arena.Acyclic ref := by
  have hnext : ∀ next, arena.Refers ref next → arena.Acyclic next := by
    rintro next ⟨message, hmessage, hmem⟩
    rw [hmessage] at hrefs
    exact h next (Option.some.inj hrefs ▸ hmem)
  intro reached hreached hcycle
  rcases hreached.cases_head with rfl | ⟨next, hrefers, hreached⟩
  · obtain ⟨next, hrefers, hback⟩ := TransGen.head'_iff.1 hcycle
    exact hnext next hrefers ref hback hcycle
  · exact hnext next hrefers reached hreached hcycle

/-- What is referred to from a message without recursion does not lead to what is opened, even when
the message itself is opened. -/
theorem Acyclic.apart_cons
    (h : arena.Acyclic ref) (hnext : arena.Refers ref next) (hopened : arena.Apart opened ref) :
    arena.Apart (ref :: opened) next := by
  intro other hother hreached
  rcases mem_cons.1 hother with rfl | hother
  · exact h other .refl (TransGen.head' hnext hreached)
  · exact hopened other hother (hreached.head hnext)

theorem Copied.eq_copy_of_acyclic
    {depth : Nat} {result : Option MessageDesc} (h : arena.Copied depth opened ref result)
    (hacyclic : arena.Acyclic ref) (hopened : arena.Apart opened ref)
    (hopened' : arena.Apart opened' ref) : result = arena.copy opened' ref := by
  -- along the calls, both lists of what is opened grow by the same message
  induction h generalizing opened' with
  | missing hmessage => rw [copy_eq, hmessage, Option.map_none]
  | @named _ _ ref _ _ hmem => exact absurd .refl (hopened ref hmem)
  | @opened _ opened ref message copy hmessage _ _ ih =>
    have hnew : ref ∉ opened' := fun hmem => hopened' ref hmem .refl
    rw [copy_eq, hmessage, Option.map_some, if_neg hnew]
    refine congrArg some (message.describe_congr fun next hnext => ?_)
    have hrefers : arena.Refers ref next := ⟨message, hmessage, hnext⟩
    exact ih next hnext (hacyclic.of_refers hrefers) (hacyclic.apart_cons hrefers hopened)
      (hacyclic.apart_cons hrefers hopened')

theorem copy_eq_of_acyclic
    (hacyclic : arena.Acyclic ref) (hopened : arena.Apart opened ref)
    (hopened' : arena.Apart opened' ref) : arena.copy opened ref = arena.copy opened' ref :=
  (copied_copy (Nat.le_refl _) ref).eq_copy_of_acyclic hacyclic hopened hopened'

theorem apart_nil (arena : Arena) (ref : MessageRef) : arena.Apart [] ref := nofun

/-- A message without recursion is copied as it is described at its own place. -/
theorem Acyclic.copy_eq_describe
    (hacyclic : arena.Acyclic ref) (hopened : arena.Apart opened ref) {message : Message}
    (hmessage : arena.message? ref = some message) :
    arena.copy opened ref = some (message.describe (arena.copy [])) := by
  have hnew : ref ∉ opened := fun hmem => hopened ref hmem .refl
  rw [copy_eq, hmessage, Option.map_some, if_neg hnew]
  refine congrArg some (message.describe_congr fun next hnext => ?_)
  have hrefers : arena.Refers ref next := ⟨message, hmessage, hnext⟩
  exact copy_eq_of_acyclic (hacyclic.of_refers hrefers) (hacyclic.apart_cons hrefers hopened)
    (apart_nil arena next)

end Arena

namespace Program

variable {arena : Arena} {program : Program} {chain : List MessageRef} {message : Message}
  {desc : MessageDesc}

/-- From each message whose copy is opened around a place, references lead to what is mentioned
there. -/
theorem Places.transGen_refers
    (h : program.Places arena chain message desc) {opened next : MessageRef}
    (hopened : opened ∈ chain) (hnext : next ∈ message.mentions) :
    TransGen arena.Refers opened next := by
  induction h generalizing next with
  | declared | inline => cases hopened
  | @stub _ _ ref target _ _ htarget _ =>
    obtain rfl := mem_singleton.1 hopened
    have hparts := Message.mem_mentions_iff.1 hnext
    exact .single ⟨target, htarget, Message.mem_mentions_iff.2 hparts⟩
  | @nested _ _ sub _ _ _ _ hmessage _ ih =>
    exact ih hopened (Message.mem_mentions_iff.2
      (Or.inr ⟨sub, mem_of_getElem? hmessage, hnext⟩))
  | @copied _ _ target _ _ _ field _ ref _ hfield _ href htarget _ ih =>
    have hrefers : arena.Refers ref next := ⟨target, htarget, hnext⟩
    rcases mem_cons.1 hopened with rfl | hopened
    · exact .single hrefers
    · exact (ih hopened (Message.mem_mentions_iff.2
        (Or.inl ⟨field, mem_of_getElem? hfield, href⟩))).tail hrefers

/-- A message without recursion cannot reach what is opened around a place that mentions it. -/
theorem Places.apart_of_acyclic
    (h : program.Places arena chain message desc) {ref : MessageRef} (hacyclic : arena.Acyclic ref)
    (hmentions : ref ∈ message.mentions) : arena.Apart chain ref := by
  intro opened hopened hreached
  have hback := h.transGen_refers hopened hmentions
  exact hacyclic opened hreached (hback.trans_left hreached)

/-- A message from which no cycle of references can be reached has one descriptor, which stands at
its own path in the descriptor of the program that declares it.  Every field that is bound to it, in
whichever program and inside whichever copies, holds that descriptor, and so does every bare name of
a request or a reply that is bound to it, under the name that is written. -/
theorem copies_eq_declared
    {ref : MessageRef} {target : Message} (hacyclic : arena.Acyclic ref)
    (htarget : arena.message? ref = some target) :
    ∃ declaring declared, arena[ref.program]? = some declaring ∧
      (declaring.describe arena).message? ref.path = some declared ∧
      ∀ program : Program,
        (∀ chain message desc (i : Nat) field fieldDesc, program.Places arena chain message desc →
          message.fields[i]? = some field → desc.fields[i]? = some fieldDesc →
          field.message? = some ref → fieldDesc.type.message = some declared) ∧
        ∀ (i : Nat) name, program.schema.methodMessages[i]? = some (.stub name (some ref)) →
          (program.describe arena).methodMessages[i]? =
            some { declared with name := name.value } := by
  obtain ⟨declaring, hdeclaring, hpath⟩ := Option.bind_eq_some_iff.1 htarget
  refine ⟨declaring, target.describe (arena.copy []), hdeclaring, ?_, fun program => ⟨?_, ?_⟩⟩
  · rw [message?_describe, hpath, Option.map_some]
  · intro chain message desc i field fieldDesc hplace hfield hdesc href
    obtain ⟨-, rfl⟩ | ⟨_, _, -, -, -, rfl⟩ := hplace.cases_desc
    · have hmentions : ref ∈ message.mentions :=
        Message.mem_mentions_iff.2 (Or.inl ⟨field, mem_of_getElem? hfield, href⟩)
      rw [Message.message_of_getElem?_fields hfield hdesc href]
      exact hacyclic.copy_eq_describe (hplace.apart_of_acyclic hacyclic hmentions) htarget
    · cases hdesc
  · intro i name hstub
    have hcopy := hacyclic.copy_eq_describe (Arena.apart_nil arena ref) htarget
    simp only [methodMessages_describe, getElem?_map, hstub, Option.map_some,
      MethodMessage.describe, Option.bind_some, hcopy]

end Program

theorem Arena.exists_acyclic_loop :
    ∃ b, (afterAll loopPasses).message? ⟨0, [1]⟩ = some b ∧
      (afterAll loopPasses).Acyclic ⟨0, [1]⟩ := by
  have hmentions : ([[0], [1, 0], [1]].map fun path =>
      ((afterAll loopPasses).message? ⟨0, path⟩).map (·.mentions)) =
      [some [], some [⟨0, [0]⟩], some [⟨0, [1, 0]⟩, ⟨0, [0]⟩, ⟨0, [0]⟩]] := by
    decide +kernel
  simp only [map_cons, map_nil, List.cons.injEq, and_true] at hmentions
  obtain ⟨hc, hn, hb⟩ := hmentions
  have hc : (afterAll loopPasses).Acyclic ⟨0, [0]⟩ := acyclic_of_mentions hc nofun
  have hn : (afterAll loopPasses).Acyclic ⟨0, [1, 0]⟩ := acyclic_of_mentions hn (by simpa using hc)
  obtain ⟨b, hmessage, -⟩ := Option.map_eq_some_iff.1 hb
  exact ⟨b, hmessage, acyclic_of_mentions hb (by simp [hc, hn])⟩

/-- A message that holds itself holds the other, inside its copy of itself, as it is declared. -/
theorem Program.copies_eq_declared_loop :
    ∃ program r inner fieldDesc declared, (Arena.afterAll loopPasses)[0]? = some program ∧
      program.Places (Arena.afterAll loopPasses) [⟨0, [2]⟩] r inner ∧
      inner.fields[1]? = some fieldDesc ∧ fieldDesc.type.message = some declared ∧
      (program.describe (Arena.afterAll loopPasses)).message? [1] = some declared := by
  obtain ⟨program, r, inner, s, t, hprogram, -, hinner, hfields, -, ht⟩ := exists_loop
  obtain ⟨b, hb, hacyclic⟩ := Arena.exists_acyclic_loop
  have hfield : r.fields[1]? = some t := by rw [hfields]; rfl
  obtain ⟨fieldDesc, _, hfieldDesc, -, -⟩ := hinner.exists_copied (by simp) hfield ht hb
  obtain ⟨declaring, declared, hdeclaring, hdeclared, hcopies⟩ := copies_eq_declared hacyclic hb
  obtain rfl : program = declaring := Option.some.inj (hprogram.symm.trans hdeclaring)
  have hcopy := (hcopies program).1 _ _ _ 1 t fieldDesc hinner hfield hfieldDesc ht
  exact ⟨program, r, inner, fieldDesc, declared, hprogram, hinner, hfieldDesc, hcopy, hdeclared⟩

end Idl
