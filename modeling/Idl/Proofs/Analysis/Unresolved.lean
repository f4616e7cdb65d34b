import Idl.Proofs.Analysis.Rebinding

/-!
# Type names that stand for nothing

Binding the type names of a program fails exactly if one of them stands for nothing, and what it
reports is such a name.  It is shown part by part: whatever goes through the parts of a program in
order reports the fault of one of them, or all of them are without fault.
-/

namespace Idl

variable {arena : Arena} {program : Program} {id : ProgramId}

/-! ## The first fault -/

/-- The result is a fault with the property, or there is no fault with the property. -/
structure Reports {ε : Type} (result : Option ε) (P : ε → Prop) : Prop where
  fault : ∀ e, result = some e → P e
  none : result = none → ∀ e, ¬P e

namespace Reports

variable {α ε : Type} {result : Option ε} {P Q : ε → Prop}

theorem of_none (h : ∀ e, ¬P e) : Reports Option.none P := by
  refine ⟨?_, fun _ => h⟩
  rintro _ ⟨⟩

theorem of_some {e : ε} (h : P e) : Reports (some e) P := by
  constructor
  · rintro _ ⟨⟩
    exact h
  · rintro ⟨⟩

theorem congr (h : Reports result P) (hPQ : ∀ e, P e ↔ Q e) : Reports result Q :=
  ⟨fun e he => (hPQ e).1 (h.fault e he), fun hnone e he => h.none hnone e ((hPQ e).2 he)⟩

/-- Where all faults of one are faults of the other, that other is without fault only if both
are. -/
theorem none_of
    {result' : Option ε} (h : Reports result P) (h' : Reports result' Q) (hPQ : ∀ e, P e → Q e)
    (hnone : result' = .none) : result = .none := by
  cases result with
  | none => rfl
  | some e => exact absurd (hPQ e (h.fault e rfl)) (h'.none hnone e)

theorem inOrder
    {β : Type} {first : α × Option ε} {y : β} {second : β × Option ε} (h : Reports first.2 P)
    (h' : Reports second.2 Q) : Reports (Rebound.inOrder first y second).2 fun e => P e ∨ Q e := by
  obtain ⟨x, fault⟩ := first
  cases fault with
  | none =>
    refine ⟨fun e he => .inr (h'.fault e he), fun hnone e he => ?_⟩
    exact he.elim (h.none rfl e) (h'.none hnone e)
  | some e => exact of_some (.inl (h.fault e rfl))

theorem mapUntil
    {f : α → α × Option ε} {R : α → ε → Prop} (h : ∀ x, Reports (f x).2 (R x)) (xs : List α) :
    Reports (mapUntil f xs).2 fun e => ∃ x ∈ xs, R x e := by
  induction xs with
  | nil => exact of_none (by simp)
  | cons x xs ih =>
    rw [mapUntil_cons]
    exact ((h x).inOrder ih).congr (by simp)

end Reports

/-! ## Parts of a program -/

section Parts

variable (resolve : TypeName → Option TypeRef) (resolveStub : String → Option MessageRef)
  (place : Place)

/-- The type name of the field is not bound, and stands for nothing. -/
def Field.Misses (field : Field) (fault : Unresolved) : Prop :=
  ∃ type, field.type.custom? = some type ∧ type.target = none ∧ resolve type = none ∧
    fault = .fieldType type.name field.name.value place

theorem Field.reports_bind (field : Field) :
    Reports (field.bind resolve place).2 (field.Misses resolve place) := by
  unfold Field.bind
  split
  next hcustom =>
    refine .of_none ?_
    rintro fault ⟨type, htype, -⟩
    simp [hcustom] at htype
  next type hcustom =>
    have hself : ∀ {other}, field.type.custom? = some other → other = type :=
      fun hother => Option.some.inj (hother.symm.trans hcustom)
    split
    next hbound =>
      refine .of_none ?_
      rintro fault ⟨other, hother, htarget, -⟩
      rw [hself hother] at htarget
      simp [htarget] at hbound
    next hunbound =>
      split
      next hnone =>
        exact .of_some ⟨type, hcustom, by simpa using hunbound, hnone, rfl⟩
      next target hsome =>
        refine .of_none ?_
        rintro fault ⟨other, hother, -, hresolve, -⟩
        rw [hself hother, hsome] at hresolve
        cases hresolve

/-- A type name in the fields of a made-up message, or the name of a declared one, stands for
nothing. -/
def MethodMessage.Misses : MethodMessage → Unresolved → Prop
  | inline message, fault => ∃ field ∈ message.fields, field.Misses resolve place fault
  | stub name target, fault =>
    target = none ∧ resolveStub name.value = none ∧ fault = .methodMessage name place

theorem MethodMessage.reports_bind? (message : Option MethodMessage) :
    Reports (bind? resolve resolveStub place message).2 fun fault =>
      ∃ m ∈ message, m.Misses resolve resolveStub place fault := by
  cases message with
  | none => exact .of_none (by simp)
  | some message =>
    cases message with
    | inline message =>
      have hfields := Reports.mapUntil (Field.reports_bind resolve place) message.fields
      refine hfields.congr fun fault => ?_
      simp [MethodMessage.Misses]
    | stub name target =>
      cases target with
      | some target => exact .of_none (by simp [MethodMessage.Misses])
      | none =>
        cases hresolve : resolveStub name.value with
        | some target =>
          simp only [bind?, MethodMessage.bind, hresolve]
          exact .of_none (by simp [MethodMessage.Misses, hresolve])
        | none =>
          simp only [bind?, MethodMessage.bind, hresolve]
          exact .of_some ⟨_, rfl, rfl, hresolve, rfl⟩

def Method.Misses (service : String) (method : Method) (fault : Unresolved) : Prop :=
  (∃ m ∈ method.request,
    m.Misses resolve resolveStub (.request service method.name.value) fault) ∨
  ∃ m ∈ method.reply, m.Misses resolve resolveStub (.reply service method.name.value) fault

theorem Method.reports_bind (service : String) (method : Method) :
    Reports (method.bind resolve resolveStub service).2
      (method.Misses resolve resolveStub service) := by
  rw [Method.bind_eq]
  exact (MethodMessage.reports_bind? resolve resolveStub _ method.request).inOrder
    (MethodMessage.reports_bind? resolve resolveStub _ method.reply)

theorem Service.reports_bind (service : Service) :
    Reports (service.bind resolve resolveStub).2 fun fault =>
      ∃ method ∈ service.methods, method.Misses resolve resolveStub service.name.value fault :=
  Reports.mapUntil (Method.reports_bind resolve resolveStub service.name.value) service.methods

namespace Message

variable (id : ProgramId) (path : MessagePath)

/-- A type name in the fields of the message at a path stands for nothing. -/
def Misses (m : Message) (fault : Unresolved) : Prop :=
  ∃ field ∈ m.fields, field.Misses (m.lookUp resolve id path) (.message m.name.value) fault

mutual

theorem reports_bind (path : MessagePath) : ∀ m : Message,
    Reports (m.bind resolve id path).2 fun fault =>
      ∃ rest sub, m.descend rest = some sub ∧ sub.Misses resolve id (path ++ rest) fault
  | ⟨name, doc, fields, messages, enums, options⟩ => by
    rw [bind_eq]
    refine ((Reports.mapUntil (Field.reports_bind _ _) fields).inOrder
      (reports_bindAll path 0 messages)).congr fun fault => ?_
    constructor
    · rintro (hown | ⟨i, m, rest, sub, hm, hsub, hmisses⟩)
      · exact ⟨[], _, rfl, by rwa [List.append_nil]⟩
      · refine ⟨i :: rest, sub, by rw [descend_cons]; simp [hm, hsub], ?_⟩
        simpa using hmisses
    · rintro ⟨rest, sub, hsub, hmisses⟩
      cases rest with
      | nil =>
        cases hsub
        rw [List.append_nil] at hmisses
        exact .inl hmisses
      | cons i rest =>
        rw [descend_cons] at hsub
        obtain ⟨m, hm, hsub⟩ := Option.bind_eq_some_iff.1 hsub
        exact .inr ⟨i, m, rest, sub, hm, hsub, by simpa using hmisses⟩

theorem reports_bindAll (path : MessagePath) (index : Nat) : ∀ messages : List Message,
    Reports (bindAll resolve id path index messages).2 fun fault =>
      ∃ (i : Nat) (m : Message) (rest : List Nat) (sub : Message),
        messages[i]? = some m ∧ m.descend rest = some sub ∧
          sub.Misses resolve id (path ++ [index + i] ++ rest) fault
  | [] => by
    rw [bindAll]
    exact .of_none (by simp)
  | message :: messages => by
    rw [bindAll_cons]
    refine ((reports_bind (path ++ [index]) message).inOrder
      (reports_bindAll path (index + 1) messages)).congr fun fault => ?_
    constructor
    · rintro (⟨rest, sub, hsub, hmisses⟩ | ⟨i, m, rest, sub, hm, hsub, hmisses⟩)
      · exact ⟨0, message, rest, sub, rfl, hsub, hmisses⟩
      · refine ⟨i + 1, m, rest, sub, hm, hsub, ?_⟩
        rwa [← Nat.add_assoc, Nat.add_right_comm]
    · rintro ⟨i, m, rest, sub, hm, hsub, hmisses⟩
      cases i with
      | zero =>
        cases hm
        exact .inl ⟨rest, sub, hsub, hmisses⟩
      | succ i =>
        refine .inr ⟨i, m, rest, sub, hm, hsub, ?_⟩
        rwa [← Nat.add_assoc, Nat.add_right_comm] at hmisses

end

end Message

end Parts

/-! ## Programs -/

/-- A type name of the program is not bound, and stands for nothing: in a request or a reply, or in
a message that a path leads to. -/
def Program.Misses (arena : Arena) (id : ProgramId) (program : Program) (fault : Unresolved) :
    Prop :=
  (∃ service ∈ program.schema.services, ∃ method ∈ service.methods,
    method.Misses (program.resolve? arena id) (program.resolveStub? arena id) service.name.value
      fault) ∨
  ∃ path message, program.schema.message? path = some message ∧
    message.Misses (program.resolve? arena id) id path fault

theorem Program.reports_bindReferences (arena : Arena) (id : ProgramId) (program : Program) :
    Reports (program.bindReferences arena id).2 (program.Misses arena id) := by
  rw [bindReferences_eq_inOrder]
  refine (Reports.mapUntil (Service.reports_bind _ _) program.schema.services).inOrder
    ((Message.reports_bindAll _ id [] 0 program.schema.messages).congr fun fault => ?_)
  simp only [Schema.message?_eq_some_iff, List.nil_append, Nat.zero_add]
  constructor
  · rintro ⟨i, m, rest, sub, hm, hsub, hmisses⟩
    exact ⟨_, sub, ⟨i, m, rest, rfl, hm, hsub⟩, hmisses⟩
  · rintro ⟨_, sub, ⟨i, m, rest, rfl, hm, hsub⟩, hmisses⟩
    exact ⟨i, m, rest, sub, hm, hsub, hmisses⟩

theorem Program.Misses.exists_part {fault : Unresolved} (h : program.Misses arena id fault) :
    (∃ (message : MethodMessage) (place : Place), message.Misses (program.resolve? arena id)
      (program.resolveStub? arena id) place fault) ∨
    ∃ (path : MessagePath) (message : Message), message.Misses (program.resolve? arena id) id path
      fault := by
  rcases h with ⟨service, -, method, -, ⟨message, -, h⟩ | ⟨message, -, h⟩⟩ | ⟨path, message, -, h⟩
  · exact .inl ⟨message, _, h⟩
  · exact .inl ⟨message, _, h⟩
  · exact .inr ⟨path, message, h⟩

theorem Program.bindReferences_ne_none
    {message : MethodMessage} (hmessage : message ∈ program.schema.methodMessages)
    (h : ∀ place, ∃ fault, message.Misses (program.resolve? arena id)
      (program.resolveStub? arena id) place fault) :
    (program.bindReferences arena id).2 ≠ none := by
  intro hbind
  have hmisses := (program.reports_bindReferences arena id).none hbind
  obtain ⟨service, hservice, method, hmethod, hrequest | hreply⟩ :=
    Schema.mem_methodMessages_iff.1 hmessage
  · obtain ⟨fault, hfault⟩ := h (.request service.name.value method.name.value)
    exact hmisses fault (.inl ⟨service, hservice, method, hmethod, .inl ⟨_, hrequest, hfault⟩⟩)
  · obtain ⟨fault, hfault⟩ := h (.reply service.name.value method.name.value)
    exact hmisses fault (.inl ⟨service, hservice, method, hmethod, .inr ⟨_, hreply, hfault⟩⟩)

end Idl
