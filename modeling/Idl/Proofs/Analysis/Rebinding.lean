import Idl.Proofs.Analysis.Outline
import Idl.Proofs.Schema.Tree

/-!
# Binding type names

Binding goes through a schema in order, up to the first type name that stands for nothing.  Whatever
part of the schema it goes through, it changes nothing but what type names are bound to, binds them
only to what was found for them, leaves none unbound if it does not fail, and has nothing to do
where all are bound.  `Rebound` says all of this of one part, and is put together from part to part.
-/

namespace Idl

/-! ## Schemas without their bindings -/

namespace TypeName

def unbind (type : TypeName) : TypeName := { type with target := none }

def bindTo (type : TypeName) (target : TypeRef) : TypeName := { type with target := some target }

def Bound (type : TypeName) : Prop := type.target.isSome

end TypeName

theorem FieldType.custom?_mapCustom (f : TypeName → TypeName) (type : FieldType) :
    (type.mapCustom f).custom? = type.custom?.map f := by
  cases type with
  | single elem | list elem | map key elem => cases elem <;> rfl

theorem FieldType.mapCustom_mapCustom (f g : TypeName → TypeName) (type : FieldType) :
    (type.mapCustom f).mapCustom g = type.mapCustom fun name => g (f name) := by
  cases type with
  | single elem | list elem | map key elem => cases elem <;> rfl

def Field.unbind (field : Field) : Field := { field with type := field.type.mapCustom (·.unbind) }

namespace Message

mutual

def unbind : Message → Message
  | ⟨name, doc, fields, messages, enums, options⟩ =>
    ⟨name, doc, fields.map (·.unbind), unbindAll messages, enums, options⟩

def unbindAll : List Message → List Message
  | [] => []
  | message :: messages => message.unbind :: unbindAll messages

end

theorem unbindAll_eq_map (messages : List Message) :
    unbindAll messages = messages.map (·.unbind) := by
  induction messages with
  | nil => rfl
  | cons message messages ih => rw [unbindAll, ih, List.map_cons]

theorem unbind_eq (m : Message) :
    m.unbind =
      { m with fields := m.fields.map (·.unbind), messages := m.messages.map (·.unbind) } := by
  obtain ⟨name, doc, fields, messages, enums, options⟩ := m
  rw [unbind, unbindAll_eq_map]

theorem descend_unbind (m : Message) (path : List Nat) :
    m.unbind.descend path = (m.descend path).map (·.unbind) := by
  induction path generalizing m with
  | nil => rfl
  | cons i path ih =>
    rw [descend_cons, descend_cons, unbind_eq]
    simp only [List.getElem?_map]
    cases m.messages[i]? with
    | none => rfl
    | some sub => exact ih sub

end Message

namespace MethodMessage

def unbind : MethodMessage → MethodMessage
  | inline message => inline { message with fields := message.fields.map (·.unbind) }
  | stub name _ => stub name none

/-- The property holds of the type names of a made-up message, or of the bare name. -/
def Each (P : TypeName → Prop) : MethodMessage → Prop
  | inline message => ∀ field ∈ message.fields, field.Each P
  | stub name target => P ⟨name, target.map .message⟩

theorem Each.mono
    {P Q : TypeName → Prop} {message : MethodMessage} (h : message.Each P)
    (hPQ : ∀ type, P type → Q type) : message.Each Q := by
  cases message with
  | inline message => exact fun field hfield type htype => hPQ type (h field hfield type htype)
  | stub name target => exact hPQ _ h

end MethodMessage

namespace Method

def unbind (method : Method) : Method :=
  { method with
    request := method.request.map (·.unbind)
    reply := method.reply.map (·.unbind) }

def Each (P : TypeName → Prop) (method : Method) : Prop :=
  (∀ message ∈ method.request, message.Each P) ∧ ∀ message ∈ method.reply, message.Each P

end Method

namespace Service

def unbind (service : Service) : Service :=
  { service with methods := service.methods.map (·.unbind) }

def Each (P : TypeName → Prop) (service : Service) : Prop :=
  ∀ method ∈ service.methods, method.Each P

end Service

namespace Schema

def unbind (schema : Schema) : Schema :=
  { schema with
    services := schema.services.map (·.unbind)
    messages := schema.messages.map (·.unbind) }

/-- The property holds of every type name in the services and the messages. -/
def Each (P : TypeName → Prop) (schema : Schema) : Prop :=
  (∀ service ∈ schema.services, service.Each P) ∧ ∀ message ∈ schema.messages, message.Each P

variable {P Q : TypeName → Prop} {schema : Schema}

theorem forall_services_each_iff :
    (∀ service ∈ schema.services, service.Each P) ↔
      ∀ message ∈ schema.methodMessages, message.Each P := by
  simp only [mem_methodMessages_iff]
  constructor
  · rintro h message ⟨service, hservice, method, hmethod, hrequest | hreply⟩
    · exact (h service hservice method hmethod).1 message hrequest
    · exact (h service hservice method hmethod).2 message hreply
  · intro h service hservice method hmethod
    exact ⟨fun message hrequest => h message ⟨service, hservice, method, hmethod, .inl hrequest⟩,
      fun message hreply => h message ⟨service, hservice, method, hmethod, .inr hreply⟩⟩

/-- The type names of a schema are those of the messages that paths lead to, and those of requests
and replies. -/
theorem each_iff :
    schema.Each P ↔
      (∀ path message, schema.message? path = some message →
        ∀ field ∈ message.fields, field.Each P) ∧
      ∀ message ∈ schema.methodMessages, message.Each P := by
  rw [Schema.Each, and_comm]
  exact and_congr forall_message?_iff.symm forall_services_each_iff

theorem Each.mono (h : schema.Each P) (hPQ : ∀ type, P type → Q type) : schema.Each Q := by
  obtain ⟨hmessages, hmethods⟩ := each_iff.1 h
  exact each_iff.2 ⟨fun path message hmessage field hfield type htype =>
    hPQ type (hmessages path message hmessage field hfield type htype),
    fun message hmessage => (hmethods message hmessage).mono hPQ⟩

theorem methodMessages_unbind (schema : Schema) :
    schema.unbind.methodMessages = schema.methodMessages.map (·.unbind) := by
  simp [methodMessages, Method.messages, unbind, Service.unbind, Method.unbind, List.flatMap_map,
    List.map_flatMap, Option.toList_map]

end Schema

/-! ## One part after the other -/

def Rebound.inOrder {α β ε : Type} (first : α × Option ε) (y : β) (second : β × Option ε) :
    (α × β) × Option ε :=
  match first with
  | (x, some fault) => ((x, y), some fault)
  | (x, none) => ((x, second.1), second.2)

theorem mapUntil_cons {α ε : Type} (f : α → α × Option ε) (x : α) (xs : List α) :
    mapUntil f (x :: xs) =
      let result := Rebound.inOrder (f x) xs (mapUntil f xs)
      (result.1.1 :: result.1.2, result.2) := by
  rw [mapUntil]
  generalize f x = first
  obtain ⟨y, fault⟩ := first
  cases fault <;> rfl

namespace Message

/-- What a type name in a message stands for: a declaration nested in it, or else what it stands for
in the whole program. -/
def lookUp (resolve : TypeName → Option TypeRef) (id : ProgramId) (path : MessagePath)
    (message : Message) (type : TypeName) : Option TypeRef :=
  match message.find? id path type.name.value with
  | some target => some target
  | none => resolve type

theorem bind_eq
    (resolve : TypeName → Option TypeRef) (id : ProgramId) (path : MessagePath) (m : Message) :
    m.bind resolve id path =
      let result := Rebound.inOrder
        (mapUntil (·.bind (m.lookUp resolve id path) (.message m.name.value)) m.fields) m.messages
        (bindAll resolve id path 0 m.messages)
      ({ m with fields := result.1.1, messages := result.1.2 }, result.2) := by
  obtain ⟨name, doc, fields, messages, enums, options⟩ := m
  rw [Message.bind]
  dsimp only
  generalize hfirst : mapUntil (Field.bind (lookUp resolve id path
    ⟨name, doc, fields, messages, enums, options⟩) (.message name.value)) fields = first
  split
  next heq =>
    obtain rfl := hfirst.symm.trans heq
    rfl
  next heq =>
    obtain rfl := hfirst.symm.trans heq
    rfl

theorem bindAll_cons
    (resolve : TypeName → Option TypeRef) (id : ProgramId) (path : MessagePath) (index : Nat)
    (message : Message) (messages : List Message) :
    bindAll resolve id path index (message :: messages) =
      let result := Rebound.inOrder (message.bind resolve id (path ++ [index])) messages
        (bindAll resolve id path (index + 1) messages)
      (result.1.1 :: result.1.2, result.2) := by
  rw [bindAll]
  generalize message.bind resolve id (path ++ [index]) = first
  obtain ⟨message', fault⟩ := first
  cases fault <;> rfl

end Message

theorem Method.bind_eq
    (resolve : TypeName → Option TypeRef) (resolveStub : String → Option MessageRef)
    (service : String) (method : Method) :
    method.bind resolve resolveStub service =
      let result := Rebound.inOrder
        (MethodMessage.bind? resolve resolveStub (.request service method.name.value)
          method.request) method.reply
        (MethodMessage.bind? resolve resolveStub (.reply service method.name.value) method.reply)
      ({ method with request := result.1.1, reply := result.1.2 }, result.2) := by
  rw [Method.bind]
  generalize MethodMessage.bind? resolve resolveStub (.request service method.name.value)
    method.request = first
  obtain ⟨request, fault⟩ := first
  cases fault <;> rfl

/-- Binds the methods of a service in order. -/
def Service.bind (resolve : TypeName → Option TypeRef) (resolveStub : String → Option MessageRef)
    (service : Service) : Service × Option Unresolved :=
  let bound := mapUntil (·.bind resolve resolveStub service.name.value) service.methods
  ({ service with methods := bound.1 }, bound.2)

theorem Program.bindReferences_eq_inOrder (arena : Arena) (id : ProgramId) (program : Program) :
    program.bindReferences arena id =
      let result := Rebound.inOrder
        (mapUntil (·.bind (program.resolve? arena id) (program.resolveStub? arena id))
          program.schema.services) program.schema.messages
        (Message.bindAll (program.resolve? arena id) id [] 0 program.schema.messages)
      ({ program with
        schema := { program.schema with services := result.1.1, messages := result.1.2 } },
        result.2) := by
  rw [Program.bindReferences]
  dsimp only
  generalize hfirst : mapUntil (Service.bind _ _) program.schema.services = first
  split
  next heq =>
    obtain rfl := hfirst.symm.trans heq
    rfl
  next heq =>
    obtain rfl := hfirst.symm.trans heq
    rfl

/-! ## Binding part by part -/

/-- What binding does to a part of a schema, where `erase` forgets its bindings, `Each` says
something of all its type names, and `P` is what is known of a binding that was looked up. -/
structure Rebound {α ε : Type} (erase : α → α) (Each : (TypeName → Prop) → α → Prop)
    (P : TypeName → Prop) (part : α) (result : α × Option ε) : Prop where
  erase_eq : erase result.1 = erase part
  each : Each P part → Each P result.1
  bound : result.2 = none → Each TypeName.Bound result.1
  fixed : Each TypeName.Bound part → result = (part, none)

namespace Rebound

variable {α β ε : Type} {erase : α → α} {Each : (TypeName → Prop) → α → Prop}
  {erase' : β → β} {Each' : (TypeName → Prop) → β → Prop} {P : TypeName → Prop}

theorem of_inOrder
    {x : α} {y : β} {first : α × Option ε} {second : β × Option ε}
    (hx : Rebound erase Each P x first) (hy : Rebound erase' Each' P y second) :
    Rebound (Prod.map erase erase') (fun P parts => Each P parts.1 ∧ Each' P parts.2) P (x, y)
      (inOrder first y second) := by
  obtain ⟨x', fault⟩ := first
  cases fault with
  | some fault =>
    refine ⟨Prod.ext hx.erase_eq rfl, fun h => ⟨hx.each h.1, h.2⟩, nofun, fun h => ?_⟩
    cases hx.fixed h.1
  | none =>
    refine ⟨Prod.ext hx.erase_eq hy.erase_eq, fun h => ⟨hx.each h.1, hy.each h.2⟩,
      fun h => ⟨hx.bound rfl, hy.bound h⟩, fun h => ?_⟩
    cases hx.fixed h.1
    obtain rfl := hy.fixed h.2
    rfl

theorem map
    {x : α} {result : α × Option ε} (make : α → β) (h : Rebound erase Each P x result)
    (herase : ∀ x x', erase x = erase x' → erase' (make x) = erase' (make x'))
    (heach : ∀ P x, Each' P (make x) ↔ Each P x) :
    Rebound erase' Each' P (make x) (make result.1, result.2) where
  erase_eq := herase _ _ h.erase_eq
  each := fun hx => (heach P _).2 (h.each ((heach P _).1 hx))
  bound := fun hnone => (heach _ _).2 (h.bound hnone)
  fixed := fun hx => by rw [h.fixed ((heach _ _).1 hx)]

theorem cons
    {x : α} {xs : List α} {first : α × Option ε} {rest : List α × Option ε}
    (hfirst : Rebound erase Each P x first)
    (hrest : Rebound (List.map erase) (fun P xs => ∀ x ∈ xs, Each P x) P xs rest) :
    Rebound (List.map erase) (fun P xs => ∀ x ∈ xs, Each P x) P (x :: xs)
      ((inOrder first xs rest).1.1 :: (inOrder first xs rest).1.2, (inOrder first xs rest).2) := by
  refine (hfirst.of_inOrder hrest).map (fun parts : α × List α => parts.1 :: parts.2) ?_ ?_
  · rintro ⟨y, ys⟩ ⟨y', ys'⟩ heq
    simpa using heq
  · simp

theorem mapUntil {f : α → α × Option ε} {xs : List α} (h : ∀ x ∈ xs, Rebound erase Each P x (f x)) :
    Rebound (List.map erase) (fun P xs => ∀ x ∈ xs, Each P x) P xs (mapUntil f xs) := by
  induction xs with
  | nil => exact ⟨rfl, fun h => h, fun _ => by simp [Idl.mapUntil], fun _ => rfl⟩
  | cons x xs ih =>
    rw [mapUntil_cons]
    exact (h x List.mem_cons_self).cons (ih fun y hy => h y (List.mem_cons_of_mem _ hy))

end Rebound

/-! ## Fields and messages -/

section Parts

variable {P : TypeName → Prop} {resolve : TypeName → Option TypeRef}
  {resolveStub : String → Option MessageRef} {id : ProgramId}

/-- Whatever is looked up has the property once it is bound. -/
def Finds (P : TypeName → Prop) (resolve : TypeName → Option TypeRef) : Prop :=
  ∀ type target, resolve type = some target → P (type.bindTo target)

theorem Field.rebound (h : Finds P resolve) (place : Place) (field : Field) :
    Rebound Field.unbind Field.Each P field (field.bind resolve place) := by
  unfold Field.bind
  split
  next hcustom =>
    exact ⟨rfl, fun h => h, fun _ type htype => by simp [hcustom] at htype, fun _ => rfl⟩
  next type hcustom =>
    split
    next htarget =>
      refine ⟨rfl, fun h => h, fun _ other hother => ?_, fun _ => rfl⟩
      cases hcustom.symm.trans hother
      exact htarget
    next htarget =>
      have hunbound : ¬ field.Each TypeName.Bound := fun hbound => htarget (hbound type hcustom)
      split
      next => exact ⟨rfl, fun h => h, nofun, fun hbound => absurd hbound hunbound⟩
      next target hresolve =>
        have hnew : ∀ other, (field.type.mapCustom ({ · with target := some target })).custom? =
            some other → other = type.bindTo target := by
          intro other hother
          rw [FieldType.custom?_mapCustom, hcustom] at hother
          exact (Option.some.inj hother).symm
        refine ⟨?_, fun _ other hother => ?_, fun _ other hother => ?_,
          fun hbound => absurd hbound hunbound⟩
        · simp only [Field.unbind, FieldType.mapCustom_mapCustom]
          rfl
        · rw [hnew other hother]
          exact h type target hresolve
        · rw [hnew other hother]
          rfl

namespace Message

mutual

theorem rebound (path : MessagePath) : ∀ message : Message,
    (∀ rest sub, message.descend rest = some sub →
      Finds P (sub.lookUp resolve id (path ++ rest))) →
    Rebound Message.unbind Message.Each P message (message.bind resolve id path)
  | ⟨name, doc, fields, messages, enums, options⟩, h => by
    have hfields := Rebound.mapUntil fun field (_ : field ∈ fields) =>
      field.rebound (h [] _ rfl) (.message name.value)
    have hmessages := reboundAll path 0 messages fun i m hm rest sub hsub => by
      have hfinds := h (i :: rest) sub (by rw [descend_cons]; simp [hm, hsub])
      simpa using hfinds
    rw [List.append_nil] at hfields
    rw [bind_eq]
    refine (hfields.of_inOrder hmessages).map (fun parts : List Field × List Message =>
      (⟨name, doc, parts.1, parts.2, enums, options⟩ : Message)) ?_ ?_
    · rintro ⟨fields, messages⟩ ⟨fields', messages'⟩ heq
      simp only [Prod.map, Prod.mk.injEq] at heq
      simp only [Message.unbind, Message.unbindAll_eq_map, heq]
    · exact fun P parts => Message.each_iff

theorem reboundAll (path : MessagePath) (index : Nat) : ∀ messages : List Message,
    (∀ (i : Nat) (m : Message), messages[i]? = some m →
      ∀ rest sub, m.descend rest = some sub →
        Finds P (sub.lookUp resolve id (path ++ [index + i] ++ rest))) →
    Rebound (List.map Message.unbind) (fun P messages => ∀ m ∈ messages, m.Each P) P messages
      (bindAll resolve id path index messages)
  | [], _ => by
    rw [bindAll]
    exact ⟨rfl, fun h => h, fun _ => by simp, fun _ => rfl⟩
  | message :: messages, h => by
    have hfirst := rebound (path ++ [index]) message fun rest sub hsub =>
      h 0 message rfl rest sub hsub
    have hrest := reboundAll path (index + 1) messages fun i m hm rest sub hsub => by
      have hfinds := h (i + 1) m hm rest sub hsub
      rwa [← Nat.add_assoc, Nat.add_right_comm] at hfinds
    rw [bindAll_cons]
    exact hfirst.cons hrest

end

end Message

/-! ## Methods and services -/

/-- Whatever is looked up for a bare name has the property once it is bound. -/
def FindsStub (P : TypeName → Prop) (resolveStub : String → Option MessageRef) : Prop :=
  ∀ (name : Located String) ref, resolveStub name.value = some ref → P ⟨name, some (.message ref)⟩

theorem MethodMessage.rebound
    (h : Finds P resolve) (hstub : FindsStub P resolveStub) (place : Place)
    (message : MethodMessage) :
    Rebound MethodMessage.unbind MethodMessage.Each P message
      (message.bind resolve resolveStub place) := by
  cases message with
  | inline message =>
    have hfields := Rebound.mapUntil fun field (_ : field ∈ message.fields) =>
      field.rebound h place
    obtain ⟨name, doc, fields, messages, enums, options⟩ := message
    refine hfields.map (fun fields =>
      MethodMessage.inline ⟨name, doc, fields, messages, enums, options⟩) ?_ ?_
    · intro fields fields' heq
      simp only [MethodMessage.unbind, heq]
    · exact fun P fields => Iff.rfl
  | stub name target =>
    cases target with
    | some target => exact ⟨rfl, fun h => h, fun _ => rfl, fun _ => rfl⟩
    | none =>
      rw [MethodMessage.bind]
      split
      next target hresolve =>
        exact ⟨rfl, fun _ => hstub name target hresolve, fun _ => rfl, fun hbound => nomatch hbound⟩
      next => exact ⟨rfl, fun h => h, nofun, fun hbound => nomatch hbound⟩

theorem MethodMessage.rebound?
    (h : Finds P resolve) (hstub : FindsStub P resolveStub) (place : Place)
    (message : Option MethodMessage) :
    Rebound (Option.map MethodMessage.unbind) (fun P message => ∀ m ∈ message, m.Each P) P message
      (MethodMessage.bind? resolve resolveStub place message) := by
  cases message with
  | none => exact ⟨rfl, fun h => h, fun _ => by simp [bind?], fun _ => rfl⟩
  | some message =>
    refine (message.rebound h hstub place).map some ?_ ?_
    · intro message message' heq
      simp only [Option.map_some, heq]
    · simp

theorem Method.rebound
    (h : Finds P resolve) (hstub : FindsStub P resolveStub) (service : String) (method : Method) :
    Rebound Method.unbind Method.Each P method (method.bind resolve resolveStub service) := by
  have hrequest :=
    MethodMessage.rebound? h hstub (.request service method.name.value) method.request
  have hreply := MethodMessage.rebound? h hstub (.reply service method.name.value) method.reply
  rw [Method.bind_eq]
  refine (hrequest.of_inOrder hreply).map (fun parts =>
    { method with request := parts.1, reply := parts.2 }) ?_ ?_
  · rintro ⟨request, reply⟩ ⟨request', reply'⟩ heq
    simp only [Prod.map, Prod.mk.injEq] at heq
    simp only [Method.unbind, heq]
  · exact fun P parts => Iff.rfl

theorem Service.rebound
    (h : Finds P resolve) (hstub : FindsStub P resolveStub) (service : Service) :
    Rebound Service.unbind Service.Each P service (service.bind resolve resolveStub) := by
  have hmethods := Rebound.mapUntil fun method (_ : method ∈ service.methods) =>
    method.rebound h hstub service.name.value
  refine hmethods.map (fun methods => { service with methods }) ?_ ?_
  · intro methods methods' heq
    simp only [Service.unbind, heq]
  · exact fun P methods => Iff.rfl

end Parts

/-! ## Programs -/

/-- Binding the type names of a program, part by part. -/
theorem Program.rebound
    {P : TypeName → Prop} {arena : Arena} {id : ProgramId} {program : Program}
    (h : Finds P (program.resolve? arena id)) (hstub : FindsStub P (program.resolveStub? arena id))
    (hlocal : ∀ path message, program.schema.message? path = some message →
      Finds P (message.lookUp (program.resolve? arena id) id path)) :
    Rebound Schema.unbind Schema.Each P program.schema
      ((program.bindReferences arena id).1.schema, (program.bindReferences arena id).2) := by
  have hservices := Rebound.mapUntil fun service (_ : service ∈ program.schema.services) =>
    service.rebound h hstub
  have hmessages := Message.reboundAll [] 0 program.schema.messages fun i m hm rest sub hsub =>
    hlocal _ sub (Schema.message?_eq_some_iff.2 ⟨i, m, rest, by simp, hm, hsub⟩)
  rw [Program.bindReferences_eq_inOrder]
  refine (hservices.of_inOrder hmessages).map (fun parts =>
    { program.schema with services := parts.1, messages := parts.2 }) ?_ ?_
  · rintro ⟨services, messages⟩ ⟨services', messages'⟩ heq
    simp only [Prod.map, Prod.mk.injEq] at heq
    simp only [Schema.unbind, heq]
  · exact fun P parts => Iff.rfl

end Idl
