import Idl.Proofs.Analysis.Rebinding
import Idl.Proofs.Grammar.Fresh
import Idl.Proofs.Schema.Sketch
import Mathlib.Logic.Function.Basic

/-!
# Other numbers

Programs refer to each other by number.  In another arena the same programs may have other numbers,
and nothing that is done to them depends on which: where the programs that a program imports look
alike, it is linked alike, and its type names are bound to the same declarations of the renumbered
programs.  The main statement is `Program.schema_bindReferences_renumber`.
-/

namespace Idl

open List

variable {α ε : Type} {schema : Schema} {linked : Program} {type : TypeName} {change : α → α}
  {xs : List α}

/-! ## Renumbering -/

section Renumber

variable (ρ : ProgramId → ProgramId)

def MessageRef.renumber (ref : MessageRef) : MessageRef := { ref with program := ρ ref.program }

def EnumRef.renumber (ref : EnumRef) : EnumRef := { ref with program := ρ ref.program }

def TypeRef.renumber : TypeRef → TypeRef
  | message ref => message (ref.renumber ρ)
  | enum ref => enum (ref.renumber ρ)

def TypeName.renumber (type : TypeName) : TypeName :=
  { type with target := type.target.map (·.renumber ρ) }

def Field.renumber (field : Field) : Field :=
  { field with type := field.type.mapCustom (·.renumber ρ) }

/-- Only what type names are bound to is redrawn. -/
def Redraw.renumber : Redraw := ⟨id, (·.renumber ρ), id, id, id⟩

def Message.renumber (m : Message) : Message := m.redraw (.renumber ρ)

theorem Message.renumber_eq (m : Message) :
    m.renumber ρ =
      { m with
        fields := m.fields.map (·.renumber ρ)
        messages := m.messages.map (·.renumber ρ) } := by
  rw [renumber, redraw_eq]
  simp only [Redraw.renumber, map_id, id]
  rfl

def MethodMessage.renumber : MethodMessage → MethodMessage
  | inline message => inline (message.renumber ρ)
  | stub name target => stub name (target.map (·.renumber ρ))

def Method.renumber (method : Method) : Method :=
  { method with
    request := method.request.map (·.renumber ρ)
    reply := method.reply.map (·.renumber ρ) }

def Service.renumber (service : Service) : Service :=
  { service with methods := service.methods.map (·.renumber ρ) }

def Import.renumber (item : Import) : Import := { item with target := item.target.map ρ }

def Schema.renumber (schema : Schema) : Schema :=
  { schema with
    imports := schema.imports.map (·.renumber ρ)
    services := schema.services.map (·.renumber ρ)
    messages := schema.messages.map (·.renumber ρ) }

theorem Schema.message?_renumber (schema : Schema) (path : MessagePath) :
    (schema.renumber ρ).message? path = (schema.message? path).map (·.renumber ρ) := by
  cases path with
  | nil => rfl
  | cons i path =>
    simp only [message?, renumber, getElem?_map]
    cases schema.messages[i]? with
    | none => rfl
    | some m => exact m.descend_redraw (.renumber ρ) path

/-- The programs that each name of an import stands for, by their new numbers. -/
def renumberReferences (references : Assoc String (List ProgramId)) :
    Assoc String (List ProgramId) :=
  references.map fun entry => (entry.1, entry.2.map ρ)

/-! ## What has no numbers to change -/

theorem FieldType.mapCustom_eq_self
    {f : TypeName → TypeName} {type : FieldType}
    (h : ∀ name, type.custom? = some name → f name = name) : type.mapCustom f = type := by
  have helem : type.elem.mapCustom f = type.elem := by
    unfold custom? at h
    cases helem : type.elem with
    | base base => rfl
    | custom name => rw [ElemType.mapCustom, h name (by rw [helem]; rfl)]
  cases type <;> exact congrArg _ helem

variable {ρ}

theorem Field.renumber_eq_self {field : Field} (h : field.Each fun type => type.renumber ρ = type) :
    field.renumber ρ = field := by
  rw [Field.renumber, FieldType.mapCustom_eq_self h]

theorem Message.renumber_eq_self
    {m : Message} (h : m.Each fun type => type.renumber ρ = type) : m.renumber ρ = m := by
  induction m using induction_nested with
  | h m ih =>
    obtain ⟨hfields, hmessages⟩ := each_iff.1 h
    rw [renumber_eq, map_eq_self fun field hfield => Field.renumber_eq_self (hfields field hfield),
      map_eq_self fun sub hsub => ih sub hsub (hmessages sub hsub)]
    cases m
    rfl

theorem Method.renumber_eq_self
    {method : Method} (h : ∀ message ∈ method.messages, message.renumber ρ = message) :
    method.renumber ρ = method := by
  have hself : ∀ message : Option MethodMessage, (∀ m ∈ message, m.renumber ρ = m) →
      message.map (·.renumber ρ) = message := by
    intro message hmessage
    cases message with
    | none => rfl
    | some m => rw [Option.map_some, hmessage m rfl]
  have hrequest := hself method.request fun m hm =>
    h m (mem_append_left _ (Option.mem_toList.2 hm))
  have hreply := hself method.reply fun m hm =>
    h m (mem_append_right _ (Option.mem_toList.2 hm))
  rw [Method.renumber, hrequest, hreply]

theorem Schema.renumber_eq_of_types
    (hservices : ∀ service ∈ schema.services, ∀ method ∈ service.methods,
      ∀ message ∈ method.messages, message.renumber ρ = message)
    (hmessages : ∀ message ∈ schema.messages, message.Each fun type => type.renumber ρ = type) :
    schema.renumber ρ = { schema with imports := schema.imports.map (·.renumber ρ) } := by
  have hservices' : schema.services.map (·.renumber ρ) = schema.services := by
    refine map_eq_self fun service hservice => ?_
    have hmethods : service.methods.map (·.renumber ρ) = service.methods :=
      map_eq_self fun method hmethod =>
        Method.renumber_eq_self (hservices service hservice method hmethod)
    rw [Service.renumber, hmethods]
  have hmessages' : schema.messages.map (·.renumber ρ) = schema.messages :=
    map_eq_self fun message hmessage => Message.renumber_eq_self (hmessages message hmessage)
  rw [Schema.renumber, hservices', hmessages']

theorem TypeName.renumber_of_unbound (h : type.Unbound) : type.renumber ρ = type := by
  obtain ⟨name, target⟩ := type
  obtain rfl : target = none := h
  rfl

theorem MethodMessage.renumber_of_fresh {message : MethodMessage} (h : message.Fresh) :
    message.renumber ρ = message := by
  cases h with
  | @inline name field hoptions htype =>
    have hfield : field.Each fun type => type.renumber ρ = type :=
      fun type hcustom => TypeName.renumber_of_unbound (htype type hcustom)
    have hmessage : (Message.ofStatements name [.field field]).Each
        fun type => type.renumber ρ = type :=
      Message.each_iff.2 ⟨forall_mem_singleton.2 hfield, forall_mem_nil _⟩
    exact congrArg inline (Message.renumber_eq_self hmessage)
  | stub name => rfl

theorem Schema.renumber_of_fresh (h : schema.Fresh) :
    schema.renumber ρ = { schema with imports := schema.imports.map (·.renumber ρ) } :=
  renumber_eq_of_types
    (fun service hservice method hmethod message hmessage =>
      MethodMessage.renumber_of_fresh (h.services service hservice method hmethod message hmessage))
    fun message hmessage => (h.messages message hmessage).mono fun _ => TypeName.renumber_of_unbound

theorem TypeName.renumber_id (type : TypeName) : type.renumber (fun id => id) = type := by
  obtain ⟨name, target⟩ := type
  cases target with
  | none => rfl
  | some target => cases target <;> rfl

theorem MethodMessage.renumber_id (message : MethodMessage) :
    message.renumber (fun id => id) = message := by
  cases message with
  | inline message =>
    exact congrArg inline (Message.renumber_eq_self fun _ _ _ _ _ type _ => type.renumber_id)
  | stub name target => cases target <;> rfl

theorem Schema.renumber_id (schema : Schema) : schema.renumber (fun id => id) = schema := by
  have himports : schema.imports.map (·.renumber fun id => id) = schema.imports := by
    simp [Import.renumber]
  rw [renumber_eq_of_types (fun _ _ _ _ message _ => message.renumber_id)
    fun _ _ _ _ _ _ _ type _ => type.renumber_id, himports]

end Renumber

/-! ## Binding -/

section Binding

variable {ρ : ProgramId → ProgramId} {resolve resolve' : TypeName → Option TypeRef}
  {resolveStub resolveStub' : String → Option MessageRef}

theorem inOrder_map
    {β : Type} (f : α → α) (g : β → β) (e : ε → ε) (first : α × Option ε) (y : β)
    (second : β × Option ε) :
    Rebound.inOrder (first.map f (Option.map e)) (g y) (second.map g (Option.map e)) =
      (Rebound.inOrder first y second).map (Prod.map f g) (Option.map e) := by
  obtain ⟨x, fault⟩ := first
  cases fault <;> rfl

theorem mapUntil_map
    {f f' : α → α × Option ε} {g : α → α} {e : ε → ε}
    (h : ∀ x ∈ xs, f' (g x) = (f x).map g (Option.map e)) :
    mapUntil f' (xs.map g) = (mapUntil f xs).map (List.map g) (Option.map e) := by
  induction xs with
  | nil => rfl
  | cons x xs ih =>
    obtain ⟨hx, hxs⟩ := forall_mem_cons.1 h
    rw [map_cons, mapUntil_cons, mapUntil_cons, hx, ih hxs, inOrder_map]
    rfl

/-- What stands for the type name once it is changed is what stood for it, under the new numbers. -/
def TypeName.Agrees (change : TypeName → TypeName) (ρ : ProgramId → ProgramId)
    (resolve resolve' : TypeName → Option TypeRef) (type : TypeName) : Prop :=
  resolve' (change type) = (resolve type).map (·.renumber ρ)

/-- Names are kept, and a field can be bound before or after it is redrawn, if what its type name
stands for agrees. -/
structure Redraw.Binds (how : Redraw) (change : TypeName → TypeName) (ρ : ProgramId → ProgramId)
    (fault : Unresolved → Unresolved) : Prop extends how.KeepsNames where
  type (type : TypeName) : (change type).name.value = type.name.value
  field {resolve resolve' : TypeName → Option TypeRef} {field : Field}
    (h : field.Each (TypeName.Agrees change ρ resolve resolve')) (place : Place) :
    (how.field field).bind resolve' place =
      (field.bind resolve place).map how.field (Option.map fault)

namespace Message

variable {how : Redraw} {change : TypeName → TypeName} {fault : Unresolved → Unresolved}

theorem find?_redraw
    (hhow : how.KeepsNames) (m : Message) (id : ProgramId) (path : MessagePath) (name : String) :
    (m.redraw how).find? (ρ id) path name = (m.find? id path name).map (·.renumber ρ) := by
  have hmessages : (m.redraw how).messageIndex? name = m.messageIndex? name := by
    rw [messageIndex?, messageIndex?, redraw_eq]
    simp only [findIdx?_map, Function.comp_def, name_redraw, hhow.name]
  have henums : (m.redraw how).enumIndex? name = m.enumIndex? name := by
    rw [enumIndex?, enumIndex?, redraw_eq]
    simp only [findIdx?_map, Function.comp_def, hhow.enum]
  unfold Message.find?
  rw [hmessages, henums]
  cases m.messageIndex? name with
  | some index => rfl
  | none =>
    rw [Option.map_map]
    rfl

theorem agrees_lookUp
    (hhow : how.Binds change ρ fault) (h : type.Agrees change ρ resolve resolve') (m : Message)
    (id : ProgramId) (path : MessagePath) :
    type.Agrees change ρ (m.lookUp resolve id path)
      ((m.redraw how).lookUp resolve' (ρ id) path) := by
  unfold TypeName.Agrees lookUp
  rw [hhow.type, find?_redraw hhow.toKeepsNames]
  cases m.find? id path type.name.value with
  | some target => rfl
  | none => exact h

mutual

/-- Binding a message and redrawing it is redrawing it and binding it. -/
theorem bind_redraw
    (hhow : how.Binds change ρ fault) (id : ProgramId) (path : MessagePath) : ∀ m : Message,
    m.Each (TypeName.Agrees change ρ resolve resolve') →
    (m.redraw how).bind resolve' (ρ id) path =
      (m.bind resolve id path).map (·.redraw how) (Option.map fault)
  | ⟨name, doc, fields, messages, enums, options⟩, h => by
    obtain ⟨hfields, hmessages⟩ := each_iff.1 h
    have hbound := mapUntil_map fun field hfield => hhow.field
      (fun type htype => agrees_lookUp hhow (hfields field hfield type htype)
        ⟨name, doc, fields, messages, enums, options⟩ id path) (.message name.value)
    have hbelow := bindAll_redraw hhow id path 0 messages hmessages
    rw [bind_eq, bind_eq, redraw_eq]
    rw [redraw_eq] at hbound
    dsimp only at hbound ⊢
    rw [hhow.name, hbound, hbelow, inOrder_map]
    exact Prod.ext (redraw_eq how ⟨_, _, _, _, _, _⟩).symm rfl

theorem bindAll_redraw
    (hhow : how.Binds change ρ fault) (id : ProgramId) (path : MessagePath) (index : Nat) :
    ∀ messages : List Message,
    (∀ m ∈ messages, m.Each (TypeName.Agrees change ρ resolve resolve')) →
    bindAll resolve' (ρ id) path index (messages.map (·.redraw how)) =
      (bindAll resolve id path index messages).map (List.map (·.redraw how)) (Option.map fault)
  | [], _ => by
    rw [map_nil, bindAll, bindAll]
    rfl
  | message :: messages, h => by
    obtain ⟨hfirst, hrest⟩ := forall_mem_cons.1 h
    rw [map_cons, bindAll_cons, bindAll_cons, bind_redraw hhow id (path ++ [index]) message hfirst,
      bindAll_redraw hhow id path (index + 1) messages hrest, inOrder_map]
    rfl

end

end Message

theorem Redraw.binds_renumber : (Redraw.renumber ρ).Binds (·.renumber ρ) ρ fun e => e where
  name _ := rfl
  enum _ := rfl
  type _ := rfl
  field {resolve resolve' field} h place := by
    unfold Field.bind
    simp only [Redraw.renumber, Field.renumber, FieldType.custom?_mapCustom]
    cases hcustom : field.type.custom? with
    | none => rfl
    | some type =>
      have htarget : (type.renumber ρ).target.isSome = type.target.isSome := Option.isSome_map
      simp only [Option.map_some, htarget, show resolve' (type.renumber ρ) = _ from h type hcustom]
      split
      · rfl
      · cases resolve type with
        | none => rfl
        | some target =>
          simp only [Option.map_some, Prod.map, FieldType.mapCustom_mapCustom]
          rfl

section Services

variable (hresolve : ∀ type : TypeName, type.Agrees (·.renumber ρ) ρ resolve resolve')
  (hstub : ∀ name, resolveStub' name = (resolveStub name).map (·.renumber ρ))

include hresolve hstub

theorem MethodMessage.bind?_renumber (place : Place) (message : Option MethodMessage) :
    MethodMessage.bind? resolve' resolveStub' place (message.map (·.renumber ρ)) =
      (MethodMessage.bind? resolve resolveStub place message).map (Option.map (·.renumber ρ))
        (Option.map fun e => e) := by
  cases message with
  | none => rfl
  | some message =>
    cases message with
    | inline message =>
      have hfields := mapUntil_map fun field (_ : field ∈ message.fields) =>
        Redraw.binds_renumber.field (fun type _ => hresolve type) place
      simp only [Redraw.renumber] at hfields
      rw [Option.map_some, MethodMessage.renumber, Message.renumber_eq]
      simp only [bind?, MethodMessage.bind, hfields]
      exact congrArg (fun m => (some (inline m), _)) (Message.renumber_eq ρ ⟨_, _, _, _, _, _⟩).symm
    | stub name target =>
      cases target with
      | some target => rfl
      | none =>
        simp only [Option.map_some, bind?, MethodMessage.renumber, Option.map_none,
          MethodMessage.bind, hstub]
        cases resolveStub name.value <;> rfl

theorem Method.bind_renumber (service : String) (method : Method) :
    (method.renumber ρ).bind resolve' resolveStub' service =
      (method.bind resolve resolveStub service).map (·.renumber ρ) (Option.map fun e => e) := by
  rw [Method.bind_eq, Method.bind_eq]
  simp only [Method.renumber, MethodMessage.bind?_renumber hresolve hstub, inOrder_map]
  rfl

theorem Service.bind_renumber (service : Service) :
    (service.renumber ρ).bind resolve' resolveStub' =
      (service.bind resolve resolveStub).map (·.renumber ρ) (Option.map fun e => e) := by
  have hmethods := mapUntil_map fun method (_ : method ∈ service.methods) =>
    method.bind_renumber hresolve hstub service.name.value
  simp only [Service.bind, Service.renumber, hmethods]
  rfl

end Services

end Binding

/-! ## Linking -/

section Linking

variable {ρ : ProgramId → ProgramId} {arena arena' : Arena} {id : ProgramId}
  {program program' : Program}

/-- The program of a number looks like that of the new number in the other arena. -/
def Arena.Alike (ρ : ProgramId → ProgramId) (arena arena' : Arena) (id : ProgramId) : Prop :=
  arena'[ρ id]?.map Program.outline = arena[id]?.map Program.outline

/-- All programs that names of imports stand for look alike. -/
def Arena.AlikeAll (ρ : ProgramId → ProgramId) (arena arena' : Arena)
    (references : Assoc String (List ProgramId)) : Prop :=
  ∀ entry ∈ references, ∀ id ∈ entry.2, Arena.Alike ρ arena arena' id

namespace Arena

theorem imported?_renumber {item : Import} (halike : ∀ id ∈ item.target, Alike ρ arena arena' id) :
    (arena'.imported? (item.renumber ρ)).map (fun found => (found.1, found.2.package)) =
      (arena.imported? item).map fun found => (ρ found.1, found.2.package) := by
  cases htarget : item.target with
  | none => simp [imported?, Import.renumber, htarget]
  | some id =>
    have hpackage := congrArg (Option.map Prod.fst) (halike id htarget)
    simp only [Option.map_map, Function.comp_def, Program.outline] at hpackage
    cases hprogram : arena[id]? <;> cases hprogram' : arena'[ρ id]? <;>
      simp_all [imported?, Import.renumber]

theorem linkFrom_renumber
    (hρ : Function.Injective ρ) {linked : Assoc String (List ProgramId)} {imports : List Import}
    (himports : ∀ item ∈ imports, ∀ id ∈ item.target, Alike ρ arena arena' id)
    (h : arena.linkFrom [] imports = .ok linked) :
    arena'.linkFrom [] (imports.map (·.renumber ρ)) = .ok (renumberReferences ρ linked) ∧
      AlikeAll ρ arena arena' linked := by
  refine ⟨linkFrom_map hρ (fun item hitem => ⟨rfl, imported?_renumber (himports item hitem)⟩) h,
    fun entry hentry i hi => ?_⟩
  obtain ⟨-, -, rfl⟩ := linkFrom_eq_ok_iff.1 h
  obtain ⟨name, -, rfl⟩ := mem_map.1 hentry
  obtain ⟨item, hitem, program, himported, -⟩ := mem_named_iff.1 (mem_eraseDups.1 hi)
  exact himports item hitem i (imported?_eq_some_iff.1 himported).1

theorem Alike.bind_eq
    (h : Alike ρ arena arena' id) (find : ProgramId → String × Scope → Option α)
    (hfind : ∀ id outline, find (ρ id) outline = (find id outline).map change) :
    (arena'[ρ id]?.bind fun program => find (ρ id) program.outline) =
      (arena[id]?.bind fun program => find id program.outline).map change := by
  have hbind : ∀ (arena : Arena) (id id' : ProgramId),
      (arena[id]?.bind fun program => find id' program.outline) =
        (arena[id]?.map Program.outline).bind (find id') := by
    intro arena id id'
    rw [Option.bind_map]
    rfl
  have halike : arena'[ρ id]?.map Program.outline = arena[id]?.map Program.outline := h
  rw [hbind, hbind, halike, Option.map_bind]
  exact congrArg _ (funext fun outline => hfind id outline)

theorem findSome?_renumber
    {find find' : ProgramId → Option α} {ids : List ProgramId}
    (h : ∀ id ∈ ids, find' (ρ id) = (find id).map change) :
    (ids.map ρ).findSome? find' = (ids.findSome? find).map change := by
  induction ids with
  | nil => rfl
  | cons id ids ih =>
    obtain ⟨hid, hids⟩ := forall_mem_cons.1 h
    rw [map_cons, findSome?_cons, findSome?_cons, hid, ih hids]
    cases find id <;> rfl

end Arena

theorem Scope.findMessage?_renumber (scope : Scope) (id : ProgramId) (name : String) :
    scope.findMessage? (ρ id) name = (scope.findMessage? id name).map (·.renumber ρ) := by
  rw [findMessage?, findMessage?, Option.map_map]
  rfl

theorem Scope.find?_renumber (scope : Scope) (id : ProgramId) (name : String) :
    scope.find? (ρ id) name = (scope.find? id name).map (·.renumber ρ) := by
  unfold find?
  rw [scope.findMessage?_renumber]
  cases scope.findMessage? id name with
  | some ref => rfl
  | none =>
    simp only [Option.map_none, Option.map_map]
    rfl

namespace Program

/-- The second program answers to the names that the first answers to, and in the same way. -/
structure Mirrors (program program' : Program) : Prop where
  package : program'.package = program.package
  find : ∀ id name, program'.scope.find? id name = program.scope.find? id name

/-- A type name stands for the same declaration, of the program of the new number, if that is so in
the programs that it may be qualified with. -/
theorem agrees_resolve?
    (hself : program.Mirrors program') {change : TypeName → TypeName}
    (hchange : (change type).name.value = type.name.value)
    (hreferences : ∀ reference name, type.qualified? = some (reference, name) →
      program'.references.bind (·.lookup reference) =
          (program.references.bind (·.lookup reference)).map (List.map ρ) ∧
        ∀ ids ∈ program.references.bind (·.lookup reference), ∀ i ∈ ids,
          (arena'[ρ i]?.bind (·.scope.find? (ρ i) name)) =
            (arena[i]?.bind (·.scope.find? i name)).map (·.renumber ρ)) (id : ProgramId) :
    type.Agrees change ρ (program.resolve? arena id) (program'.resolve? arena' (ρ id)) := by
  have hqualified : (change type).qualified? = type.qualified? := congrArg splitLastDot? hchange
  unfold TypeName.Agrees resolve?
  rw [hqualified, hself.package]
  cases htype : type.qualified? with
  | none =>
    dsimp only
    rw [hchange, hself.find, program.scope.find?_renumber]
  | some split =>
    obtain ⟨reference, name⟩ := split
    obtain ⟨hlookup, hfind⟩ := hreferences reference name htype
    dsimp only
    rw [hlookup]
    cases hids : program.references.bind (·.lookup reference) with
    | none =>
      simp only [Option.map_none]
      split
      · rw [hself.find, program.scope.find?_renumber]
      · rfl
    | some ids => exact Arena.findSome?_renumber (hfind ids hids)

theorem resolve?_renumber
    (houtline : program'.outline = program.outline)
    (hreferences : program'.references = program.references.map (renumberReferences ρ))
    (halike : ∀ references ∈ program.references, Arena.AlikeAll ρ arena arena' references)
    (id : ProgramId) (type : TypeName) :
    type.Agrees (·.renumber ρ) ρ (program.resolve? arena id) (program'.resolve? arena' (ρ id)) := by
  obtain ⟨hpackage, hscope⟩ := Prod.mk.inj houtline
  refine agrees_resolve? ⟨hpackage, fun id name => by rw [hscope]⟩ rfl
    (fun reference name _ => ⟨?_, fun ids hids i hi => ?_⟩) id
  · rw [hreferences]
    cases program.references with
    | none => rfl
    | some references => exact Assoc.lookup_map_values (List.map ρ) references reference
  · obtain ⟨references, hreferences, hfound⟩ := Option.bind_eq_some_iff.1 hids
    exact (halike references hreferences _ (Assoc.mem_of_lookup_eq_some hfound) i hi).bind_eq
      (fun id outline => outline.2.find? id name) fun id outline => outline.2.find?_renumber id name

theorem resolveStub?_renumber
    (houtline : program'.outline = program.outline)
    (hreferences : program'.references = program.references.map (renumberReferences ρ))
    (halike : ∀ references ∈ program.references, Arena.AlikeAll ρ arena arena' references)
    (id : ProgramId) (name : String) :
    program'.resolveStub? arena' (ρ id) name =
      (program.resolveStub? arena id name).map (·.renumber ρ) := by
  have hpackage : program'.package = program.package := congrArg Prod.fst houtline
  have hscope : program'.scope = program.scope := congrArg Prod.snd houtline
  unfold resolveStub?
  rw [hpackage, hscope]
  cases splitLastDot? name with
  | none => exact program.scope.findMessage?_renumber id name
  | some split =>
    obtain ⟨package, short⟩ := split
    dsimp only
    split
    · exact program.scope.findMessage?_renumber id short
    · have hids : (program'.references.getD []).flatMap (·.2) =
          ((program.references.getD []).flatMap (·.2)).map ρ := by
        rw [hreferences]
        cases program.references with
        | none => rfl
        | some references => simp [renumberReferences, flatMap_map, map_flatMap]
      rw [hids]
      refine Arena.findSome?_renumber fun i hi => ?_
      have hi : Arena.Alike ρ arena arena' i := by
        obtain ⟨entry, hentry, hi⟩ := mem_flatMap.1 hi
        cases hold : program.references with
        | none => simp [hold] at hentry
        | some references =>
          rw [hold, Option.getD_some] at hentry
          exact halike references hold entry hentry i hi
      refine hi.bind_eq
        (fun id outline => if outline.1 = package then outline.2.findMessage? id short else none)
        fun id outline => ?_
      split
      · exact outline.2.findMessage?_renumber id short
      · rfl

theorem link_renumber
    (hρ : Function.Injective ρ)
    (halike : ∀ i ∈ program.importTargets, Arena.Alike ρ arena arena' i)
    {table : Assoc String (List ProgramId)} (h : program.link arena = .ok table) :
    arena'.linkFrom [] (program.schema.imports.map (·.renumber ρ)) =
        .ok (renumberReferences ρ table) ∧
      Arena.AlikeAll ρ arena arena' table :=
  Arena.linkFrom_renumber hρ
    (fun item hitem i hi => halike i (mem_filterMap.2 ⟨item, hitem, hi⟩)) h

theorem bindReferences_renumber
    (hschema : program'.schema = program.schema.renumber ρ)
    (hscope : program'.scope = program.scope)
    (hreferences : program'.references = program.references.map (renumberReferences ρ))
    (halike : ∀ references ∈ program.references, Arena.AlikeAll ρ arena arena' references) :
    (program'.bindReferences arena' (ρ id)).1.schema =
      (program.bindReferences arena id).1.schema.renumber ρ := by
  have houtline : program'.outline = program.outline := by
    rw [outline, outline, hscope, package, hschema]
    rfl
  have hresolve := resolve?_renumber houtline hreferences halike id
  have hstub := resolveStub?_renumber houtline hreferences halike id
  have hservices := mapUntil_map fun service (_ : service ∈ program.schema.services) =>
    service.bind_renumber hresolve hstub
  have hmessages := Message.bindAll_redraw Redraw.binds_renumber id [] 0 program.schema.messages
    fun _ _ _ _ _ _ _ type _ => hresolve type
  rw [bindReferences_eq_inOrder, bindReferences_eq_inOrder, hschema]
  simp only [Schema.renumber, Message.renumber, hservices, hmessages, inOrder_map]
  rfl

theorem linkImports_congr
    (halike : ∀ i ∈ program.importTargets, Arena.Alike (fun id => id) arena arena' i)
    (hlink : program.linkImports arena = .ok linked) : program.linkImports arena' = .ok linked := by
  obtain ⟨table, htable, rfl⟩ := linkImports_eq_ok_iff.1 hlink
  refine linkImports_eq_ok_iff.2 ⟨table, ?_, rfl⟩
  obtain ⟨hlinked, -⟩ := link_renumber Function.injective_id halike htable
  rw [link]
  simpa [Import.renumber, renumberReferences] using hlinked

/-- The same program, in two arenas where the programs that it imports look alike, comes out the
same but for the numbers. -/
theorem schema_bindReferences_renumber
    (hρ : Function.Injective ρ) (hschema : program'.schema = program.schema.renumber ρ)
    (hscope : program'.scope = program.scope) (hreferences : program.references = none)
    (hreferences' : program'.references = none)
    (halike : ∀ i ∈ program.importTargets, Arena.Alike ρ arena arena' i) {linked' : Program}
    (hlink : program.linkImports arena = .ok linked)
    (hlink' : program'.linkImports arena' = .ok linked') :
    (linked'.bindReferences arena' (ρ id)).1.schema =
      (linked.bindReferences arena id).1.schema.renumber ρ := by
  obtain ⟨table, htable, rfl⟩ := linkImports_eq_ok_iff.1 hlink
  obtain ⟨table', htable', rfl⟩ := linkImports_eq_ok_iff.1 hlink'
  obtain ⟨hlinked, hall⟩ := link_renumber hρ halike htable
  have himports : program'.schema.imports = program.schema.imports.map (·.renumber ρ) := by
    rw [hschema]
    rfl
  obtain rfl : renumberReferences ρ table = table' := by
    rw [link, himports] at htable'
    exact Except.ok.inj (hlinked.symm.trans htable')
  rw [hreferences, hreferences']
  refine bindReferences_renumber hschema hscope rfl ?_
  rintro _ ⟨⟩
  exact hall

end Program

end Linking

end Idl
