import Idl.Proofs.Analysis.Passes
import Idl.Proofs.Analysis.Unresolved
import Idl.Proofs.Analysis.Visits
import Idl.Proofs.Schema.Placed

/-!
# Ranges of clashes and references

The checks of a program visit the places of its declarations and report some of them; linking and
binding report places too.  So if all places of a schema are ranges of a text, whatever is reported
about the schema is reported at ranges of the text.
-/

namespace Idl

open Visit List

variable {options : List OptionDecl} {fault : Unresolved} {d : Definition} {clash : Clash}
  {m : Message}
variable {text : List Char} {place : Place} {resolve : TypeName → Option TypeRef}

namespace Clash

/-- The places of the clash are ranges of the text. -/
def Aligned (text : List Char) : Clash → Prop
  | repeated _ span first => span.Aligned text ∧ first.Aligned text
  | missingId _ method => method.span.Aligned text

theorem aligned_labels (h : clash.Aligned text) :
    ∀ label ∈ clash.diagnostic.labels, label.span.Aligned text := by
  cases clash with
  | repeated what span first =>
    simp only [diagnostic, forall_mem_cons]
    exact ⟨h.1, h.2, forall_mem_nil _⟩
  | missingId service method => exact forall_mem_singleton.2 h

end Clash

/-! ## Definitions -/

theorem Message.placed_descend
    {sub : Message} (h : Placed text Message.relabel m) {path : List Nat}
    (hsub : m.descend path = some sub) : Placed text Message.relabel sub := by
  induction path generalizing m with
  | nil => exact Option.some.inj hsub ▸ h
  | cons i path ih =>
    rw [descend_cons] at hsub
    obtain ⟨next, hnext, hsub⟩ := Option.bind_eq_some_iff.1 hsub
    exact ih ((Message.placed_iff.1 h).2.2.1 next (mem_of_getElem? hnext)) hsub

namespace Schema

variable {schema : Schema} (h : Placed text Schema.relabel schema)

include h

theorem placed_message? {path : MessagePath} (hm : schema.message? path = some m) :
    Placed text Message.relabel m := by
  obtain ⟨i, top, rest, -, htop, hm⟩ := message?_eq_some_iff.1 hm
  exact Message.placed_descend
    ((Schema.placed_iff.1 h).2.2.2.2.1 top (mem_of_getElem? htop)) hm

theorem placed_enum? {path : EnumPath} {e : EnumDef} (he : schema.enum? path = some e) :
    Placed text EnumDef.relabel e := by
  unfold enum? at he
  split at he
  next owner howner =>
    obtain ⟨m, hm, he⟩ := Option.bind_eq_some_iff.1 he
    exact (Message.placed_iff.1 (placed_message? h hm)).2.2.2.1 e (mem_of_getElem? he)
  next => exact (Schema.placed_iff.1 h).2.2.2.1 e (mem_of_getElem? he)

end Schema

namespace Definition

/-- All places of the definition are ranges of the text. -/
def Placed (text : List Char) : Definition → Prop
  | enum _ body => Idl.Placed text EnumDef.relabel body
  | message _ body => Idl.Placed text Message.relabel body
  | service body => Idl.Placed text Service.relabel body

theorem placed_of_mem
    {schema : Schema} (h : Idl.Placed text Schema.relabel schema) (hd : d ∈ schema.definitions) :
    d.Placed text := by
  cases d with
  | enum path body => exact Schema.placed_enum? h (Schema.mem_definitions_enum_iff.1 hd)
  | message path body => exact Schema.placed_message? h (Schema.mem_definitions_message_iff.1 hd)
  | service body =>
    exact (Schema.placed_iff.1 h).2.2.2.2.2.1 body (Schema.mem_definitions_service_iff.1 hd)

theorem aligned_name (h : d.Placed text) : d.name.span.Aligned text := by
  cases d with
  | enum path body => exact (EnumDef.placed_iff.1 h).1
  | message path body => exact (Message.placed_iff.1 h).1
  | service body => exact (Service.placed_iff.1 h).1

end Definition

/-! ## Visited places -/

namespace Visit

/-- The place of what is visited. -/
def span : Visit → Span
  | record entry => entry.span
  | missingId _ method => method.span

/-- A search reports places that it has visited. -/
theorem aligned_of_scan
    {seen : List Entry} {visits : List Visit} (hseen : ∀ entry ∈ seen, entry.span.Aligned text)
    (hvisits : ∀ visit ∈ visits, visit.span.Aligned text) (h : scan seen visits = .error clash) :
    clash.Aligned text := by
  fun_induction scan seen visits with
  | case1 => cases h
  | case2 seen entry visits first hfirst =>
    obtain rfl := Except.error.inj h
    exact ⟨(forall_mem_cons.1 hvisits).1, hseen first (mem_of_find?_eq_some hfirst)⟩
  | case3 seen entry visits _ ih =>
    obtain ⟨hentry, hmore⟩ := forall_mem_cons.1 hvisits
    exact ih (forall_mem_append.2 ⟨hseen, forall_mem_singleton.2 hentry⟩) hmore h
  | case4 seen service method visits =>
    obtain rfl := Except.error.inj h
    exact (forall_mem_cons.1 hvisits).1

end Visit

theorem aligned_flatMap_zipIdx
    {α : Type} {xs : List α} {first : Nat} {visits : α × Nat → List Visit}
    (h : ∀ x ∈ xs, ∀ i, ∀ visit ∈ visits (x, i), visit.span.Aligned text) :
    ∀ visit ∈ (xs.zipIdx first).flatMap visits, visit.span.Aligned text :=
  forall_mem_flatMap.2 fun (x, i) hx => h x (fst_mem_of_mem_zipIdx hx) i

theorem OptionDecl.aligned_visits
    (h : ∀ o ∈ options, Placed text OptionDecl.relabel o) (realm : Realm) (owner : OptionOwner) :
    ∀ visit ∈ visits realm owner options, visit.span.Aligned text := by
  simp only [visits, forall_mem_map]
  exact fun option hoption => OptionDecl.placed_iff.1 (h option hoption)

theorem EnumDef.aligned_visits
    {enum : EnumDef} (h : Placed text EnumDef.relabel enum) (index : Nat) :
    ∀ visit ∈ enum.visits index, visit.span.Aligned text := by
  obtain ⟨-, hvalues, hoptions⟩ := EnumDef.placed_iff.1 h
  refine forall_mem_append.2 ⟨?_, OptionDecl.aligned_visits hoptions _ _⟩
  refine forall_mem_flatMap.2 fun value hvalue => ?_
  have hname := EnumValue.placed_iff.1 (hvalues value hvalue)
  exact forall_mem_cons.2 ⟨hname, forall_mem_singleton.2 hname⟩

theorem Message.aligned_visits (h : Placed text Message.relabel m) (index : Nat) :
    ∀ visit ∈ m.visits index, visit.span.Aligned text := by
  obtain ⟨-, hfields, -, -, hoptions⟩ := Message.placed_iff.1 h
  refine forall_mem_append.2 ⟨?_, OptionDecl.aligned_visits hoptions _ _⟩
  refine aligned_flatMap_zipIdx fun field hfield i => ?_
  obtain ⟨hname, htag, -, hoptions⟩ := Field.placed_iff.1 (hfields field hfield)
  exact forall_mem_cons.2
    ⟨htag, forall_mem_cons.2 ⟨hname, OptionDecl.aligned_visits hoptions _ _⟩⟩

theorem Service.aligned_visits
    {service : Service} (h : Placed text Service.relabel service) (config : ParseConfig)
    (index : Nat) : ∀ visit ∈ service.visits config index, visit.span.Aligned text := by
  obtain ⟨-, hmethods, hoptions⟩ := Service.placed_iff.1 h
  refine forall_mem_append.2 ⟨aligned_flatMap_zipIdx fun method hmethod i => ?_,
    forall_mem_append.2 ⟨OptionDecl.aligned_visits hoptions _ _, ?_⟩⟩
  · obtain ⟨hname, -, -, -, hoptions⟩ := Method.placed_iff.1 (hmethods method hmethod)
    exact forall_mem_cons.2 ⟨hname, OptionDecl.aligned_visits hoptions _ _⟩
  · split
    · refine forall_mem_map.2 fun method hmethod => ?_
      obtain ⟨hname, -, -, hid, -⟩ := Method.placed_iff.1 (hmethods method hmethod)
      split
      next => exact hname
      next id hsome => exact hid id hsome
    · exact forall_mem_nil _

theorem Definition.aligned_visits (h : d.Placed text) (config : ParseConfig) (index : Nat) :
    ∀ visit ∈ d.visits config index, visit.span.Aligned text := by
  cases d with
  | enum path body => exact EnumDef.aligned_visits h index
  | message path body => exact Message.aligned_visits h index
  | service body => exact Service.aligned_visits h config index

namespace Schema

variable {schema : Schema} (h : Placed text Schema.relabel schema)

include h

theorem aligned_visits (config : ParseConfig) :
    ∀ visit ∈ schema.visits config, visit.span.Aligned text := by
  obtain ⟨-, -, hoptions, -, -, -, hprojects⟩ := Schema.placed_iff.1 h
  refine forall_mem_append.2 ⟨OptionDecl.aligned_visits hoptions _ _,
    forall_mem_append.2 ⟨aligned_flatMap_zipIdx fun d hd index => ?_,
      aligned_flatMap_zipIdx fun project hproject index => ?_⟩⟩
  · have hplaced := Definition.placed_of_mem h hd
    exact forall_mem_cons.2
      ⟨Definition.aligned_name hplaced, Definition.aligned_visits hplaced config index⟩
  · refine aligned_flatMap_zipIdx fun area harea number => ?_
    have hplaced := (Project.placed_iff.1 (hprojects project hproject)).2 area harea
    exact OptionDecl.aligned_visits (ProjectArea.placed_iff.1 hplaced).2 _ _

theorem aligned_importVisits : ∀ visit ∈ importVisits schema.imports, visit.span.Aligned text := by
  refine forall_mem_flatMap.2 fun item hitem => ?_
  obtain ⟨hfile, hlocal⟩ := Import.placed_iff.1 ((Schema.placed_iff.1 h).2.1 item hitem)
  refine forall_mem_cons.2 ⟨hfile, ?_⟩
  split
  next => exact forall_mem_nil _
  next name hsome => exact forall_mem_singleton.2 (hlocal name hsome)

theorem ends_checkImports : Ends (fun _ => True) (Clash.Aligned text) schema.checkImports :=
  .of_faults fun _ hclash => aligned_of_scan (forall_mem_nil _) (aligned_importVisits h)
    ((checkImports_eq_scan schema).symm.trans hclash)

theorem aligned_of_checkDefinitions
    {config : ParseConfig} {file : String} (hids : ∀ service ∈ schema.services, service.IdsApart)
    (hclash : ((Program.ofSchema file schema).checkDefinitions config).2 = some clash) :
    clash.Aligned text := by
  have hscan : scan [] (schema.visits config) = .error clash := by
    rw [← Program.raise_checkDefinitions_eq_scan file hids, hclash, Clash.raise]
  exact aligned_of_scan (forall_mem_nil _) (aligned_visits h config) hscan

end Schema

/-! ## Settings, links and references -/

namespace Setting

/-- A setting gives an option a value, or adds one at the start of the text. -/
theorem placed_applyTo (h : ∀ o ∈ options, Placed text OptionDecl.relabel o) (setting : Setting) :
    ∀ o ∈ setting.applyTo options, Placed text OptionDecl.relabel o := by
  induction options with
  | nil => exact forall_mem_singleton.2 (OptionDecl.placed_iff.2 (Span.Aligned.default text))
  | cons option options ih =>
    obtain ⟨hoption, hmore⟩ := forall_mem_cons.1 h
    have hkey := OptionDecl.placed_iff.1 hoption
    unfold applyTo
    split
    · exact forall_mem_cons.2 ⟨OptionDecl.placed_iff.2 hkey, hmore⟩
    · exact forall_mem_cons.2 ⟨hoption, ih hmore⟩

theorem placed_applyAll
    (h : ∀ o ∈ options, Placed text OptionDecl.relabel o) (settings : List Setting) :
    ∀ o ∈ applyAll settings options, Placed text OptionDecl.relabel o := by
  induction settings generalizing options with
  | nil => exact h
  | cons setting settings ih => exact ih (setting.placed_applyTo h)

end Setting

theorem Arena.ends_linkFrom
    {imports : List Import} (arena : Arena) (references : Assoc String (List ProgramId))
    (h : ∀ item ∈ imports, item.file.span.Aligned text) :
    Ends (fun _ => True) (fun fault => ∀ label ∈ fault.diagnostic.labels, label.span.Aligned text)
      (arena.linkFrom references imports) := by
  induction imports generalizing references with
  | nil => exact .ok trivial
  | cons item imports ih =>
    obtain ⟨hitem, hmore⟩ := forall_mem_cons.1 h
    unfold linkFrom
    split
    next => exact .error (forall_mem_singleton.2 hitem)
    next id program himported =>
      dsimp only
      split
      next => exact .error (forall_mem_singleton.2 hitem)
      next => exact ih _ hmore

namespace Unresolved

/-- The type name that stands for nothing. -/
def name : Unresolved → Located String
  | fieldType name _ _ | methodMessage name _ => name

theorem labels_diagnostic (fault : Unresolved) :
    fault.diagnostic.labels.map (·.span) = [fault.name.span] := by
  cases fault <;> rfl

end Unresolved

theorem Field.aligned_of_misses
    {field : Field} (h : Placed text Field.relabel field)
    (hfault : field.Misses resolve place fault) : fault.name.span.Aligned text := by
  obtain ⟨type, hcustom, -, -, rfl⟩ := hfault
  exact ElemType.placed_iff.1 (FieldType.placed_iff.1 (Field.placed_iff.1 h).2.2.1) type hcustom

theorem MethodMessage.aligned_of_misses
    {m : MethodMessage} (h : Placed text MethodMessage.relabel m)
    {resolveStub : String → Option MessageRef} (hfault : m.Misses resolve resolveStub place fault) :
    fault.name.span.Aligned text := by
  cases m with
  | inline message =>
    obtain ⟨field, hfield, hfault⟩ := hfault
    have hmessage := Message.placed_iff.1 (MethodMessage.placed_inline_iff.1 h)
    exact Field.aligned_of_misses (hmessage.2.1 field hfield) hfault
  | stub name target =>
    obtain ⟨-, -, rfl⟩ := hfault
    exact MethodMessage.placed_stub_iff.1 h

namespace Program

variable {program : Program} (h : Placed text Schema.relabel program.schema)

include h

theorem ends_linkImports (arena : Arena) :
    Ends (fun linked => linked.file = program.file ∧ linked.schema = program.schema)
      (fun fault => ∀ label ∈ fault.diagnostic.labels, label.span.Aligned text)
      (program.linkImports arena) := by
  have himports := fun item hitem =>
    (Import.placed_iff.1 ((Schema.placed_iff.1 h).2.1 item hitem)).1
  exact (Arena.ends_linkFrom arena [] himports).bind fun _ _ => .ok ⟨rfl, rfl⟩

theorem aligned_of_bindReferences
    {arena : Arena} {id : ProgramId} (hfault : (program.bindReferences arena id).2 = some fault) :
    fault.name.span.Aligned text := by
  rcases (program.reports_bindReferences arena id).fault fault hfault with
    ⟨service, hservice, method, hmethod, hmisses⟩ | ⟨path, m, hm, field, hfield, hmisses⟩
  · have hplaced := (Schema.placed_iff.1 h).2.2.2.2.2.1 service hservice
    obtain ⟨-, hrequest, hreply, -⟩ :=
      Method.placed_iff.1 ((Service.placed_iff.1 hplaced).2.1 method hmethod)
    rcases hmisses with ⟨m, hm, hmisses⟩ | ⟨m, hm, hmisses⟩
    · exact MethodMessage.aligned_of_misses (hrequest m hm) hmisses
    · exact MethodMessage.aligned_of_misses (hreply m hm) hmisses
  · have hplaced := Message.placed_iff.1 (Schema.placed_message? h hm)
    exact Field.aligned_of_misses (hplaced.2.1 field hfield) hmisses

end Program

end Idl
