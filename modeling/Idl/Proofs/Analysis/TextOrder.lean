import Idl.Proofs.Analysis.Repetition

/-!
# The order of visits and the order of the text

What is visited in one scope is visited in the order of the text, with one exception: definitions
are visited kind by kind, so an enum comes before the messages beside it, and types come before
services.  So a check that finds something twice in a text of the native notation blames the later
one, unless the two are definitions of such kinds: the main statement.
-/

namespace Idl

open Visit List

variable {index : Nat} {config : ParseConfig}
variable {path : MessagePath} {m : Message} {d : Definition} {entry : Entry} {α : Type}
  {visits' : List Visit} {items : List α} {R : α → α → Prop} {f : α × Nat → List Visit}

/-! ## Definitions -/

/-- The kinds of the definitions decide that the first is visited before the second: it is an enum,
and the second is a message beside it or stands in one; or it is a type, and the second is a
service. -/
def Definition.Parted : Definition → Definition → Prop
  | enum path _, message path' _ => ∃ i rest, path' = path.owner.getD [] ++ i :: rest
  | enum path _, enum path' _ => ∃ i rest, path'.owner = some (path.owner.getD [] ++ i :: rest)
  | enum _ _, service _ => True
  | message _ _, service _ => True
  | _, _ => False

/-- The name of the first definition starts before that of the second, unless their kinds decide. -/
def Definition.Leads (d d' : Definition) : Prop :=
  d.name.span.start < d'.name.span.start ∨ d.Parted d'

theorem Definition.pairwise_enums
    {enums : List EnumDef} (h : Layout.enum.InOrder enums) (owner : Option MessagePath) :
    (Definition.enums owner enums).Pairwise Leads :=
  pairwise_map.2 ((pairwise_zipIdx h.pairwise 0).imp fun hbefore =>
    .inl (hbefore.1 _ _ rfl rfl))

namespace Message

theorem Owns.name_mem (h : m.Owns path d) :
    d.name.span ∈ m.nameSpans := by
  rcases h with rfl | h
  · exact mem_cons_self
  · obtain ⟨index, body, rfl, hbody⟩ := Definition.mem_enums_iff.1 h
    exact mem_cons_of_mem _ (mem_map_of_mem (mem_of_getElem? hbody))

theorem Owns.parted
    {owner : Option MessagePath} {i : Nat} {rest : List Nat}
    (h : m.Owns (owner.getD [] ++ [i] ++ rest) d) (body : EnumDef) :
    Definition.Parted (.enum ⟨owner, index⟩ body) d := by
  rw [append_assoc] at h
  rcases h with rfl | h
  · exact ⟨i, rest, rfl⟩
  · obtain ⟨index, body, rfl, -⟩ := Definition.mem_enums_iff.1 h
    exact ⟨i, rest, rfl⟩

theorem holds_of_mem_definitions (h : d ∈ m.definitions path) :
    m.Holds d.name.span := by
  obtain ⟨rest, sub, hsub, hown⟩ := (mem_definitions_iff path m).1 h
  exact ⟨rest, sub, hsub, hown.name_mem⟩

theorem exists_of_mem_allDefinitions
    {first : Nat} {messages : List Message} (h : d ∈ allDefinitions path first messages) :
    (∃ m ∈ messages, m.Holds d.name.span) ∧
      ∃ i rest, ∃ sub : Message, sub.Owns (path ++ [i] ++ rest) d := by
  obtain ⟨i, m, rest, hm, sub, hsub, hown⟩ := (mem_allDefinitions_iff path first messages).1 h
  exact ⟨⟨m, mem_of_getElem? hm, rest, sub, hsub, hown.name_mem⟩, _, rest, sub, hown⟩

theorem pairwise_enums_append
    (owner : Option MessagePath) {enums : List EnumDef} {messages : List Message}
    (henums : Layout.enum.InOrder enums)
    (h : (allDefinitions (owner.getD []) 0 messages).Pairwise Definition.Leads) :
    (Definition.enums owner enums ++ allDefinitions (owner.getD []) 0 messages).Pairwise
      Definition.Leads := by
  refine pairwise_append.2 ⟨Definition.pairwise_enums henums owner, h, fun d hd d' hd' => ?_⟩
  obtain ⟨index, body, rfl, -⟩ := Definition.mem_enums_iff.1 hd
  obtain ⟨-, i, rest, sub, hown⟩ := exists_of_mem_allDefinitions hd'
  exact .inr (hown.parted body)

mutual

theorem pairwise_definitions (path : MessagePath) : ∀ m : Message, Layout.message.Sorted m →
    (m.definitions path).Pairwise Definition.Leads
  | ⟨name, doc, fields, messages, enums, options⟩, h => by
    obtain ⟨hlevel, hmessages⟩ := Message.forall_descend_iff.1 h
    rw [definitions, cons_append, pairwise_cons]
    refine ⟨fun d hd => .inl ?_, pairwise_enums_append (some path) hlevel.enums
      (pairwise_allDefinitions path 0 messages hlevel.messages hmessages)⟩
    rcases mem_append.1 hd with hd | hd
    · obtain ⟨index, body, rfl, hbody⟩ := Definition.mem_enums_iff.1 hd
      exact hlevel.enum_behind body (mem_of_getElem? hbody)
    · obtain ⟨⟨m, hm, hholds⟩, -⟩ := exists_of_mem_allDefinitions hd
      exact hlevel.message_behind m hm _ hholds

theorem pairwise_allDefinitions (path : MessagePath) (first : Nat) : ∀ messages : List Message,
    messages.Pairwise (Layout.places Message.Holds).Before →
    (∀ m ∈ messages, Layout.message.Sorted m) →
    (allDefinitions path first messages).Pairwise Definition.Leads
  | [], _, _ => by
    rw [allDefinitions]
    exact .nil
  | m :: messages, hbefore, h => by
    obtain ⟨hfirst, hbehind⟩ := pairwise_cons.1 hbefore
    obtain ⟨hm, hmore⟩ := forall_mem_cons.1 h
    rw [allDefinitions, pairwise_append]
    refine ⟨pairwise_definitions _ m hm, pairwise_allDefinitions path (first + 1) messages hbehind
      hmore, fun d hd d' hd' => ?_⟩
    obtain ⟨⟨m', hm', hholds⟩, -⟩ := exists_of_mem_allDefinitions hd'
    exact .inl (hfirst m' hm' _ _ (holds_of_mem_definitions hd) hholds)

end

end Message

theorem Schema.InOrder.definitions {schema : Schema} (h : schema.InOrder) :
    schema.definitions.Pairwise Definition.Leads := by
  refine pairwise_append.2 ⟨Message.pairwise_enums_append none h.enums
    (Message.pairwise_allDefinitions [] 0 _ h.messages.pairwise h.messages.sorted),
    pairwise_map.2 (h.services.pairwise.imp fun hbefore => .inl (hbefore _ _ rfl rfl)),
    fun d hd d' hd' => .inr ?_⟩
  obtain ⟨service, -, rfl⟩ := mem_map.1 hd'
  rcases mem_append.1 hd with hd | hd
  · obtain ⟨_, _, rfl, -⟩ := Definition.mem_enums_iff.1 hd
    trivial
  · obtain ⟨-, i, rest, sub, rfl | hd⟩ := Message.exists_of_mem_allDefinitions hd
    · trivial
    · obtain ⟨_, _, rfl, -⟩ := Definition.mem_enums_iff.1 hd
      trivial

/-! ## Visits -/

variable {ds : List Definition}

/-- In one scope, the first entry starts before the second, unless they are of definitions whose
kinds decide. -/
def Entry.Leads (ds : List Definition) (first entry : Entry) : Prop :=
  first.realm = entry.realm → first.span.start < entry.span.start ∨
    ∃ d ∈ ds, ∃ d' ∈ ds, d.entry = first ∧ d'.entry = entry ∧ d.Parted d'

theorem Entry.Leads.of_ne {first : Entry} (h : first.realm ≠ entry.realm) :
    first.Leads ds entry :=
  fun heq => (h heq).elim

theorem Entry.Leads.of_lt {first : Entry} (h : first.span.start < entry.span.start) :
    first.Leads ds entry :=
  fun _ => .inl h

namespace Visit

def Leads (ds : List Definition) : Visit → Visit → Prop
  | record first, record entry => first.Leads ds entry
  | _, _ => True

/-- What is recorded is visited in the order of the text, scope by scope. -/
abbrev InOrder (ds : List Definition) (visits : List Visit) : Prop := visits.Pairwise (Leads ds)

theorem leads_of
    {visits : List Visit} (h : ∀ entry, record entry ∈ visits → ∀ entry', record entry' ∈ visits' →
      entry.Leads ds entry') : ∀ v ∈ visits, ∀ v' ∈ visits', v.Leads ds v' := by
  intro v hv v' hv'
  cases v with
  | missingId => trivial
  | record entry =>
    cases v' with
    | missingId => trivial
    | record entry' => exact h entry hv entry' hv'

/-- Visits of different scopes may come in any order. -/
theorem inOrder_append
    {visits : List Visit} (h : InOrder ds visits) (h' : InOrder ds visits')
    (hne : ∀ entry, record entry ∈ visits → ∀ entry', record entry' ∈ visits' →
      entry.realm ≠ entry'.realm) : InOrder ds (visits ++ visits') :=
  pairwise_append.2 ⟨h, h', leads_of fun entry hentry entry' hentry' =>
    .of_ne (hne entry hentry entry' hentry')⟩

theorem inOrder_append_of_stays
    {P Q : Table → Prop} {visits : List Visit} (h : InOrder ds visits) (h' : InOrder ds visits')
    (hstays : Stays index P visits) (hstays' : Stays index Q visits')
    (hPQ : ∀ table, P table → ¬Q table) : InOrder ds (visits ++ visits') := by
  refine inOrder_append h h' fun entry hentry entry' hentry' heq => ?_
  obtain ⟨table, htable, hrealm⟩ := hstays entry hentry
  obtain ⟨table', htable', hrealm'⟩ := hstays' entry' hentry'
  obtain ⟨-, rfl⟩ := Realm.inside.inj (hrealm.symm.trans (heq.trans hrealm'))
  exact hPQ table htable htable'

/-- Numbered items are visited in order if each of them is, and what is visited in one scope belongs
to one item or is in order with the items. -/
theorem inOrder_items
    (hitems : items.Pairwise R) (h : ∀ x ∈ items.zipIdx, InOrder ds (f x))
    (hscope : ∀ x y entry entry', R x.1 y.1 → record entry ∈ f x → record entry' ∈ f y →
      entry.realm = entry'.realm → x.2 = y.2 ∨ entry.Leads ds entry') :
    InOrder ds (items.zipIdx.flatMap f) := by
  refine pairwise_flatMap.2 ⟨h, (pairwise_zipIdx hitems 0).imp fun {x y} hxy =>
    leads_of fun entry hentry entry' hentry' hrealm => ?_⟩
  rcases hscope x y entry entry' hxy.1 hentry hentry' hrealm with heq | hleads
  · exact absurd heq (Nat.ne_of_lt hxy.2)
  · exact hleads hrealm

/-- Members are visited in order: what is visited of a member stands in it, or is one of its
options. -/
theorem inOrder_members
    (index : Nat) {L : Layout α} (hitems : L.InOrder items)
    (h : ∀ x ∈ items.zipIdx, InOrder ds (f x)) (hown : ∀ x entry, record entry ∈ f x →
      (L.At x.1 entry.span ∧ ∀ member, entry.realm ≠ .inside index (.memberOptions member)) ∨
      entry.realm = .inside index (.memberOptions x.2)) : InOrder ds (items.zipIdx.flatMap f) := by
  refine inOrder_items hitems.pairwise h fun x y entry entry' hbefore hentry hentry' hrealm => ?_
  rcases hown x entry hentry with ⟨hat, hne⟩ | heq
  · rcases hown y entry' hentry' with ⟨hat', -⟩ | heq'
    · exact .inr (.of_lt (hbefore _ _ hat hat'))
    · exact absurd (hrealm.trans heq') (hne _)
  · rcases hown y entry' hentry' with ⟨-, hne'⟩ | heq'
    · exact absurd (hrealm.symm.trans heq) (hne' _)
    · exact .inl (by simpa using heq.symm.trans (hrealm.trans heq'))

end Visit

namespace OptionDecl

variable {realm : Realm} {owner : OptionOwner} {options : List OptionDecl}

theorem inOrder_visits (h : Layout.option.InOrder options) :
    InOrder ds (visits realm owner options) :=
  pairwise_map.2 (h.pairwise.imp fun hbefore => Entry.Leads.of_lt (hbefore _ _ rfl rfl))

theorem leads_visits (h : entry.realm ≠ realm) :
    ∀ v ∈ visits realm owner options, (record entry).Leads ds v := by
  intro v hv
  obtain ⟨option, -, rfl⟩ := mem_map.1 hv
  exact .of_ne h

theorem realm_eq (h : .record entry ∈ visits realm owner options) :
    entry.realm = realm := by
  obtain ⟨option, -, rfl⟩ := mem_visits_iff.1 h
  rfl

end OptionDecl

theorem EnumDef.inOrder_visits {enum : EnumDef} (h : Layout.enum.Sorted enum) :
    InOrder ds (enum.visits index) := by
  refine inOrder_append_of_stays (pairwise_flatMap.2 ⟨fun value _ => ?_, ?_⟩)
    (OptionDecl.inOrder_visits h.2) (stays_valueVisits _ _)
    (OptionDecl.stays_visits (P := (· = .options)) rfl) fun _ hne => hne
  · exact pairwise_pair.2 (Entry.Leads.of_ne (by simp [Entry.named, Entry.numbered]))
  · refine (pairwise_map.1 h.1.pairwise).imp fun hbefore => leads_of ?_
    simp only [mem_cons, Visit.record.injEq, not_mem_nil, or_false]
    rintro _ (rfl | rfl) _ (rfl | rfl) <;> exact .of_lt (hbefore _ _ rfl rfl)

theorem Message.inOrder_visits (h : m.Level) : InOrder ds (m.visits index) := by
  refine inOrder_append_of_stays (inOrder_members index h.fields ?_ ?_)
    (OptionDecl.inOrder_visits h.options) (stays_fieldVisits _ _ _)
    (OptionDecl.stays_visits (P := (· = .options)) rfl) fun _ hne => hne
  · rintro ⟨field, member⟩ hfield
    have hoptions := h.fields.sorted field (fst_mem_of_mem_zipIdx hfield)
    refine pairwise_cons.2 ⟨forall_mem_cons.2 ⟨?_, ?_⟩, pairwise_cons.2 ⟨?_, ?_⟩⟩
    · exact .of_ne (by simp [Entry.named, Entry.numbered])
    · exact OptionDecl.leads_visits (by simp [Entry.numbered])
    · exact OptionDecl.leads_visits (by simp [Entry.named])
    · exact OptionDecl.inOrder_visits hoptions
  · rintro ⟨field, member⟩ entry hentry
    simp only [mem_cons, Visit.record.injEq] at hentry
    rcases hentry with rfl | rfl | hentry
    · exact .inl ⟨.inr rfl, by simp [Entry.numbered]⟩
    · exact .inl ⟨.inl rfl, by simp [Entry.named]⟩
    · exact .inr (OptionDecl.realm_eq hentry)

theorem Service.inOrder_visits {service : Service} (h : Layout.service.Sorted service) :
    InOrder ds (service.visits config index) := by
  have hmethods : InOrder ds (methodVisits index service.name.value 0 service.methods) := by
    refine inOrder_members index h.1 ?_ ?_
    · rintro ⟨method, member⟩ hmethod
      have hoptions := h.1.sorted method (fst_mem_of_mem_zipIdx hmethod)
      exact pairwise_cons.2 ⟨OptionDecl.leads_visits (by simp [Entry.named]),
        OptionDecl.inOrder_visits hoptions⟩
    · rintro ⟨method, member⟩ entry hentry
      simp only [mem_cons, Visit.record.injEq] at hentry
      rcases hentry with rfl | hentry
      · exact .inl ⟨.inl rfl, by simp [Entry.named]⟩
      · exact .inr (OptionDecl.realm_eq hentry)
  have hids : InOrder ds (if config.useMethodId then
      idVisits index service.name.value service.methods else []) := by
    split
    · refine pairwise_map.2 (h.1.pairwise.imp fun {m m'} hbefore => ?_)
      cases hid : m.id with
      | none => trivial
      | some id =>
        cases hid' : m'.id with
        | none => trivial
        | some id' =>
          exact Entry.Leads.of_lt (hbefore _ _ (.inr ⟨id, hid, rfl⟩) (.inr ⟨id', hid', rfl⟩))
    · exact .nil
  refine inOrder_append_of_stays hmethods (inOrder_append_of_stays (OptionDecl.inOrder_visits h.2)
    hids (OptionDecl.stays_visits (P := (· = .options)) rfl) (stays_idVisits config service)
    (by rintro _ rfl ⟨⟩)) (stays_methodVisits _ _ _)
    (Q := fun table => table = .options ∨ table = .numbers) ?_ (by tauto)
  exact (OptionDecl.stays_visits (.inl rfl)).append
    ((stays_idVisits config service).mono fun _ => .inr)

theorem Definition.inOrder_allVisits
    (h : ds.Pairwise Definition.Leads)
    (hinside : ∀ d ∈ ds, ∀ index, InOrder ds (d.visits config index)) :
    InOrder ds (allVisits config 0 ds) := by
  refine inOrder_items (Pairwise.and_mem.1 h)
    (fun x hx => pairwise_cons.2 ⟨fun v hv => ?_, ?_⟩) ?_
  · cases v with
    | missingId => trivial
    | record entry =>
      obtain ⟨table, -, hrealm⟩ := x.1.stays_visits entry hv
      exact .of_ne (by simp [hrealm, Definition.entry, Entry.named])
  · exact hinside x.1 (fst_mem_of_mem_zipIdx hx) x.2
  · intro x y entry entry' hleads hentry hentry' hrealm
    rcases mem_cons.1 hentry with heq | hentry
    · obtain rfl := Visit.record.inj heq
      rcases mem_cons.1 hentry' with heq | hentry'
      · obtain rfl := Visit.record.inj heq
        exact .inr fun _ => hleads.2.2.imp_right fun hparted =>
          ⟨x.1, hleads.1, y.1, hleads.2.1, rfl, rfl, hparted⟩
      · obtain ⟨table, -, hinside⟩ := y.1.stays_visits entry' hentry'
        cases hrealm.trans hinside
    · obtain ⟨table, -, hinside⟩ := x.1.stays_visits entry hentry
      rcases mem_cons.1 hentry' with heq | hentry'
      · obtain rfl := Visit.record.inj heq
        cases hinside.symm.trans hrealm
      · obtain ⟨table', -, hinside'⟩ := y.1.stays_visits entry' hentry'
        exact .inl (Realm.inside.inj (hinside.symm.trans (hrealm.trans hinside'))).1

theorem Project.realm_eq {project : Project} (h : .record entry ∈ project.visits index) :
    ∃ number, entry.realm = .area index number := by
  obtain ⟨⟨area, number⟩, -, hentry⟩ := mem_flatMap.1 h
  exact ⟨number, OptionDecl.realm_eq hentry⟩

theorem Project.inOrder_visits {project : Project} (h : Layout.project.Sorted project) :
    InOrder ds (project.visits index) := by
  refine inOrder_items (R := fun _ _ => True) (pairwise_of_forall fun _ _ => trivial)
    (fun x hx => OptionDecl.inOrder_visits (h x.1 (fst_mem_of_mem_zipIdx hx)))
    fun x y entry entry' _ hentry hentry' hrealm => .inl ?_
  rw [OptionDecl.realm_eq hentry, OptionDecl.realm_eq hentry'] at hrealm
  exact (Realm.area.inj hrealm).2

/-! ## Schemas -/

namespace Schema.InOrder

variable {schema : Schema} (h : schema.InOrder)

include h

theorem inOrder_visits_of_mem (hd : d ∈ schema.definitions) (index : Nat) :
    Visit.InOrder schema.definitions (d.visits config index) := by
  rcases mem_append.1 hd with hd | hd
  · rcases mem_append.1 hd with hd | hd
    · obtain ⟨_, body, rfl, hbody⟩ := Definition.mem_enums_iff.1 hd
      exact EnumDef.inOrder_visits (h.enums.sorted body (mem_of_getElem? hbody))
    · obtain ⟨i, m, rest, hm, sub, hsub, hown⟩ := (Message.mem_allDefinitions_iff _ _ _).1 hd
      have hlevel : sub.Level := h.messages.sorted m (mem_of_getElem? hm) rest sub hsub
      rcases hown with rfl | hd
      · exact Message.inOrder_visits hlevel
      · obtain ⟨_, body, rfl, hbody⟩ := Definition.mem_enums_iff.1 hd
        exact EnumDef.inOrder_visits (hlevel.enums.sorted body (mem_of_getElem? hbody))
  · obtain ⟨service, hservice, rfl⟩ := mem_map.1 hd
    exact Service.inOrder_visits (h.services.sorted service hservice)

theorem visits : Visit.InOrder schema.definitions (schema.visits config) := by
  have hprojects : Visit.InOrder schema.definitions (schema.projects.zipIdx.flatMap
      fun x => x.1.visits x.2) := by
    refine inOrder_items h.projects.pairwise (fun x hx => Project.inOrder_visits
      (h.projects.sorted x.1 (fst_mem_of_mem_zipIdx hx)))
      fun x y entry entry' _ hentry hentry' hrealm => .inl ?_
    obtain ⟨number, hentry⟩ := Project.realm_eq hentry
    obtain ⟨number', hentry'⟩ := Project.realm_eq hentry'
    exact (Realm.area.inj (hentry.symm.trans (hrealm.trans hentry'))).1
  refine inOrder_append (OptionDecl.inOrder_visits h.options) (inOrder_append
    (Definition.inOrder_allVisits h.definitions fun d hd => h.inOrder_visits_of_mem hd) hprojects
    fun entry hentry entry' hentry' heq => ?_) fun entry hentry entry' hentry' heq => ?_
  · obtain ⟨x, -, hentry'⟩ := mem_flatMap.1 hentry'
    obtain ⟨number, hrealm⟩ := Project.realm_eq hentry'
    exact Definition.unseen_allVisits (by simp) (by simp) entry (mem_entries.2 hentry)
      (heq.trans hrealm)
  · rw [OptionDecl.realm_eq hentry] at heq
    rcases mem_append.1 hentry' with hentry' | hentry'
    · exact Definition.unseen_allVisits (by simp) (by simp) entry' (mem_entries.2 hentry') heq.symm
    · obtain ⟨x, -, hentry'⟩ := mem_flatMap.1 hentry'
      obtain ⟨number, hrealm⟩ := Project.realm_eq hentry'
      cases heq.trans hrealm

theorem importVisits : Visit.InOrder schema.definitions (Schema.importVisits schema.imports) := by
  refine pairwise_flatMap.2 ⟨fun item _ => ?_,
    h.imports.pairwise.imp fun {item item'} hbefore => leads_of ?_⟩
  · cases item.localName with
    | none => exact pairwise_singleton _ _
    | some name => exact pairwise_pair.2 (Entry.Leads.of_ne (by simp [Entry.named]))
  · have hat : ∀ (item : Import) entry, .record entry ∈ Schema.importVisits [item] →
        Layout.import_.At item entry.span := by
      intro item entry hentry
      cases hname : item.localName with
      | none =>
        simp only [Schema.importVisits, flatMap_singleton, hname, mem_singleton,
          Visit.record.injEq] at hentry
        exact .inl (congrArg Entry.span hentry).symm
      | some name =>
        simp only [Schema.importVisits, flatMap_singleton, hname, mem_cons,
          Visit.record.injEq, not_mem_nil, or_false] at hentry
        rcases hentry with rfl | rfl
        · exact .inl rfl
        · exact .inr ⟨name, hname, rfl⟩
    simp only [Schema.importVisits, flatMap_singleton] at hat
    exact fun entry hentry entry' hentry' => .of_lt
      (hbefore _ _ (hat item entry hentry) (hat item' entry' hentry'))

end Schema.InOrder

/-! ## Failing checks -/

/-- If a check of a text of the native notation fails because something is there twice, the label of
the first one starts before the other, unless both are definitions and their kinds decide. -/
theorem Program.clash_labels_in_text_order
    {config checking : ParseConfig} {source : String} {schema : Schema}
    (hparse : Dialect.native.parse config source = .ok schema) (file : String) {clash : Clash}
    (hfails : schema.checkImports = .error clash ∨
      ((ofSchema file schema).checkDefinitions checking).2 = some clash)
    (hcode : clash.diagnostic.code ≠ some .missingMethodId) :
    ∃ (code : Code) (span first : Span), clash.diagnostic.code = some code ∧
      clash.diagnostic.labels =
        [⟨span, code.description, true⟩, ⟨first, "first defined here", false⟩] ∧
      (first.start < span.start ∨ code = .duplicateDefinition ∧
        ∃ d ∈ schema.definitions, ∃ d' ∈ schema.definitions,
          d.name.span = first ∧ d'.name.span = span ∧ d.name.value = d'.name.value ∧
            d.Parted d') := by
  cases clash with
  | missingId service method => exact (hcode rfl).elim
  | repeated what span site =>
    obtain ⟨visits, hscan, hvisits⟩ : ∃ visits, scan [] visits = .error (.repeated what span site) ∧
        Visit.InOrder schema.definitions visits := by
      have horder := Native.inOrder_of_parse hparse
      rcases hfails with hfails | hfails
      · exact ⟨_, (Schema.checkImports_eq_scan schema).symm.trans hfails, horder.importVisits⟩
      · refine ⟨schema.visits checking, ?_, horder.visits⟩
        rw [← raise_checkDefinitions_eq_scan file (idsApart_of_parse hparse), hfails, Clash.raise]
    obtain ⟨before, entry, after, first, rfl, -, hfirst, hclash⟩ := exists_of_scan hscan .nil
    obtain ⟨rfl, rfl, rfl⟩ := Clash.repeated.inj hclash
    refine ⟨_, _, _, rfl, rfl, ?_⟩
    have hcollides := Entry.collides_of_find? hfirst
    have hleads : first.Leads schema.definitions entry := (pairwise_append.1 hvisits).2.2 _
      (mem_map_of_mem (mem_of_find?_eq_some hfirst)) _ mem_cons_self
    refine (hleads hcollides.1).imp_right ?_
    rintro ⟨d, hd, d', hd', rfl, rfl, hparted⟩
    exact ⟨rfl, d, hd, d', hd', rfl, rfl, Key.name.inj hcollides.2, hparted⟩

/-- The last field of a nested message has the name of the first. -/
def sharedName : String :=
  "package p message m { message n { int32 a = 1 int32 b = 2 int32 a = 3 } }"

theorem Program.clash_labels_in_text_order_sharedName :
    ∃ (schema : Schema) (clash : Clash) (span first : Span),
      Dialect.native.parse ⟨false⟩ sharedName = .ok schema ∧
      ((ofSchema "p.api" schema).checkDefinitions ⟨false⟩).2 = some clash ∧
      clash.diagnostic.code = some .duplicateMember ∧
      clash.diagnostic.labels.map (·.span) = [span, first] ∧ first.start < span.start ∧
      [span, first] = [⟨64, 65, by decide⟩, ⟨40, 41, by decide⟩] := by
  obtain ⟨schema, hparse, hclash⟩ := exists_eq_ok_of_any
    (r := Dialect.native.parse ⟨false⟩ sharedName)
    (P := fun schema => ((ofSchema "p.api" schema).checkDefinitions ⟨false⟩).2 =
      some (.repeated (.field "n" "a") ⟨64, 65, by decide⟩ ⟨40, 41, by decide⟩))
    (by decide +kernel)
  obtain ⟨code, span, first, hcode, hlabels, horder⟩ :=
    clash_labels_in_text_order hparse "p.api" (.inr hclash) (by decide)
  have hspans := congrArg (List.map (·.span)) hlabels
  rcases horder with horder | ⟨rfl, -⟩
  · exact ⟨schema, _, span, first, hparse, hclash, rfl, hspans, horder, hspans.symm⟩
  · cases hcode

/-- The message is named first, and blamed. -/
def messageFirst : String := "package p\nmessage m1 {}\nenum m1 { a }"

theorem Program.clash_blames_message_before_enum :
    ∃ (schema : Schema) (clash : Clash),
      Dialect.native.parse ⟨false⟩ messageFirst = .ok schema ∧
      ((ofSchema "a.wproto" schema).checkDefinitions ⟨false⟩).2 = some clash ∧
      clash.diagnostic.code = some .duplicateDefinition ∧
      clash.diagnostic.labels.map (fun label => (label.span.start, label.primary)) =
        [(18, true), (29, false)] := by
  obtain ⟨schema, hparse, hclash⟩ := exists_eq_ok_of_any
    (r := Dialect.native.parse ⟨false⟩ messageFirst)
    (P := fun schema => ((ofSchema "a.wproto" schema).checkDefinitions ⟨false⟩).2 =
      some (.repeated (.definition "message" "m1") ⟨18, 20, by decide⟩ ⟨29, 31, by decide⟩))
    (by decide +kernel)
  exact ⟨schema, _, hparse, hclash, rfl, rfl⟩

end Idl
