import Idl.Proofs.Analysis.Visits

/-!
# The first repetition

A check that fails because something is there twice reports the first entry, in the order of its
visits, that collides with an earlier one, and the first of the earlier ones.  If the entry is the
id of a method, the two methods that have the id are named.
-/

namespace Idl

open Visit List

/-! ## What a search finds -/

/-- A search stops at an entry that collides with an earlier one, and at none before it. -/
theorem Visit.exists_of_scan
    {seen : List Entry} {visits : List Visit} {what : Repeated} {span site : Span}
    (h : scan seen visits = .error (.repeated what span site))
    (hseen : seen.Pairwise fun earlier later => ¬earlier.Collides later) :
    ∃ before entry after first, visits = before.map .record ++ .record entry :: after ∧
      ((seen ++ before).Pairwise fun earlier later => ¬earlier.Collides later) ∧
      (seen ++ before).find? (·.Collides entry) = some first ∧
      .repeated what span site = entry.clash first := by
  fun_induction scan seen visits with
  | case1 | case4 => cases h
  | case2 seen entry visits first hfirst =>
    exact ⟨[], entry, visits, first, rfl, by simpa using hseen, by simpa using hfirst,
      (Except.error.inj h).symm⟩
  | case3 seen entry visits hnone ih =>
    have hnew : ∀ earlier ∈ seen, ¬earlier.Collides entry := by simpa using hnone
    have happend : (seen ++ [entry]).Pairwise fun earlier later => ¬earlier.Collides later :=
      pairwise_append.2 ⟨hseen, pairwise_singleton _ _, by simpa using hnew⟩
    obtain ⟨before, found, after, first, rfl, hbefore, hfirst, hclash⟩ := ih h happend
    rw [append_assoc] at hbefore hfirst
    exact ⟨entry :: before, found, after, first, rfl, hbefore, hfirst, hclash⟩

/-! ## Ids of methods -/

/-- What would be there twice is the id of a method. -/
def Entry.IsId (entry : Entry) : Prop :=
  ∃ owner service first second number, entry.repeated owner = .methodId service first second number

theorem OptionDecl.not_isId
    {realm : Realm} {owner : OptionOwner} {options : List OptionDecl} {entry : Entry}
    (h : .record entry ∈ visits realm owner options) : ¬entry.IsId := by
  obtain ⟨option, -, rfl⟩ := mem_visits_iff.1 h
  rintro ⟨_, _, _, _, _, ⟨⟩⟩

variable {config : ParseConfig} {index : Nat} {entry : Entry}

theorem EnumDef.not_isId {enum : EnumDef} (h : .record entry ∈ enum.visits index) :
    ¬entry.IsId := by
  rcases mem_append.1 h with h | h
  · obtain ⟨value, -, h⟩ := mem_flatMap.1 h
    simp only [mem_cons, Visit.record.injEq, not_mem_nil, or_false] at h
    rcases h with rfl | rfl <;> rintro ⟨_, _, _, _, _, ⟨⟩⟩
  · exact OptionDecl.not_isId h

theorem Message.not_isId {message : Message} (h : .record entry ∈ message.visits index) :
    ¬entry.IsId := by
  rcases mem_append.1 h with h | h
  · obtain ⟨⟨field, member⟩, -, h⟩ := mem_flatMap.1 h
    simp only [mem_cons, Visit.record.injEq] at h
    rcases h with rfl | rfl | h
    · rintro ⟨_, _, _, _, _, ⟨⟩⟩
    · rintro ⟨_, _, _, _, _, ⟨⟩⟩
    · exact OptionDecl.not_isId h
  · exact OptionDecl.not_isId h

theorem Service.exists_id_of_mem_visits
    {service : Service} (h : .record entry ∈ service.visits config index)
    (hid : entry.IsId ∨ entry.realm = .inside index .numbers) :
    ∃ method ∈ service.methods, ∃ id, method.id = some id ∧
      idEntry index service.name.value method id = entry := by
  have hoption : ∀ {realm owner options}, realm ≠ .inside index .numbers →
      .record entry ∉ OptionDecl.visits realm owner options := fun hrealm h =>
    hid.elim (OptionDecl.not_isId h) (OptionDecl.unseen_visits hrealm entry (mem_entries.2 h))
  rcases mem_append.1 h with h | h
  · obtain ⟨⟨method, member⟩, -, h⟩ := mem_flatMap.1 h
    simp only [mem_cons, Visit.record.injEq] at h
    rcases h with rfl | h
    · rcases hid with ⟨_, _, _, _, _, ⟨⟩⟩ | ⟨⟨⟩⟩
    · exact (hoption (by simp) h).elim
  · rcases mem_append.1 h with h | h
    · exact (hoption (by simp) h).elim
    · split at h
      · exact mem_idVisits_iff.1 h
      · cases h

namespace Schema

variable {schema : Schema}

theorem not_isId_of_mem_importVisits
    {imports : List Import} (h : .record entry ∈ importVisits imports) : ¬entry.IsId := by
  obtain ⟨item, -, h⟩ := mem_flatMap.1 h
  cases hname : item.localName with
  | none =>
    simp only [hname, mem_cons, Visit.record.injEq, not_mem_nil, or_false] at h
    obtain rfl := h
    rintro ⟨_, _, _, _, _, ⟨⟩⟩
  | some name =>
    simp only [hname, mem_cons, Visit.record.injEq, not_mem_nil, or_false] at h
    rcases h with rfl | rfl <;> rintro ⟨_, _, _, _, _, ⟨⟩⟩

theorem exists_definition_of_inside
    {table : Table} (h : .record entry ∈ schema.visits config)
    (hrealm : entry.realm = .inside index table) :
    ∃ d, schema.definitions[index]? = some d ∧ .record entry ∈ d.visits config index := by
  rcases mem_append.1 h with h | h
  · exact (OptionDecl.unseen_visits (by simp) entry (mem_entries.2 h) hrealm).elim
  rcases mem_append.1 h with h | h
  · obtain ⟨d, other, hd, rfl | h⟩ := Definition.exists_of_mem_allVisits h
    · cases hrealm
    · obtain ⟨_, -, hother⟩ := d.stays_visits entry h
      obtain ⟨rfl, -⟩ := Realm.inside.inj (hrealm.symm.trans hother)
      exact ⟨d, mem_zipIdx_iff_getElem?.1 hd, h⟩
  · obtain ⟨⟨project, number⟩, -, h⟩ := mem_flatMap.1 h
    exact (project.unseen_visits (by simp) entry (mem_entries.2 h) hrealm).elim

theorem exists_service_of_isId (h : .record entry ∈ schema.visits config) (hid : entry.IsId) :
    ∃ (index : Nat) (body : Service), schema.definitions[index]? = some (.service body) ∧
      .record entry ∈ body.visits config index := by
  rcases mem_append.1 h with h | h
  · exact (OptionDecl.not_isId h hid).elim
  rcases mem_append.1 h with h | h
  · obtain ⟨d, index, hd, rfl | h⟩ := Definition.exists_of_mem_allVisits h
    · obtain ⟨_, _, _, _, _, ⟨⟩⟩ := hid
    · cases d with
      | enum path body => exact (EnumDef.not_isId h hid).elim
      | message path body => exact (Message.not_isId h hid).elim
      | service body => exact ⟨index, body, mem_zipIdx_iff_getElem?.1 hd, h⟩
  · obtain ⟨⟨project, number⟩, -, h⟩ := mem_flatMap.1 h
    obtain ⟨⟨area, number⟩, -, h⟩ := mem_flatMap.1 h
    exact (OptionDecl.not_isId h hid).elim

/-- If the ids of two methods collide, the methods are of one service, and it is them that are
named. -/
theorem exists_owners
    {first : Entry} {service one other : String} {number : Int64}
    (hentry : .record entry ∈ schema.visits config) (hfirst : .record first ∈ schema.visits config)
    (hcollides : first.Collides entry)
    (hwhat : entry.repeated first.owner = .methodId service one other number) :
    ∃ body ∈ schema.services, body.name.value = service ∧
      (∃ method ∈ body.methods, method.name.value = one ∧ method.id = some ⟨number, first.span⟩) ∧
      ∃ method ∈ body.methods, method.name.value = other ∧
        method.id = some ⟨number, entry.span⟩ := by
  have hisId : entry.IsId := ⟨_, _, _, _, _, hwhat⟩
  obtain ⟨index, body, hbody, hentry⟩ := exists_service_of_isId hentry hisId
  obtain ⟨method, hmethod, id, hid, rfl⟩ := Service.exists_id_of_mem_visits hentry (.inl hisId)
  -- the first entry is in the same table, so it is an id of the same service
  obtain ⟨d, hd, hfirst⟩ := exists_definition_of_inside hfirst hcollides.1
  cases hd.symm.trans hbody
  obtain ⟨method', hmethod', id', hid', rfl⟩ :=
    Service.exists_id_of_mem_visits hfirst (.inr hcollides.1)
  obtain ⟨rfl, rfl, rfl, rfl⟩ := Repeated.methodId.inj hwhat
  have hvalue : id'.value = id.value := Key.number.inj hcollides.2
  refine ⟨body, mem_definitions_service_iff.1 (mem_of_getElem? hbody), rfl,
    ⟨method', hmethod', rfl, ?_⟩, method, hmethod, rfl, hid⟩
  rw [hid', ← hvalue]
  rfl

end Schema

/-! ## Failing checks -/

/-- If a check of a new program fails because something is there twice, the labels are at an entry
and at the first one visited before it that has the same key in the same scope, and no two of those
visited before the entry collide.  Of colliding ids of methods, the methods are named. -/
theorem Program.clash_labels_first_repetition
    {dialect : Dialect} {config checking : ParseConfig} {source : String} {schema : Schema}
    (hparse : dialect.parse config source = .ok schema) (file : String) {visits : List Visit}
    {clash : Clash}
    (hfails : schema.checkImports = .error clash ∧ visits = Schema.importVisits schema.imports ∨
      ((ofSchema file schema).checkDefinitions checking).2 = some clash ∧
        visits = schema.visits checking)
    (hcode : clash.diagnostic.code ≠ some .missingMethodId) :
    ∃ (before : List Entry) (entry : Entry) (after : List Visit) (first : Entry) (what : Repeated),
      visits = before.map .record ++ .record entry :: after ∧
      (before.Pairwise fun earlier later => ¬earlier.Collides later) ∧
      before.find? (·.Collides entry) = some first ∧
      what = entry.repeated first.owner ∧
      clash.diagnostic.code = some what.code ∧
      clash.diagnostic.message = what.message ∧
      clash.diagnostic.labels =
        [⟨entry.span, what.code.description, true⟩, ⟨first.span, "first defined here", false⟩] ∧
      ∀ service one other number, what = .methodId service one other number →
        ∃ body ∈ schema.services, body.name.value = service ∧
          (∃ method ∈ body.methods, method.name.value = one ∧
            method.id = some ⟨number, first.span⟩) ∧
          ∃ method ∈ body.methods, method.name.value = other ∧
            method.id = some ⟨number, entry.span⟩ := by
  cases clash with
  | missingId service method => exact (hcode rfl).elim
  | repeated what span site =>
    have hscan : scan [] visits = .error (.repeated what span site) := by
      rcases hfails with ⟨hfails, rfl⟩ | ⟨hfails, rfl⟩
      · rw [← Schema.checkImports_eq_scan, hfails]
      · rw [← raise_checkDefinitions_eq_scan file (idsApart_of_parse hparse), hfails, Clash.raise]
    obtain ⟨before, entry, after, first, hvisits, hbefore, hfirst, hclash⟩ :=
      exists_of_scan hscan .nil
    obtain ⟨rfl, rfl, rfl⟩ := Clash.repeated.inj hclash
    refine ⟨before, entry, after, first, _, hvisits, hbefore, hfirst, rfl, rfl, rfl, rfl, ?_⟩
    intro service one other number hwhat
    have hentry : .record entry ∈ visits := by simp [hvisits]
    have hmem : .record first ∈ visits := by
      rw [hvisits]
      exact mem_append_left _ (mem_map_of_mem (mem_of_find?_eq_some hfirst))
    rcases hfails with ⟨-, rfl⟩ | ⟨-, rfl⟩
    · exact (Schema.not_isId_of_mem_importVisits hentry ⟨_, _, _, _, _, hwhat⟩).elim
    · exact Schema.exists_owners hentry hmem (Entry.collides_of_find? hfirst) hwhat

/-- The first and the last method share an id, which is also the tag of a field. -/
def sharedId : String :=
  "package p message m { int32 a = 1 }\n" ++
  "service s { notify: a(m) void = 1 b(m) void = 2 c(m) void = 1 }"

theorem Program.clash_labels_first_repetition_sharedId :
    ∃ (schema : Schema) (clash : Clash) (before : List Entry) (entry : Entry) (after : List Visit)
      (first : Entry),
      Dialect.native.parse ⟨true⟩ sharedId = .ok schema ∧
      ((ofSchema "p.api" schema).checkDefinitions ⟨true⟩).2 = some clash ∧
      clash.diagnostic.code = some .duplicateNumber ∧
      clash.diagnostic.message = "methods `a` and `c` of service `s` share id 1" ∧
      schema.visits ⟨true⟩ = before.map .record ++ .record entry :: after ∧
      before.find? (·.Collides entry) = some first ∧
      clash.diagnostic.labels.map (·.span) = [entry.span, first.span] ∧
      [entry.span, first.span] = [⟨96, 97, by decide⟩, ⟨68, 69, by decide⟩] := by
  obtain ⟨schema, hparse, hclash⟩ := exists_eq_ok_of_any
    (r := Dialect.native.parse ⟨true⟩ sharedId)
    (P := fun schema => ((ofSchema "p.api" schema).checkDefinitions ⟨true⟩).2 =
      some (.repeated (.methodId "s" "a" "c" 1) ⟨96, 97, by decide⟩ ⟨68, 69, by decide⟩))
    (by decide +kernel)
  obtain ⟨before, entry, after, first, what, hvisits, -, hfirst, -, -, -, hlabels, -⟩ :=
    clash_labels_first_repetition hparse "p.api" (.inr ⟨hclash, rfl⟩) (by decide)
  have hspans := congrArg (List.map (·.span)) hlabels
  exact ⟨schema, _, before, entry, after, first, hparse, hclash, rfl, by decide, hvisits, hfirst,
    hspans, hspans.symm⟩

end Idl
