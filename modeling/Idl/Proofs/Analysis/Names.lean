import Idl.Proofs.Analysis.Renumbering
import Idl.Proofs.Schema.Sketch
import Mathlib.Data.List.Forall2

/-!
# Binding by names

What a type name is bound to is decided by names alone: those of the declarations around it, those
that other programs declare, and those that imports go by.  So messages that have the same names are
bound alike, whatever else is different in them, and whatever numbers the programs have.
-/

namespace Idl

open List

variable {id : ProgramId}

/-! ## Names of messages -/

section References

variable (ρ : ProgramId → ProgramId)

/-- The name alone, bound to the same declaration of the program of the new number. -/
def TypeName.reference (type : TypeName) : TypeName :=
  ⟨type.name.unplaced, type.target.map (·.renumber ρ)⟩

/-- The type name of a field type, if it has one, and nothing else of it. -/
def FieldType.reference (type : FieldType) : FieldType :=
  match type.custom? with
  | none => .single (.base .bool)
  | some name => .single (.custom (name.reference ρ))

/-- The name and the tag of a field, and the type name. -/
def Field.reference (field : Field) : Field where
  name := field.name.unplaced
  tag := field.tag.unplaced
  type := field.type.reference ρ
  options := []
  doc := .none

/-- The name of an enum. -/
def EnumDef.heading (enum : EnumDef) : EnumDef := ⟨enum.name.unplaced, .none, [], []⟩

/-- Only names and what they are bound to are left, under the new numbers. -/
def Redraw.references : Redraw where
  options _ := []
  field := Field.reference ρ
  enum := EnumDef.heading

theorem FieldType.custom?_reference (type : FieldType) :
    (type.reference ρ).custom? = type.custom?.map (·.reference ρ) := by
  unfold reference
  cases type.custom? <;> rfl

end References

theorem Message.redraw_congr
    {how how' : Redraw} {P : TypeName → Prop} (hhow : how' = { how with field := how'.field })
    (hfield : ∀ field : Field, field.Each P → how.field field = how'.field field) {m : Message}
    (h : m.Each P) : m.redraw how = m.redraw how' := by
  induction m using induction_nested with
  | h m ih =>
    obtain ⟨hfields, hmessages⟩ := each_iff.1 h
    have hfields' : m.fields.map how.field = m.fields.map how'.field :=
      map_congr_left fun field hmem => hfield field (hfields field hmem)
    have hmessages' : m.messages.map (·.redraw how) = m.messages.map (·.redraw how') :=
      map_congr_left fun sub hmem => ih sub hmem (hmessages sub hmem)
    rw [redraw_eq, redraw_eq how', hfields', hmessages', hhow]

/-! ## Binding -/

section Binding

variable {ρ : ProgramId → ProgramId} {resolve resolve' : TypeName → Option TypeRef}

/-- The fault at no place. -/
def Unresolved.unplaced : Unresolved → Unresolved
  | fieldType name field place => fieldType name.unplaced field place
  | methodMessage name place => methodMessage name.unplaced place

theorem Redraw.binds_references :
    (Redraw.references ρ).Binds (·.reference ρ) ρ (·.unplaced) where
  name _ := rfl
  enum _ := rfl
  type _ := rfl
  field {resolve resolve' field} h place := by
    unfold Field.bind
    have hreference : (field.reference ρ).type.custom? = field.type.custom?.map (·.reference ρ) :=
      field.type.custom?_reference ρ
    simp only [Redraw.references, hreference]
    cases hcustom : field.type.custom? with
    | none => rfl
    | some type =>
      have htarget : (type.reference ρ).target.isSome = type.target.isSome := Option.isSome_map
      have hresolve : resolve' (type.reference ρ) = (resolve type).map (·.renumber ρ) :=
        h type hcustom
      simp only [Option.map_some, htarget, hresolve]
      split
      · rfl
      · cases resolve type with
        | none => rfl
        | some target =>
          have hnew : (field.type.mapCustom ({ · with target := some target })).reference ρ =
              (field.type.reference ρ).mapCustom
                ({ · with target := some (target.renumber ρ) }) := by
            unfold FieldType.reference
            rw [FieldType.custom?_mapCustom, hcustom]
            rfl
          simp only [Option.map_some, Prod.map, Field.reference, hnew, Option.map_none]

theorem Message.bindAll_eq_of_references
    {messages messages' : List Message}
    (h : messages'.map (·.redraw (.references fun id => id)) =
      messages.map (·.redraw (.references ρ)))
    (hagrees : ∀ m ∈ messages, m.Each (TypeName.Agrees (·.reference ρ) ρ resolve resolve'))
    (hself : ∀ type : TypeName,
      type.Agrees (·.reference fun id => id) (fun id => id) resolve' resolve')
    (id : ProgramId) (path : MessagePath) (index : Nat) :
    ((bindAll resolve' (ρ id) path index messages').2 = none ↔
        (bindAll resolve id path index messages).2 = none) ∧
      (bindAll resolve' (ρ id) path index messages').1.map (·.redraw (.references fun id => id)) =
        (bindAll resolve id path index messages).1.map (·.redraw (.references ρ)) := by
  have hfirst := bindAll_redraw Redraw.binds_references id path index messages hagrees
  have hsecond := bindAll_redraw Redraw.binds_references (ρ id) path index messages'
    fun m _ _ _ _ _ _ type _ => hself type
  rw [h, hfirst] at hsecond
  obtain ⟨hmessages, hfault⟩ := Prod.mk.inj hsecond
  refine ⟨?_, hmessages.symm⟩
  rw [← Option.map_eq_none_iff, ← hfault, Option.map_eq_none_iff]

end Binding

/-! ## Linking -/

/-- The import without a local name, bound to the program of the new number. -/
structure Import.Mirrors (ρ : ProgramId → ProgramId) (item item' : Import) : Prop where
  localName : item'.localName = none
  target : item'.target = item.target.map ρ

/-- Whether a program mirrors another is decided by what other programs see of them. -/
theorem Program.Mirrors.of_outline
    {program program' other other' : Program} (h : program.Mirrors program')
    (hother : other.outline = program.outline) (hother' : other'.outline = program'.outline) :
    other.Mirrors other' := by
  obtain ⟨hpackage, hscope⟩ := Prod.mk.inj hother
  obtain ⟨hpackage', hscope'⟩ := Prod.mk.inj hother'
  refine ⟨?_, fun id name => ?_⟩
  · rw [hpackage, hpackage', h.package]
  · rw [hscope, hscope', h.find]

/-- The program of a number is mirrored by that of the new number in the other arena. -/
def Arena.Mirrors (ρ : ProgramId → ProgramId) (arena arena' : Arena) (id : ProgramId) : Prop :=
  ∃ program program', arena[id]? = some program ∧ arena'[ρ id]? = some program' ∧
    program.Mirrors program'

namespace Arena

variable {ρ : ProgramId → ProgramId} {arena arena' : Arena}

theorem exists_imported_of_mirrors
    {item item' : Import} {program : Program} (hitem : item.Mirrors ρ item')
    (hmirrors : ∀ id ∈ item.target, Mirrors ρ arena arena' id)
    (h : arena.imported? item = some (id, program)) :
    ∃ program', arena'.imported? item' = some (ρ id, program') ∧ program.Mirrors program' := by
  obtain ⟨htarget, hprogram⟩ := imported?_eq_some_iff.1 h
  obtain ⟨old, program', hold, hprogram', hsame⟩ := hmirrors id htarget
  cases hold.symm.trans hprogram
  have htarget' : item'.target = some (ρ id) := by rw [hitem.target, htarget, Option.map_some]
  exact ⟨program', imported?_eq_some_iff.2 ⟨htarget', hprogram'⟩, hsame⟩

/-- An import is meant by a name exactly if its program declares the package of that name. -/
def Means (arena : Arena) (imports : List Import) (name : String) : Prop :=
  ∀ item ∈ imports, ∀ found ∈ arena.imported? item,
    ((item.localName.map (·.value)).getD found.2.package = name ↔ found.2.package = name)

instance (arena : Arena) (imports : List Import) (name : String) :
    Decidable (arena.Means imports name) :=
  inferInstanceAs (Decidable (∀ item ∈ imports, ∀ found ∈ arena.imported? item, _))

theorem named_mirrors
    {imports imports' : List Import} {name : String}
    (himports : List.Forall₂ (Import.Mirrors ρ) imports imports')
    (hmirrors : ∀ item ∈ imports, ∀ id ∈ item.target, Mirrors ρ arena arena' id)
    (hmeans : arena.Means imports name) :
    arena'.named imports' name = (arena.named imports name).map ρ := by
  induction himports with
  | nil => rfl
  | @cons item item' imports imports' hitem _ ih =>
    obtain ⟨hfirst, hrest⟩ := forall_mem_cons.1 hmirrors
    have hbelow := ih hrest fun other hother => hmeans other (mem_cons_of_mem _ hother)
    cases himported : arena.imported? item with
    | none =>
      have himported' : arena'.imported? item' = none := by
        cases htarget : item.target with
        | none => simp [imported?, hitem.target, htarget]
        | some id =>
          obtain ⟨program, -, hprogram, -⟩ := hfirst id htarget
          simp [imported?, htarget, hprogram] at himported
      simp only [named, filterMap_cons, himported, himported', Option.bind_none]
      exact hbelow
    | some found =>
      obtain ⟨id, program⟩ := found
      obtain ⟨program', himported', hsame⟩ := exists_imported_of_mirrors hitem hfirst himported
      have hname := hmeans item mem_cons_self (id, program) himported
      simp only [named, filterMap_cons, himported, himported', Option.bind_some,
        hitem.localName, Option.map_none, Option.getD_none, hsame.package]
      by_cases hpackage : program.package = name
      · rw [if_pos hpackage, if_pos (hname.2 hpackage)]
        exact congrArg (ρ id :: ·) hbelow
      · rw [if_neg hpackage, if_neg fun heq => hpackage (hname.1 heq)]
        exact hbelow

end Arena

namespace Program

variable {ρ : ProgramId → ProgramId} {arena arena' : Arena} {id : ProgramId}
  {program program' linked linked' : Program}

/-- The program is linked under its packages, where every import is bound to a program. -/
theorem exists_linkImports_eq_ok
    (himports : ∀ item ∈ program.schema.imports,
      item.localName = none ∧ (arena.imported? item).isSome) :
    ∃ linked, program.linkImports arena = .ok linked := by
  have hgoesBy : ∀ item ∈ program.schema.imports, ∀ other : Program,
      item.goesBy other = other.package := by
    intro item hitem other
    rw [Import.goesBy, (himports item hitem).1, Option.map_none, Option.getD_none]
  have hagree : arena.Agree program.schema.imports := by
    intro item hitem item' hitem' found _ found' _ hname
    rwa [hgoesBy item hitem, hgoesBy item' hitem'] at hname
  exact ⟨_, linkImports_eq_ok_iff.2 ⟨_, Arena.linkFrom_eq_ok_iff.2
    ⟨fun item hitem => (himports item hitem).2, hagree, rfl⟩, rfl⟩⟩

/-- Every qualifier of a type name in the program means the imports of the package of that name. -/
def Qualifies (arena : Arena) (program : Program) : Prop :=
  ∀ message ∈ program.schema.messages, message.Each fun type =>
    ∀ split ∈ type.qualified?, arena.Means program.schema.imports split.1

instance (arena : Arena) (program : Program) : Decidable (program.Qualifies arena) :=
  inferInstanceAs (Decidable (∀ message ∈ program.schema.messages, message.Each _))

/-- What qualifiers mean is decided by what other programs see of the imports. -/
theorem Qualifies.of_alike
    (h : program.Qualifies arena)
    (halike : ∀ i ∈ program.importTargets, Arena.Alike (fun id => id) arena' arena i) :
    program.Qualifies arena' := by
  refine fun message hmessage => (h message hmessage).mono fun type hmeans split hsplit => ?_
  rintro item hitem ⟨id, found⟩ hfound
  obtain ⟨htarget, hprogram'⟩ := Arena.imported?_eq_some_iff.1 hfound
  have hlooks := halike id (mem_filterMap.2 ⟨item, hitem, htarget⟩)
  rw [Arena.Alike, hprogram', Option.map_some, Option.map_eq_some_iff] at hlooks
  obtain ⟨other, hother, houtline⟩ := hlooks
  have hpackage : other.package = found.package := congrArg Prod.fst houtline
  have himported : arena.imported? item = some (id, other) :=
    Arena.imported?_eq_some_iff.2 ⟨htarget, hother⟩
  rw [← hpackage]
  exact hmeans split hsplit item hitem (id, other) himported

/-- Of two programs, the second has the names of the first: what it declares, what it imports, and
the type names in its messages.  It has no services. -/
structure Copies (ρ : ProgramId → ProgramId) (program program' : Program) : Prop where
  mirrors : program.Mirrors program'
  imports : List.Forall₂ (Import.Mirrors ρ) program.schema.imports program'.schema.imports
  services : program'.schema.services = []
  messages : program'.schema.messages.map (·.redraw (.references fun id => id)) =
    program.schema.messages.map (·.redraw (.references ρ))
  references : program.references = none
  references' : program'.references = none

/-- What is linked under a name that means the imports of its package is mirrored, and imported. -/
theorem Copies.lookup_references
    (h : Copies ρ program program') (hρ : Function.Injective ρ)
    (hmirrors : ∀ i ∈ program.importTargets, Arena.Mirrors ρ arena arena' i)
    (hlink : program.linkImports arena = .ok linked)
    (hlink' : program'.linkImports arena' = .ok linked') {reference : String}
    (hmeans : arena.Means program.schema.imports reference) :
    linked'.references.bind (·.lookup reference) =
        (linked.references.bind (·.lookup reference)).map (List.map ρ) ∧
      ∀ ids ∈ linked.references.bind (·.lookup reference), ∀ i ∈ ids,
        i ∈ program.importTargets := by
  obtain ⟨table, htable, rfl⟩ := linkImports_eq_ok_iff.1 hlink
  obtain ⟨table', htable', rfl⟩ := linkImports_eq_ok_iff.1 hlink'
  have hnamed := Arena.named_mirrors h.imports
    (fun item hitem i hi => hmirrors i (mem_filterMap.2 ⟨item, hitem, hi⟩)) hmeans
  obtain ⟨-, -, rfl⟩ := Arena.linkFrom_eq_ok_iff.1 htable
  obtain ⟨-, -, rfl⟩ := Arena.linkFrom_eq_ok_iff.1 htable'
  simp only [h.references, h.references', Option.getD_none, Option.bind_some,
    Arena.lookup_grouping, hnamed, map_eq_nil_iff, eraseDups_map hρ]
  split
  next => exact ⟨rfl, by rintro _ ⟨⟩⟩
  next =>
    refine ⟨rfl, ?_⟩
    rintro _ ⟨⟩ i hi
    obtain ⟨item, hitem, other, himported, -⟩ := Arena.mem_named_iff.1 (mem_eraseDups.1 hi)
    exact mem_filterMap.2 ⟨item, hitem, (Arena.imported?_eq_some_iff.1 himported).1⟩

theorem bindReferences_of_none (h : (program.bindReferences arena id).2 = none) :
    (Message.bindAll (program.resolve? arena id) id [] 0 program.schema.messages).2 = none ∧
      (program.bindReferences arena id).1.schema.messages =
        (Message.bindAll (program.resolve? arena id) id [] 0 program.schema.messages).1 := by
  rw [bindReferences_eq_inOrder] at h ⊢
  generalize mapUntil (·.bind (program.resolve? arena id) (program.resolveStub? arena id))
    program.schema.services = first at h ⊢
  obtain ⟨services, fault⟩ := first
  cases fault with
  | some fault => cases h
  | none => exact ⟨h, rfl⟩

theorem bindReferences_of_services
    (h : program.schema.services = []) (arena : Arena) (id : ProgramId) :
    (program.bindReferences arena id).1.schema.messages =
        (Message.bindAll (program.resolve? arena id) id [] 0 program.schema.messages).1 ∧
      (program.bindReferences arena id).2 =
        (Message.bindAll (program.resolve? arena id) id [] 0 program.schema.messages).2 := by
  rw [bindReferences_eq_inOrder, h]
  exact ⟨rfl, rfl⟩

/-- Where imports have no local names, every qualifier means the imports of the package of that
name. -/
theorem qualifies_of_localName
    (h : ∀ item ∈ program.schema.imports, item.localName = none) (arena : Arena) :
    program.Qualifies arena := by
  intro m _ path sub _ field _ type _ split _ item hitem found _
  rw [h item hitem]
  exact Iff.rfl

theorem agrees_self (arena : Arena) (id : ProgramId) (program : Program) (type : TypeName) :
    type.Agrees (·.reference fun id => id) (fun id => id) (program.resolve? arena id)
      (program.resolve? arena id) := by
  have hname : program.resolve? arena id (type.reference fun id => id) =
      program.resolve? arena id type := rfl
  have hsame : ∀ ref : TypeRef, ref.renumber (fun id => id) = ref := by
    intro ref
    cases ref <;> rfl
  unfold TypeName.Agrees
  rw [hname]
  simp only [hsame, Option.map_id']

theorem Copies.agrees
    (h : Copies ρ program program') (hρ : Function.Injective ρ)
    (hqualifies : program.Qualifies arena) {linking : Arena}
    (hlinking : ∀ i ∈ program.importTargets, Arena.Mirrors ρ arena linking i)
    (hmirrors : ∀ i ∈ program.importTargets, Arena.Mirrors ρ arena arena' i)
    (hlink : program.linkImports arena = .ok linked)
    (hlink' : program'.linkImports linking = .ok linked') (id : ProgramId) :
    ∀ m ∈ program.schema.messages,
      m.Each (TypeName.Agrees (·.reference ρ) ρ (linked.resolve? arena id)
        (linked'.resolve? arena' (ρ id))) := by
  intro m hm
  have hself : linked.Mirrors linked' := by
    obtain ⟨table, -, rfl⟩ := linkImports_eq_ok_iff.1 hlink
    obtain ⟨table', -, rfl⟩ := linkImports_eq_ok_iff.1 hlink'
    exact ⟨h.mirrors.package, h.mirrors.find⟩
  refine (hqualifies m hm).mono fun type hmeans => ?_
  refine agrees_resolve? hself rfl (fun reference name hqualified => ?_) id
  obtain ⟨hlookup, hids⟩ :=
    h.lookup_references hρ hlinking hlink hlink' (hmeans (reference, name) hqualified)
  refine ⟨hlookup, fun ids hmem i hi => ?_⟩
  obtain ⟨other, other', hother, hother', hsame⟩ := hmirrors i (hids ids hmem i hi)
  rw [hother, hother', Option.bind_some, Option.bind_some, hsame.find, other.scope.find?_renumber]

/-- The messages of a program that has the names of another are bound like those of the other. -/
theorem Copies.bindAll
    (h : Copies ρ program program') (hρ : Function.Injective ρ)
    (hqualifies : program.Qualifies arena) {linking : Arena}
    (hlinking : ∀ i ∈ program.importTargets, Arena.Mirrors ρ arena linking i)
    (hmirrors : ∀ i ∈ program.importTargets, Arena.Mirrors ρ arena arena' i)
    (hlink : program.linkImports arena = .ok linked)
    (hlink' : program'.linkImports linking = .ok linked') :
    ((Message.bindAll (linked'.resolve? arena' (ρ id)) (ρ id) [] 0 linked'.schema.messages).2 =
        none ↔
      (Message.bindAll (linked.resolve? arena id) id [] 0 linked.schema.messages).2 = none) ∧
    (Message.bindAll (linked'.resolve? arena' (ρ id)) (ρ id) [] 0 linked'.schema.messages).1.map
        (·.redraw (.references fun id => id)) =
      (Message.bindAll (linked.resolve? arena id) id [] 0 linked.schema.messages).1.map
        (·.redraw (.references ρ)) := by
  have hagrees := h.agrees hρ hqualifies hlinking hmirrors hlink hlink' id
  have hschema : linked.schema = program.schema := by
    obtain ⟨table, -, rfl⟩ := linkImports_eq_ok_iff.1 hlink
    rfl
  have hschema' : linked'.schema = program'.schema := by
    obtain ⟨table, -, rfl⟩ := linkImports_eq_ok_iff.1 hlink'
    rfl
  rw [hschema, hschema']
  exact Message.bindAll_eq_of_references h.messages hagrees (linked'.agrees_self arena' (ρ id)) id
    [] 0

end Program

end Idl
