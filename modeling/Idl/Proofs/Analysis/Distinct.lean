import Idl.Proofs.Analysis.Declarations
import Idl.Proofs.Except
import Mathlib.Tactic.Tauto

/-!
# What has to be distinct

Names, numbers and keys are recorded scope by scope, and a scope takes them all if they are distinct
and new.  So each check passes exactly if the members it looks at are distinct; and definitions are
entered one after the other up to the first clash.
-/

namespace Idl

open List

variable {config : ParseConfig} {name : String} {ledger : Ledger} {owner : OptionOwner}

/-! ## Recording keys -/

namespace Sites

variable {κ : Type} [BEq κ] {sites sites' : Sites κ} {key : κ} {keys : List κ}

/-- The keys can be recorded one after the other: they are distinct, and none is there. -/
def Admits (sites : Sites κ) (keys : List κ) : Prop :=
  keys.Nodup ∧ ∀ key ∈ keys, sites.site? key = none

theorem admits_nil (sites : Sites κ) : sites.Admits [] := by
  simp [Admits]

theorem empty_admits_iff : Admits [] keys ↔ keys.Nodup := by
  simp [Admits, site?]

theorem admits_cons_iff [LawfulBEq κ] (span : Span) :
    sites.Admits (key :: keys) ↔ sites.site? key = none ∧ (sites.add key span).Admits keys := by
  have hadd : ∀ other, (sites.add key span).site? other = none ↔
      other ≠ key ∧ sites.site? other = none := by
    intro other
    simp only [site?, add, lookup_cons]
    cases hkey : other == key with
    | true => simp [eq_of_beq hkey]
    | false => simp [ne_of_beq_false hkey]
  simp only [Admits, nodup_cons, forall_mem_cons, hadd]
  constructor
  · rintro ⟨⟨hkey, hkeys⟩, hnew, hold⟩
    refine ⟨hnew, hkeys, fun other hother => ⟨?_, hold other hother⟩⟩
    rintro rfl
    exact hkey hother
  · rintro ⟨hnew, hkeys, hold⟩
    exact ⟨⟨fun hkey => (hold key hkey).1 rfl, hkeys⟩, hnew, fun other h => (hold other h).2⟩

theorem insert_bind_eq_ok_iff
    {ε β : Type} {span : Span} {fault : Span → ε} {next : Sites κ → Except ε β} {b : β} :
    ((sites.insert key span).mapError fault >>= next) = .ok b ↔
      sites.site? key = none ∧ next (sites.add key span) = .ok b := by
  unfold insert
  cases sites.site? key <;> simp [mapError_error, mapError_ok, bind, Except.bind]

end Sites

namespace Ledger

variable {ε β : Type} {ledger : Ledger} {span : Span} {fault : Span → ε}
  {next : Ledger → Except ε β} {b : β}

theorem insertName_bind_eq_ok_iff :
    ((ledger.insertName name span).mapError fault >>= next) = .ok b ↔
      ledger.names.site? name = none ∧
        next { ledger with names := ledger.names.add name span } = .ok b := by
  unfold insertName Sites.insert
  cases ledger.names.site? name <;>
    simp [mapError_error, mapError_ok, bind, Except.bind, pure, Except.pure]

theorem insertNumber_bind_eq_ok_iff {number : Int64} :
    ((ledger.insertNumber number span).mapError fault >>= next) = .ok b ↔
      ledger.numbers.site? number = none ∧
        next { ledger with numbers := ledger.numbers.add number span } = .ok b := by
  unfold insertNumber Sites.insert
  cases ledger.numbers.site? number <;>
    simp [mapError_error, mapError_ok, bind, Except.bind, pure, Except.pure]

end Ledger

/-! ## Options -/

/-- No two of the options have the same key. -/
def OptionDecl.Distinct (options : List OptionDecl) : Prop := (options.map (·.key.value)).Nodup

theorem checkOptionKeys_eq_ok_iff {keys : Sites String} {options : List OptionDecl} :
    checkOptionKeys owner keys options = .ok () ↔ keys.Admits (options.map (·.key.value)) := by
  induction options generalizing keys with
  | nil => simp [checkOptionKeys, Sites.admits_nil]
  | cons option options ih =>
    rw [checkOptionKeys, Sites.insert_bind_eq_ok_iff, ih, map_cons,
      Sites.admits_cons_iff option.key.span]

theorem checkOptions_eq_ok_iff {options : List OptionDecl} :
    checkOptions owner options = .ok () ↔ OptionDecl.Distinct options := by
  rw [checkOptions, checkOptionKeys_eq_ok_iff, Sites.empty_admits_iff, OptionDecl.Distinct]

/-! ## Members -/

/-- No two values of the enum have the same name or the same number, and no two options the same
key. -/
structure EnumDef.Distinct (enum : EnumDef) : Prop where
  names : (enum.values.map (·.name.value)).Nodup
  numbers : (enum.values.map (·.number)).Nodup
  options : OptionDecl.Distinct enum.options

theorem EnumDef.checkValues_eq_ok_iff {values : List EnumValue} :
    EnumDef.checkValues name ledger values = .ok () ↔
      ledger.names.Admits (values.map (·.name.value)) ∧
        ledger.numbers.Admits (values.map (·.number)) := by
  induction values generalizing ledger with
  | nil => simp [checkValues, Sites.admits_nil]
  | cons value values ih =>
    rw [checkValues, Ledger.insertName_bind_eq_ok_iff, Ledger.insertNumber_bind_eq_ok_iff, ih,
      map_cons, map_cons, Sites.admits_cons_iff value.name.span,
      Sites.admits_cons_iff value.name.span]
    tauto

theorem EnumDef.check_eq_ok_iff {enum : EnumDef} : enum.check = .ok () ↔ enum.Distinct := by
  rw [check, unit_bind_eq_ok_iff, checkValues_eq_ok_iff, checkOptions_eq_ok_iff]
  simp only [Ledger.empty, Sites.empty_admits_iff]
  exact ⟨fun h => ⟨h.1.1, h.1.2, h.2⟩, fun h => ⟨⟨h.names, h.numbers⟩, h.options⟩⟩

/-- No two fields of the message have the same name or the same tag, and no two options of the
message or of one of its fields the same key. -/
structure Message.Distinct (message : Message) : Prop where
  names : (message.fields.map (·.name.value)).Nodup
  tags : (message.fields.map (·.tag.value)).Nodup
  options : OptionDecl.Distinct message.options
  fieldOptions : ∀ field ∈ message.fields, OptionDecl.Distinct field.options

theorem Message.checkFields_eq_ok_iff {fields : List Field} :
    Message.checkFields name ledger fields = .ok () ↔
      ledger.names.Admits (fields.map (·.name.value)) ∧
        ledger.numbers.Admits (fields.map (·.tag.value)) ∧
        ∀ field ∈ fields, OptionDecl.Distinct field.options := by
  induction fields generalizing ledger with
  | nil => simp [checkFields, Sites.admits_nil]
  | cons field fields ih =>
    rw [checkFields, Ledger.insertNumber_bind_eq_ok_iff, Ledger.insertName_bind_eq_ok_iff,
      unit_bind_eq_ok_iff, checkOptions_eq_ok_iff, ih, map_cons, map_cons,
      Sites.admits_cons_iff field.name.span, Sites.admits_cons_iff field.tag.span,
      forall_mem_cons]
    tauto

theorem Message.check_eq_ok_iff
    {message : Message} : message.check = .ok () ↔ message.Distinct := by
  rw [check, unit_bind_eq_ok_iff, checkFields_eq_ok_iff, checkOptions_eq_ok_iff]
  simp only [Ledger.empty, Sites.empty_admits_iff]
  exact ⟨fun h => ⟨h.1.1, h.1.2.1, h.2, h.1.2.2⟩,
    fun h => ⟨⟨h.names, h.tags, h.fieldOptions⟩, h.options⟩⟩

/-- No two methods of the service have the same name, and no two options of the service or of one
of its methods the same key.  If ids are used, every method has one, and no two the same. -/
structure Service.Distinct (useIds : Bool) (service : Service) : Prop where
  names : (service.methods.map (·.name.value)).Nodup
  options : OptionDecl.Distinct service.options
  methodOptions : ∀ method ∈ service.methods, OptionDecl.Distinct method.options
  identified : useIds = true → ∀ method ∈ service.methods, method.id.isSome
  ids : useIds = true → (service.methods.filterMap fun method => method.id.map (·.value)).Nodup

theorem Service.checkMethods_eq_ok_iff {names : Sites String} {methods : List Method} :
    Service.checkMethods name names methods = .ok () ↔
      names.Admits (methods.map (·.name.value)) ∧
        ∀ method ∈ methods, OptionDecl.Distinct method.options := by
  induction methods generalizing names with
  | nil => simp [checkMethods, Sites.admits_nil]
  | cons method methods ih =>
    rw [checkMethods, Sites.insert_bind_eq_ok_iff, unit_bind_eq_ok_iff, checkOptions_eq_ok_iff, ih,
      map_cons, Sites.admits_cons_iff method.name.span, forall_mem_cons]
    tauto

theorem Service.checkIds_eq_ok_iff {service : Service} {ids : Sites Int64} {methods : List Method} :
    service.checkIds ids methods = .ok () ↔
      (∀ method ∈ methods, method.id.isSome) ∧
        ids.Admits (methods.filterMap fun method => method.id.map (·.value)) := by
  induction methods generalizing ids with
  | nil => simp [checkIds, Sites.admits_nil]
  | cons method methods ih =>
    rw [checkIds]
    cases hid : method.id with
    | none => simp [hid]
    | some id =>
      simp only [Sites.insert_bind_eq_ok_iff, ih, filterMap_cons, hid, Option.map_some,
        Sites.admits_cons_iff id.span, forall_mem_cons, Option.isSome_some, true_and]
      tauto

theorem Service.check_eq_ok_iff {service : Service} :
    service.check config = .ok () ↔ service.Distinct config.useMethodId := by
  rw [check, unit_bind_eq_ok_iff, unit_bind_eq_ok_iff, checkMethods_eq_ok_iff,
    checkOptions_eq_ok_iff, Sites.empty_admits_iff]
  cases huse : config.useMethodId with
  | false => 
    simp only [Bool.false_eq_true, if_false]
    exact ⟨fun h => ⟨h.1.1, h.2.1, h.1.2, by simp, by simp⟩,
      fun h => ⟨⟨h.names, h.methodOptions⟩, h.options, rfl⟩⟩
  | true =>
    simp only [if_true, checkIds_eq_ok_iff, Sites.empty_admits_iff]
    exact ⟨fun h => ⟨h.1.1, h.2.1, h.1.2, fun _ => h.2.2.1, fun _ => h.2.2.2⟩,
      fun h => ⟨⟨h.names, h.methodOptions⟩, h.options, h.identified rfl, h.ids rfl⟩⟩

theorem Project.check_eq_ok_iff {project : Project} :
    project.check = .ok () ↔ ∀ area ∈ project.areas, OptionDecl.Distinct area.options := by
  rw [check, forM_eq_ok_iff]
  simp only [checkOptions_eq_ok_iff]

/-! ## Definitions -/

namespace Definition

/-- The members of the definition are distinct. -/
def Distinct (useIds : Bool) : Definition → Prop
  | enum _ body => body.Distinct
  | message _ body => body.Distinct
  | service body => body.Distinct useIds

theorem check_eq_ok_iff {d : Definition} :
    d.check config = .ok () ↔ d.Distinct config.useMethodId := by
  cases d with
  | enum path body => exact EnumDef.check_eq_ok_iff
  | message path body => exact Message.check_eq_ok_iff
  | service body => exact Service.check_eq_ok_iff

/-- The entry of a message in the table of messages. -/
def messageRow? : Definition → Option (String × MessagePath)
  | message path body => some (body.name.value, path)
  | _ => none

/-- The entry of an enum in the table of enums. -/
def enumRow? : Definition → Option (String × EnumPath)
  | enum path body => some (body.name.value, path)
  | _ => none

end Definition

namespace Scope

variable {config : ParseConfig} {scope scope' : Scope} {d : Definition} {ds : List Definition}

/-- The scope with one more definition. -/
def extend (scope : Scope) (d : Definition) : Scope where
  names := scope.names.add d.name.value d.name.span
  messages := scope.messages ++ d.messageRow?.toList
  enums := scope.enums ++ d.enumRow?.toList

theorem define_eq_ok_iff :
    scope.define d = .ok scope' ↔
      scope.names.site? d.name.value = none ∧ scope.extend d = scope' := by
  rw [define, Sites.insert_bind_eq_ok_iff]
  cases d <;> simp [extend, pure_eq_ok_iff, Definition.messageRow?, Definition.enumRow?]

theorem messages_foldl_extend (ds : List Definition) (scope : Scope) :
    (ds.foldl extend scope).messages = scope.messages ++ ds.filterMap (·.messageRow?) := by
  induction ds generalizing scope with
  | nil => simp
  | cons d ds ih => cases d <;> simp [ih, extend, Definition.messageRow?]

theorem enums_foldl_extend (ds : List Definition) (scope : Scope) :
    (ds.foldl extend scope).enums = scope.enums ++ ds.filterMap (·.enumRow?) := by
  induction ds generalizing scope with
  | nil => simp
  | cons d ds ih => cases d <;> simp [ih, extend, Definition.enumRow?]

theorem exists_enter_eq (config : ParseConfig) (scope : Scope) (ds : List Definition) :
    ∃ before after, ds = before ++ after ∧
      (scope.enter config ds).1 = before.foldl extend scope ∧
      ((scope.enter config ds).2 = none → after = []) := by
  induction ds generalizing scope with
  | nil => exact ⟨[], [], rfl, rfl, fun _ => rfl⟩
  | cons d ds ih =>
    rw [enter]
    split
    next clash hdefine => exact ⟨[], d :: ds, rfl, rfl, fun h => by cases h⟩
    next scope' hdefine =>
      obtain ⟨-, rfl⟩ := define_eq_ok_iff.1 hdefine
      split
      next clash hcheck => exact ⟨[d], ds, rfl, rfl, fun h => by cases h⟩
      next hcheck =>
        obtain ⟨before, after, rfl, hscope, hnone⟩ := ih (scope.extend d)
        exact ⟨d :: before, after, rfl, hscope, hnone⟩

/-- Definitions can be entered if their names are new and distinct, and so are their members. -/
theorem enter_eq_none_iff :
    (scope.enter config ds).2 = none ↔
      scope.names.Admits (ds.map (·.name.value)) ∧ ∀ d ∈ ds, d.Distinct config.useMethodId := by
  induction ds generalizing scope with
  | nil => simp [enter, Sites.admits_nil]
  | cons d ds ih =>
    rw [enter, map_cons, Sites.admits_cons_iff d.name.span, forall_mem_cons]
    split
    next clash hdefine =>
      have hnew : ¬ scope.names.site? d.name.value = none := by
        intro hnew
        rw [define_eq_ok_iff.2 ⟨hnew, rfl⟩] at hdefine
        cases hdefine
      simp [hnew]
    next scope' hdefine =>
      obtain ⟨hnew, rfl⟩ := define_eq_ok_iff.1 hdefine
      split
      next clash hcheck =>
        have hdistinct : ¬ d.Distinct config.useMethodId := by
          rw [← Definition.check_eq_ok_iff, hcheck]
          simp
        simp [hdistinct]
      next hcheck =>
        rw [ih]
        simp only [hnew, Definition.check_eq_ok_iff.1 hcheck, true_and]
        rfl

end Scope

namespace Program

theorem exists_checkDefinitions_eq (config : ParseConfig) (program : Program) :
    ∃ before after, program.schema.definitions = before ++ after ∧
      (program.checkDefinitions config).1 =
        { program with scope := before.foldl Scope.extend program.scope } ∧
      ((program.checkDefinitions config).2 = none → after = []) := by
  rw [checkDefinitions]
  split
  · exact ⟨[], program.schema.definitions, rfl, rfl, fun h => by cases h⟩
  · obtain ⟨before, after, hdefinitions, hscope, hnone⟩ :=
      program.scope.exists_enter_eq config program.schema.definitions
    refine ⟨before, after, hdefinitions, ?_⟩
    rw [← hscope]
    split
    next scope clash henter => exact ⟨by rw [henter], fun h => by cases h⟩
    next scope henter =>
      rw [henter] at hnone ⊢
      split
      · exact ⟨rfl, fun h => by cases h⟩
      · exact ⟨rfl, fun _ => hnone rfl⟩

/-- A program passes the check if its definitions can be entered, and the keys of its own options
and of those of its projects are distinct. -/
theorem checkDefinitions_eq_none_iff {program : Program} :
    (program.checkDefinitions config).2 = none ↔
      OptionDecl.Distinct program.schema.options ∧
        (program.scope.enter config program.schema.definitions).2 = none ∧
        ∀ project ∈ program.schema.projects, ∀ area ∈ project.areas,
          OptionDecl.Distinct area.options := by
  have hprojects : program.schema.projects.forM Project.check = .ok () ↔
      ∀ project ∈ program.schema.projects, ∀ area ∈ project.areas,
        OptionDecl.Distinct area.options := by
    rw [forM_eq_ok_iff]
    exact forall₂_congr fun _ _ => Project.check_eq_ok_iff
  rw [← @checkOptions_eq_ok_iff .package, ← hprojects, checkDefinitions]
  split
  next clash hoptions => simp [hoptions]
  next hoptions =>
    split
    next scope clash henter => simp [henter]
    next scope henter =>
      split
      next clash hcheck => simp [hcheck]
      next hcheck => simp [hoptions, henter, hcheck]

end Program

end Idl
