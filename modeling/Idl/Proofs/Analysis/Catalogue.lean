import Idl.Proofs.Analysis.Persistence

/-!
# Tables of programs that have passed the check

Once the check of a program's definitions has found no clash, its tables list every message and
every enum, no two of them under the same name, and no later pass spoils that.  So looking a name up
in the whole program finds the one declaration that has it.
-/

namespace Idl

open List

/-- Where the entries of a table are the names of things, and no two things have the same name,
looking a name up finds what has it, even if it is entered twice. -/
theorem Assoc.lookup_eq_some_iff_of_unique
    {π : Type} {table : Assoc String π} {nameAt : π → Option String}
    (hentry : ∀ name path, (name, path) ∈ table → nameAt path = some name)
    (hlisted : ∀ path name, nameAt path = some name → (name, path) ∈ table)
    (hunique : ∀ path path' name, nameAt path = some name → nameAt path' = some name →
      path = path') {name : String} {path : π} :
    table.lookup name = some path ↔ nameAt path = some name := by
  refine ⟨fun hpath => hentry name path (mem_of_lookup_eq_some hpath), fun hname => ?_⟩
  cases hfound : table.lookup name with
  | none =>
    have hkey : name ∈ table.map (·.1) := mem_map.2 ⟨_, hlisted path name hname, rfl⟩
    exact absurd hkey (not_mem_keys_of_lookup_eq_none hfound)
  | some found =>
    have hfound' := hentry name found (mem_of_lookup_eq_some hfound)
    rw [hunique path found name hname hfound']

/-- Every message and every enum of the program is in its tables, and no two have the same name. -/
structure Program.Complete (program : Program) : Prop where
  unique : ∀ path path' name, program.schema.typeName? path = some name →
    program.schema.typeName? path' = some name → path = path'
  messages : ∀ path name, program.schema.typeName? (.message path) = some name →
    (name, path) ∈ program.scope.messages
  enums : ∀ path name, program.schema.typeName? (.enum path) = some name →
    (name, path) ∈ program.scope.enums

namespace Program

variable {arena : Arena} {id : ProgramId} {program later : Program} {name : String}

theorem Complete.of_check {config : ParseConfig} (h : (program.checkDefinitions config).2 = none) :
    (program.checkDefinitions config).1.Complete := by
  obtain ⟨before, after, hdefinitions, hchecked, hall⟩ := program.exists_checkDefinitions_eq config
  obtain ⟨-, henter, -⟩ := checkDefinitions_eq_none_iff.1 h
  obtain ⟨hnames, -⟩ := Scope.enter_eq_none_iff.1 henter
  obtain rfl := hall h
  rw [append_nil] at hdefinitions
  rw [hchecked, ← hdefinitions]
  refine ⟨(Schema.nodup_map_name_definitions_iff.1 hnames.1).1, fun path name hname => ?_,
    fun path name hname => ?_⟩
  · rw [Scope.messages_foldl_extend]
    rw [Schema.typeName?_message] at hname
    exact mem_append_right _ (Schema.mem_messageEntries_iff.2 hname)
  · rw [Scope.enums_foldl_extend]
    rw [Schema.typeName?_enum] at hname
    exact mem_append_right _ (Schema.mem_enumEntries_iff.2 hname)

theorem Complete.of_grows (h : program.Complete) (hgrows : program.Grows later) :
    later.Complete where
  unique := by simpa only [hgrows.names] using h.unique
  messages := fun path name hname =>
    hgrows.messages (h.messages path name (by rwa [hgrows.names] at hname))
  enums := fun path name hname =>
    hgrows.enums (h.enums path name (by rwa [hgrows.names] at hname))

theorem Complete.lookup_messages_eq_some_iff
    (h : program.Complete) (htables : program.Tables) {path : MessagePath} :
    program.scope.messages.lookup name = some path ↔
      program.schema.typeName? (.message path) = some name := by
  refine Assoc.lookup_eq_some_iff_of_unique htables.messages h.messages ?_
  intro path path' name hname hname'
  exact TypePath.message.inj (h.unique _ _ name hname hname')

theorem Complete.lookup_enums_eq_some_iff
    (h : program.Complete) (htables : program.Tables) {path : EnumPath} :
    program.scope.enums.lookup name = some path ↔
      program.schema.typeName? (.enum path) = some name := by
  refine Assoc.lookup_eq_some_iff_of_unique htables.enums h.enums ?_
  intro path path' name hname hname'
  exact TypePath.enum.inj (h.unique _ _ name hname hname')

theorem Complete.findMessage?_eq_some_iff
    (h : program.Complete) (htables : program.Tables) {ref : MessageRef} :
    program.scope.findMessage? id name = some ref ↔
      ref.program = id ∧ program.schema.typeName? (.message ref.path) = some name := by
  rw [Scope.findMessage?, Option.map_eq_some_iff]
  constructor
  · rintro ⟨path, hpath, rfl⟩
    exact ⟨rfl, (h.lookup_messages_eq_some_iff htables).1 hpath⟩
  · rintro ⟨rfl, hname⟩
    exact ⟨ref.path, (h.lookup_messages_eq_some_iff htables).2 hname, rfl⟩

/-- A name that is looked up in the whole program stands for the declaration that has it. -/
theorem Complete.find?_eq_some_iff
    (h : program.Complete) (htables : program.Tables) {ref : TypeRef} :
    program.scope.find? id name = some ref ↔
      ref.program = id ∧ program.schema.typeName? ref.path = some name := by
  unfold Scope.find?
  split
  next found hfound =>
    obtain ⟨hid, hname⟩ := (h.findMessage?_eq_some_iff htables).1 hfound
    constructor
    · rintro ⟨⟩
      exact ⟨hid, hname⟩
    · rintro ⟨rfl, hname'⟩
      have hpath := h.unique _ _ name hname hname'
      cases ref with
      | message ref =>
        obtain ⟨program, path⟩ := ref
        obtain ⟨_, path'⟩ := found
        cases hpath
        cases hid
        rfl
      | enum ref => cases hpath
  next hnone =>
    rw [Option.map_eq_some_iff]
    constructor
    · rintro ⟨path, hpath, rfl⟩
      exact ⟨rfl, (h.lookup_enums_eq_some_iff htables).1 hpath⟩
    · rintro ⟨rfl, hname⟩
      cases ref with
      | message ref =>
        have hfound : program.scope.findMessage? ref.program name = some ref :=
          (h.findMessage?_eq_some_iff htables).2 ⟨rfl, hname⟩
        cases hnone.symm.trans hfound
      | enum ref => exact ⟨ref.path, (h.lookup_enums_eq_some_iff htables).2 hname, rfl⟩

end Program

/-! ## Passes that check a program -/

/-- One of the passes checks the definitions of the program, and finds no clash. -/
def Cleared (passes : List Pass) (id : ProgramId) : Prop :=
  ∃ before config rest program, passes = before ++ .checkDefinitions config id :: rest ∧
    (Arena.afterAll before)[id]? = some program ∧ (program.checkDefinitions config).2 = none

theorem Cleared.of_any
    {id : ProgramId} (before : List Pass) (config : ParseConfig) (rest : List Pass)
    (h : (Arena.afterAll before)[id]?.any fun program =>
      (program.checkDefinitions config).2.isNone) :
    Cleared (before ++ .checkDefinitions config id :: rest) id := by
  simp only [Option.any_eq_true, Option.isNone_iff_eq_none] at h
  obtain ⟨program, hprogram, hcheck⟩ := h
  exact ⟨before, config, rest, program, rfl, hprogram, hcheck⟩

theorem Cleared.complete
    {passes : List Pass} {id : ProgramId} {program : Program} (h : Cleared passes id)
    (hprogram : (Arena.afterAll passes)[id]? = some program) : program.Complete := by
  obtain ⟨before, config, rest, unchecked, rfl, hunchecked, hcheck⟩ := h
  have hchecked : ((Arena.afterAll before).after (.checkDefinitions config id))[id]? =
      some (unchecked.checkDefinitions config).1 := by
    simp [Arena.after, Arena.getElem?_update, hunchecked]
  obtain ⟨later, hlater, hgrows⟩ := Arena.grows_foldl _ rest id _ hchecked
  rw [Arena.afterAll, foldl_append, foldl_cons] at hprogram
  cases hlater.symm.trans hprogram
  exact (Program.Complete.of_check hcheck).of_grows hgrows

end Idl
