import Idl.Proofs.Analysis.Passes
import Idl.Proofs.Workspace.Closure

/-!
# The tables of a workspace

The tables by file and by path agree with the programs at every moment of an analysis, also while
programs are registered whose imports are still being followed.  What a run does to the programs
and the tables is said once, by `Extends`: a run adds to them, and a run that fails gives back
what it has added, names for older programs excepted.
-/

namespace Idl.Workspace

open List

variable {id : ProgramId} {name : FileName} {program : Program} {w' : Workspace}
  {read : List FileName} {source : String} {depth : Nat}
variable {files : FileView} {w w₁ w₂ : Workspace}

/-- The tables agree with the programs. -/
structure Indexed (w : Workspace) : Prop where
  ids : w.byPath.map (·.2) = List.range w.programs.length
  paths_nodup : (w.byPath.map (·.1)).Nodup
  files_nodup : (w.byFile.map (·.1)).Nodup
  lt_of_file : ∀ {file id}, w.byFile.lookup file = some id → id < w.programs.length
  file_of_program : ∀ {id program}, w.programs[id]? = some program →
    w.byFile.lookup program.file = some id

namespace Indexed

theorem lt_of_path (hw : Indexed w) (h : w.byPath.lookup name = some id) :
    id < w.programs.length := by
  have hmem : id ∈ w.byPath.map (·.2) := mem_map_of_mem (Assoc.mem_of_lookup_eq_some h)
  rw [hw.ids] at hmem
  exact mem_range.1 hmem

theorem exists_path (hw : Indexed w) (hid : id < w.programs.length) :
    ∃ name, w.byPath.lookup name = some id := by
  have hmem : id ∈ w.byPath.map (·.2) := by
    rw [hw.ids]
    exact mem_range.2 hid
  obtain ⟨⟨name, _⟩, hentry, rfl⟩ := mem_map.1 hmem
  exact ⟨name, (Assoc.lookup_eq_some_iff_mem hw.paths_nodup).2 hentry⟩

theorem path_unique
    (hw : Indexed w) {name' : FileName} (h : w.byPath.lookup name = some id)
    (h' : w.byPath.lookup name' = some id) : name = name' := by
  have hids : (w.byPath.map (·.2)).Nodup := by
    rw [hw.ids]
    exact nodup_range
  have hentry := inj_on_of_nodup_map hids (Assoc.mem_of_lookup_eq_some h)
    (Assoc.mem_of_lookup_eq_some h') rfl
  exact congrArg Prod.fst hentry

end Indexed

theorem indexed_new (base : String) (config : ParseConfig) (settings : List Setting) :
    Indexed (new base config settings) where
  ids := rfl
  paths_nodup := nodup_nil
  files_nodup := nodup_nil
  lt_of_file := by simp [new]
  file_of_program := by simp [new]

theorem file_of_readProgram
    {file : String} (h : w.readProgram files file name = .ok (program, source)) :
    program.file = file := by
  obtain ⟨dialect, -, -, hparse⟩ := readProgram_eq_ok_iff.1 h
  obtain ⟨schema, -, -, hdefinitions⟩ := parse_eq_ok_iff.1 hparse
  rw [checkDefinitions_eq_none hdefinitions]
  rfl

/-! ## Single changes -/

theorem Indexed.of_programs
    (hw : Indexed w) {programs : Arena}
    (hfiles : programs.map (·.file) = w.programs.map (·.file)) :
    Indexed { w with programs } := by
  have hlength : programs.length = w.programs.length := by
    simpa using congrArg List.length hfiles
  refine ⟨?_, hw.paths_nodup, hw.files_nodup, ?_, ?_⟩
  · rw [hlength]
    exact hw.ids
  · intro file id h
    rw [hlength]
    exact hw.lt_of_file h
  · intro id program h
    have hfile : (w.programs.map (·.file))[id]? = some program.file := by
      rw [← hfiles, getElem?_map, h]
      rfl
    rw [getElem?_map] at hfile
    obtain ⟨old, hold, hname⟩ := Option.map_eq_some_iff.1 hfile
    rw [← hname]
    exact hw.file_of_program hold

theorem Indexed.put_file
    (hw : Indexed w) {file : String} (hunknown : w.get? file = none)
    (hid : id < w.programs.length) :
    Indexed { w with byFile := w.byFile.put file id } := by
  refine ⟨hw.ids, hw.paths_nodup, Assoc.nodup_keys_put hw.files_nodup hunknown id, ?_, ?_⟩
  · intro other id' h
    rcases (Assoc.lookup_put_eq_some_iff hunknown).1 h with h | ⟨-, rfl⟩
    · exact hw.lt_of_file h
    · exact hid
  · intro id' program h
    exact (Assoc.lookup_put_eq_some_iff hunknown).2 (.inl (hw.file_of_program h))

theorem Indexed.add
    (hw : Indexed w) {file : String} (hfresh : Fresh files w file name)
    (hfile : program.file = file) : Indexed (w.add file name program) := by
  have hlength : (w.add file name program).programs.length = w.programs.length + 1 := by
    simp [Workspace.add]
  refine ⟨?_, Assoc.nodup_keys_put hw.paths_nodup hfresh.unregistered _,
    Assoc.nodup_keys_put hw.files_nodup hfresh.unknown _, ?_, ?_⟩
  · rw [hlength, range_succ, byPath_add hfresh, map_append, hw.ids]
    rfl
  · intro other id h
    rw [hlength]
    rcases (Assoc.lookup_put_eq_some_iff hfresh.unknown).1 h with h | ⟨-, rfl⟩
    · exact Nat.lt_succ_of_lt (hw.lt_of_file h)
    · exact Nat.lt_succ_self _
  · intro id other h
    refine (Assoc.lookup_put_eq_some_iff hfresh.unknown).2 ?_
    have happend : (w.programs ++ [program])[id]? = some other := h
    rcases Nat.lt_or_ge id w.programs.length with hlt | hge
    · rw [getElem?_append_left hlt] at happend
      exact .inl (hw.file_of_program happend)
    · rw [getElem?_append_right hge, getElem?_singleton] at happend
      split at happend
      next heq =>
        cases happend
        exact .inr ⟨hfile, Nat.le_antisymm (Nat.le_of_sub_eq_zero heq) hge⟩
      next => cases happend

theorem Indexed.bindImport (hw : Indexed w) (id index : Nat) (target : ProgramId) :
    Indexed (w.bindImport id index target) := by
  refine hw.of_programs (ext_getElem? fun i => ?_)
  rw [getElem?_map, getElem?_map, getElem?_modify]
  split <;> cases w.programs[i]? <;> rfl

/-- What linking does to the program that is linked. -/
theorem linkAt_programs
    (h : w.linkAt id source = .ok w') (hprogram : w.programs[id]? = some program) :
    ∃ linked, program.linkImports w.programs = .ok linked ∧
      (linked.bindReferences (w.programs.set id linked) id).2 = none ∧
      w'.programs[id]? = some (linked.bindReferences (w.programs.set id linked) id).1 := by
  have hid : id < w.programs.length := lt_of_getElem? hprogram
  have hprogram' : w.program? id = some program := hprogram
  simp only [linkAt, hprogram'] at h
  obtain ⟨linked, hlink, hbind, rfl⟩ := linkProgram_eq_ok_iff.1 h
  exact ⟨linked, hlink, hbind, getElem?_set_self hid⟩

/-- Linking and binding type names keep all of a program but its references, services and
messages. -/
theorem linked_eq
    {arena arena' : Arena} {linked : Program} (h : program.linkImports arena = .ok linked) :
    ∃ references services messages, (linked.bindReferences arena' id).1 =
      { program with
        schema := { program.schema with services, messages }, references := some references } := by
  obtain ⟨references, -, rfl⟩ := Program.linkImports_eq_ok_iff.1 h
  obtain ⟨services, messages, hbind⟩ := Program.bindReferences_eq arena' id
    { program with references := some (program.references.getD references) }
  exact ⟨_, services, messages, hbind⟩

theorem Indexed.linkAt (hw : Indexed w) (h : w.linkAt id source = .ok w') : Indexed w' := by
  obtain ⟨programs, rfl, hlength, hother⟩ := linkAt_eq_ok h
  refine hw.of_programs (ext_getElem? fun i => ?_)
  rw [getElem?_map, getElem?_map]
  by_cases hi : i = id
  · subst hi
    cases hprogram : w.programs[i]? with
    | none =>
      have hge : programs.length ≤ i := hlength ▸ List.getElem?_eq_none_iff.1 hprogram
      rw [List.getElem?_eq_none_iff.2 hge]
    | some program =>
      obtain ⟨linked, hlink, -, hlinked⟩ := linkAt_programs h hprogram
      obtain ⟨references, services, messages, heq⟩ := linked_eq hlink
      rw [heq] at hlinked
      rw [hlinked]
      rfl
  · rw [hother i hi]

/-! ## What a run adds -/

/-- The program whose imports a task binds. -/
def Task.own : Task → Option ProgramId
  | file _ => none
  | imports _ id _ => some id

/-- A workspace has grown while the imports of `own` were bound: programs stay where they are, and
are the same except for those imports; paths are added at the end; names are added for files that
lead to registered paths. -/
structure Extends (files : FileView) (own : Option ProgramId) (w w' : Workspace) : Prop where
  setup : w'.setup = w.setup
  programs : ∀ {i program}, w.programs[i]? = some program →
    ∃ program', w'.programs[i]? = some program' ∧ program'.forget = program.forget ∧
      (own ≠ some i → program' = program)
  paths : w.byPath <+: w'.byPath
  names : ∀ {file id}, w.byFile.lookup file = some id → w'.byFile.lookup file = some id
  named : ∀ {file id}, w'.byFile.lookup file = some id → w.byFile.lookup file = some id ∨
    ∃ name, files.resolve (Path.join w.base file) = .ok name ∧ w'.byPath.lookup name = some id

namespace Extends

variable {own : Option ProgramId}

theorem refl (files : FileView) (own : Option ProgramId) (w : Workspace) :
    Extends files own w w where
  setup := rfl
  programs := fun h => ⟨_, h, rfl, fun _ => rfl⟩
  paths := prefix_refl _
  names := id
  named := .inl

theorem path (h : Extends files own w w₁) (hname : w.byPath.lookup name = some id) :
    w₁.byPath.lookup name = some id :=
  h.paths.lookup_eq_some hname

theorem trans
    (h : Extends files own w w₁) (h' : Extends files own w₁ w₂) : Extends files own w w₂ where
  setup := h'.setup.trans h.setup
  programs := by
    intro i program hprogram
    obtain ⟨program₁, hprogram₁, hforget₁, hsame₁⟩ := h.programs hprogram
    obtain ⟨program₂, hprogram₂, hforget₂, hsame₂⟩ := h'.programs hprogram₁
    exact ⟨program₂, hprogram₂, hforget₂.trans hforget₁,
      fun howns => (hsame₂ howns).trans (hsame₁ howns)⟩
  paths := h.paths.trans h'.paths
  names := fun hfile => h'.names (h.names hfile)
  named := by
    intro file id hfile
    rcases h'.named hfile with hfile | ⟨name, hresolve, hname⟩
    · rcases h.named hfile with hfile | ⟨name, hresolve, hname⟩
      · exact .inl hfile
      · exact .inr ⟨name, hresolve, h'.path hname⟩
    · rw [base_eq_of_setup h.setup] at hresolve
      exact .inr ⟨name, hresolve, hname⟩

theorem of_none (h : Extends files none w w₁) : Extends files own w w₁ where
  setup := h.setup
  programs := by
    intro i program hprogram
    obtain ⟨program₁, hprogram₁, hforget, hsame⟩ := h.programs hprogram
    exact ⟨program₁, hprogram₁, hforget, fun _ => hsame nofun⟩
  paths := h.paths
  names := h.names
  named := h.named

theorem length_le (h : Extends files own w w₁) : w.programs.length ≤ w₁.programs.length := by
  rcases Nat.eq_zero_or_pos w.programs.length with hzero | hpos
  · omega
  · have hlast : w.programs.length - 1 < w.programs.length := Nat.sub_lt hpos Nat.one_pos
    obtain ⟨_, hlast₁, -, -⟩ := h.programs (getElem?_eq_getElem hlast)
    have := lt_of_getElem? hlast₁
    omega

theorem program_of_none
    (h : Extends files none w w₁) {i : ProgramId} (hprogram : w.programs[i]? = some program) :
    w₁.programs[i]? = some program := by
  obtain ⟨program₁, hprogram₁, -, hsame⟩ := h.programs hprogram
  rw [hprogram₁, hsame nofun]

end Extends

theorem extends_put_file
    {file : String} (hunknown : w.get? file = none)
    (hresolve : files.resolve (Path.join w.base file) = .ok name)
    (hregistered : w.byPath.lookup name = some id) :
    Extends files none w { w with byFile := w.byFile.put file id } where
  setup := rfl
  programs := fun h => ⟨_, h, rfl, fun _ => rfl⟩
  paths := prefix_refl _
  names := fun h => (Assoc.lookup_put_eq_some_iff hunknown).2 (.inl h)
  named := by
    intro other id' h
    rcases (Assoc.lookup_put_eq_some_iff hunknown).1 h with h | ⟨rfl, rfl⟩
    · exact .inl h
    · exact .inr ⟨name, hresolve, hregistered⟩

theorem extends_add {file : String} (hfresh : Fresh files w file name) (program : Program) :
    Extends files none w (w.add file name program) where
  setup := rfl
  programs := by
    intro i other h
    have hi : i < w.programs.length := lt_of_getElem? h
    exact ⟨other, (getElem?_append_left hi).trans h, rfl, fun _ => rfl⟩
  paths := by
    rw [byPath_add hfresh]
    exact prefix_append _ _
  names := fun h => (Assoc.lookup_put_eq_some_iff hfresh.unknown).2 (.inl h)
  named := by
    intro other id h
    rcases (Assoc.lookup_put_eq_some_iff hfresh.unknown).1 h with h | ⟨rfl, rfl⟩
    · exact .inl h
    · exact .inr ⟨name, hfresh.resolves,
        (Assoc.lookup_put_eq_some_iff hfresh.unregistered).2 (.inr ⟨rfl, rfl⟩)⟩

theorem extends_bindImport (w : Workspace) (id index : Nat) (target : ProgramId) :
    Extends files (some id) w (w.bindImport id index target) where
  setup := rfl
  programs := by
    intro i program h
    by_cases hi : id = i
    · subst hi
      refine ⟨{ program with schema := (program.schema.bindImport index target).1 }, ?_,
        Program.forget_bindImport program index target, fun hother => absurd rfl hother⟩
      exact (getElem?_modify_eq _ _ _).trans (by rw [h]; rfl)
    · exact ⟨program, (getElem?_modify_ne _ _ hi).trans h, rfl, fun _ => rfl⟩
  paths := prefix_refl _
  names := fun h => h
  named := .inl

/-! ## What a failed run gives back -/

/-- Dropping the programs from the length of an earlier workspace on leaves its paths. -/
theorem filter_byPath_of_prefix (hw : Indexed w) (hw₁ : Indexed w₁) (h : w.byPath <+: w₁.byPath) :
    w₁.byPath.filter (·.2 < w.programs.length) = w.byPath := by
  obtain ⟨rest, hrest⟩ := h
  have hids : ((w.byPath ++ rest).map (·.2)).Nodup := by
    rw [hrest, hw₁.ids]
    exact nodup_range
  have hold : w.byPath.filter (·.2 < w.programs.length) = w.byPath := by
    rw [filter_eq_self]
    intro entry hentry
    have hmem : entry.2 ∈ w.byPath.map (·.2) := mem_map_of_mem hentry
    rw [hw.ids] at hmem
    simpa using hmem
  have hnew : rest.filter (·.2 < w.programs.length) = [] := by
    rw [filter_eq_nil_iff]
    intro entry hentry hlt
    have hmem : entry.2 ∈ w.byPath.map (·.2) := by
      rw [hw.ids]
      simpa using hlt
    rw [map_append, nodup_append] at hids
    exact hids.2.2 _ hmem _ (mem_map_of_mem hentry) rfl
  rw [← hrest, filter_append, hold, hnew, append_nil]

section Eviction

variable {file : String} {name : FileName} {program : Program}

theorem programs_evictFrom
    (h : Extends files (some w.programs.length) (w.add file name program) w₁) :
    (w₁.evictFrom w.programs.length).programs = w.programs := by
  apply ext_getElem?
  intro i
  rcases Nat.lt_or_ge i w.programs.length with hlt | hge
  · have hadd : (w.add file name program).programs[i]? = w.programs[i]? :=
      getElem?_append_left hlt
    obtain ⟨program₁, hprogram₁, -, hsame⟩ :=
      h.programs (hadd.trans (getElem?_eq_getElem hlt))
    have htake : (w₁.evictFrom w.programs.length).programs[i]? = w₁.programs[i]? :=
      getElem?_take_of_lt hlt
    rw [htake, hprogram₁, hsame (by simpa using Nat.ne_of_gt hlt), getElem?_eq_getElem hlt]
  · have htake : (w₁.evictFrom w.programs.length).programs[i]? = none :=
      getElem?_take_eq_none hge
    rw [htake, getElem?_eq_none hge]

theorem byPath_evictFrom
    (hw : Indexed w) (hw₁ : Indexed w₁) (hfresh : Fresh files w file name)
    (h : Extends files (some w.programs.length) (w.add file name program) w₁) :
    (w₁.evictFrom w.programs.length).byPath = w.byPath :=
  filter_byPath_of_prefix hw hw₁ ((extends_add hfresh program).paths.trans h.paths)

theorem lookup_byFile_evictFrom (hw₁ : Indexed w₁) {bound : ProgramId} {other : String} :
    (w₁.evictFrom bound).byFile.lookup other = some id ↔
      w₁.byFile.lookup other = some id ∧ id < bound := by
  simp only [evictFrom, Assoc.lookup_filter_eq_some_iff hw₁.files_nodup, decide_eq_true_eq]

/-- A file that cannot be loaded leaves nothing but new names for older programs. -/
theorem extends_evictFrom
    (hw : Indexed w) (hw₁ : Indexed w₁) (hfresh : Fresh files w file name)
    (h : Extends files (some w.programs.length) (w.add file name program) w₁) :
    Extends files none w (w₁.evictFrom w.programs.length) where
  setup := h.setup
  programs := by
    intro i other hother
    rw [programs_evictFrom h]
    exact ⟨other, hother, rfl, fun _ => rfl⟩
  paths := by
    rw [byPath_evictFrom hw hw₁ hfresh h]
  names := by
    intro other id hother
    exact (lookup_byFile_evictFrom hw₁).2
      ⟨h.names ((extends_add hfresh program).names hother), hw.lt_of_file hother⟩
  named := by
    intro other id hother
    obtain ⟨hother, hlt⟩ := (lookup_byFile_evictFrom hw₁).1 hother
    rw [byPath_evictFrom hw hw₁ hfresh h]
    rcases h.named hother with hother | ⟨name', hresolve, hname⟩
    · rcases (Assoc.lookup_put_eq_some_iff hfresh.unknown).1 hother with hother | ⟨-, rfl⟩
      · exact .inl hother
      · exact absurd hlt (Nat.lt_irrefl _)
    · refine .inr ⟨name', hresolve, ?_⟩
      rw [← byPath_evictFrom hw hw₁ hfresh h]
      exact (Assoc.lookup_filter_eq_some_iff hw₁.paths_nodup _).2 ⟨hname, by simpa using hlt⟩

theorem Indexed.evictFrom
    (hw : Indexed w) (hw₁ : Indexed w₁) (hfresh : Fresh files w file name)
    (h : Extends files (some w.programs.length) (w.add file name program) w₁) :
    Indexed (w₁.evictFrom w.programs.length) := by
  refine ⟨?_, ?_, ?_, ?_, ?_⟩
  · rw [byPath_evictFrom hw hw₁ hfresh h, programs_evictFrom h]
    exact hw.ids
  · rw [byPath_evictFrom hw hw₁ hfresh h]
    exact hw.paths_nodup
  · exact hw₁.files_nodup.sublist (filter_sublist.map _)
  · intro other id hother
    rw [programs_evictFrom h]
    exact ((lookup_byFile_evictFrom hw₁).1 hother).2
  · intro id other hother
    rw [programs_evictFrom h] at hother
    exact (extends_evictFrom hw hw₁ hfresh h).names (hw.file_of_program hother)

end Eviction

/-! ## Runs -/

theorem extends_linkAt
    {file : String} (hfresh : Fresh files w file name)
    (h : Extends files (some w.programs.length) (w.add file name program) w₁)
    (hlink : w₁.linkAt w.programs.length source = .ok w₂) : Extends files none w w₂ := by
  obtain ⟨programs, rfl, hlength, hother⟩ := linkAt_eq_ok hlink
  have hadd := extends_add hfresh program
  refine ⟨h.setup, ?_, hadd.paths.trans h.paths, fun hfile => h.names (hadd.names hfile), ?_⟩
  · intro i other hprogram
    have hlt : i < w.programs.length := lt_of_getElem? hprogram
    obtain ⟨other₁, hother₁, -, hsame⟩ := h.programs (hadd.program_of_none hprogram)
    refine ⟨other, ?_, rfl, fun _ => rfl⟩
    rw [hother i (Nat.ne_of_lt hlt), hother₁, hsame (by simpa using Nat.ne_of_gt hlt)]
  · intro other id hfile
    rcases h.named hfile with hfile | hnamed
    · rcases hadd.named hfile with hfile | ⟨name', hresolve, hname⟩
      · exact .inl hfile
      · exact .inr ⟨name', hresolve, h.path hname⟩
    · exact .inr hnamed

/-- Every run keeps the tables in order, and does no more than its task may. -/
theorem Run.indexed_extends
    {task : Task} {result : Except Failure ProgramId} (h : Run files w task read depth w' result)
    (hw : Indexed w) : Indexed w' ∧ Extends files task.own w w' := by
  induction h with
  | known | lost | refused | followed => exact ⟨hw, .refl ..⟩
  | renamed hunknown hresolve hregistered =>
    exact ⟨hw.put_file hunknown (hw.lt_of_path hregistered),
      extends_put_file hunknown hresolve hregistered⟩
  | loaded hfresh hread _ hlink ih =>
    obtain ⟨hw₁, hextends⟩ := ih (hw.add hfresh (file_of_readProgram hread))
    exact ⟨hw₁.linkAt hlink, extends_linkAt hfresh hextends hlink⟩
  | unlinked hfresh hread _ _ ih | broken hfresh hread _ ih =>
    obtain ⟨hw₁, hextends⟩ := ih (hw.add hfresh (file_of_readProgram hread))
    exact ⟨hw.evictFrom hw₁ hfresh hextends, extends_evictFrom hw hw₁ hfresh hextends⟩
  | bound _ _ ihfirst ihrest =>
    obtain ⟨hw₁, hfirst⟩ := ihfirst hw
    obtain ⟨hw₂, hrest⟩ := ihrest (hw₁.bindImport ..)
    exact ⟨hw₂, hfirst.of_none.trans ((extends_bindImport ..).trans hrest)⟩
  | stopped _ ih =>
    obtain ⟨hw₁, hextends⟩ := ih hw
    exact ⟨hw₁, hextends.of_none⟩

theorem Run.unchanged_of_error
    {file : String} {failure : Failure}
    (h : Run files w (.file file) read depth w' (.error failure)) (hw : Indexed w) :
    w'.programs = w.programs ∧ w'.byPath = w.byPath := by
  cases h with
  | lost | refused => exact ⟨rfl, rfl⟩
  | unlinked hfresh hread hfollow _ | broken hfresh hread hfollow =>
    obtain ⟨hw₁, hextends⟩ := hfollow.indexed_extends (hw.add hfresh (file_of_readProgram hread))
    exact ⟨programs_evictFrom hextends, byPath_evictFrom hw hw₁ hfresh hextends⟩

theorem Run.known_of_ok
    {file : String} (h : Run files w (.file file) read depth w' (.ok id)) (hw : Indexed w) :
    w'.byFile.lookup file = some id := by
  cases h with
  | known hknown => exact hknown
  | renamed hunknown => exact (Assoc.lookup_put_eq_some_iff hunknown).2 (.inr ⟨rfl, rfl⟩)
  | loaded hfresh hread hfollow hlink =>
    obtain ⟨-, hextends⟩ := hfollow.indexed_extends (hw.add hfresh (file_of_readProgram hread))
    obtain ⟨programs, rfl, -, -⟩ := linkAt_eq_ok hlink
    exact hextends.names ((Assoc.lookup_put_eq_some_iff hfresh.unknown).2 (.inr ⟨rfl, rfl⟩))

end Idl.Workspace
