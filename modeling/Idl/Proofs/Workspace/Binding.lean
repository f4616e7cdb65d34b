import Idl.Proofs.Analysis.Linking
import Idl.Proofs.Grammar.Fresh
import Idl.Proofs.Workspace.Index

/-!
# Bound imports

A program is registered with its imports bound to nothing.  Following them binds one after the
other, and a binding never goes stale: it says what the table of files says, to which a run only
adds.  So a program that is done has every import bound, also through cycles, in which a program
is bound to one that is not done yet.
-/

namespace Idl.Workspace

open List

variable {file source : String} {name : FileName} {program origin : Program}
  {names : Assoc String ProgramId} {id : ProgramId}
variable {files : FileView} {w w' : Workspace} {task : Task} {read : List FileName} {depth : Nat}
  {result : Except Failure ProgramId} {target : ProgramId} {left : List (String × Nat)}

/-- The imports that are listed, by file and index, are the ones that are not bound yet; all others
are bound as the table of files says. -/
structure Pending (names : Assoc String ProgramId) (program : Program)
    (left : List (String × Nat)) : Prop where
  listed : ∀ {file index item}, (file, index) ∈ left →
    program.schema.imports[index]? = some item → item.file.value = file
  settled : ∀ {index item}, program.schema.imports[index]? = some item →
    (item.target = none ∧ (item.file.value, index) ∈ left) ∨
      ∃ target, item.target = some target ∧ names.lookup item.file.value = some target

theorem pending_importsOf
    (h : w.readProgram files file name = .ok (program, source)) (names : Assoc String ProgramId) :
    Pending names program (importsOf program) := by
  obtain ⟨dialect, -, -, hparse⟩ := readProgram_eq_ok_iff.1 h
  obtain ⟨schema, hschema, himports⟩ := imports_eq_of_parse hparse
  refine ⟨?_, ?_⟩
  · intro file index item hmem hitem
    obtain ⟨entry, hentry, hvalue⟩ := mem_importsOf_iff.1 hmem
    cases hentry.symm.trans hitem
    exact hvalue
  · intro index item hitem
    refine .inl ⟨?_, mem_importsOf_iff.2 ⟨item, hitem, rfl⟩⟩
    rw [himports] at hitem
    exact unbound_of_parse hschema item (mem_of_getElem? hitem)

/-- Pending imports stay pending, and bound ones bound, when names are added. -/
theorem Pending.mono
    {names' : Assoc String ProgramId} (h : Pending names program left)
    (hnames : ∀ {file id}, names.lookup file = some id → names'.lookup file = some id) :
    Pending names' program left := by
  refine ⟨h.listed, fun hitem => ?_⟩
  rcases h.settled hitem with hpending | ⟨target, htarget, hname⟩
  · exact .inl hpending
  · exact .inr ⟨target, htarget, hnames hname⟩

theorem Pending.bindImport
    {index : Nat} (h : Pending names program ((file, index) :: left))
    (hname : names.lookup file = some target) :
    Pending names { program with schema := (program.schema.bindImport index target).1 } left := by
  refine ⟨?_, ?_⟩
  · intro other i item hmem hitem
    dsimp only at hitem
    rw [Schema.bindImport_imports] at hitem
    obtain ⟨old, hold, rfl⟩ := Option.map_eq_some_iff.1 hitem
    have hvalue := h.listed (mem_cons_of_mem _ hmem) hold
    split <;> exact hvalue
  · intro i item hitem
    dsimp only at hitem
    rw [Schema.bindImport_imports] at hitem
    obtain ⟨old, hold, rfl⟩ := Option.map_eq_some_iff.1 hitem
    rcases h.settled hold with ⟨hnone, hmem⟩ | ⟨target', htarget, hname'⟩
    · by_cases hi : i = index
      · subst hi
        have hvalue := h.listed mem_cons_self hold
        refine .inr ⟨target, ?_⟩
        simp only [hnone, and_self, if_true, true_and]
        rw [hvalue]
        exact hname
      · have hleft : (old.file.value, i) ∈ left := by
          rcases mem_cons.1 hmem with heq | hmem
          · exact absurd (congrArg Prod.snd heq) hi
          · exact hmem
        refine .inl ?_
        simp only [hi, false_and, if_false]
        exact ⟨hnone, hleft⟩
    · refine .inr ⟨target', ?_⟩
      simp only [htarget, reduceCtorEq, and_false, if_false, true_and]
      exact hname'

theorem programs_bindImport
    (h : w.programs[id]? = some program) (index : Nat) (target : ProgramId) :
    (w.bindImport id index target).programs[id]? =
      some { program with schema := (program.schema.bindImport index target).1 } := by
  refine (getElem?_modify_eq _ _ _).trans ?_
  rw [h]
  rfl

/-- Following the pending imports of a program binds them all. -/
theorem Run.pending
    (h : Run files w task read depth w' result) (hw : Indexed w) {importer : String}
    (htask : task = .imports importer id left) (hresult : result = .ok target)
    (hprogram : w.programs[id]? = some program) (hpending : Pending w.byFile program left) :
    ∃ program', w'.programs[id]? = some program' ∧ program'.forget = program.forget ∧
      Pending w'.byFile program' [] := by
  induction h generalizing importer id left program with
  | known | lost | renamed | refused | loaded | unlinked | broken => cases htask
  | followed =>
    cases htask
    exact ⟨program, hprogram, rfl, hpending⟩
  | bound hfirst _ _ ihrest =>
    cases htask
    obtain ⟨hw₁, hextends⟩ := hfirst.indexed_extends hw
    have hbound := (hpending.mono hextends.names).bindImport (hfirst.known_of_ok hw)
    obtain ⟨program', hprogram', hforget, hdone⟩ := ihrest (hw₁.bindImport ..) rfl hresult
      (programs_bindImport (hextends.program_of_none hprogram) _ _) hbound
    exact ⟨program', hprogram', hforget.trans (Program.forget_bindImport ..), hdone⟩
  | stopped => cases hresult

theorem Pending.eq_bindTo
    (h : Pending names program []) (hforget : program.forget = origin.forget) :
    program = origin.bindTo (names.lookup ·) ∧
      ∀ item ∈ origin.schema.imports, (names.lookup item.file.value).isSome := by
  have hbound : ∀ item ∈ program.schema.imports,
      ∃ target, item.target = some target ∧ names.lookup item.file.value = some target := by
    intro item hitem
    obtain ⟨index, hindex⟩ := getElem?_of_mem hitem
    rcases h.settled hindex with ⟨-, hmem⟩ | hbound
    · cases hmem
    · exact hbound
  refine ⟨Program.eq_bindTo_of_forget hforget fun item hitem => ?_, fun item hitem => ?_⟩
  · obtain ⟨target, htarget, hname⟩ := hbound item hitem
    rw [htarget, hname]
  · have himports : program.schema.imports.map (·.forget) =
        origin.schema.imports.map (·.forget) := congrArg (·.schema.imports) hforget
    obtain ⟨item', hitem', hsame⟩ := mem_map.1 (himports ▸ mem_map_of_mem hitem)
    have hfile : item'.file = item.file := congrArg (·.file) hsame
    obtain ⟨target, -, hname⟩ := hbound item' hitem'
    rw [← hfile, hname]
    rfl

/-! ## Programs that are done -/

/-- Names and outlines stay. -/
structure Grows (w w' : Workspace) : Prop where
  names : ∀ {file id}, w.get? file = some id → w'.get? file = some id
  outlines : ∀ {i : ProgramId} {program : Program}, w.programs[i]? = some program →
    ∃ program', w'.programs[i]? = some program' ∧ program'.outline = program.outline

theorem Grows.known (h : Grows w w') (hknown : (w.get? file).isSome) : (w'.get? file).isSome := by
  obtain ⟨target, htarget⟩ := Option.isSome_iff_exists.1 hknown
  rw [h.names htarget]
  rfl

theorem Extends.grows {own : Option ProgramId} (h : Extends files own w w') : Grows w w' where
  names := h.names
  outlines := by
    intro i program hprogram
    obtain ⟨program', hprogram', hforget, -⟩ := h.programs hprogram
    exact ⟨program', hprogram', Program.outline_eq_of_forget hforget⟩

theorem grows_linkAt (h : w.linkAt id source = .ok w') : Grows w w' := by
  obtain ⟨programs, heq, -, hother⟩ := linkAt_eq_ok h
  refine ⟨by rw [heq]; exact fun hfile => hfile, ?_⟩
  intro i program hprogram
  by_cases hi : i = id
  · subst hi
    obtain ⟨linked, hlink, -, hlinked⟩ := linkAt_programs h hprogram
    obtain ⟨references, services, messages, hshape⟩ := linked_eq hlink
    refine ⟨_, hlinked, ?_⟩
    rw [hshape]
    rfl
  · refine ⟨program, ?_, rfl⟩
    rw [heq]
    exact (hother i hi).trans hprogram

theorem bindTo_eq_of_grows
    (hgrows : Grows w w')
    (hknown : ∀ item ∈ origin.schema.imports, (w.get? item.file.value).isSome) :
    origin.bindTo w'.get? = origin.bindTo w.get? := by
  refine Program.bindTo_congr fun item hitem => ?_
  obtain ⟨target, htarget⟩ := Option.isSome_iff_exists.1 (hknown item hitem)
  rw [htarget, hgrows.names htarget]

theorem links_of_grows
    (hw : Indexed w) (hgrows : Grows w w') (hunlinked : origin.references = none)
    (hknown : ∀ item ∈ origin.schema.imports, (w.get? item.file.value).isSome)
    (hprogram : w.programs[id]? = some program) (houtline : program.outline = origin.outline)
    (h : (origin.bindTo w.get?).Links w.programs id) :
    (origin.bindTo w'.get?).Links w'.programs id := by
  rw [bindTo_eq_of_grows hgrows hknown]
  obtain ⟨program', hprogram', houtline'⟩ := hgrows.outlines hprogram
  refine h.of_outlines rfl hunlinked (map_congr_left fun item hitem => ?_) ?_ ?_
  · obtain ⟨entry, hentry, rfl⟩ := mem_map.1 hitem
    obtain ⟨target, htarget⟩ := Option.isSome_iff_exists.1 (hknown entry hentry)
    have hlt : target < w.programs.length := hw.lt_of_file htarget
    obtain ⟨imported', himported', hsame⟩ := hgrows.outlines (getElem?_eq_getElem hlt)
    simp only [Arena.importOutline, Arena.imported?, htarget, getElem?_eq_getElem hlt,
      himported', Option.bind_eq_bind, Option.bind_some, Option.pure_def, Option.map_some, hsame]
  · intro old hold
    cases hprogram.symm.trans hold
    exact houtline
  · intro old hold
    cases hprogram'.symm.trans hold
    exact houtline'.trans houtline

/-- The program of a number is done.  It was read as `origin`; its imports are bound as the table of
files says, its references are set, and it could be linked. -/
structure Done (w : Workspace) (id : ProgramId) (origin : Program) : Prop where
  unlinked : origin.references = none
  known : ∀ item ∈ origin.schema.imports, (w.get? item.file.value).isSome
  program : ∃ references services messages, w.programs[id]? = some
    { origin.bindTo w.get? with
      schema := { (origin.bindTo w.get?).schema with services, messages }
      references := some references }
  links : (origin.bindTo w.get?).Links w.programs id

theorem Done.eq_of_program (h : Done w id origin) (hprogram : w.programs[id]? = some program) :
    program.file = origin.file ∧ program.outline = origin.outline ∧
      program.references.isSome ∧
      program.schema.imports = (origin.bindTo w.get?).schema.imports := by
  obtain ⟨references, services, messages, hshape⟩ := h.program
  cases hshape.symm.trans hprogram
  exact ⟨rfl, rfl, rfl, rfl⟩

theorem Done.mono
    (hw : Indexed w) (h : Done w id origin) (hgrows : Grows w w')
    (hsame : w'.programs[id]? = w.programs[id]?) : Done w' id origin := by
  obtain ⟨references, services, messages, hprogram⟩ := h.program
  refine ⟨h.unlinked, fun item hitem => hgrows.known (h.known item hitem), ?_, ?_⟩
  · rw [hsame, bindTo_eq_of_grows hgrows h.known]
    exact ⟨references, services, messages, hprogram⟩
  · exact links_of_grows hw hgrows h.unlinked h.known hprogram rfl h.links

theorem references_of_readProgram (h : w.readProgram files file name = .ok (program, source)) :
    program.references = none := by
  obtain ⟨dialect, -, -, hparse⟩ := readProgram_eq_ok_iff.1 h
  obtain ⟨schema, -, -, hdefinitions⟩ := parse_eq_ok_iff.1 hparse
  rw [checkDefinitions_eq_none hdefinitions]
  rfl

theorem done_of_linkAt
    (hw : Indexed w) (hread : w.readProgram files file name = .ok (origin, source))
    (hprogram : w.programs[id]? = some program) (hforget : program.forget = origin.forget)
    (hpending : Pending w.byFile program []) (hlink : w.linkAt id source = .ok w') :
    Done w' id origin := by
  have hunlinked := references_of_readProgram hread
  obtain ⟨hbound, hknown⟩ := hpending.eq_bindTo hforget
  have hnames : w'.get? = w.get? := by
    obtain ⟨programs, rfl, -, -⟩ := linkAt_eq_ok hlink
    rfl
  obtain ⟨linked, hlinked, hbind, hprogram'⟩ := linkAt_programs hlink hprogram
  obtain ⟨references, services, messages, hshape⟩ := linked_eq hlinked
  refine ⟨hunlinked, ?_, ?_, ?_⟩
  · rw [hnames]
    exact hknown
  · refine ⟨references, services, messages, ?_⟩
    rw [hprogram', hshape, hbound, hnames]
    rfl
  · have hlinks : program.Links w.programs id := ⟨linked, hlinked, hbind⟩
    rw [hbound] at hlinks
    exact links_of_grows hw (grows_linkAt hlink) hunlinked hknown hprogram
      (Program.outline_eq_of_forget hforget) hlinks

/-- Something that is true of a program once it is linked, when it was read as `origin`, and stays
true while the workspace grows around it. -/
structure Lasting (files : FileView) (D : Workspace → ProgramId → Program → Prop) : Prop where
  mono : ∀ {w w' : Workspace} {id : ProgramId} {origin : Program}, Indexed w → D w id origin →
    Grows w w' → w'.programs[id]? = w.programs[id]? → D w' id origin
  of_linkAt : ∀ {w w' : Workspace} {file source : String} {name : FileName}
    {origin program : Program} {id : ProgramId}, Indexed w →
    w.readProgram files file name = .ok (origin, source) → w.programs[id]? = some program →
    program.forget = origin.forget → Pending w.byFile program [] →
    w.linkAt id source = .ok w' → D w' id origin

theorem lasting_done (files : FileView) : Lasting files Done where
  mono := fun hw h hgrows hsame => h.mono hw hgrows hsame
  of_linkAt := done_of_linkAt

/-- What lasts is true of every program that a run adds when the run succeeds. -/
theorem Run.lasting
    {D : Workspace → ProgramId → Program → Prop} (hD : Lasting files D)
    (h : Run files w task read depth w' result) (hw : Indexed w) {i : ProgramId}
    (hresult : result = .ok id) (hown : ∀ own, task.own = some own → own < w.programs.length)
    (hnew : w.programs.length ≤ i) (hi : i < w'.programs.length) :
    ∃ origin name, Reads files w origin.file name origin ∧ D w' i origin := by
  induction h generalizing id i with
  | known | renamed | followed => exact absurd hi (Nat.not_lt.2 hnew)
  | lost | refused | unlinked | broken | stopped => cases hresult
  | @loaded w w₁ w₂ file source name origin _ _ _ hfresh hread hfollow hlink ih =>
    have hadd : Indexed (w.add file name origin) := hw.add hfresh (file_of_readProgram hread)
    have hlength : (w.add file name origin).programs.length = w.programs.length + 1 := by
      simp [Workspace.add]
    obtain ⟨hw₁, -⟩ := hfollow.indexed_extends hadd
    obtain ⟨programs, heq, hsameLength, hother⟩ := linkAt_eq_ok hlink
    rcases Nat.eq_or_lt_of_le hnew with rfl | hlt
    · obtain ⟨program, hprogram, hforget, hpending⟩ := hfollow.pending hadd rfl rfl
        getElem?_concat_length (pending_importsOf hread _)
      have hread₁ : w₁.readProgram files file name = .ok (origin, source) := by
        rw [readProgram_eq_of_setup hfollow.setup_eq]
        exact hread
      refine ⟨origin, name, ?_, hD.of_linkAt hw₁ hread₁ hprogram hforget hpending hlink⟩
      rw [file_of_readProgram hread]
      exact hfresh.reads hread
    · have hi₁ : i < w₁.programs.length := by
        rw [heq] at hi
        exact hsameLength ▸ hi
      have hsame : w₂.programs[i]? = w₁.programs[i]? := by
        rw [heq]
        exact hother i (Nat.ne_of_gt hlt)
      have hownNew : ∀ own, some w.programs.length = some own →
          own < (w.add file name origin).programs.length := by
        rintro own ⟨⟩
        exact hlength ▸ Nat.lt_succ_self _
      obtain ⟨inner, innerName, hreads, hlasts⟩ := ih hadd rfl hownNew (hlength ▸ hlt) hi₁
      exact ⟨inner, innerName, hreads.of_setup rfl,
        hD.mono hw₁ hlasts (grows_linkAt hlink) hsame⟩
  | @bound w w₁ w₂ _ _ own target index _ _ _ _ _ _ hfirst hrest ihfirst ihrest =>
    obtain ⟨hw₁, hextends⟩ := hfirst.indexed_extends hw
    obtain ⟨-, hextends'⟩ := hrest.indexed_extends (hw₁.bindImport ..)
    have hlength : (w₁.bindImport own index target).programs.length = w₁.programs.length :=
      length_modify ..
    have hlt : own < w.programs.length := hown own rfl
    rcases Nat.lt_or_ge i w₁.programs.length with hfirstNew | hrestNew
    · -- added while the first import was analysed, and not touched since
      have hne : own ≠ i := Nat.ne_of_lt (Nat.lt_of_lt_of_le hlt hnew)
      obtain ⟨origin, name, hreads, hlasts⟩ := ihfirst hw rfl (fun _ heq => by cases heq)
        hnew hfirstNew
      have hgrown : Extends files (some own) w₁ w₂ := (extends_bindImport ..).trans hextends'
      refine ⟨origin, name, hreads, hD.mono hw₁ hlasts hgrown.grows ?_⟩
      obtain ⟨program, hprogram, -, hsame⟩ :=
        hgrown.programs (getElem?_eq_getElem hfirstNew)
      rw [hprogram, hsame (fun heq => hne (Option.some.inj heq)),
        getElem?_eq_getElem hfirstNew]
    · have hownRest : ∀ other, some own = some other →
          other < (w₁.bindImport own index target).programs.length := by
        rintro _ ⟨⟩
        rw [hlength]
        exact Nat.lt_of_lt_of_le hlt hextends.length_le
      obtain ⟨origin, name, hreads, hlasts⟩ :=
        ihrest (hw₁.bindImport ..) hresult hownRest (hlength ▸ hrestNew) hi
      exact ⟨origin, name, hreads.of_setup hfirst.setup_eq.symm, hlasts⟩

end Idl.Workspace
