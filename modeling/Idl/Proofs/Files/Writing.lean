import Idl.Build
import Idl.Proofs.Files.Spelling

/-!
# Where outputs are written

A file is written under the plain name that its path ends with, so a path that ends otherwise cannot
be written.  Making directories adds to a tree and changes nothing in it.  So a file of another name
stays as it is.
-/

namespace Idl

open List

variable {node : FileNode} {path : String} {last : String} {other : FileName}
  {outputs : List (List Path.Component × Pending)}

/-! ## Paths that end with a plain name -/

namespace Path

variable {path last : String}

/-- The path ends with a plain name: neither with one dot or two, nor with a slash. -/
structure EndsIn (path : String) (last : String) : Prop where
  part : (parts path).getLast? = some last
  plain : component? last = some (.normal last)

theorem EndsIn.join (h : EndsIn path last) (base : String) : EndsIn (Path.join base path) last :=
  ⟨(getLast?_parts_join base path).trans h.part, h.plain⟩

theorem EndsIn.getLast?_components (h : EndsIn path last) :
    (components path).getLast? = some (.normal last) := by
  obtain ⟨init, hinit⟩ := getLast?_eq_some_iff.1 h.part
  have hlast : [last].filterMap component? = [.normal last] := by
    rw [filterMap_cons, h.plain, filterMap_nil]
  rw [components, hinit, filterMap_append, hlast, ← append_assoc, getLast?_concat]

theorem getLast?_clean {path : List Component} (h : path.getLast? = some (.normal last)) :
    (clean path).getLast? = some (.normal last) := by
  obtain ⟨init, rfl⟩ := getLast?_eq_some_iff.1 h
  have hstep : ∀ cleaned, cleanStep cleaned (.normal last) = .normal last :: cleaned := by
    intro cleaned
    unfold cleanStep
    split <;> simp_all
  rw [clean, foldl_append, foldl_cons, foldl_nil, hstep, reverse_cons,
    getLast?_concat]

/-- A file that ends with a plain name goes to a path that ends with it. -/
theorem EndsIn.getLast?_clean_join (h : EndsIn path last) (directory : String) :
    (clean (components (Path.join directory path))).getLast? = some (.normal last) :=
  getLast?_clean (h.join directory).getLast?_components

theorem parts_eq_singleton (h : '/' ∉ path.toList) : parts path = [path] := by
  rw [parts, splitOnP_eq_singleton, map_singleton, String.ofList_toList]
  intro c hc
  rw [beq_eq_false_iff_ne]
  rintro rfl
  exact h hc

end Path

/-! ## Trees that grow -/

namespace FileTree

variable {tree tree' : FileTree} {name : FileName}

theorem node?_put_of_ne (hne : name ≠ other) (node : FileNode) :
    (tree.put other node).node? name = tree.node? name := by
  simp only [node?, put, Assoc.lookup_put, beq_iff_eq, hne, if_false]

/-- Whatever is in one tree is in the other. -/
def Extends (tree tree' : FileTree) : Prop :=
  ∀ name node, tree.node? name = some node → tree'.node? name = some node

theorem Extends.refl (tree : FileTree) : tree.Extends tree := fun _ _ h => h

theorem Extends.trans {tree'' : FileTree} (h : tree.Extends tree') (h' : tree'.Extends tree'') :
    tree.Extends tree'' :=
  fun name node hnode => h' name node (h name node hnode)

theorem extends_makeOne (h : tree.makeOne path = .ok tree') : tree.Extends tree' := by
  unfold makeOne at h
  obtain ⟨⟨place, last⟩, -, h⟩ := bind_eq_ok_iff.1 h
  cases last with
  | none => cases h
  | some last =>
    obtain ⟨made, -, h⟩ := bind_eq_ok_iff.1 h
    split at h
    · cases h
    next hnew =>
      obtain rfl := pure_eq_ok_iff.1 h
      intro name node hnode
      rw [node?_put_of_ne _ FileNode.directory]
      · exact hnode
      · rintro rfl
        simp [hnode] at hnew

theorem extends_makeAll (tree : FileTree) (components : List Path.Component) :
    tree.Extends (tree.makeAll components).1 := by
  induction components with
  | nil => exact Extends.refl tree
  | cons last before ih =>
    rw [makeAll]
    dsimp only
    split
    next =>
      split
      next made hmade =>
        rw [hmade] at ih
        split
        next further hfurther => exact ih.trans (extends_makeOne hfurther)
        next => exact ih
      next failed _ => exact ih
    next =>
      split
      next made hmade => exact extends_makeOne hmade
      next => exact Extends.refl tree

theorem getLast?_of_lastPlace
    {place : FileName} (h : tree.lastPlace path = .ok (place, some last))
    (hslash : path.toList.getLast? ≠ some '/') :
    (Path.parts path).getLast? = some last ∧ last ≠ "" := by
  obtain ⟨before, chars, htext, -, hbefore, hchars⟩ := Path.exists_last_part path.toList
  have hpart : (Path.parts path).getLast? = some (String.ofList chars) := by
    rw [Path.parts, getLast?_map, hchars, Option.map_some]
  have hempty : String.ofList chars ≠ "" := by
    rintro hempty
    obtain rfl : chars = [] := String.ofList_inj.1 hempty
    rw [append_nil] at htext
    rcases hbefore with rfl | ⟨init, rfl⟩
    · rw [String.toList_eq_nil_iff.1 htext] at h
      cases h
    · exact hslash (by rw [htext, getLast?_concat])
  obtain ⟨init, hinit⟩ := getLast?_eq_some_iff.1 hpart
  have hreverse : (Path.parts path).reverse.dropWhile (· == "") =
      String.ofList chars :: init.reverse := by
    simp [hinit, hempty]
  simp only [lastPlace, hreverse, bind_eq_ok_iff, pure_eq_ok_iff, Prod.mk.injEq,
    Option.some.injEq] at h
  obtain ⟨-, -, -, -, -, rfl⟩ := h
  exact ⟨hpart, hempty⟩

/-- A file is written under the plain name that its path ends with. -/
theorem exists_last_of_writeName (h : tree.writeName path = .ok name) :
    ∃ last, Path.EndsIn path last ∧ name.getLast? = some last := by
  unfold writeName at h
  obtain ⟨⟨place, last⟩, hplace, h⟩ := bind_eq_ok_iff.1 h
  cases last with
  | none => cases h
  | some last =>
    dsimp only at h
    split at h
    · obtain ⟨_, -, h⟩ := bind_eq_ok_iff.1 h
      cases h
    next hdots =>
      split at h
      · cases h
      next hslash =>
        obtain ⟨found, hfound, h⟩ := bind_eq_ok_iff.1 h
        split at h
        · cases h
        obtain rfl := pure_eq_ok_iff.1 h
        obtain ⟨hpart, hempty⟩ := getLast?_of_lastPlace hplace fun heq => hslash (beq_iff_eq.2 heq)
        refine ⟨last, ⟨hpart, ?_⟩, by rw [(of_child hfound).2, getLast?_concat]⟩
        simp only [Bool.or_eq_true, decide_eq_true_eq, not_or] at hdots
        simp [Path.component?, hempty, hdots]

theorem node?_store_of_ne (hne : name ≠ other) (data : List UInt8) :
    (tree.store other data).node? name = tree.node? name := by
  unfold store
  split
  · exact node?_put_of_ne hne _
  · exact node?_put_of_ne hne _
  · rfl

end FileTree

/-! ## Outputs -/

namespace Build

variable {files : FileTree} {name : FileName}

/-- If the path of an output ends with a plain name, this is not that of the file. -/
def Spares (name : FileName) (path : List Path.Component) : Prop :=
  ∀ last, Path.EndsIn (Path.render path) last → name.getLast? ≠ some last

theorem node?_writeOne
    {path : List Path.Component} (hpath : Spares name path) (hnode : files.node? name = some node)
    (data : Bytes) : (writeOne files path data).1.node? name = some node := by
  have hmade := files.extends_makeAll path.dropLast.reverse name node hnode
  unfold writeOne
  dsimp only [FileTree.makeDirectories]
  split
  next made fault heq =>
    rw [heq] at hmade
    exact hmade
  next made heq =>
    rw [heq] at hmade
    cases hwrite : made.write (Path.render path) data with
    | error fault => exact hmade
    | ok written =>
      obtain ⟨other, hother, hstore⟩ := bind_eq_ok_iff.1 hwrite
      obtain rfl := pure_eq_ok_iff.1 hstore
      obtain ⟨last, hends, hlast⟩ := FileTree.exists_last_of_writeName hother
      refine (FileTree.node?_store_of_ne ?_ data).trans hmade
      rintro rfl
      exact hpath last hends hlast

theorem node?_writeAll
    (h : ∀ output ∈ outputs, Spares name output.1) (hnode : files.node? name = some node) :
    (writeAll files outputs).1.node? name = some node := by
  induction outputs generalizing files with
  | nil => exact hnode
  | cons output outputs ih =>
    obtain ⟨path, pending⟩ := output
    obtain ⟨hfirst, hmore⟩ := forall_mem_cons.1 h
    have hrest := ih hmore (node?_writeOne hfirst hnode pending.data)
    rw [writeAll]
    dsimp only
    split <;> exact hrest

theorem path_of_writeOne
    {path : List Path.Component} {data : Bytes} {written : String}
    (h : (writeOne files path data).2 = .ok written) :
    written = Path.render path ∧ ∃ last, Path.EndsIn written last := by
  unfold writeOne at h
  dsimp only at h
  split at h
  · cases h
  next made _ =>
    split at h
    · cases h
    next tree hwrite =>
      obtain rfl := Except.ok.inj h
      obtain ⟨name, hname, -⟩ := bind_eq_ok_iff.1 hwrite
      obtain ⟨last, hends, -⟩ := FileTree.exists_last_of_writeName hname
      exact ⟨rfl, last, hends⟩

theorem mem_of_writeAll (h : path ∈ (writeAll files outputs).2.1) :
    ∃ output ∈ outputs, path = Path.render output.1 ∧ ∃ last, Path.EndsIn path last := by
  induction outputs generalizing files with
  | nil => cases h
  | cons output outputs ih =>
    obtain ⟨first, pending⟩ := output
    rw [writeAll] at h
    dsimp only at h
    split at h
    next written hwritten =>
      rcases mem_cons.1 h with rfl | h
      · exact ⟨_, mem_cons_self, path_of_writeOne hwritten⟩
      · obtain ⟨other, hother, hpath⟩ := ih h
        exact ⟨other, mem_cons_of_mem _ hother, hpath⟩
    next =>
      obtain ⟨other, hother, hpath⟩ := ih h
      exact ⟨other, mem_cons_of_mem _ hother, hpath⟩

/-- The paths that a run writes, in order, whether or not something else fails. -/
def written (build : Build) (files : FileTree) (ids : List ProgramId) : List String :=
  (writeAll (build.collect files ids).files (build.collect files ids).outputs).2.1

variable {build : Build} {ids : List ProgramId}

theorem eq_written_of_run {paths : List String} (h : (build.run files ids).2 = .ok paths) :
    paths = build.written files ids := by
  unfold run at h
  dsimp only at h
  split at h
  · exact (Except.ok.inj h).symm
  · cases h

/-- A run leaves a file as it is, and writes no path that leads to it, if the generators leave the
files alone and no output has the name of the file. -/
theorem run_spares
    (hfiles : (build.collect files ids).files = files)
    (houtputs : ∀ output ∈ (build.collect files ids).outputs, Spares name output.1)
    (hnode : files.node? name = some node) (hfile : node ≠ .directory) :
    (build.run files ids).1.node? name = some node ∧
      ∀ path ∈ build.written files ids, (build.run files ids).1.resolve path ≠ .ok name := by
  have hkept : (build.run files ids).1.node? name = some node := by
    have hfirst : (build.run files ids).1 =
        (writeAll files (build.collect files ids).outputs).1 := by
      unfold run
      dsimp only
      rw [hfiles]
      split <;> rfl
    rw [hfirst]
    exact node?_writeAll houtputs hnode
  refine ⟨hkept, ?_⟩
  intro path hpath hresolve
  obtain ⟨output, houtput, rfl, last, hends⟩ := mem_of_writeAll hpath
  have hdirectory : (build.run files ids).1.node? name ≠ some .directory := by
    rw [hkept]
    exact fun heq => hfile (Option.some.inj heq)
  refine houtputs output houtput last hends ?_
  rw [(FileTree.last_of_resolve_of_node hresolve hdirectory).1, hends.part]

end Build

end Idl
