import Idl.Proofs.Build.Collection
import Idl.Proofs.Files.Writing

/-!
# Outputs below the output directory

A name that comes to plain names when it is cleaned leads down from whatever directory it is joined
to.  Any other name leads to the directory itself, up from it, or away to the root, and is followed
all the same.
-/

namespace Idl

open List

variable {build : Build} {files : FileTree} {ids : List ProgramId}

/-! ## Names that lead down -/

namespace Path

variable {file : String} {names : List String}

/-- The path leads down from a directory, by at least one plain name. -/
def Below (directory : String) (path : List Component) : Prop :=
  ∃ names : List String, names ≠ [] ∧ path = clean (components directory) ++ names.map .normal

/-- The file name comes to plain names, and to at least one. -/
def LeadsDown (file : String) : Prop :=
  ∃ names : List String, names ≠ [] ∧ clean (components file) = names.map .normal

theorem foldl_cleanStep_components (path : String) :
    (components path).foldl cleanStep [] =
      ((parts path).filterMap component?).foldl cleanStep
        (if isAbsolute path then [.root] else []) := by
  rw [components, foldl_append]
  split
  · rfl
  · split <;> rfl

theorem isAbsolute_join (hfile : isAbsolute file = false) (directory : String) :
    isAbsolute (join directory file) = isAbsolute directory := by
  rw [join, if_neg (by simp [hfile])]
  split
  next hdirectory =>
    simp only [Bool.or_eq_true, String.isEmpty_iff, decide_eq_true_eq] at hdirectory
    rcases hdirectory with rfl | hslash
    · simpa [isAbsolute] using hfile
    · obtain ⟨init, hinit⟩ := getLast?_eq_some_iff.1 hslash
      cases init <;> simp [isAbsolute, hinit]
  next hdirectory =>
    have hne : directory.toList ≠ [] := by
      intro hnil
      simp [String.toList_eq_nil_iff.1 hnil] at hdirectory
    obtain ⟨c, rest, hc⟩ := exists_cons_of_ne_nil hne
    simp [isAbsolute, hc]

theorem filterMap_parts_join (hfile : isAbsolute file = false) (directory : String) :
    (parts (join directory file)).filterMap component? =
      (parts directory).filterMap component? ++ (parts file).filterMap component? := by
  have hsplit : ∀ before behind : List Char,
      (before ++ '/' :: behind).splitOnP (· == '/') =
        before.splitOnP (· == '/') ++ behind.splitOnP (· == '/') :=
    fun before behind => splitOnP_append_cons _ _ (by rfl)
  have hempty : component? "" = none := rfl
  rw [join, if_neg (by simp [hfile])]
  split
  next hdirectory =>
    simp only [Bool.or_eq_true, String.isEmpty_iff, decide_eq_true_eq] at hdirectory
    rcases hdirectory with rfl | hslash
    · simp [parts, hempty]
    · obtain ⟨init, hinit⟩ := getLast?_eq_some_iff.1 hslash
      simp only [parts, String.toList_append, hinit, append_assoc, singleton_append, hsplit]
      simp [hempty]
  next =>
    have htext : (directory ++ "/" ++ file).toList =
        directory.toList ++ '/' :: file.toList := by simp
    rw [parts, htext, hsplit, map_append, filterMap_append]
    rfl

/-- Components that come to plain names on their own come to the same names behind others: no double
dot among them reaches back. -/
theorem foldl_cleanStep_of_plain
    {path : List Component} (h : path.foldl cleanStep [] = names.map .normal)
    (stack : List Component) : path.foldl cleanStep stack = names.map .normal ++ stack := by
  induction path using List.reverseRecOn generalizing names with
  | nil =>
    obtain rfl : names = [] := map_eq_nil_iff.1 h.symm
    rfl
  | append_singleton path component ih =>
    rw [foldl_append, foldl_cons, foldl_nil] at h ⊢
    cases component with
    | current => exact ih h
    | root => cases names <;> simp [cleanStep] at h
    | normal name =>
      cases names with
      | nil => simp [cleanStep] at h
      | cons first names =>
        simp only [cleanStep, map_cons, List.cons.injEq] at h ⊢
        rw [ih h.2, h.1]
        rfl
    | parent =>
      -- the double dot takes a name away, or it would stay
      generalize hbefore : path.foldl cleanStep [] = before at h
      cases before with
      | nil => cases names <;> simp [cleanStep] at h
      | cons last before =>
        cases last with
        | normal last =>
          simp only [cleanStep] at h
          have hlast : path.foldl cleanStep [] = (last :: names).map .normal := by
            rw [hbefore, h]
            rfl
          rw [ih hlast]
          rfl
        | root | current | parent => cases names <;> simp [cleanStep] at h

theorem root_mem_foldl_cleanStep
    {stack : List Component} (h : .root ∈ stack) (path : List Component) :
    .root ∈ path.foldl cleanStep stack := by
  induction path generalizing stack with
  | nil => exact h
  | cons component path ih =>
    refine ih ?_
    unfold cleanStep
    split <;> simp_all

theorem LeadsDown.relative (h : LeadsDown file) : isAbsolute file = false := by
  obtain ⟨names, -, hclean⟩ := h
  rw [← Bool.not_eq_true]
  intro habsolute
  have hroot : Component.root ∈ clean (components file) := by
    rw [clean, mem_reverse, foldl_cleanStep_components, if_pos habsolute]
    exact root_mem_foldl_cleanStep (by simp) _
  simp [hclean] at hroot

theorem LeadsDown.below (h : LeadsDown file) (directory : String) :
    Below directory (clean (components (join directory file))) := by
  have hfile := h.relative
  obtain ⟨names, hne, hclean⟩ := h
  rw [clean, reverse_eq_iff, ← map_reverse, foldl_cleanStep_components,
    if_neg (by simp [hfile])] at hclean
  refine ⟨names, hne, ?_⟩
  rw [clean, foldl_cleanStep_components, isAbsolute_join hfile, filterMap_parts_join hfile,
    foldl_append, foldl_cleanStep_of_plain hclean, reverse_append, map_reverse,
    reverse_reverse, ← foldl_cleanStep_components]
  rfl

/-- The names that lead down are those that lead down from every directory. -/
theorem leadsDown_iff :
    LeadsDown file ↔ ∀ directory, Below directory (clean (components (join directory file))) := by
  refine ⟨LeadsDown.below, fun h => ?_⟩
  obtain ⟨names, hne, hclean⟩ := h ""
  have hjoin : join "" file = file := by
    unfold join
    split <;> simp
  rw [hjoin] at hclean
  exact ⟨names, hne, hclean⟩

end Path

/-! ## What a run writes -/

namespace Build

theorem exists_product_of_written {path : String} (h : path ∈ build.written files ids) :
    ∃ product ∈ products ((build.outcomes files ids).flatMap Outcome.events),
      path = Path.render (build.path product.output) := by
  obtain ⟨entry, hentry, rfl, -⟩ := mem_of_writeAll h
  obtain ⟨product, hproduct, hpath⟩ := exists_product_of_mem_outputs hentry
  exact ⟨product, hproduct, congrArg Path.render hpath⟩

/-- Every path that a run writes is that of a named output, and lies below the output directory if
the name leads down.  These are the only names that stay below every directory. -/
theorem written_below_of_leadsDown (build : Build) (files : FileTree) (ids : List ProgramId) :
    (∀ paths, (build.run files ids).2 = .ok paths → paths = build.written files ids) ∧
      (∀ path ∈ build.written files ids,
        ∃ product ∈ products ((build.outcomes files ids).flatMap Outcome.events),
          path = Path.render (build.path product.output) ∧
          (Path.LeadsDown product.output.file →
            Path.Below build.directory (build.path product.output))) ∧
      ∀ output : Output, Path.LeadsDown output.file ↔
        ∀ directory, Path.Below directory ({ build with directory }.path output) := by
  refine ⟨fun paths => eq_written_of_run, fun path hpath => ?_, fun output => Path.leadsDown_iff⟩
  obtain ⟨product, hproduct, hrender⟩ := exists_product_of_written hpath
  exact ⟨product, hproduct, hrender, fun hdown => hdown.below build.directory⟩

theorem written_below_single :
    let build := single [("m", steady "m" (.ok [⟨"a/./b/../x", [1]⟩]))] false
    build.written ⟨[], []⟩ [0] = ["out/a/x"] ∧
      ∃ product ∈ products ((build.outcomes ⟨[], []⟩ [0]).flatMap Outcome.events),
        "out/a/x" = Path.render (build.path product.output) ∧
          Path.LeadsDown product.output.file ∧ Path.Below "out" (build.path product.output) := by
  intro build
  have hwritten : build.written ⟨[], []⟩ [0] = ["out/a/x"] := by decide +kernel
  obtain ⟨product, hproduct, hpath, hbelow⟩ :=
    (written_below_of_leadsDown build ⟨[], []⟩ [0]).2.1 "out/a/x" (by simp [hwritten])
  have hname : product.output.file = "a/./b/../x" := by
    obtain rfl := mem_singleton.1 hproduct
    rfl
  have hdown : Path.LeadsDown product.output.file := by
    rw [hname]
    exact ⟨["a", "x"], by simp, by decide +kernel⟩
  exact ⟨hwritten, product, hproduct, hpath, hdown, hbelow hdown⟩

/-- A double dot leads out of the directory, and a slash away from it. -/
theorem written_outside_directory :
    let build := single [("m", steady "m" (.ok [⟨"../x", [1]⟩, ⟨"/y", [2]⟩]))] false
    build.written ⟨[], []⟩ [0] = ["x", "/y"] ∧
      (build.collect ⟨[], []⟩ [0]).outputs.map (·.1) = [[.normal "x"], [.root, .normal "y"]] ∧
      ¬Path.Below "out" [.normal "x"] ∧ ¬Path.Below "out" [.root, .normal "y"] := by
  have hout : Path.clean (Path.components "out") = [.normal "out"] := by decide +kernel
  refine ⟨by decide +kernel, by decide +kernel, ?_, ?_⟩
  · rintro ⟨names, -, h⟩
    rw [hout] at h
    simp at h
  · rintro ⟨names, -, h⟩
    rw [hout] at h
    simp at h

end Build

end Idl
