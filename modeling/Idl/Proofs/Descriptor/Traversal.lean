import Idl.Descriptor.Describe
import Mathlib.Algebra.Ring.Nat
import Mathlib.Logic.Relation
import Mathlib.Tactic.Tauto

/-!
# The order of an import closure

The closure of a program under imports is collected by a loop over a stack of programs, which knows
by their files which ones it has met.  The order in which it meets them is that of the recursive
traversal: a program, then what comes with its first import, then what comes with its second, and so
on.  This holds of every import graph in which no two programs share a file.
-/

namespace Idl.Arena

open List

variable {files : List String}
variable {arena : Arena} {seen seen' : List ProgramId} {i j : ProgramId} {program : Program}
  {rounds : Nat} {found pending : List ProgramId}

/-- The programs that the imports of a program are bound to, in the order of declaration. -/
def targets (arena : Arena) (i : ProgramId) : List ProgramId :=
  (arena[i]?.map (·.importTargets)).getD []

/-- The program of the first number has an import that is bound to the second. -/
def Imports (arena : Arena) (i j : ProgramId) : Prop := j ∈ arena.targets i

/-- The recursive traversal, depth first and importing programs first, passing over what was
seen. -/
def preorder (arena : Arena) (seen : List ProgramId) : List ProgramId → List ProgramId
  | [] => []
  | i :: rest =>
    match _h : arena[i]? with
    | none => arena.preorder seen rest
    | some program =>
      if i ∈ seen then arena.preorder seen rest
      else
        let below := arena.preorder (i :: seen) program.importTargets
        i :: below ++ arena.preorder (below ++ i :: seen) rest
termination_by ids => (unseen id (List.range arena.length) seen, ids.length)
decreasing_by
  · simp [Prod.lex_def]
  · simp [Prod.lex_def]
  · have hi : i ∈ List.range arena.length := mem_range.2 (List.getElem?_eq_some_iff.1 _h).1
    exact Prod.Lex.left _ _ (unseen_cons_lt id hi ‹_›)
  · have hi : i ∈ List.range arena.length := mem_range.2 (List.getElem?_eq_some_iff.1 _h).1
    refine Prod.Lex.left _ _ (Nat.lt_of_le_of_lt ?_ (unseen_cons_lt id hi ‹_›))
    exact unseen_le_of_subset id _ (subset_append_right _ _)

theorem targets_eq (h : arena[i]? = some program) : arena.targets i = program.importTargets := by
  rw [targets, h]
  rfl

theorem preorder_nil (arena : Arena) (seen : List ProgramId) : arena.preorder seen [] = [] := by
  rw [preorder]

theorem preorder_missing (h : arena[i]? = none) (rest : List ProgramId) :
    arena.preorder seen (i :: rest) = arena.preorder seen rest := by
  rw [preorder]
  split
  · rfl
  next hprogram => cases h.symm.trans hprogram

theorem preorder_seen (h : i ∈ seen) (rest : List ProgramId) :
    arena.preorder seen (i :: rest) = arena.preorder seen rest := by
  rw [preorder]
  split
  · rfl
  · rw [if_pos h]

theorem preorder_new (hi : i < arena.length) (h : i ∉ seen) (rest : List ProgramId) :
    arena.preorder seen (i :: rest) =
      i :: (arena.preorder (i :: seen) (arena.targets i) ++
        arena.preorder (arena.preorder (i :: seen) (arena.targets i) ++ i :: seen) rest) := by
  rw [preorder]
  split
  next hnone => exact absurd hi (Nat.not_lt.2 (List.getElem?_eq_none_iff.1 hnone))
  next program hprogram =>
    rw [if_neg h, targets_eq hprogram]
    rfl

/-- What was met or seen, before the rest of a list and behind it. -/
theorem mem_met_iff (below rest : List ProgramId) :
    j ∈ (i :: below ++ rest) ++ seen ↔ j ∈ rest ++ (below ++ i :: seen) := by
  simp only [mem_append, mem_cons]
  tauto

theorem preorder_congr (h : ∀ i, i ∈ seen' ↔ i ∈ seen) (ids : List ProgramId) :
    arena.preorder seen' ids = arena.preorder seen ids := by
  fun_induction preorder arena seen ids generalizing seen' with
  | case1 => exact preorder_nil arena seen'
  | case2 seen i rest hnone ih => rw [preorder_missing hnone, ih h]
  | case3 seen i rest program hprogram hseen ih => rw [preorder_seen ((h i).2 hseen), ih h]
  | case4 seen i rest program hprogram hseen below ihbelow =>
    rename_i ihrest
    have hbelow : arena.preorder (i :: seen') program.importTargets = below :=
      ihbelow fun j => by simp [h j]
    have hrest : arena.preorder (below ++ i :: seen') rest =
        arena.preorder (below ++ i :: seen) rest := ihrest fun j => by simp [h j]
    have hlt : i < arena.length := (List.getElem?_eq_some_iff.1 hprogram).1
    rw [preorder_new hlt (fun hmem => hseen ((h i).1 hmem)), targets_eq hprogram, hbelow, hrest]
    rfl

/-- A list is traversed from its front, and what was met there is passed over behind. -/
theorem preorder_append (arena : Arena) (seen xs ys : List ProgramId) :
    arena.preorder seen (xs ++ ys) =
      arena.preorder seen xs ++ arena.preorder (arena.preorder seen xs ++ seen) ys := by
  fun_induction preorder arena seen xs with
  | case1 => rfl
  | case2 seen i rest hnone ih => rw [cons_append, preorder_missing hnone, ih]
  | case3 seen i rest program hprogram hseen ih =>
    rw [cons_append, preorder_seen hseen, ih]
  | case4 seen i rest program hprogram hseen below _ ihrest =>
    have hlt : i < arena.length := (List.getElem?_eq_some_iff.1 hprogram).1
    rw [cons_append, preorder_new hlt hseen, targets_eq hprogram]
    have hmet : arena.preorder
          ((i :: below ++ arena.preorder (below ++ i :: seen) rest) ++ seen) ys =
        arena.preorder (arena.preorder (below ++ i :: seen) rest ++ (below ++ i :: seen)) ys :=
      preorder_congr (fun j => mem_met_iff ..) ys
    rw [hmet, append_assoc, ← ihrest]
    rfl

/-! ## The loop follows the traversal -/

/-- The files that the loop has met are those of the programs that the traversal has seen. -/
def Matches (arena : Arena) (files : List String) (seen : List ProgramId) : Prop :=
  ∀ i program, arena[i]? = some program → (program.file ∈ files ↔ i ∈ seen)

theorem eq_of_file_eq
    (hfiles : (arena.map (·.file)).Nodup) {other : Program} (hprogram : arena[i]? = some program)
    (hother : arena[j]? = some other) (hfile : other.file = program.file) : j = i := by
  have hi : (arena.map (·.file))[i]? = some program.file := by
    rw [getElem?_map, hprogram, Option.map_some]
  have hj : (arena.map (·.file))[j]? = some program.file := by
    rw [getElem?_map, hother, Option.map_some, hfile]
  exact (getElem?_inj (List.getElem?_eq_some_iff.1 hj).1 hfiles).1 (hj.trans hi.symm)

theorem Matches.cons
    (h : Matches arena files seen) (hfiles : (arena.map (·.file)).Nodup)
    (hprogram : arena[i]? = some program) : Matches arena (program.file :: files) (i :: seen) := by
  intro j other hother
  have hinj : other.file = program.file ↔ j = i := by
    constructor
    · exact eq_of_file_eq hfiles hprogram hother
    · rintro rfl
      rw [Option.some.inj (hother.symm.trans hprogram)]
  rw [mem_cons, mem_cons, hinj, h j other hother]

theorem closureFrom_eq_preorder
    (h : Matches arena files seen) (hfiles : (arena.map (·.file)).Nodup)
    (pending : List ProgramId) :
    arena.closureFrom files pending = arena.preorder seen pending := by
  fun_induction closureFrom arena files pending generalizing seen with
  | case1 => exact (preorder_nil arena seen).symm
  | case2 files i pending hnone ih => rw [ih h, preorder_missing hnone]
  | case3 files i pending program hprogram hmet ih =>
    rw [ih h, preorder_seen ((h i program hprogram).1 hmet)]
  | case4 files i pending program hprogram hmet ih =>
    have hseen : i ∉ seen := fun hmem => hmet ((h i program hprogram).2 hmem)
    have hlt : i < arena.length := (List.getElem?_eq_some_iff.1 hprogram).1
    rw [ih (h.cons hfiles hprogram), preorder_append, preorder_new hlt hseen, targets_eq hprogram]

/-- `Walk arena files pending rounds found`: having met `files`, the loop works off the stack
`pending`, whose top is written first, in so many rounds, and finds these programs.  A program is
looked at when it is taken from the stack, on which it may lie several times. -/
inductive Walk (arena : Arena) : List String → List ProgramId → Nat → List ProgramId → Prop
  | done {files : List String} : Walk arena files [] 0 []
  | missing {files : List String} {i : ProgramId} {pending found : List ProgramId} {rounds : Nat}
      (hnone : arena[i]? = none) (hrest : Walk arena files pending rounds found) :
      Walk arena files (i :: pending) (rounds + 1) found
  | met {files : List String} {i : ProgramId} {pending found : List ProgramId} {rounds : Nat}
      {program : Program} (hprogram : arena[i]? = some program) (hmet : program.file ∈ files)
      (hrest : Walk arena files pending rounds found) :
      Walk arena files (i :: pending) (rounds + 1) found
  | visit {files : List String} {i : ProgramId} {pending found : List ProgramId} {rounds : Nat}
      {program : Program} (hprogram : arena[i]? = some program) (hnew : program.file ∉ files)
      (hrest : Walk arena (program.file :: files) (program.importTargets ++ pending) rounds found) :
      Walk arena files (i :: pending) (rounds + 1) (i :: found)

/-- How many imports some programs have that are bound. -/
def importCount (arena : Arena) (ids : List ProgramId) : Nat :=
  (ids.map fun i => (arena.targets i).length).sum

theorem importCount_cons (hprogram : arena[i]? = some program) (ids : List ProgramId) :
    arena.importCount (i :: ids) = program.importTargets.length + arena.importCount ids := by
  rw [importCount, map_cons, sum_cons, targets_eq hprogram]
  rfl

/-- The loop ends.  Every round takes one number from the stack, so there are as many rounds as
numbers were put on it. -/
theorem walk_closureFrom (files : List String) (pending : List ProgramId) :
    Walk arena files pending
      (pending.length + arena.importCount (arena.closureFrom files pending))
      (arena.closureFrom files pending) := by
  fun_induction closureFrom arena files pending with
  | case1 => exact .done
  | case2 files i pending hnone ih =>
    rw [length_cons, Nat.add_right_comm]
    exact .missing hnone ih
  | case3 files i pending program hprogram hmet ih =>
    rw [length_cons, Nat.add_right_comm]
    exact .met hprogram hmet ih
  | case4 files i pending program hprogram hnew ih =>
    rw [length_append, Nat.add_comm program.importTargets.length, Nat.add_assoc] at ih
    rw [length_cons, Nat.add_right_comm, importCount_cons hprogram]
    exact .visit hprogram hnew ih

theorem closureFrom_cons (files : List String) (i : ProgramId) (pending : List ProgramId) :
    arena.closureFrom files (i :: pending) =
      match arena[i]? with
      | none => arena.closureFrom files pending
      | some program =>
        if program.file ∈ files then arena.closureFrom files pending
        else i :: arena.closureFrom (program.file :: files) (program.importTargets ++ pending) := by
  rw [closureFrom]
  split
  next hnone => rw [hnone]
  next program hprogram => rw [hprogram]

theorem Walk.eq_closureFrom (h : Walk arena files pending rounds found) :
    found = arena.closureFrom files pending ∧
      rounds = pending.length + arena.importCount found := by
  induction h with
  | done =>
    rw [closureFrom]
    exact ⟨rfl, rfl⟩
  | missing hnone _ ih =>
    obtain ⟨hfound, hrounds⟩ := ih
    rw [closureFrom_cons, hnone, hrounds, length_cons]
    exact ⟨hfound, by omega⟩
  | met hprogram hmet _ ih =>
    obtain ⟨hfound, hrounds⟩ := ih
    rw [closureFrom_cons, hprogram, hrounds, length_cons]
    dsimp only
    rw [if_pos hmet]
    exact ⟨hfound, by omega⟩
  | visit hprogram hnew _ ih =>
    obtain ⟨hfound, hrounds⟩ := ih
    rw [closureFrom_cons, hprogram, hrounds, length_append, length_cons,
      importCount_cons hprogram]
    dsimp only
    rw [if_neg hnew, ← hfound]
    exact ⟨rfl, by omega⟩

theorem walk_iff :
    Walk arena files pending rounds found ↔
      found = arena.closureFrom files pending ∧
        rounds = pending.length + arena.importCount found := by
  constructor
  · exact Walk.eq_closureFrom
  · rintro ⟨rfl, rfl⟩
    exact walk_closureFrom files pending

/-! ## What the traversal meets -/

theorem not_mem_of_mem_preorder
    (ids : List ProgramId) : ∀ i ∈ arena.preorder seen ids, i ∉ seen := by
  fun_induction preorder arena seen ids with
  | case1 => nofun
  | case2 seen j rest hnone ih | case3 seen j rest program hprogram hseen ih => exact ih
  | case4 seen j rest program hprogram hseen below ihbelow ihrest =>
    intro i hi hmem
    rcases mem_append.1 hi with hi | hi
    · rcases mem_cons.1 hi with rfl | hi
      · exact hseen hmem
      · exact ihbelow i hi (mem_cons_of_mem _ hmem)
    · exact ihrest i hi (mem_append_right _ (mem_cons_of_mem _ hmem))

theorem nodup_preorder (seen ids : List ProgramId) : (arena.preorder seen ids).Nodup := by
  fun_induction preorder arena seen ids with
  | case1 => exact nodup_nil
  | case2 seen j rest hnone ih | case3 seen j rest program hprogram hseen ih => exact ih
  | case4 seen j rest program hprogram hseen below ihbelow ihrest =>
    have hbelow : ∀ i ∈ below, i ∉ j :: seen := not_mem_of_mem_preorder _
    have hrest : ∀ i ∈ arena.preorder (below ++ j :: seen) rest, i ∉ below ++ j :: seen :=
      not_mem_of_mem_preorder _
    refine nodup_append.2 ⟨nodup_cons.2 ⟨?_, ihbelow⟩, ihrest, ?_⟩
    · intro hj
      exact hbelow j hj mem_cons_self
    · rintro i hi _ hi' rfl
      refine hrest i hi' ?_
      rcases mem_cons.1 hi with rfl | hi
      · exact mem_append_right _ mem_cons_self
      · exact mem_append_left _ hi

/-- What the traversal meets is a program that an import, or an import of an import, and so on,
leads to. -/
theorem exists_of_mem_preorder (ids : List ProgramId) (hi : i ∈ arena.preorder seen ids) :
    (∃ start ∈ ids, Relation.ReflTransGen arena.Imports start i) ∧
      ∃ program, arena[i]? = some program := by
  fun_induction preorder arena seen ids with
  | case1 => cases hi
  | case2 seen j rest hnone ih | case3 seen j rest program hprogram hseen ih =>
    obtain ⟨⟨start, hstart, hreach⟩, hprogram⟩ := ih hi
    exact ⟨⟨start, mem_cons_of_mem _ hstart, hreach⟩, hprogram⟩
  | case4 seen j rest program hprogram hseen below ihbelow ihrest =>
    rcases mem_append.1 hi with hi | hi
    · rcases mem_cons.1 hi with rfl | hi
      · exact ⟨⟨i, mem_cons_self, .refl⟩, program, hprogram⟩
      · obtain ⟨⟨start, hstart, hreach⟩, hfound⟩ := ihbelow hi
        refine ⟨⟨j, mem_cons_self, .head ?_ hreach⟩, hfound⟩
        rw [Imports, targets_eq hprogram]
        exact hstart
    · obtain ⟨⟨start, hstart, hreach⟩, hfound⟩ := ihrest hi
      exact ⟨⟨start, mem_cons_of_mem _ hstart, hreach⟩, hfound⟩

/-- Nothing is left out: the programs that it starts from are met or were seen, and so is whatever
is imported by what it meets. -/
theorem preorder_complete (arena : Arena) (seen ids : List ProgramId) :
    (∀ i ∈ ids, (∃ program, arena[i]? = some program) → i ∈ arena.preorder seen ids ++ seen) ∧
      ∀ i ∈ arena.preorder seen ids, ∀ j, arena.Imports i j →
        (∃ program, arena[j]? = some program) → j ∈ arena.preorder seen ids ++ seen := by
  fun_induction preorder arena seen ids with
  | case1 => exact ⟨nofun, nofun⟩
  | case2 seen k rest hnone ih =>
    refine ⟨?_, ih.2⟩
    rintro i hi ⟨program, hprogram⟩
    rcases mem_cons.1 hi with rfl | hi
    · cases hnone.symm.trans hprogram
    · exact ih.1 i hi ⟨program, hprogram⟩
  | case3 seen k rest program hprogram hseen ih =>
    refine ⟨?_, ih.2⟩
    intro i hi hfound
    rcases mem_cons.1 hi with rfl | hi
    · exact mem_append_right _ hseen
    · exact ih.1 i hi hfound
  | case4 seen k rest program hprogram hseen below ihbelow ihrest =>
    -- what is met or seen at any stage is met or seen in the end
    have hall : ∀ j, j ∈ arena.preorder (below ++ k :: seen) rest ++ (below ++ k :: seen) →
        j ∈ (k :: below ++ arena.preorder (below ++ k :: seen) rest) ++ seen :=
      fun j hj => (mem_met_iff ..).2 hj
    have hbelow : ∀ j, j ∈ below ++ k :: seen →
        j ∈ (k :: below ++ arena.preorder (below ++ k :: seen) rest) ++ seen :=
      fun j hj => hall j (mem_append_right _ hj)
    constructor
    · intro i hi hfound
      rcases mem_cons.1 hi with rfl | hi
      · exact hbelow i (mem_append_right _ mem_cons_self)
      · exact hall i (ihrest.1 i hi hfound)
    · intro i hi j himport hfound
      rcases mem_append.1 hi with hi | hi
      · rcases mem_cons.1 hi with rfl | hi
        · rw [Imports, targets_eq hprogram] at himport
          exact hbelow j (ihbelow.1 j himport hfound)
        · exact hbelow j (ihbelow.2 i hi j himport hfound)
      · exact hall j (ihrest.2 i hi j himport hfound)

/-- From one program, where imports are bound to programs that are there, the traversal meets what
can be reached from it. -/
theorem mem_preorder_iff
    (hbound : ∀ i j, arena.Imports i j → ∃ program, arena[j]? = some program)
    (hprogram : arena[i]? = some program) :
    j ∈ arena.preorder [] [i] ↔ Relation.ReflTransGen arena.Imports i j := by
  obtain ⟨hstart, hclosed⟩ := preorder_complete arena [] [i]
  simp only [append_nil] at hstart hclosed
  constructor
  · intro hj
    obtain ⟨⟨start, hmem, hreach⟩, -⟩ := exists_of_mem_preorder [i] hj
    rwa [mem_singleton.1 hmem] at hreach
  · intro hreach
    induction hreach with
    | refl => exact hstart i mem_cons_self ⟨program, hprogram⟩
    | tail _ himport ih => exact hclosed _ ih _ himport (hbound _ _ himport)

end Idl.Arena
