import Idl.Proofs.Workspace.Closure
import Mathlib.Data.List.Basic

/-!
# Spellings of one file

There are no links in a file tree.  A path that leads to a file ends with the name of that file, so
however the file is spelt, its suffix is the same, and so is what is read from it.
-/

namespace Idl

open List

variable {place : FileName}

/-! ## The last part of a path -/

namespace Path

theorem exists_last_part (text : List Char) :
    ∃ before last, text = before ++ last ∧ '/' ∉ last ∧
      (before = [] ∨ ∃ init, before = init ++ ['/']) ∧
      (text.splitOnP (· == '/')).getLast? = some last := by
  by_cases hslash : '/' ∈ text
  · obtain ⟨behind, init, hreverse, hbehind⟩ :=
      eq_append_cons_of_mem (mem_reverse.2 hslash)
    have htext : text = init.reverse ++ '/' :: behind.reverse := by
      have := congrArg List.reverse hreverse
      simpa using this
    have hlast : behind.reverse.splitOnP (· == '/') = [behind.reverse] := by
      refine splitOnP_eq_singleton fun c hc => ?_
      rw [beq_eq_false_iff_ne]
      rintro rfl
      exact hbehind (mem_reverse.1 hc)
    refine ⟨init.reverse ++ ['/'], behind.reverse, by simpa using htext, ?_, .inr ⟨_, rfl⟩, ?_⟩
    · simpa using hbehind
    · rw [htext, splitOnP_append_cons _ _ (by rfl), hlast, getLast?_concat]
  · refine ⟨[], text, rfl, hslash, .inl rfl, ?_⟩
    rw [splitOnP_eq_singleton]
    · rfl
    · intro c hc
      rw [beq_eq_false_iff_ne]
      rintro rfl
      exact hslash hc

theorem isSuffixOf_iff_last_part
    {suffix text last : List Char} (hsuffix : '/' ∉ suffix)
    (hlast : (text.splitOnP (· == '/')).getLast? = some last) :
    suffix <:+ text ↔ suffix <:+ last := by
  obtain ⟨before, last', htext, -, hbefore, hlast'⟩ := exists_last_part text
  cases hlast.symm.trans hlast'
  constructor
  · intro h
    have hend : last <:+ text := ⟨before, htext.symm⟩
    rcases suffix_or_suffix_of_suffix h hend with hshort | ⟨more, hmore⟩
    · exact hshort
    · -- what the suffix has in front of the last part would end in a slash
      rcases hbefore with rfl | ⟨init, rfl⟩
      · rw [htext] at h
        exact h
      · obtain ⟨front, hfront⟩ := h
        rw [htext, ← hmore, ← append_assoc] at hfront
        have hslash := append_cancel_right hfront
        rcases eq_nil_or_concat more with rfl | ⟨more', c, rfl⟩
        · exact ⟨[], hmore.symm⟩
        · rw [concat_eq_append, ← append_assoc] at hslash
          have hc : c = '/' := (append_inj' hslash rfl).2 |> head_eq_of_cons_eq
          exact absurd (by rw [← hmore, hc]; simp) hsuffix
  · rintro ⟨init, hinit⟩
    exact ⟨before ++ init, by rw [append_assoc, hinit, htext]⟩

theorem getLast?_parts_join
    (base path : String) : (parts (join base path)).getLast? = (parts path).getLast? := by
  have hparts : ∀ init : List Char,
      ((init ++ '/' :: path.toList).splitOnP (· == '/')).getLast? =
        (path.toList.splitOnP (· == '/')).getLast? := by
    intro init
    rw [splitOnP_append_cons _ _ (by rfl)]
    exact getLast?_append_of_ne_nil _ (splitOnP_ne_nil _ _)
  unfold parts join
  rw [getLast?_map, getLast?_map]
  split
  · rfl
  · split
    next hbase =>
      simp only [Bool.or_eq_true, String.isEmpty_iff, decide_eq_true_eq] at hbase
      rcases hbase with rfl | hslash
      · simp
      · obtain ⟨init, hinit⟩ := getLast?_eq_some_iff.1 hslash
        rw [String.toList_append, hinit, append_assoc]
        exact congrArg _ (hparts init)
    next =>
      have htext : (base ++ "/" ++ path).toList = base.toList ++ '/' :: path.toList := by simp
      rw [htext, hparts]

end Path

/-! ## Following a path -/

namespace FileTree

variable {tree : FileTree} {name : FileName}

/-- Everything on the way to a place is a directory. -/
def Reached (tree : FileTree) (place : FileName) : Prop :=
  ∀ n < place.length, tree.node? (place.take n) = some .directory

theorem Reached.dropLast (h : tree.Reached place) : tree.Reached place.dropLast := by
  intro n hn
  rw [length_dropLast] at hn
  rw [dropLast_eq_take, take_take, Nat.min_eq_left (Nat.le_of_lt hn)]
  exact h n (Nat.lt_of_lt_of_le hn (Nat.sub_le _ _))

theorem Reached.concat
    (h : tree.Reached place) (hplace : tree.node? place = some .directory) (part : String) :
    tree.Reached (place ++ [part]) := by
  intro n hn
  rw [length_append, length_singleton] at hn
  have hle : n ≤ place.length := Nat.le_of_lt_succ hn
  rw [take_append_of_le_length hle]
  rcases Nat.eq_or_lt_of_le hle with rfl | hlt
  · rw [take_length]
    exact hplace
  · exact h n hlt

theorem of_child {part : String} (h : tree.child place part = .ok name) :
    tree.node? place = some .directory ∧ name = place ++ [part] := by
  unfold child at h
  split at h
  · cases h
  next hdirectory =>
    split at h
    · cases h
    · exact ⟨hdirectory, (Except.ok.inj h).symm⟩
  · cases h

/-- One part of a path leaves the place, goes up or goes down, and always from a directory. -/
theorem follow_cons
    {part : String} {parts : List String} (h : tree.follow place (part :: parts) = .ok name) :
    tree.node? place = some .directory ∧
      (tree.follow place parts = .ok name ∨ tree.follow place.dropLast parts = .ok name ∨
        part ≠ ".." ∧ tree.follow (place ++ [part]) parts = .ok name) := by
  obtain ⟨below, hchild, hrest⟩ := bind_eq_ok_iff.1 h
  obtain ⟨hdirectory, rfl⟩ := of_child hchild
  refine ⟨hdirectory, ?_⟩
  split at hrest
  · exact .inl hrest
  · split at hrest
    · exact .inr (.inl hrest)
    next hup =>
      split at hrest
      · exact .inr (.inr ⟨hup, hrest⟩)
      · cases hrest

/-- A path leads to a directory, or to a node of the name that it ends with, which is no double
dot. -/
theorem last_of_follow
    {parts : List String} {last : String} (hplace : tree.Reached place)
    (hfollow : tree.follow place (parts ++ [last]) = .ok name)
    (hname : tree.node? name ≠ some .directory) : name.getLast? = some last ∧ last ≠ ".." := by
  induction parts generalizing place with
  | nil =>
    rcases follow_cons hfollow with ⟨hdirectory, hstay | hup | ⟨hplain, hdown⟩⟩
    · cases hstay
      exact absurd hdirectory hname
    · cases hup
      refine absurd ?_ hname
      rcases eq_nil_or_concat place with rfl | ⟨init, part, rfl⟩
      · exact hdirectory
      · have hinit := hplace init.length (by simp)
        simpa using hinit
    · cases hdown
      exact ⟨getLast?_concat, hplain⟩
  | cons part parts ih =>
    rcases follow_cons hfollow with ⟨hdirectory, hstay | hup | ⟨-, hdown⟩⟩
    · exact ih hplace hstay
    · exact ih hplace.dropLast hup
    · exact ih (hplace.concat hdirectory part) hdown

theorem last_of_resolve_of_node
    {path : String} (hresolve : tree.resolve path = .ok name)
    (hname : tree.node? name ≠ some .directory) :
    name.getLast? = (Path.parts path).getLast? ∧ name.getLast? ≠ some ".." := by
  have hparts : Path.parts path ≠ [] := by
    simp [Path.parts, splitOnP_ne_nil]
  unfold resolve at hresolve
  split at hresolve
  · cases hresolve
  · split at hresolve
    · cases hresolve
    · rw [← dropLast_append_getLast hparts, ← append_assoc] at hresolve
      have hroot : tree.Reached [] := fun n hn => absurd hn (Nat.not_lt_zero n)
      obtain ⟨hlast, hplain⟩ := last_of_follow hroot hresolve hname
      rw [hlast, getLast?_eq_getLast_of_ne_nil hparts]
      exact ⟨rfl, mt Option.some.inj hplain⟩

theorem node?_of_readName {text : String} (hread : tree.readName name = .ok text) :
    ∃ node, tree.node? name = some node ∧ node ≠ .directory := by
  unfold readName bytesOf at hread
  cases hnode : tree.node? name with
  | none => simp [hnode, bind, Except.bind] at hread
  | some node =>
    refine ⟨node, rfl, ?_⟩
    rintro rfl
    simp [hnode, bind, Except.bind] at hread

/-- A path that leads to a file ends with the name of the file, which is no double dot. -/
theorem last_of_resolve
    {path text : String} (hresolve : tree.resolve path = .ok name)
    (hread : tree.readName name = .ok text) :
    name.getLast? = (Path.parts path).getLast? ∧ name.getLast? ≠ some ".." := by
  obtain ⟨node, hnode, hdirectory⟩ := node?_of_readName hread
  refine last_of_resolve_of_node hresolve fun heq => hdirectory ?_
  exact Option.some.inj (hnode.symm.trans heq)

end FileTree

/-! ## Reading a file -/

namespace Workspace

variable {w : Workspace}

/-- No suffix that decides the dialect reaches over a slash. -/
def PlainSuffixes (w : Workspace) : Prop := ∀ entry ∈ w.parsers, '/' ∉ entry.1.toList

theorem plainSuffixes_new (base : String) (config : ParseConfig) (settings : List Setting) :
    (new base config settings).PlainSuffixes := by
  have hsuffixes : ∀ entry ∈ [(nativeSuffix, Dialect.native), (protobufSuffix, Dialect.protobuf)],
      '/' ∉ entry.1.toList := by decide
  exact hsuffixes

/-- The dialect is decided by the last part of a name. -/
theorem dialectOf_eq_ok_of_last_part
    (hw : w.PlainSuffixes) {file file' : String} {dialect : Dialect}
    (hlast : (Path.parts file').getLast? = (Path.parts file).getLast?)
    (h : w.dialectOf file = .ok dialect) : w.dialectOf file' = .ok dialect := by
  have hfind : (w.parsers.find? fun entry => entry.1.toList.isSuffixOf file'.toList) =
      w.parsers.find? fun entry => entry.1.toList.isSuffixOf file.toList := by
    obtain ⟨-, last, -, -, -, hfile⟩ := Path.exists_last_part file.toList
    obtain ⟨-, last', -, -, -, hfile'⟩ := Path.exists_last_part file'.toList
    have hsame : last' = last := by
      unfold Path.parts at hlast
      rw [getLast?_map, getLast?_map, hfile, hfile'] at hlast
      exact String.ofList_inj.1 (Option.some.inj hlast)
    rw [← head?_filter, ← head?_filter]
    refine congrArg List.head? (filter_congr fun entry hentry => ?_)
    rw [Bool.eq_iff_iff, isSuffixOf_iff_suffix, isSuffixOf_iff_suffix,
      Path.isSuffixOf_iff_last_part (hw entry hentry) hfile,
      Path.isSuffixOf_iff_last_part (hw entry hentry) hfile', hsame]
  unfold dialectOf at h ⊢
  rw [hfind]
  split at h
  next heq =>
    rw [heq]
    exact h
  next => cases h

theorem checkDefinitions_of_file
    {config : ParseConfig} {program checked : Program}
    (h : program.checkDefinitions config = (checked, none)) (file : String) :
    Program.checkDefinitions config { program with file } = ({ checked with file }, none) := by
  unfold Program.checkDefinitions at h ⊢
  dsimp only
  split at h
  · cases h
  · split at h
    · cases h
    · split at h
      · cases h
      · cases h
        rfl

theorem parse_of_file
    {dialect : Dialect} {file source : String} {program : Program}
    (h : w.parse dialect file source = .ok program) (file' : String) :
    w.parse dialect file' source = .ok { program with file := file' } := by
  obtain ⟨schema, hschema, himports, hdefinitions⟩ := parse_eq_ok_iff.1 h
  exact parse_eq_ok_iff.2 ⟨schema, hschema, himports, checkDefinitions_of_file hdefinitions file'⟩

/-- A file that is spelt in two ways is read alike. -/
def Uniform (files : FileView) (w : Workspace) : Prop :=
  ∀ {file file' : String} {name : FileName} {program : Program},
    Reads files w file name program → files.resolve (Path.join w.base file') = .ok name →
      Reads files w file' name { program with file := file' }

theorem uniform_tree (tree : FileTree) (hw : w.PlainSuffixes) : Uniform tree w := by
  intro file file' name program hreads hfile'
  obtain ⟨hfile, source, hread⟩ := reads_iff.1 hreads
  obtain ⟨dialect, hdialect, hname, hparse⟩ := readProgram_eq_ok_iff.1 hread
  have hlast := (FileTree.last_of_resolve hfile hname).1
  have hlast' := (FileTree.last_of_resolve hfile' hname).1
  rw [Path.getLast?_parts_join] at hlast hlast'
  have hdialect' : w.dialectOf file' = .ok dialect :=
    dialectOf_eq_ok_of_last_part hw (hlast'.symm.trans hlast) hdialect
  exact reads_iff.2 ⟨hfile', source,
    readProgram_eq_ok_iff.2 ⟨dialect, hdialect', hname, parse_of_file hparse file'⟩⟩

end Workspace

end Idl
