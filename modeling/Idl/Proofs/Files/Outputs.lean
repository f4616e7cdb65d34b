import Idl.Proofs.Files.Writing

/-!
# Names of outputs

The protobuf notation of a schema goes by the name of the schema, with the last extension replaced.
The directories of the name stay, and what it ends with depends on the last part alone.  So the
notation of a file that can be read as a schema can be read as one too, and two names for one schema
give two names for its notation.
-/

namespace Idl

open List

variable {settings : List Setting} {config : ParseConfig} {dialect : Dialect}
  {base file text : String} {base' name path : String} {tree : FileTree} {extension : List Char}

/-! ## Paths -/

namespace Path

/-- A path is what stands before its last part, and its last part, which can be exchanged. -/
theorem exists_parts_eq {last : List Char} (h : (parts path).getLast? = some (String.ofList last)) :
    ∃ before init, path.toList = before ++ last ∧ '/' ∉ last ∧
      parts path = init ++ [String.ofList last] ∧
      ∀ last', '/' ∉ last' →
        parts (String.ofList (before ++ last')) = init ++ [String.ofList last'] := by
  obtain ⟨before, init, last', htext, hslash, hparts⟩ : ∃ before init last',
      path.toList = before ++ last' ∧ '/' ∉ last' ∧ ∀ last', '/' ∉ last' →
        parts (String.ofList (before ++ last')) = init ++ [String.ofList last'] := by
    obtain ⟨before, last, htext, hslash, hbefore, -⟩ := exists_last_part path.toList
    rcases hbefore with rfl | ⟨init, rfl⟩
    · refine ⟨[], [], last, htext, hslash, fun last' hlast' => ?_⟩
      exact parts_eq_singleton (by simpa using hlast')
    · refine ⟨init ++ ['/'], parts (String.ofList init), last, htext, hslash, ?_⟩
      intro last' hlast'
      have hsplit : last'.splitOnP (· == '/') = [last'] := by
        refine splitOnP_eq_singleton fun c hc => ?_
        rw [beq_eq_false_iff_ne]
        rintro rfl
        exact hlast' hc
      rw [parts, parts, String.toList_ofList, String.toList_ofList, append_assoc,
        singleton_append, splitOnP_append_cons _ _ (by rfl), hsplit, map_append]
      rfl
  have hself := hparts last' hslash
  rw [← htext, String.ofList_toList] at hself
  rw [hself, getLast?_concat, Option.some.injEq, String.ofList_inj] at h
  exact ⟨before, init, h ▸ htext, h ▸ hslash, h ▸ hself, hparts⟩

theorem component?_of_ne (hempty : name ≠ "") (hdot : name ≠ ".") (hdots : name ≠ "..") :
    component? name = some (.normal name) := by
  simp [component?, hempty, hdot, hdots]

theorem component?_of_length (h : 2 < name.toList.length) :
    component? name = some (.normal name) := by
  apply component?_of_ne <;> rintro rfl <;> simp at h

theorem endsIn_append
    {last more : String} (hlast : (parts path).getLast? = some last) (hslash : '/' ∉ more.toList)
    (hlength : 2 < more.toList.length) : EndsIn (path ++ more) (last ++ more) := by
  rw [← String.ofList_toList (s := last)] at hlast
  obtain ⟨before, init, htext, hchars, -, hparts⟩ := exists_parts_eq hlast
  have hmore := hparts (last.toList ++ more.toList) (by simp [hchars, hslash])
  rw [← append_assoc, ← htext, ← String.toList_append, ← String.toList_append,
    String.ofList_toList, String.ofList_toList] at hmore
  refine ⟨by rw [hmore, getLast?_concat], component?_of_length ?_⟩
  rw [String.toList_append, length_append]
  omega

theorem intercalate_append (names : List String) (last more : String) :
    "/".intercalate (names ++ [last]) ++ more = "/".intercalate (names ++ [last ++ more]) := by
  induction names with
  | nil => simp [String.intercalate_singleton]
  | cons name names ih =>
    rw [cons_append, cons_append, String.intercalate_cons_of_ne_nil (by simp),
      String.intercalate_cons_of_ne_nil (by simp), String.append_assoc, ih]

theorem splitName_of_extension
    {stem : List Char} (hstem : stem ≠ []) (hextension : '.' ∉ extension) :
    splitName (String.ofList (stem ++ '.' :: extension)) =
      (String.ofList stem, some (String.ofList extension)) := by
  have hdrop : (stem ++ '.' :: extension).reverse.dropWhile (· != '.') = '.' :: stem.reverse := by
    have hall : ∀ c ∈ extension.reverse, (c != '.') = true :=
      fun c hc => bne_iff_ne.2 fun heq => hextension (by simpa [heq] using hc)
    rw [reverse_append, reverse_cons, append_assoc,
      dropWhile_append_of_pos hall]
    simp
  unfold splitName
  rw [String.toList_ofList, hdrop]
  split
  next heq => cases heq
  next heq => simp [hstem] at heq
  next heq =>
    obtain ⟨-, rfl⟩ := List.cons.inj heq
    simp

theorem splitName_of_leading_dot (hextension : '.' ∉ extension) :
    splitName (String.ofList ('.' :: extension)) = (String.ofList ('.' :: extension), none) := by
  have hdrop : ('.' :: extension).reverse.dropWhile (· != '.') = ['.'] := by
    have hall : ∀ c ∈ extension.reverse, (c != '.') = true :=
      fun c hc => bne_iff_ne.2 fun heq => hextension (by simpa [heq] using hc)
    rw [reverse_cons, dropWhile_append_of_pos hall]
    simp
  unfold splitName
  rw [String.toList_ofList, hdrop]

section Parts

variable {path last : String} {init : List String} (hparts : parts path = init ++ [last])
  (hlast : component? last = some (.normal last))

include hparts hlast

theorem significantParts_eq : significantParts path = last :: init.reverse := by
  have hne : ¬ (last = "" || last = ".") = true := by
    intro h
    simp [component?, h] at hlast
  rw [significantParts, hparts, reverse_append, reverse_singleton, singleton_append]
  exact dropWhile_cons_of_neg hne

theorem ne_dots : last ≠ ".." := by
  rintro rfl
  cases hlast

theorem extension?_eq : extension? path = (splitName last).2 := by
  simp only [extension?, significantParts_eq hparts hlast, if_neg (ne_dots hparts hlast)]

theorem addExtension_eq (extension : String) :
    addExtension extension path =
      "/".intercalate (init ++ [(splitName last).1 ++ "." ++ extension]) := by
  simp only [addExtension, significantParts_eq hparts hlast, if_neg (ne_dots hparts hlast)]
  rw [reverse_cons, reverse_reverse, String.append_assoc, intercalate_append,
    String.append_assoc]

end Parts

theorem intercalate_parts (path : String) : "/".intercalate (parts path) = path := by
  rw [← String.toList_inj, String.toList_intercalate, parts, map_map]
  have hparts : (path.toList.splitOnP (· == '/')).map (String.toList ∘ String.ofList) =
      path.toList.splitOn '/' := by
    simp [Function.comp_def, List.splitOn]
  rw [hparts]
  exact intercalate_splitOn '/'

end Path

/-! ## Names of the notation -/

namespace Proto

/-- What stands before the extension in the name of the notation, if the schema has the given stem
and extension: a dot in front is no dot before an extension. -/
def outputStem (stem extension : List Char) : List Char :=
  if stem = [] then '.' :: extension else stem

variable {file : String} {stem extension : List Char}

theorem component?_of_extension (hlength : 2 ≤ extension.length) :
    Path.component? (String.ofList (stem ++ '.' :: extension)) =
      some (.normal (String.ofList (stem ++ '.' :: extension))) :=
  Path.component?_of_length (by simp; omega)

/-- Where something stands before its dot, the extension is replaced. -/
theorem fileName_eq_addExtension
    {before : List Char} {init : List String} (hextension : '.' ∉ extension)
    (hlength : 2 ≤ extension.length) (htext : file.toList = before ++ (stem ++ '.' :: extension))
    (hparts : Path.parts file = init ++ [String.ofList (stem ++ '.' :: extension)])
    (hstem : stem ≠ []) :
    fileName file = Path.addExtension "proto" (String.ofList (before ++ (stem ++ ['.']))) := by
  have hcut : file.toList.take (file.length - extension.length) = before ++ (stem ++ ['.']) := by
    have happend : file.toList = (before ++ (stem ++ ['.'])) ++ extension := by simp [htext]
    have hlen : file.length - extension.length = (before ++ (stem ++ ['.'])).length := by
      rw [← String.length_toList, happend, length_append, Nat.add_sub_cancel]
    rw [hlen, happend, take_left]
  rw [fileName, Path.withExtension, Path.extension?_eq hparts (component?_of_extension hlength),
    Path.splitName_of_extension hstem hextension, Option.getD_some, String.length_ofList, hcut]

/-- The name of the notation, up to its last part that of the schema, unless only a dot stands
before the extension of the schema. -/
theorem exists_fileName_eq
    (hextension : '.' ∉ extension) (hlength : 2 ≤ extension.length)
    (hfile : (Path.parts file).getLast? = some (String.ofList (stem ++ '.' :: extension)))
    (hstem : stem ≠ ['.']) :
    ∃ before init, file.toList = before ++ (stem ++ '.' :: extension) ∧
      (fileName file).toList =
        before ++ (outputStem stem extension ++ Workspace.protobufSuffix.toList) ∧
      Path.parts (fileName file) = init ++
        [String.ofList (outputStem stem extension ++ Workspace.protobufSuffix.toList)] := by
  obtain ⟨before, init, htext, hslash, hself, hparts⟩ := Path.exists_parts_eq hfile
  have hends : ∀ start : List Char, String.ofList start ++ "." ++ "proto" =
      String.ofList (start ++ Workspace.protobufSuffix.toList) := by
    intro start
    rw [← String.toList_inj]
    simp [Workspace.protobufSuffix]
  simp only [mem_append, mem_cons, not_or] at hslash
  have hstart : '/' ∉ outputStem stem extension ++ Workspace.protobufSuffix.toList := by
    have hsuffix : '/' ∉ Workspace.protobufSuffix.toList := by decide
    unfold outputStem
    split <;> simp [hslash.1, hslash.2, hsuffix]
  suffices h : fileName file = "/".intercalate (init ++
      [String.ofList (outputStem stem extension ++ Workspace.protobufSuffix.toList)]) by
    have hnew := hparts _ hstart
    rw [← hnew, Path.intercalate_parts] at h
    refine ⟨before, init, htext, ?_, ?_⟩
    · rw [h, String.toList_ofList]
    · rw [h, hnew]
  rw [outputStem]
  by_cases hnil : stem = []
  · subst hnil
    have hwhole : String.ofList (file.toList.take (file.length - 0)) = file := by
      simp [← String.length_toList]
    have hplain : Path.component? (String.ofList ([] ++ '.' :: extension)) = _ :=
      component?_of_extension hlength
    rw [fileName, Path.withExtension, Path.extension?_eq hself hplain, nil_append,
      Path.splitName_of_leading_dot hextension, Option.getD_none, String.length_empty, hwhole,
      Path.addExtension_eq hself hplain, nil_append,
      Path.splitName_of_leading_dot hextension, if_pos rfl, ← hends]
  · have hparts' := hparts (stem ++ ['.']) (by simpa using hslash.1)
    have hplain' : Path.component? (String.ofList (stem ++ ['.'])) =
        some (.normal (String.ofList (stem ++ ['.']))) := by
      have hne : ∀ text : String, stem ++ ['.'] ≠ text.toList →
          String.ofList (stem ++ ['.']) ≠ text := by
        rintro _ htext rfl
        simp at htext
      have hdots : stem ++ ['.'] ≠ ['.'] ++ ['.'] := fun h => hstem (append_cancel_right h)
      exact Path.component?_of_ne (hne _ (by simp)) (hne _ (by simpa using hnil)) (hne _ hdots)
    rw [fileName_eq_addExtension hextension hlength htext hself hnil,
      Path.addExtension_eq hparts' hplain', Path.splitName_of_extension hnil (by simp),
      if_neg hnil, ← hends]

/-- The notation of a schema has a name of its own that ends like those of protobuf schemas, unless
only a dot stands before the extension of the schema. -/
theorem endsIn_fileName
    (hextension : '.' ∉ extension) (hlength : 2 ≤ extension.length)
    (hfile : (Path.parts file).getLast? = some (String.ofList (stem ++ '.' :: extension)))
    (hstem : stem ≠ ['.']) :
    ∃ last, Path.EndsIn (fileName file) last ∧ Workspace.protobufSuffix.toList <:+ last.toList := by
  obtain ⟨-, init, -, -, hparts⟩ := exists_fileName_eq hextension hlength hfile hstem
  refine ⟨_, ⟨by rw [hparts, getLast?_concat], Path.component?_of_length ?_⟩, ?_⟩
  · simp [Workspace.protobufSuffix]
  · rw [String.toList_ofList]
    exact suffix_append _ _

/-- Where only a dot stands before the extension, the name of the notation ends with two dots. -/
theorem getLast?_fileName_of_dot
    (hextension : '.' ∉ extension) (hlength : 2 ≤ extension.length)
    (hfile : (Path.parts file).getLast? = some (String.ofList (['.'] ++ '.' :: extension))) :
    (Path.parts (fileName file)).getLast? = some ".." := by
  obtain ⟨before, init, htext, hslash, hself, hparts⟩ := Path.exists_parts_eq hfile
  have hdots := hparts ['.', '.'] (by simp)
  have hlast : Path.significantParts (String.ofList (before ++ ['.', '.'])) =
      ".." :: init.reverse := by
    rw [Path.significantParts, hdots, reverse_append, reverse_singleton,
      singleton_append]
    rfl
  rw [fileName_eq_addExtension hextension hlength htext hself (by simp), singleton_append,
    Path.addExtension, hlast]
  simp only [if_true]
  rw [hdots, getLast?_concat]

end Proto

/-! ## Reading the notation -/

theorem extension_of_dialectOf
    {parsing : ParseConfig}
    (h : (Workspace.new base parsing settings).dialectOf file = .ok dialect) :
    ∃ stem extension, extension ∈ ["wproto".toList, "proto".toList] ∧
      (Path.parts file).getLast? = some (String.ofList (stem ++ '.' :: extension)) := by
  obtain ⟨suffix, hsuffix, hfile⟩ : ∃ suffix ∈ ["wproto".toList, "proto".toList],
      '.' :: suffix <:+ file.toList := by
    unfold Workspace.dialectOf at h
    split at h
    next entry _ hfind =>
      have hmem := mem_of_find?_eq_some hfind
      have hends := find?_some hfind
      rw [isSuffixOf_iff_suffix] at hends
      simp only [Workspace.new, mem_cons, not_mem_nil, or_false, Prod.mk.injEq] at hmem
      rcases hmem with ⟨rfl, -⟩ | ⟨rfl, -⟩
      · exact ⟨_, mem_cons_self, hends⟩
      · exact ⟨_, mem_cons_of_mem _ mem_cons_self, hends⟩
    next => cases h
  obtain ⟨-, last, -, -, -, hlast⟩ := Path.exists_last_part file.toList
  have hslash : ∀ suffix ∈ ["wproto".toList, "proto".toList], '/' ∉ '.' :: suffix := by decide
  obtain ⟨stem, rfl⟩ := (Path.isSuffixOf_iff_last_part (hslash suffix hsuffix) hlast).1 hfile
  refine ⟨stem, suffix, hsuffix, ?_⟩
  rw [Path.parts, getLast?_map, hlast]
  rfl

theorem FileTree.resolve_view (tree : FileTree) (path : String) :
    tree.view.resolve path = tree.resolve path := rfl

namespace Workspace

/-- A name with the suffix of protobuf schemas has no other. -/
theorem dialectOf_of_protobufSuffix (h : protobufSuffix.toList <:+ file.toList) :
    (new base config settings).dialectOf file = .ok .protobuf := by
  have hnative : ¬ nativeSuffix.toList <:+ file.toList := by
    intro hnative
    have hboth := suffix_of_suffix_length_le h hnative (by decide)
    have hnot : ¬ protobufSuffix.toList <:+ nativeSuffix.toList := by decide
    exact hnot hboth
  have hfirst : nativeSuffix.toList.isSuffixOf file.toList = false := by
    rw [Bool.eq_false_iff]
    exact fun heq => hnative (isSuffixOf_iff_suffix.1 heq)
  have hsecond : protobufSuffix.toList.isSuffixOf file.toList = true :=
    isSuffixOf_iff_suffix.2 h
  simp [dialectOf, new, hfirst, hsecond]

/-- If the notation of a schema is a file, more than a dot stands before the extension of the
schema. -/
theorem exists_stem_of_output
    {name : FileName} (hdialect : (new base config settings).dialectOf file = .ok dialect)
    (hresolve : tree.resolve (Path.join base' (Proto.fileName file)) = .ok name)
    (hread : tree.readName name = .ok text) :
    ∃ stem extension, '.' ∉ extension ∧ 2 ≤ extension.length ∧ stem ≠ ['.'] ∧
      (Path.parts file).getLast? = some (String.ofList (stem ++ '.' :: extension)) := by
  obtain ⟨stem, extension, hextension, hlast⟩ := extension_of_dialectOf hdialect
  have hshape : ∀ e ∈ ["wproto".toList, "proto".toList], '.' ∉ e ∧ 2 ≤ e.length := by decide
  obtain ⟨hdot, hlength⟩ := hshape extension hextension
  refine ⟨stem, extension, hdot, hlength, ?_, hlast⟩
  rintro rfl
  obtain ⟨hname, hplain⟩ := FileTree.last_of_resolve hresolve hread
  refine hplain (hname.trans ?_)
  rw [Path.getLast?_parts_join]
  exact Proto.getLast?_fileName_of_dot hdot hlength hlast

/-- The notation of a schema is read as protobuf, wherever it is a file. -/
theorem dialectOf_fileName
    {config' : ParseConfig} {settings' : List Setting} {name : FileName}
    (hdialect : (new base config settings).dialectOf file = .ok dialect)
    (hresolve : tree.resolve (Path.join base' (Proto.fileName file)) = .ok name)
    (hread : tree.readName name = .ok text) :
    (new base' config' settings').dialectOf (Proto.fileName file) = .ok .protobuf := by
  obtain ⟨stem, extension, hdot, hlength, hstem, hlast⟩ :=
    exists_stem_of_output hdialect hresolve hread
  obtain ⟨before, -, -, hname, -⟩ := Proto.exists_fileName_eq hdot hlength hlast hstem
  refine dialectOf_of_protobufSuffix ?_
  rw [hname, ← append_assoc]
  exact suffix_append _ _

end Workspace

end Idl
