import Idl.Proofs.Build.Containment

/-!
# Cleaned paths

Read from left to right, a path goes down by its names and up by its double dots.  A double dot
takes back the name before it; where there is none, it stays at the root, and counts one more step
above the start of a relative path.  What a path comes to in this way is its meaning.  Cleaning
writes the meaning of a path down as a path, so two paths are cleaned to the same path exactly if
they mean the same.
-/

namespace Idl.Path

open List

variable {name p part : String} {m : Meaning} {c : Component} {cs : List Component}

/-! ## Meanings -/

/-- Where the names of a path begin. -/
inductive Base
  | root
  /-- So many steps above the directory that the path starts from. -/
  | above (steps : Nat)
deriving DecidableEq, Repr

/-- Where a path leads, without a look at any directory. -/
structure Meaning where
  base : Base
  /-- The names that lead down from there, the last one first. -/
  names : List String
deriving DecidableEq, Repr

namespace Meaning

def step : Meaning → Component → Meaning
  | _, .root => ⟨.root, []⟩
  | m, .current => m
  | m, .normal name => ⟨m.base, name :: m.names⟩
  | ⟨base, _ :: names⟩, .parent => ⟨base, names⟩
  | ⟨.root, []⟩, .parent => ⟨.root, []⟩
  | ⟨.above steps, []⟩, .parent => ⟨.above (steps + 1), []⟩

theorem base_step_eq_root_iff (hc : c ≠ .root) (m : Meaning) :
    (m.step c).base = .root ↔ m.base = .root := by
  obtain ⟨base, names⟩ := m
  cases c with
  | root => exact absurd rfl hc
  | current | normal name => exact Iff.rfl
  | parent =>
    cases names with
    | cons name names => exact Iff.rfl
    | nil => cases base <;> simp [step]

theorem mem_names_step (h : name ∈ (m.step c).names) : name ∈ m.names ∨ c = .normal name := by
  obtain ⟨base, names⟩ := m
  cases c with
  | root => cases h
  | current => exact .inl h
  | normal last =>
    rcases mem_cons.1 h with rfl | h
    · exact .inr rfl
    · exact .inl h
  | parent =>
    cases names with
    | cons last names => exact .inl (mem_cons_of_mem _ h)
    | nil => cases base <;> cases h

variable {path : List Component}

theorem base_foldl_eq_root_iff (hpath : .root ∉ path) (m : Meaning) :
    (path.foldl step m).base = .root ↔ m.base = .root := by
  induction path generalizing m with
  | nil => exact Iff.rfl
  | cons c path ih =>
    rw [mem_cons, not_or] at hpath
    rw [foldl_cons, ih hpath.2, base_step_eq_root_iff (Ne.symm hpath.1)]

theorem mem_names_foldl (h : name ∈ (path.foldl step m).names) :
    name ∈ m.names ∨ .normal name ∈ path := by
  induction path generalizing m with
  | nil => exact .inl h
  | cons c path ih =>
    rcases ih h with h | h
    · rcases mem_names_step h with h | rfl
      · exact .inl h
      · exact .inr mem_cons_self
    · exact .inr (mem_cons_of_mem _ h)

end Meaning

def meaning (path : List Component) : Meaning := path.foldl Meaning.step ⟨.above 0, []⟩

/-! ## Meanings as paths -/

def Base.components : Base → List Component
  | root => [.root]
  | above steps => replicate steps .parent

namespace Meaning

/-- The meaning written down as a path. -/
def path (m : Meaning) : List Component := m.base.components ++ m.names.reverse.map .normal

theorem reverse_path (m : Meaning) : m.path.reverse = m.names.map .normal ++ m.base.components := by
  have hbase : m.base.components.reverse = m.base.components := by
    cases m.base with
    | root => rfl
    | above steps => exact reverse_replicate
  rw [path, reverse_append, hbase, ← map_reverse, reverse_reverse]

/-- What is cleaned so far is a meaning, the last component first, and the next component changes it
as it changes the meaning. -/
theorem cleanStep_reverse_path (m : Meaning) (hc : c ≠ .root) :
    cleanStep m.path.reverse c = (m.step c).path.reverse := by
  rw [reverse_path, reverse_path]
  obtain ⟨base, names⟩ := m
  cases c with
  | root => exact absurd rfl hc
  | current | normal name => simp [cleanStep, step]
  | parent =>
    cases names with
    | cons name names => rfl
    | nil =>
      cases base with
      | root => rfl
      | above steps => cases steps <;> rfl

theorem foldl_cleanStep_reverse_path (hcs : .root ∉ cs) (m : Meaning) :
    cs.foldl cleanStep m.path.reverse = (cs.foldl step m).path.reverse := by
  induction cs generalizing m with
  | nil => rfl
  | cons c cs ih =>
    rw [mem_cons, not_or] at hcs
    rw [foldl_cons, foldl_cons, cleanStep_reverse_path m (Ne.symm hcs.1), ih hcs.2]

theorem foldl_step_normal (base : Base) (names more : List String) :
    (more.map .normal).foldl step ⟨base, names⟩ = ⟨base, more.reverse ++ names⟩ := by
  induction more generalizing names with
  | nil => rfl
  | cons name more ih =>
    rw [map_cons, foldl_cons, step, ih, reverse_cons, append_assoc]
    rfl

theorem foldl_step_parent (steps more : Nat) :
    (replicate more .parent).foldl step ⟨.above steps, []⟩ = ⟨.above (steps + more), []⟩ := by
  induction more generalizing steps with
  | zero => rfl
  | succ more ih => rw [replicate_succ, foldl_cons, step, ih, Nat.add_assoc, Nat.add_comm 1]

theorem meaning_path (m : Meaning) : meaning m.path = m := by
  obtain ⟨base, names⟩ := m
  have hbase : base.components.foldl step ⟨.above 0, []⟩ = ⟨base, []⟩ := by
    cases base with
    | root => rfl
    | above steps => rw [Base.components, foldl_step_parent, Nat.zero_add]
  rw [meaning, path, foldl_append, hbase, foldl_step_normal, reverse_reverse, append_nil]

theorem path_injective : Function.Injective path :=
  Function.LeftInverse.injective meaning_path

/-- A double dot in a path that is written down for a meaning has nothing but double dots before
it, and no root. -/
theorem parents_of_path {before after : List Component} (h : m.path = before ++ .parent :: after) :
    m.base ≠ .root ∧ ∀ c ∈ before, c = .parent := by
  obtain ⟨base, names⟩ := m
  have hnames : .parent ∉ names.reverse.map Component.normal := by simp
  cases base with
  | root =>
    have hmem : .parent ∈ (⟨.root, names⟩ : Meaning).path := by simp [h]
    rcases mem_cons.1 hmem with hmem | hmem
    · cases hmem
    · exact absurd hmem hnames
  | above steps =>
    refine ⟨by simp, fun c hc => ?_⟩
    rcases append_eq_append_iff.1 h with ⟨more, -, hmore⟩ | ⟨more, hmore, -⟩
    · exact absurd (by simp [hmore]) hnames
    · exact eq_of_mem_replicate (hmore ▸ mem_append_left _ hc)

end Meaning

/-! ## Paths as texts -/

/-- A name without a slash that is neither empty nor made of one dot or two. -/
structure IsPlain (name : String) : Prop where
  component : component? name = some (.normal name)
  slash : '/' ∉ name.toList

theorem slash_notMem_of_mem_parts (h : part ∈ parts p) : '/' ∉ part.toList := by
  have hsplit : ∀ cs : List Char, ∀ chars ∈ cs.splitOnP (· == '/'), '/' ∉ chars := by
    intro cs
    induction cs with
    | nil => simp
    | cons c cs ih =>
      rw [splitOnP_cons_eq_if_modifyHead]
      split
      next => exact forall_mem_cons.2 ⟨not_mem_nil, ih⟩
      next hc =>
        cases hmore : cs.splitOnP (· == '/') with
        | nil => exact absurd hmore (splitOnP_ne_nil _ _)
        | cons first more =>
          rw [hmore] at ih
          obtain ⟨hfirst, hothers⟩ := forall_mem_cons.1 ih
          refine forall_mem_cons.2 ⟨?_, hothers⟩
          rw [mem_cons, not_or]
          exact ⟨fun heq => hc (by rw [← heq]; rfl), hfirst⟩
  obtain ⟨chars, hchars, rfl⟩ := mem_map.1 h
  rw [String.toList_ofList]
  exact hsplit _ chars hchars

theorem component?_eq_some_iff :
    component? part = some c ↔ (c = .parent ∧ part = "..") ∨
      (c = .normal part ∧ part ≠ "" ∧ part ≠ "." ∧ part ≠ "..") := by
  unfold component?
  split
  next h =>
    simp only [Bool.or_eq_true, decide_eq_true_eq] at h
    rcases h with rfl | rfl <;> simp
  next h =>
    simp only [Bool.or_eq_true, decide_eq_true_eq, not_or] at h
    split
    next hdots => simp only [hdots, Option.some.injEq, and_true, ne_eq, not_true_eq_false,
      and_false, or_false, eq_comm]
    next hdots =>
      simp only [h, hdots, Option.some.injEq, ne_eq, not_false_eq_true, and_true, and_false,
        false_or, eq_comm]

theorem root_notMem_filterMap_component? (texts : List String) :
    .root ∉ texts.filterMap component? := by
  intro h
  obtain ⟨part, -, hpart⟩ := mem_filterMap.1 h
  simp [component?_eq_some_iff] at hpart

theorem meaning_components (p : String) :
    meaning (components p) = ((parts p).filterMap component?).foldl Meaning.step
      ⟨if isAbsolute p then .root else .above 0, []⟩ := by
  rw [meaning, components, foldl_append]
  split
  · rfl
  · split <;> rfl

/-- Cleaning a path writes its meaning down. -/
theorem clean_components (p : String) : clean (components p) = (meaning (components p)).path := by
  have hstart : (if isAbsolute p then [.root] else []) =
      (⟨if isAbsolute p then .root else .above 0, []⟩ : Meaning).path.reverse := by
    split <;> rfl
  rw [clean, foldl_cleanStep_components, meaning_components, hstart,
    Meaning.foldl_cleanStep_reverse_path (root_notMem_filterMap_component? _), reverse_reverse]

theorem base_meaning_eq_root_iff (p : String) :
    (meaning (components p)).base = .root ↔ isAbsolute p = true := by
  rw [meaning_components, Meaning.base_foldl_eq_root_iff (root_notMem_filterMap_component? _)]
  split <;> simp_all

theorem isPlain_of_mem_names (h : name ∈ (meaning (components p)).names) : IsPlain name := by
  rw [meaning_components] at h
  rcases Meaning.mem_names_foldl h with h | h
  · cases h
  · obtain ⟨part, hpart, hcomponent⟩ := mem_filterMap.1 h
    rcases component?_eq_some_iff.1 hcomponent with ⟨heq, -⟩ | ⟨heq, -⟩
    · cases heq
    · obtain rfl := Component.normal.inj heq
      exact ⟨hcomponent, slash_notMem_of_mem_parts hpart⟩

/-! ## Meanings as texts -/

theorem parts_intercalate {texts : List String} (hne : texts ≠ [])
    (h : ∀ text ∈ texts, '/' ∉ text.toList) : parts ("/".intercalate texts) = texts := by
  have hsplit : (['/'].intercalate (texts.map String.toList)).splitOn '/' =
      texts.map String.toList :=
    splitOn_intercalate '/' (by simpa using h) (by simpa using hne)
  rw [splitOn_eq_splitOnP] at hsplit
  rw [parts, String.toList_intercalate]
  have hslash : "/".toList = ['/'] := rfl
  rw [hslash, hsplit, map_map]
  simp [Function.comp_def]

theorem parts_slash (text : String) : parts ("/" ++ text) = "" :: parts text := by
  have htext : ("/" ++ text).toList = [] ++ '/' :: text.toList := by simp
  rw [parts, htext, splitOnP_append_cons _ _ (by rfl)]
  rfl

/-- The components of a relative path that keep their place in a text. -/
def IsStep (c : Component) : Prop :=
  component? (render.name c) = some c ∧ '/' ∉ (render.name c).toList

theorem isStep_parent : IsStep .parent := by
  constructor <;> decide

theorem IsPlain.isStep (h : IsPlain name) : IsStep (.normal name) :=
  ⟨h.component, h.slash⟩

theorem filterMap_component?_intercalate (h : ∀ c ∈ cs, IsStep c) :
    (parts ("/".intercalate (cs.map render.name))).filterMap component? = cs := by
  rcases eq_or_ne cs [] with rfl | hne
  · rfl
  · rw [parts_intercalate (by simpa using hne) (by simpa using fun c hc => (h c hc).2),
      filterMap_map]
    exact (filterMap_congr fun c hc => (h c hc).1).trans filterMap_some

theorem isAbsolute_iff : isAbsolute p = true ↔ ∃ rest, p = "/" ++ rest := by
  constructor
  · intro h
    obtain ⟨rest, hrest⟩ := head?_eq_some_iff.1 (beq_iff_eq.1 h)
    refine ⟨String.ofList rest, String.toList_inj.1 ?_⟩
    simp [hrest]
  · rintro ⟨rest, rfl⟩
    simp [isAbsolute]

theorem components_intercalate (h : ∀ c ∈ cs, IsStep c) :
    components ("/".intercalate (cs.map render.name)) = cs := by
  cases cs with
  | nil => rfl
  | cons c cs =>
    have hparts : parts ("/".intercalate ((c :: cs).map render.name)) = (c :: cs).map render.name :=
      parts_intercalate (by simp) (forall_mem_map.2 fun c hc => (h c hc).2)
    have hfirst : component? (render.name c) = some c := (h c mem_cons_self).1
    have hrelative : ¬isAbsolute ("/".intercalate ((c :: cs).map render.name)) = true := by
      intro habsolute
      obtain ⟨rest, hrest⟩ := isAbsolute_iff.1 habsolute
      rw [hrest, parts_slash] at hparts
      rw [← head_eq_of_cons_eq hparts] at hfirst
      cases hfirst
    have hdot : (parts ("/".intercalate ((c :: cs).map render.name))).head? ≠ some "." := by
      intro hdot
      rw [hparts, map_cons, head?_cons, Option.some.injEq] at hdot
      rw [hdot] at hfirst
      cases hfirst
    rw [components, if_neg hrelative, if_neg hdot, nil_append, filterMap_component?_intercalate h]

theorem render_of_root_notMem (h : .root ∉ cs) :
    render cs = "/".intercalate (cs.map render.name) := by
  cases cs with
  | nil => rfl
  | cons c cs =>
    cases c with
    | root => exact absurd mem_cons_self h
    | current | parent | normal name => rfl

/-- A meaning that is written down as a text is read back. -/
theorem components_render_path (h : ∀ name ∈ m.names, IsPlain name) :
    components (render m.path) = m.path := by
  have hnames : ∀ c ∈ m.names.reverse.map Component.normal, IsStep c :=
    forall_mem_map.2 fun name hname => (h name (mem_reverse.1 hname)).isStep
  cases hbase : m.base with
  | root =>
    rw [Meaning.path, hbase]
    show components ("/" ++ _) = _
    rw [components, if_pos (isAbsolute_iff.2 ⟨_, rfl⟩), parts_slash]
    exact congrArg (Component.root :: ·) (filterMap_component?_intercalate hnames)
  | above steps =>
    have hsteps : ∀ c ∈ m.path, IsStep c := by
      rw [Meaning.path, hbase]
      refine forall_mem_append.2 ⟨fun c hc => ?_, hnames⟩
      rw [eq_of_mem_replicate hc]
      exact isStep_parent
    have hroot : .root ∉ m.path := fun hmem => by cases (hsteps _ hmem).1
    rw [render_of_root_notMem hroot, components_intercalate hsteps]

/-! ## Cleaned texts -/

/-- The text of a cleaned path. -/
def cleaned (p : String) : String := render (clean (components p))

theorem components_cleaned (p : String) : components (cleaned p) = clean (components p) := by
  rw [cleaned, clean_components]
  exact components_render_path fun name => isPlain_of_mem_names

theorem meaning_cleaned (p : String) :
    meaning (components (cleaned p)) = meaning (components p) := by
  rw [components_cleaned, clean_components, Meaning.meaning_path]

/-- A relative path goes on where the path before it leads. -/
theorem meaning_join {q : String} (hq : isAbsolute q = false) (p : String) :
    meaning (components (join p q)) =
      ((parts q).filterMap component?).foldl Meaning.step (meaning (components p)) := by
  rw [meaning_components, meaning_components, isAbsolute_join hq, filterMap_parts_join hq,
    foldl_append]

theorem clean_join_cleaned (p q : String) :
    clean (components (join (cleaned p) q)) = clean (components (join p q)) := by
  cases hq : isAbsolute q with
  | true => rw [join, join, if_pos hq, if_pos hq]
  | false =>
    rw [clean_components, clean_components, meaning_join hq, meaning_join hq, meaning_cleaned]

/-- Cleaning is a normal form of paths: a cleaned path has no dot, and double dots only in front and
only if it is relative; cleaning it again changes nothing, before or after another path is joined to
it; and two paths are cleaned to the same path if and only if they mean the same. -/
theorem clean_is_normal_form (p q : String) :
    .current ∉ clean (components p) ∧
      (∀ before after, clean (components p) = before ++ .parent :: after →
        isAbsolute p = false ∧ ∀ c ∈ before, c = .parent) ∧
      clean (components (cleaned p)) = clean (components p) ∧
      clean (components (join (cleaned p) q)) = clean (components (join p q)) ∧
      (clean (components p) = clean (components q) ↔
        meaning (components p) = meaning (components q)) := by
  refine ⟨?_, fun before after h => ?_, ?_, clean_join_cleaned p q, ?_⟩
  · rw [clean_components, Meaning.path, mem_append]
    cases (meaning (components p)).base <;> simp [Base.components]
  · rw [clean_components] at h
    obtain ⟨hbase, hbefore⟩ := Meaning.parents_of_path h
    rw [ne_eq, base_meaning_eq_root_iff, Bool.not_eq_true] at hbase
    exact ⟨hbase, hbefore⟩
  · rw [clean_components, clean_components, meaning_cleaned]
  · rw [clean_components, clean_components, Meaning.path_injective.eq_iff]

/-- A double dot takes a name back, stays at the root, and is kept in front of a relative path. -/
example :
    cleaned "./a/b/../x" = "a/x" ∧ cleaned "/../x" = "/x" ∧ cleaned "a/../../x/." = "../x" := by
  decide +kernel

end Idl.Path
