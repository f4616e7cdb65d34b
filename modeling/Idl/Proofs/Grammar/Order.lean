import Idl.Proofs.Grammar.Assembly
import Idl.Proofs.Grammar.Layout
import Idl.Proofs.Schema.Documented
import Idl.Proofs.Token.Tiling
import Mathlib.Tactic.MkIffOfInductiveProp

/-!
# Declarations in the order of the text

In a schema of the native notation, declarations of one kind are listed in the order of the text, at
every depth, and a message is named before all that is nested in it: the main statement.
-/

namespace Idl

open Idl.Parser List

variable {lo mid hi : Nat} {stop : Nat} {schema : Schema} {config : ParseConfig}
  {tokens : List (Located Token)}

/-! ## Layouts -/

/-- Where the names of the message and of its enums stand. -/
def Message.nameSpans (m : Message) : List Span := m.name.span :: m.enums.map (·.name.span)

/-- The name of the message, of a message nested in it, or of an enum of these stands there. -/
def Message.Holds (m : Message) (s : Span) : Prop :=
  ∃ path sub, m.descend path = some sub ∧ s ∈ sub.nameSpans

theorem Message.holds_iff {m : Message} {s : Span} :
    m.Holds s ↔ s ∈ m.nameSpans ∨ ∃ sub ∈ m.messages, sub.Holds s := by
  have hnot := Message.forall_descend_iff (m := m) (P := fun sub => s ∉ sub.nameSpans)
  simp only [Holds]
  grind

namespace Layout

def name : Layout (Located String) := .places fun name s => name.span = s

def option : Layout OptionDecl := .places fun o s => o.key.span = s

def field : Layout Field :=
  ⟨fun f s => f.name.span = s ∨ f.tag.span = s, fun f => option.InOrder f.options⟩

def enum : Layout EnumDef :=
  ⟨fun e s => e.name.span = s,
    fun e => name.InOrder (e.values.map (·.name)) ∧ option.InOrder e.options⟩

end Layout

/-- The declarations directly in a message are in order, and behind its name. -/
@[mk_iff]
structure Message.Level (m : Message) : Prop where
  fields : Layout.field.InOrder m.fields
  enums : Layout.enum.InOrder m.enums
  messages : m.messages.Pairwise (Layout.places Message.Holds).Before
  options : Layout.option.InOrder m.options
  enum_behind : ∀ e ∈ m.enums, m.name.span.start < e.name.span.start
  message_behind : ∀ sub ∈ m.messages, ∀ s, sub.Holds s → m.name.span.start < s.start

namespace Layout

def message : Layout Message :=
  ⟨Message.Holds, fun m => ∀ path sub, m.descend path = some sub → sub.Level⟩

/-- The id of a method. -/
def id : Layout Method := .places fun m s => ∃ id, m.id = some id ∧ id.span = s

def method : Layout Method :=
  ⟨fun m s => m.name.span = s ∨ id.At m s, fun m => option.InOrder m.options⟩

def service : Layout Service :=
  ⟨fun service s => service.name.span = s,
    fun service => method.InOrder service.methods ∧ option.InOrder service.options⟩

def project : Layout Project :=
  ⟨fun _ _ => False, fun p => ∀ area ∈ p.areas, option.InOrder area.options⟩

def import_ : Layout Import :=
  .places fun item s => item.file.span = s ∨ ∃ name, item.localName = some name ∧ name.span = s

/-! ### Statements -/

def enumStatement : Layout EnumStatement := .places fun
  | .value name _, s => name.span = s
  | .option o, s => option.At o s

def messageStatement : Layout MessageStatement where
  At
    | .field f => field.At f
    | .option o => option.At o
    | .message m => message.At m
    | .enum e => enum.At e
  Sorted
    | .field f => field.Sorted f
    | .option _ => True
    | .message m => message.Sorted m
    | .enum e => enum.Sorted e

/-- The methods and options of a service may be of any layout. -/
def serviceStatement (M : Layout Method) (O : Layout OptionDecl) : Layout ServiceStatement where
  At
    | .mode _ => fun _ => False
    | .method m => M.At m
    | .option o => O.At o
  Sorted
    | .mode _ => True
    | .method m => M.Sorted m
    | .option o => O.Sorted o

def projectStatement : Layout ProjectStatement := .places fun
  | .area _, _ => False
  | .option o, s => option.At o s

def declaration : Layout Declaration where
  At
    | .import_ item => import_.At item
    | .option o => option.At o
    | .enum e => enum.At e
    | .message m => message.At m
    | .service s => service.At s
    | .project p => project.At p
  Sorted
    | .import_ _ => True
    | .option _ => True
    | .enum e => enum.Sorted e
    | .message m => message.Sorted m
    | .service s => service.Sorted s
    | .project p => project.Sorted p

end Layout

/-! ## Statements in order -/

variable {name : Located String}

theorem EnumValue.map_name_numbered
    (previous : Option Int64) (written : List (Located String × Option Int64)) :
    (numbered previous written).map (·.name) = written.map (·.1) := by
  induction written generalizing previous with
  | nil => rfl
  | cons first written ih => exact congrArg (first.1 :: ·) (ih _)

theorem EnumDef.lies_ofStatements
    {found : List EnumStatement} (hname : name.span.Between lo mid)
    (h : Layout.enumStatement.list.Lies mid hi found) (hhi : mid ≤ hi) :
    Layout.enum.Lies lo hi (EnumDef.ofStatements name found) := by
  refine ⟨?_, ?_, ?_⟩
  · rintro _ rfl
    exact hname.wider (Nat.le_refl _) hhi
  · simp only [EnumDef.ofStatements, EnumValue.map_name_numbered, map_filterMap]
    refine h.sorted.filterMap fun s found hs => ?_
    cases s with
    | option o => cases hs
    | value name number =>
      cases hs
      exact ⟨fun _ => id, id⟩
  · refine h.sorted.filterMap fun s o hs => ?_
    cases s <;> cases hs
    exact ⟨fun _ => id, id⟩

theorem Message.lies_ofStatements
    {found : List MessageStatement} (hname : name.span.Between lo mid)
    (h : Layout.messageStatement.list.Lies mid hi found) (hlo : lo ≤ mid) (hhi : mid ≤ hi) :
    Layout.message.Lies lo hi (Message.ofStatements name found) := by
  have henum : ∀ e ∈ (Message.ofStatements name found).enums, e.name.span.Between mid hi := by
    intro e he
    obtain ⟨s, hs, heq⟩ := mem_filterMap.1 he
    cases s <;> cases heq
    exact h.between _ ⟨_, hs, rfl⟩
  have hmessage : ∀ sub ∈ (Message.ofStatements name found).messages, ∀ s, sub.Holds s →
      s.Between mid hi := by
    intro sub hsub place hplace
    obtain ⟨s, hs, heq⟩ := mem_filterMap.1 hsub
    cases s <;> cases heq
    exact h.between _ ⟨_, hs, hplace⟩
  obtain ⟨hfields, henums, hmessages, hoptions⟩ :
      Layout.field.InOrder (found.filterMap (·.field?)) ∧
      Layout.enum.InOrder (found.filterMap (·.enum?)) ∧
      Layout.message.InOrder (found.filterMap (·.message?)) ∧
      Layout.option.InOrder (found.filterMap (·.option?)) := by
    refine ⟨?_, ?_, ?_, ?_⟩
    all_goals
      refine h.sorted.filterMap fun s _ hs => ?_
      cases s <;> cases hs
      exact ⟨fun _ => id, id⟩
  refine ⟨fun s hs => ?_, Message.forall_descend_iff.2 ⟨⟨hfields, henums, hmessages.pairwise,
    hoptions, fun e he => Nat.lt_of_lt_of_le hname.2 (henum e he).1,
    fun sub hsub s hs => Nat.lt_of_lt_of_le hname.2 (hmessage sub hsub s hs).1⟩, hmessages.sorted⟩⟩
  rcases Message.holds_iff.1 hs with hs | ⟨sub, hsub, hs⟩
  · rcases mem_cons.1 hs with rfl | hs
    · exact hname.wider (Nat.le_refl _) hhi
    · obtain ⟨e, he, rfl⟩ := mem_map.1 hs
      exact (henum e he).wider hlo (Nat.le_refl _)
  · exact (hmessage sub hsub s hs).wider hlo (Nat.le_refl _)

theorem ServiceStatement.inOrder_methods
    {M : Layout Method} {O : Layout OptionDecl}
    (hat : ∀ m mode s, M.At { m with mode } s → M.At m s)
    (hsorted : ∀ m mode, M.Sorted m → M.Sorted { m with mode }) {found : List ServiceStatement}
    (h : (Layout.serviceStatement M O).InOrder found) (current : CallMode) :
    M.InOrder (methods current found) := by
  have hmore {s : ServiceStatement} {found : List ServiceStatement}
      (h : (Layout.serviceStatement M O).InOrder (s :: found)) :
      (Layout.serviceStatement M O).InOrder found := h.sublist (sublist_cons_self s found)
  fun_induction methods current found with
  | case1 => exact ⟨forall_mem_nil _, .nil⟩
  | case2 current mode found ih | case4 current option found ih => exact ih (hmore h)
  | case3 current m found ih =>
    obtain ⟨hsorted', hpairwise⟩ := ih (hmore h)
    refine ⟨forall_mem_cons.2 ⟨hsorted m current (h.sorted _ mem_cons_self), hsorted'⟩,
      pairwise_cons.2 ⟨fun m' hm' s t hs ht => ?_, hpairwise⟩⟩
    obtain ⟨original, mode, hmem, rfl⟩ := exists_of_mem_methods hm'
    exact (pairwise_cons.1 h.pairwise).1 _ hmem s t (hat _ _ s hs) (hat _ _ t ht)

theorem Project.sorted_ofStatements
    {found : List ProjectStatement} (h : Layout.projectStatement.InOrder found) :
    Layout.project.Sorted (Project.ofStatements name found) := by
  intro area harea
  obtain ⟨old, -, hold, hoptions⟩ := ProjectStatement.exists_of_mem_areas harea
  have hread : Layout.option.InOrder (found.filterMap (·.option?)) := by
    refine h.filterMap fun s o hs => ?_
    cases s <;> cases hs
    exact ⟨fun _ => id, id⟩
  rcases hold with hold | ⟨hnil, -⟩
  · cases hold
  · rw [hnil, nil_append] at hoptions
    exact hread.sublist hoptions

theorem Method.mem_of_kept
    {c : Prop} [Decidable c] {id : Option (Located Int64)} {value : Located Int64}
    (h : (if c then id else none) = some value) : value ∈ id := by
  split at h
  · exact h
  · cases h

theorem Parser.Lays.join_id
    {c : Prop} [Decidable c] {next : Option (Located Int64) → PlainParser Method}
    {Q : Nat → Method → Prop} (h : ∀ mid id, lo ≤ mid → (∀ value ∈ id, value.span.Between lo mid) →
      (next id).Lays stop mid Q) :
    Lays stop lo (if c then (some <$> Parser.integer) >>= next else Pure.pure none >>= next) Q := by
  refine .join (P := fun hi id => ∀ value ∈ id, value.span.Between lo hi) ?_ ?_ h
  · refine Lays.integer.bind fun mid value _ hvalue => .pure fun hi hhi => ?_
    rintro _ ⟨⟩
    exact hvalue.wider (Nat.le_refl _) hhi
  · exact .pure fun _ _ _ hvalue => nomatch hvalue

/-! ## The native grammar -/

namespace Native

theorem lays_declaredName (what : String) (stop lo : Nat) :
    (declaredName what).Lays stop lo fun hi name => name.span.Between lo hi :=
  Lays.identifier.tested _ _

theorem draws_option : Draws Layout.option option := by
  intro stop lo
  refine (Lays.identifier.tested _ _).bind fun mid key hmid hkey => .after fun found => ?_
  refine .join (P := fun _ _ => True) (fun _ _ _ _ _ _ => trivial) (fun _ _ _ _ _ _ => trivial)
    fun mid' value hmid' _ => .after fun _ => .pure fun hi hhi => ⟨?_, trivial⟩
  rintro _ rfl
  exact hkey.wider (Nat.le_refl _) (Nat.le_trans hmid' hhi)

theorem draws_optionBlock? : Draws Layout.option.list optionBlock? := by
  intro stop lo
  refine .after fun opened => ?_
  split
  · exact Draws.enclosed (fun stop lo => .after fun closed =>
      draws_option.item (closed = true)) stop lo
  · exact .pure fun _ _ => Layout.lies_nil

theorem draws_field : Draws Layout.field field := by
  intro stop lo
  refine .after fun type => .commit (Lays.identifier.bind fun mid name hmid hname => ?_)
  refine .after fun _ => (Lays.integer.tested _ _).bind fun mid' tag hmid' htag => ?_
  refine (draws_optionBlock? _ _).bind fun mid'' options hmid'' hoptions => .after fun _ =>
    .pure fun hi hhi => ⟨?_, hoptions.sorted⟩
  have hend := Nat.le_trans hmid'' hhi
  rintro _ (rfl | rfl)
  · exact hname.wider (Nat.le_refl _) (Nat.le_trans hmid' hend)
  · exact htag.wider hmid hend

theorem draws_enumStatement : Draws Layout.enumStatement enumStatement := by
  have hvalue : Draws Layout.enumStatement enumValue := by
    intro stop lo
    refine (lays_declaredName _ _ _).bind fun mid name hmid hname => .after fun equals => ?_
    have hend : ∀ number hi, mid ≤ hi → Layout.enumStatement.Lies lo hi (.value name number) := by
      refine fun number hi hhi => ⟨?_, trivial⟩
      rintro _ rfl
      exact hname.wider (Nat.le_refl _) hhi
    split
    · refine .after fun next => ?_
      dsimp only
      split
      · exact .after fun _ => .refuse_bind _
      · exact .after fun _ => .after fun _ => .pure (hend _)
    · exact .after fun _ => .pure (hend _)
  intro stop lo
  refine .after fun next => ?_
  split
  · split
    · exact draws_option.map (fun _ _ => id) fun _ => id
    · exact hvalue stop lo
  · exact hvalue stop lo

theorem draws_enum : Draws Layout.enum enum := by
  intro stop lo
  refine .after fun _ => .commit ((lays_declaredName _ _ _).bind fun mid name _ hname => ?_)
  exact (draws_enumStatement.block _ _).bind fun hi found hhi hfound => .after fun _ =>
    .pure fun _ hend => (EnumDef.lies_ofStatements hname hfound hhi).wider (Nat.le_refl _) hend

theorem draws_message : Draws Layout.message message := by
  refine Draws.recursive (fun _ _ => inferInstance) fun nested hadvances hnested stop lo => ?_
  have hstatement : Draws Layout.messageStatement (messageStatement nested) := by
    intro stop lo
    refine .after fun next => ?_
    split
    · exact hnested.map (fun _ _ => id) fun _ => id
    · exact draws_enum.map (fun _ _ => id) fun _ => id
    · exact draws_field.map (fun _ _ => id) fun _ => id
    · exact draws_option.map (fun _ _ => id) fun _ => id
  refine .after fun _ => .commit ((lays_declaredName _ _ _).bind
    fun mid name hmid hname => ?_)
  exact (hstatement.block _ _).bind fun hi found hhi hfound => .after fun _ =>
    .pure fun _ hend =>
      (Message.lies_ofStatements hname hfound hmid hhi).wider (Nat.le_refl _) hend

theorem draws_method (config : ParseConfig) : Draws Layout.method (method config) := by
  intro stop lo
  refine (lays_declaredName _ _ _).bind fun mid name hmid hname => .commit
    (.after fun _ => .after fun closed => ?_)
  extract_lets jp
  have hjp (request : Option MethodMessage) :
      (jp request).Lays stop mid (Layout.method.Lies lo) := by
    refine .after fun _ => .after fun reply => .after fun equals => ?_
    refine Lays.join_id fun mid' id hmid' hid => (draws_optionBlock? _ _).bind
      fun mid'' options hmid'' hoptions => .after fun _ => .pure fun hi hhi =>
        ⟨?_, hoptions.sorted⟩
    have hend := Nat.le_trans hmid'' hhi
    rintro s (rfl | ⟨_, hs, rfl⟩)
    · exact hname.wider (Nat.le_refl _) (Nat.le_trans hmid' hend)
    · exact (hid _ (Method.mem_of_kept hs)).wider hmid hend
  split
  · exact .after fun _ => hjp _
  · exact .after hjp

theorem draws_service (config : ParseConfig) : Draws Layout.service (service config) := by
  have hstatement : Draws (Layout.serviceStatement .method .option) (serviceStatement config) := by
    intro stop lo
    refine .after fun next => ?_
    split
    · refine .after fun _ => .after fun _ => .after fun _ =>
        .pure fun _ _ => ⟨fun _ => False.elim, trivial⟩
    · exact (draws_method config).map (fun _ _ => id) fun _ => id
    · exact draws_option.map (fun _ _ => id) fun _ => id
  intro stop lo
  refine .after fun _ => .commit ((lays_declaredName _ _ _).bind
    fun mid name hmid hname => ?_)
  refine (hstatement.block _ _).bind fun mid' found hmid' hfound => .after fun _ =>
    .pure fun hi hhi => ⟨?_, ?_, ?_⟩
  · rintro _ rfl
    exact hname.wider (Nat.le_refl _) (Nat.le_trans hmid' hhi)
  · exact ServiceStatement.inOrder_methods (fun _ _ _ => id) (fun _ _ => id) hfound.sorted _
  · refine hfound.sorted.filterMap fun s o hs => ?_
    cases s <;> cases hs
    exact ⟨fun _ => id, id⟩

theorem draws_project : Draws Layout.project project := by
  have hstatement : Draws Layout.projectStatement projectStatement := by
    intro stop lo
    refine .after fun next => ?_
    split
    · exact .after fun _ => .after fun _ =>
        .pure fun _ _ => ⟨fun _ => False.elim, trivial⟩
    · exact draws_option.map (fun _ _ => id) fun _ => id
  intro stop lo
  refine .after fun _ => .commit (.after fun name => ?_)
  exact (hstatement.block _ _).bind fun mid found _ hfound => .after fun _ =>
    .pure fun _ _ => ⟨fun _ => False.elim, Project.sorted_ofStatements hfound.sorted⟩

theorem draws_importFile : Draws Layout.import_ importFile := by
  intro stop lo
  refine .after fun _ => .commit (.after fun next => ?_)
  have hend : ∀ mid (localName : Option (Located String)), lo ≤ mid →
      (∀ name ∈ localName, name.span.Between lo mid) → Lays stop mid (do
        let file ← textLiteral
        terminator
        return ({ file, localName, doc := .none, target := none } : Import))
        (Layout.import_.Lies lo) := by
    refine fun mid localName hmid hname => (Lays.token _ _).bind fun mid' file hmid' hfile =>
      .after fun _ => .pure fun hi hhi => ⟨?_, trivial⟩
    rintro _ (rfl | ⟨name, hlocal, rfl⟩)
    · exact hfile.wider hmid hhi
    · exact (hname name hlocal).wider (Nat.le_refl _) (Nat.le_trans hmid' hhi)
  dsimp only
  split
  · refine Lays.bind (P := fun hi localName => ∀ name ∈ localName, name.span.Between lo hi) ?_ hend
    refine (lays_declaredName _ _ _).bind fun mid name _ hname => .pure fun hi hhi => ?_
    rintro _ ⟨⟩
    exact hname.wider (Nat.le_refl _) hhi
  · refine hend lo none (Nat.le_refl _) ?_
    rintro _ ⟨⟩

theorem draws_declaration (config : ParseConfig) :
    Draws Layout.declaration (declaration config) := by
  intro stop lo
  refine .after fun next => ?_
  split
  · exact draws_importFile.map (fun _ _ => id) fun _ => id
  · exact draws_enum.map (fun _ _ => id) fun _ => id
  · exact draws_message.map (fun _ _ => id) fun _ => id
  · exact (draws_service config).map (fun _ _ => id) fun _ => id
  · exact draws_project.map (fun _ _ => id) fun _ => id
  · exact draws_option.map (fun _ _ => id) fun _ => id

end Native

/-! ## Schemas -/

theorem Lexer.exists_ascending {source : List Char} (h : tokenize source = .ok tokens) :
    ∃ stop, Ascending stop (significant tokens) := by
  have htile := tile_of_tokenize h
  refine ⟨byteSize source, ?_, fun t ht =>
    (htile.bounds.2 t.span (mem_map_of_mem (mem_filter.1 ht).1)).2⟩
  exact ((pairwise_map.1 htile.pairwise).filter _).imp fun hspans =>
    Nat.lt_of_lt_of_le hspans.1 hspans.2

/-- The declarations of each kind are in order. -/
@[mk_iff]
structure Schema.InOrder (schema : Schema) : Prop where
  imports : Layout.import_.InOrder schema.imports
  options : Layout.option.InOrder schema.options
  enums : Layout.enum.InOrder schema.enums
  messages : Layout.message.InOrder schema.messages
  services : Layout.service.InOrder schema.services
  projects : Layout.project.InOrder schema.projects

theorem Native.inOrder_of_build
    (htokens : Ascending stop (significant tokens))
    (h : Dialect.native.build config tokens = .ok schema) : schema.InOrder := by
  have hschema : (Native.schema config).Lays stop 0 fun _ schema => schema.InOrder := by
    refine .after fun name => ((draws_declaration config).declarations _ _).bind
      fun mid found _ hfound => .pure fun _ _ => ⟨?_, ?_, ?_, ?_, ?_, ?_⟩
    all_goals
      refine hfound.sorted.filterMap fun d _ hd => ?_
      cases d <;> cases hd
      exact ⟨fun _ => id, id⟩
  obtain ⟨rest, heq⟩ := Dialect.build_ok_iff.1 h
  exact hschema _ _ _ htokens (Nat.zero_le _) heq

/-! ### Comments -/

section Comments

open Layout

theorem OptionDecl.inOrder_undocumented_iff (options : List OptionDecl) :
    option.InOrder (options.map (·.relabel .undocumented)) ↔ option.InOrder options :=
  inOrder_map_iff (fun _ _ => Iff.rfl) fun _ => Iff.rfl

theorem EnumDef.inOrder_undocumented_iff (enums : List EnumDef) :
    enum.InOrder (enums.map (·.relabel .undocumented)) ↔ enum.InOrder enums := by
  refine inOrder_map_iff (fun _ _ => Iff.rfl) fun e =>
    and_congr ?_ (OptionDecl.inOrder_undocumented_iff _)
  rw [EnumDef.relabel, map_map]
  exact Iff.rfl

theorem Message.nameSpans_undocumented (m : Message) :
    (m.relabel .undocumented).nameSpans = m.nameSpans := by
  rw [relabel_eq, nameSpans, map_map]
  rfl

theorem Message.holds_undocumented_iff (m : Message) (s : Span) :
    (m.relabel .undocumented).Holds s ↔ m.Holds s := by
  simp only [Holds, descend_relabel, Option.map_eq_some_iff]
  constructor
  · rintro ⟨path, _, ⟨sub, hsub, rfl⟩, hs⟩
    exact ⟨path, sub, hsub, sub.nameSpans_undocumented ▸ hs⟩
  · rintro ⟨path, sub, hsub, hs⟩
    exact ⟨path, _, ⟨sub, hsub, rfl⟩, sub.nameSpans_undocumented.symm ▸ hs⟩

theorem Message.level_undocumented_iff (m : Message) :
    (m.relabel .undocumented).Level ↔ m.Level := by
  have hfields : field.InOrder (m.fields.map (·.relabel .undocumented)) ↔ field.InOrder m.fields :=
    inOrder_map_iff (fun _ _ => Iff.rfl) fun _ => OptionDecl.inOrder_undocumented_iff _
  rw [relabel_eq, level_iff, level_iff]
  simp only [hfields, EnumDef.inOrder_undocumented_iff, OptionDecl.inOrder_undocumented_iff,
    pairwise_map, forall_mem_map, Layout.Before, Layout.places, holds_undocumented_iff]
  exact Iff.rfl

theorem Schema.inOrder_undocumented_iff (schema : Schema) :
    (schema.relabel .undocumented).InOrder ↔ schema.InOrder := by
  have himport (item : Import) (s : Span) :
      import_.At (item.relabel .undocumented) s ↔ import_.At item s := by
    simp [import_, places, Import.relabel, Located.relabel_undocumented]
  have hmethod (m : Method) (s : Span) :
      method.At (m.relabel .undocumented) s ↔ method.At m s := by
    simp [method, Layout.id, places, Method.relabel, Located.relabel_undocumented]
  have hproject (project : Project) :
      Layout.project.Sorted (project.relabel .undocumented) ↔ Layout.project.Sorted project := by
    simp only [Layout.project, Project.relabel, forall_mem_map, ProjectArea.relabel,
      OptionDecl.inOrder_undocumented_iff]
  rw [inOrder_iff, inOrder_iff]
  refine and_congr (inOrder_map_iff himport fun _ => Iff.rfl) <| and_congr
    (OptionDecl.inOrder_undocumented_iff _) <| and_congr (EnumDef.inOrder_undocumented_iff _) <|
    and_congr (inOrder_map_iff Message.holds_undocumented_iff
      (Message.forall_descend_relabel_iff _ Message.level_undocumented_iff)) <| and_congr
    (inOrder_map_iff (fun _ _ => Iff.rfl) fun service => ?_)
    (inOrder_map_iff (fun _ _ => Iff.rfl) hproject)
  exact and_congr (inOrder_map_iff hmethod fun m => OptionDecl.inOrder_undocumented_iff _)
    (OptionDecl.inOrder_undocumented_iff _)

end Comments

/-- What is read from a text of the native notation is in order. -/
theorem Native.inOrder_of_parse
    {source : String} (h : Dialect.native.parse config source = .ok schema) : schema.InOrder := by
  obtain ⟨tokens, built, docs, htokens, hbuild, rfl⟩ := Dialect.exists_of_parse h
  obtain ⟨stop, hascending⟩ := Lexer.exists_ascending htokens
  exact (Schema.withDocs_iff Schema.inOrder_undocumented_iff built docs).2
    (inOrder_of_build hascending hbuild)

end Idl
