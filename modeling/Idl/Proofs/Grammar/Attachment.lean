import Idl.Proofs.Grammar.Locations
import Idl.Proofs.Schema.Distribution
import Idl.Proofs.Token.Tiling

/-!
# Comments attached in place

In a schema that was read from a text, every declaration has the comments that it takes when the
declarations are served in the order of their names.  A name is one token, so a comment that starts
behind the start of a name starts behind the name.  Only the key of an option in the protobuf
notation can be in parentheses, and there a comment can stand between the parentheses.
-/

namespace Idl

open Idl.Parser List

variable {source : String} {tokens : List (Located Token)} {config : ParseConfig}
  {dialect : Dialect}
  {schema : Schema} {place : Span}

/-! ## Places of names -/

/-- The place of a token, or in the protobuf notation that of a name in parentheses. -/
inductive Dialect.IsPlace (tokens : List (Located Token)) : Dialect → Span → Prop
  | token {dialect : Dialect} {t : Located Token} (mem : t ∈ tokens) : IsPlace tokens dialect t.span
  | parenthesized {opening closing : Span} {name : Located Token}
    (stands : [⟨.punct .leftParen, opening⟩, name, ⟨.punct .rightParen, closing⟩] <:+: tokens) :
    IsPlace tokens .protobuf (opening.union closing)

/-- The offset is behind the name at the place, or, if the name is in parentheses, behind the
opening one. -/
inductive Dialect.Behind (tokens : List (Located Token)) (offset : Nat) : Dialect → Span → Prop
  | name {dialect : Dialect} {place : Span} (le : place.stop ≤ offset) :
    Behind tokens offset dialect place
  | opening {opening closing : Span} {name : Located Token}
    (stands : [⟨.punct .leftParen, opening⟩, name, ⟨.punct .rightParen, closing⟩] <:+: tokens)
    (le : opening.stop ≤ offset) : Behind tokens offset .protobuf (opening.union closing)

/-- What starts behind the start of a token starts behind the token. -/
theorem Lexer.stop_le_of_start_lt
    {t u : Located Token} (h : tokenize source.toList = .ok tokens) (ht : t ∈ tokens)
    (hu : u ∈ tokens)
    (hlt : t.span.start < u.span.start) : t.span.stop ≤ u.span.start := by
  have hpairwise := pairwise_map.1 (tile_of_tokenize h).pairwise
  obtain ⟨i, hi, rfl⟩ := mem_iff_getElem.1 ht
  obtain ⟨j, hj, rfl⟩ := mem_iff_getElem.1 hu
  rcases Nat.lt_trichotomy i j with hij | rfl | hij
  · exact (pairwise_iff_getElem.1 hpairwise i j hi hj hij).2
  · exact absurd hlt (Nat.lt_irrefl _)
  · have hback := pairwise_iff_getElem.1 hpairwise j i hj hi hij
    omega

theorem Dialect.IsPlace.behind
    (h : dialect.IsPlace (significant tokens) place)
    (htokens : Lexer.tokenize source.toList = .ok tokens) {c : Comment} (hc : c.IsOf source)
    (hlt : place.start < c.start) : dialect.Behind (significant tokens) c.start place := by
  obtain ⟨tokens', span, htokens', hspan, hstart⟩ := hc.token
  cases htokens.symm.trans htokens'
  rw [← hstart] at hlt ⊢
  cases h with
  | token hmem => exact .name (Lexer.stop_le_of_start_lt htokens (mem_filter.1 hmem).1 hspan hlt)
  | @parenthesized opening closing name hstands =>
    have hpairwise := pairwise_map.1 (Lexer.tile_of_tokenize htokens).pairwise
    have horder := hpairwise.sublist (hstands.sublist.trans filter_sublist)
    simp only [pairwise_cons, mem_cons, forall_eq_or_imp] at horder
    have hopening : (⟨.punct .leftParen, opening⟩ : Located Token) ∈ tokens :=
      (mem_filter.1 (hstands.subset mem_cons_self)).1
    have hunion : (opening.union closing).start = opening.start := by
      have hle := horder.1.2.1
      exact Nat.min_eq_left (by omega)
    rw [hunion] at hlt
    exact .opening hstands (Lexer.stop_le_of_start_lt htokens hopening hspan hlt)

/-! ## Names of a schema -/

/-- What is known of the parts of a schema if all their names have known places. -/
def Facts.placed (P : Span → Prop) : Facts where
  name name := P name.span
  option o := P o.key.span
  field f := ∀ entry ∈ f.documented, P entry.1
  service s := ∀ entry ∈ s.documented, P entry.1
  project p := ∀ entry ∈ p.documented, P entry.1
  file name := P name.span

section Follows

variable {P : Span → Prop}

theorem forall_mem_documented {options : List OptionDecl} :
    (∀ entry ∈ options.flatMap (·.documented), P entry.1) ↔ ∀ o ∈ options, P o.key.span := by
  simp only [forall_mem_flatMap, OptionDecl.documented, forall_mem_singleton]

theorem EnumDef.Follows.documented {enum : EnumDef} (h : enum.Follows (.placed P)) :
    ∀ entry ∈ enum.documented, P entry.1 := by
  refine forall_mem_cons.2 ⟨h.name, forall_mem_append.2 ⟨?_, forall_mem_documented.2 h.options⟩⟩
  exact forall_mem_flatMap.2 fun value hvalue =>
    forall_mem_singleton.2 (h.values value hvalue).1

theorem Message.documented_of_follows
    {m : Message} (h : ∀ path sub, m.descend path = some sub → sub.Follows (.placed P)) :
    ∀ entry ∈ m.documented, P entry.1 := by
  induction m using induction_nested with
  | h m ih =>
    obtain ⟨hm, hnested⟩ := Message.forall_descend_iff.1 h
    obtain ⟨name, doc, fields, messages, enums, options⟩ := m
    rw [Message.documented, allDocumented_eq_flatMap]
    simp only [forall_mem_cons, forall_mem_append]
    refine ⟨hm.name, forall_mem_flatMap.2 hm.fields, forall_mem_documented.2 hm.options, ?_, ?_⟩
    · exact forall_mem_flatMap.2 fun enum henum => (hm.enums enum henum).documented
    · exact forall_mem_flatMap.2 fun sub hsub => ih sub hsub (hnested sub hsub)

theorem Schema.Follows.documented (h : schema.Follows (.placed P)) :
    ∀ entry ∈ schema.documented, P entry.1 := by
  rw [Schema.documented, Message.allDocumented_eq_flatMap]
  simp only [forall_mem_cons, forall_mem_append]
  refine ⟨h.package, ?_, forall_mem_documented.2 h.options, ?_, ?_, forall_mem_flatMap.2 h.services,
    forall_mem_flatMap.2 h.projects⟩
  · exact forall_mem_flatMap.2 fun item hitem =>
      forall_mem_singleton.2 (h.imports item hitem).file
  · exact forall_mem_flatMap.2 fun enum henum => (h.enums enum henum).documented
  · exact forall_mem_flatMap.2 fun m hm => Message.documented_of_follows (h.messages m hm)

end Follows

section Productions

variable {P : Span → Prop} {source : List (Located Token)} (htoken : ∀ t ∈ source, P t.span)

include htoken

theorem Parser.Within.textLiteral : Parser.textLiteral.Within source fun text => P text.span := by
  intro tokens text rest htokens h
  obtain ⟨t, rfl, -⟩ := token_ok_iff.1 h
  exact htoken _ (htokens.subset mem_cons_self)

theorem Native.ensures_placed (config : ParseConfig) :
    Dialect.native.Ensures config source (.placed P) := by
  have h : Dialect.native.Ensures config source
      (.inPlace (fun name => P name.span) fun _ => True) :=
    ensures_inPlace (fun name hname => htoken _ hname) (fun _ _ => trivial) config
  refine ⟨h.name, h.option, Within.mono h.field fun f hf => ?_, Within.mono h.service fun s hs =>
    ?_, Within.mono h.project fun p hp => ?_, .textLiteral htoken, .any _⟩
  · have hnames := hf.1
    simp only [Field.names, cons_append, forall_mem_cons, forall_mem_append,
      forall_mem_map] at hnames
    exact forall_mem_cons.2 ⟨hnames.1, forall_mem_documented.2 hnames.2.2⟩
  · have hnames := hs.1
    simp only [Service.names, Method.names, cons_append, forall_mem_cons, forall_mem_append,
      forall_mem_map, forall_mem_flatMap] at hnames
    refine forall_mem_cons.2 ⟨hnames.1, forall_mem_append.2 ⟨forall_mem_documented.2 hnames.2.2,
      forall_mem_flatMap.2 fun method hmethod => ?_⟩⟩
    have hmethod := hnames.2.1 method hmethod
    exact forall_mem_cons.2 ⟨hmethod.1, forall_mem_documented.2 hmethod.2.2⟩
  · have hnames := hp
    simp only [Facts.inPlace, Project.names, ProjectArea.names, forall_mem_cons, forall_mem_append,
      forall_mem_map, forall_mem_flatMap] at hnames
    exact forall_mem_cons.2 ⟨hnames.1, forall_mem_flatMap.2 fun area harea =>
      forall_mem_documented.2 (hnames.2 area harea).2⟩

namespace Protobuf

theorem within_name : identifier.Within source fun name => P name.span :=
  .mono .identifier fun _ hname => htoken _ hname

variable (hkey : ∀ opening name closing,
  [⟨.punct .leftParen, opening⟩, name, ⟨.punct .rightParen, closing⟩] <:+: source →
    P (opening.union closing))

include hkey

theorem within_optionName : optionName.Within source fun name => P name.span := by
  intro tokens name rest htokens h
  obtain ⟨found, between, hfound, hread⟩ := bind_ok_iff.1 h
  rcases punct?_cases hfound with ⟨opening, rfl, rfl⟩ | ⟨rfl, -, rfl⟩
  · obtain ⟨key, inner, hname, hend⟩ := bind_ok_iff.1 hread
    obtain rfl := identifier_ok_iff.1 hname
    obtain ⟨closing, left, hclosing, hpure⟩ := bind_ok_iff.1 hend
    obtain rfl := punct_ok_iff.1 hclosing
    obtain ⟨rfl, rfl⟩ := pure_ok_iff.1 hpure
    exact hkey opening _ closing ((prefix_append _ left).isInfix.trans htokens.isInfix)
  · exact within_name htoken _ name rest htokens hread

theorem within_option : option.Within source fun o => P o.key.span := by
  refine .after fun _ => .commit ((within_optionName htoken hkey).bind fun key hkey => ?_)
  refine .after fun _ => .after fun value => .after fun _ => .pure ?_
  dsimp only [OptionDecl.plain]
  split
  · exact hkey
  · exact hkey

theorem within_fieldOption : fieldOption.Within source fun o => P o.key.span :=
  (within_optionName htoken hkey).bind fun _ hkey => .after fun _ => .after fun _ => .pure hkey

theorem within_fieldOptions :
    fieldOptions.Within source fun found => ∀ o ∈ found, P o.key.span := by
  refine .after fun _ => (within_fieldOption htoken hkey).bind fun first hfirst => ?_
  refine Within.bind (.collect (P := fun o : OptionDecl => P o.key.span) ?_) fun more hmore =>
    .after fun _ => .pure (forall_mem_cons.2 ⟨hfirst, hmore⟩)
  refine .after fun comma => ?_
  split
  · exact (within_fieldOption htoken hkey).bind fun o ho =>
      .pure fun _ heq => by cases heq; exact ho
  · exact .pure fun _ heq => by cases heq

theorem within_fieldPlaces : field.Within source fun f => ∀ entry ∈ f.documented, P entry.1 := by
  have htag : fieldTag.Within source fun tag => P tag.span := fun tokens tag rest htokens h =>
    htoken _ (htokens.subset ((fieldTag_ok_iff.1 h).1 ▸ mem_cons_self))
  refine .after fun repeated => .after fun found => .commit ?_
  refine (within_name htoken).bind fun name hname => .after fun _ => htag.bind fun tag htag => ?_
  refine .after fun bracket => .join (within_fieldOptions htoken hkey) (.pure (forall_mem_nil _))
    fun written hwritten => .after fun _ => .pure ?_
  refine forall_mem_cons.2 ⟨hname, forall_mem_documented.2 (forall_mem_append.2 ⟨?_, hwritten⟩)⟩
  exact forall_mem_map.2 fun _ _ => htag

omit hkey in
theorem within_syntaxVersion? :
    syntaxVersion?.Within source fun found => ∀ o, found = some o → P o.key.span := by
  have hword : (word "syntax").Within source P := fun tokens span rest htokens h =>
    htoken ⟨_, span⟩ (htokens.subset (word_ok_iff.1 h ▸ mem_cons_self))
  refine .after fun found => ?_
  split
  · refine hword.bind fun span hspan => .commit (.after fun _ => .after fun version => ?_)
    have hend : ∀ number : Int64, Within source (do
        terminator
        return some (OptionDecl.plain ⟨"proto.syntax", span⟩ (some (.int number))))
        fun found => ∀ o, found = some o → P o.key.span :=
      fun number => .after fun _ => .pure fun _ heq => by cases heq; exact hspan
    dsimp only
    split
    · exact .after hend
    · split
      · exact .after hend
      · exact .refuse_bind _ _
  · exact .pure fun _ heq => by cases heq

theorem within_rpcPlaces (config : ParseConfig) :
    (rpc config).Within source fun method => ∀ entry ∈ method.documented, P entry.1 := by
  refine .after fun _ => .commit ((within_name htoken).bind fun name hname => ?_)
  refine .after fun _ => .after fun request => .after fun _ => .after fun _ => .after fun _ =>
    .after fun reply => .after fun _ => .after fun equals => .of_join fun id => ?_
  refine .after fun brace => .join (.block (within_option htoken hkey)) (.pure (forall_mem_nil _))
    fun options hoptions => .after fun _ => .pure ?_
  exact forall_mem_cons.2 ⟨hname, forall_mem_documented.2 hoptions⟩

theorem ensures_placed (config : ParseConfig) :
    Dialect.protobuf.Ensures config source (.placed P) := by
  have hoption := within_option htoken hkey
  have hservice : (service config).Within source (·.Follows (.placed P) fun method =>
      ∀ entry ∈ method.documented, P entry.1) :=
    within_service (within_name htoken) hoption (within_rpcPlaces htoken hkey config) fun _ _ h => h
  refine ⟨within_name htoken, ⟨hoption, within_syntaxVersion? htoken⟩,
    within_fieldPlaces htoken hkey, hservice.mono fun s h => ?_, trivial, .textLiteral htoken,
      .any _⟩
  exact forall_mem_cons.2 ⟨h.name, forall_mem_append.2 ⟨forall_mem_documented.2 h.options,
    forall_mem_flatMap.2 h.methods⟩⟩

end Protobuf

end Productions

/-! ## Texts -/

theorem Dialect.isPlace_of_build
    (h : dialect.build config tokens = .ok schema) :
    ∀ entry ∈ schema.documented, dialect.IsPlace (significant tokens) entry.1 := by
  refine Schema.Follows.documented (Dialect.follows_of_build h ?_)
  cases dialect with
  | native => exact Native.ensures_placed (fun t ht => .token ht) config
  | protobuf =>
    exact Protobuf.ensures_placed (fun t ht => .token ht)
      (fun opening name closing hstands => .parenthesized hstands) config

/-- The declarations of the schema have the comments of the text.  They take them in the order of
their starts and, where these are the same, in the order of the schema; and a tail starts behind the
name of its declaration, or at least behind the parenthesis that is opened before the name. -/
def Schema.Commented (dialect : Dialect) (source : String) (schema : Schema) : Prop :=
  ∃ (tokens : List (Located Token)) (attached : List (Span × Taken)),
    Lexer.tokenize source.toList = .ok tokens ∧
    schema.documented = attached.map (fun node => (node.1, node.2.doc)) ∧
    Attached (fun offset => LineIndex.lineFeedsBelow source offset + 1) (·.IsOf source)
      (attached.mergeSort fun a b => a.1.startsFirst b.1) ∧
    ∀ node ∈ attached, ∀ c, node.2.tail = some c →
      dialect.Behind (significant tokens) c.start node.1

/-- Whatever is read from a text, the comments of the text are attached to it once and in place. -/
theorem Dialect.commented_of_parse (h : dialect.parse config source = .ok schema) :
    schema.Commented dialect source := by
  simp only [Dialect.parse, bind_eq_ok_iff, mapError_eq_ok_iff, pure_eq_ok_iff] at h
  obtain ⟨tokens, htokens, built, hbuild, rfl⟩ := h
  have hattached := built.attached_attachedIn htokens
  refine ⟨tokens, built.attachedIn source tokens, htokens, built.documented_attachComments _ _,
    hattached, fun node hnode c hc => ?_⟩
  have hserved : node ∈ (built.attachedIn source tokens).mergeSort fun a b =>
      a.1.startsFirst b.1 := (mergeSort_perm _ _).mem_iff.2 hnode
  have hcomment := hattached.comment node hserved c (mem_append_right _ (Option.mem_toList.2 hc))
  obtain ⟨-, -, hlt⟩ := hattached.tail node hserved c hc
  have hplaces := built.map_fst_attachedIn source tokens
  obtain ⟨entry, hentry, hplace⟩ := mem_map.1 (hplaces ▸ mem_map_of_mem hnode)
  have hisPlace := Dialect.isPlace_of_build hbuild entry hentry
  rw [hplace] at hisPlace
  exact hisPlace.behind htokens hcomment hlt

/-- A message and an enum on one line before a comment, where the enum is listed first, and an
option that is put in at the place of a tag. -/
def sharedText : String :=
  "// one\n// two\npackage p; // three\n" ++
  "// four\nmessage m { sint32 f = 1; } enum e { a = 1; } // five"

theorem Dialect.commented_of_parse_shared :
    ∃ schema, Dialect.protobuf.parse ⟨false⟩ sharedText = .ok schema ∧
      schema.documented.map (·.1.start) = [22, 75, 79, 50, 61, 65] ∧
      schema.Commented .protobuf sharedText := by
  obtain ⟨schema, hparse, hplaces⟩ := exists_eq_ok_of_any
    (r := Dialect.protobuf.parse ⟨false⟩ sharedText)
    (P := fun schema => schema.documented.map (·.1.start) = [22, 75, 79, 50, 61, 65])
    (by decide +kernel)
  exact ⟨schema, hparse, hplaces, commented_of_parse hparse⟩

/-- A comment between the parentheses of a key. -/
def parenthesizedText : String := "package p;\noption ( // c\n  foo) = 1;"

/-- The only comment of the text is the tail of a key that ends behind the start of the comment. -/
theorem Protobuf.tail_in_parentheses :
    ∃ schema, Dialect.protobuf.parse ⟨false⟩ parenthesizedText = .ok schema ∧
      ∃ entry ∈ schema.documented, entry.2.tail = some "// c" ∧
        ∀ c : Comment, c.IsOf parenthesizedText → c.start < entry.1.stop := by
  obtain ⟨tokens, htokens, hbuilds, hcomments⟩ := exists_eq_ok_of_any
    (r := Lexer.tokenize parenthesizedText.toList)
    (P := fun tokens => ((Dialect.protobuf.build ⟨false⟩ tokens).toOption.any fun built =>
        decide (built.documented.map (·.1) = [.between 8 9, .between 18 31])) = true ∧
      Comment.collect (.ofText parenthesizedText) false tokens = [⟨20, 2, "// c", false⟩])
    (by decide +kernel)
  obtain ⟨built, hbuild, hplaces⟩ := exists_eq_ok_of_any hbuilds
  refine ⟨built.attachComments parenthesizedText tokens, ?_, ?_⟩
  · simp only [Dialect.parse, bind_eq_ok_iff, mapError_eq_ok_iff, pure_eq_ok_iff]
    exact ⟨tokens, htokens, built, hbuild, rfl⟩
  · refine ⟨(.between 18 31, ⟨[], some "// c"⟩), ?_, rfl, fun c hc => ?_⟩
    · rw [Schema.documented_attachComments, Schema.attachedIn, hplaces, hcomments,
        Comment.attachedAt_eq_serve _ _ (by decide)]
      decide +kernel
    · rw [← Comment.mem_collect_iff htokens, hcomments, mem_singleton] at hc
      rw [hc]
      decide

end Idl
