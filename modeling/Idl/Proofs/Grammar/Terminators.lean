import Idl.Proofs.Grammar.Tolerance

/-!
# Optional terminators

Terminators of the native notation may be left out, as long as no joint is new: the main statement.
Each production reads the same when terminators are missing.
-/

namespace Idl.Native

open Idl.Parser List

variable {tokens' : List (Located Token)} {nested : PlainParser Message}
variable {α β : Type} {n m : Nat} {inside solid : Bool} {F : List (Located Token) → Prop}
  {tokens rest : List (Located Token)} {before : List Token} {nested' : PlainParser Message}
  {make : List OptionDecl → α}

/-! ## The end of a statement -/

/-- A terminator does not matter for what follows. -/
theorem following_of_end
    {a b : α} (h : (do terminator; return a : PlainParser α) tokens = .ok (b, rest)) :
    following tokens = following rest := by
  obtain ⟨_, _, hend, h⟩ := bind_ok_iff.1 h
  obtain ⟨-, rfl⟩ := pure_ok_iff.1 h
  rw [Tolerates.terminator_eq] at hend
  cases hend
  cases tokens with
  | nil => rfl
  | cons t tokens =>
    rw [Tolerates.passed]
    split
    next ht =>
      obtain ⟨_, span⟩ := t
      obtain rfl := ht
      rw [following, statementStart_terminator]
      rfl
    next => rfl

theorem tolerates_end (a : α) :
    Tolerant n m inside false F (do terminator; return a) :=
  .andThen .terminator fun _ => .pure a

/-! ## Options -/

theorem tolerates_declaredName (what : String) :
    Tolerant n m inside solid F (declaredName what) :=
  .andThen .identifier fun _ => .ite (.pure _) (.refuse _)

theorem tolerates_optionKey : Tolerant n m inside solid F optionKey :=
  .andThen .identifier fun _ => .ite (.pure _) (.refuse _)

theorem tolerates_option : Tolerant n m inside solid Ends option := by
  refine .andThen tolerates_optionKey fun key => ?_
  refine .punct? (by decide) (fun span => ?_) (tolerates_end _) fun h hends => ?_
  · exact .andThen (Tolerates.optionValue.commit.map _) fun value => tolerates_end _
  · rw [following_of_end h]
    exact hends _ (by decide)

theorem tolerates_optionBlock : Tolerant n m inside false F optionBlock :=
  .enclosed (tolerates_statements skips_nothing tolerates_option)

theorem tolerates_optionBlock? :
    Tolerant n m inside false (following · ≠ some (.punct .leftBrace)) optionBlock? :=
  .ifPunct (by decide) tolerates_optionBlock (.pure []) fun h hF => (pure_ok_iff.1 h).2 ▸ hF

theorem tolerates_optionsEnd :
    Tolerant n m inside false Ends
      (do
        let options ← optionBlock?
        terminator
        return make options) := by
  refine .bind tolerates_optionBlock? (fun options => tolerates_end _) ?_
  intro options between b rest h hends
  rw [following_of_end h]
  exact hends _ (by decide)

theorem following_of_optionsEnd
    {b : α} (h : (do
      let options ← optionBlock?
      terminator
      return make options : PlainParser α) tokens = .ok (b, rest)) (hends : Ends rest) :
    following tokens ≠ some (.punct .equals) := by
  obtain ⟨options, between, hoptions, h⟩ := bind_ok_iff.1 h
  obtain ⟨_, _, hopen, hoptions⟩ := bind_ok_iff.1 hoptions
  obtain ⟨rfl, rfl⟩ := atPunct_ok_iff.1 hopen
  split at hoptions
  next hopen =>
    rw [following_of_head (by decide) (beq_iff_eq.1 hopen)]
    nofun
  next =>
    obtain ⟨-, rfl⟩ := pure_ok_iff.1 hoptions
    rw [following_of_end h]
    exact hends _ (by decide)

/-! ## Declarations without bodies -/

theorem tolerates_package : Tolerant n m inside false F package := by
  refine .atWord fun found => ?_
  dsimp only
  split
  · refine .andThen (.discard (.word _)) fun _ => ?_
    exact .andThen (tolerates_declaredName _).commit fun name => tolerates_end name
  · exact .refuse_at _

theorem tolerates_importFile : Tolerant n m inside solid F importFile := by
  refine .andThen (.discard (.word _)) fun _ => .commit (.peek? fun next => ?_)
  dsimp only
  split
  · refine .andThen (.map (tolerates_declaredName _) _) fun localName => ?_
    exact .andThen .textLiteral fun file => tolerates_end _
  · rw [pure_bind]
    exact .andThen .textLiteral fun file => tolerates_end _

/-! ## Enums -/

theorem tolerates_enumValue : Tolerant n m inside solid Ends enumValue := by
  refine .andThen (tolerates_declaredName _) fun name => ?_
  refine .punct? (by decide) (fun span => .peek? fun next => ?_) (tolerates_end _)
    fun h hends => ?_
  · dsimp only
    split
    · exact .refuse_at _
    · exact .andThen .integer fun number => tolerates_end _
  · rw [following_of_end h]
    exact hends _ (by decide)

theorem tolerates_enumStatement : Tolerant n m inside solid Ends enumStatement := by
  refine .peek? fun next => ?_
  split
  · exact .ite (tolerates_option.map _) tolerates_enumValue
  · exact tolerates_enumValue

theorem tolerates_declaration_of_body
    {body : PlainParser (List β)} (h : Tolerant n m inside false (fun _ => True) body)
    (keyword what : String) (make : Located String → List β → α) :
    Tolerant n m inside solid F
      (do
        discard (word keyword)
        commit do
          let name ← declaredName what
          let found ← body
          terminator
          return make name found) := by
  refine .andThen (.discard (.word _)) fun _ => .commit ?_
  refine .andThen (tolerates_declaredName _) fun name => ?_
  exact h.andThen fun found => tolerates_end _

theorem tolerates_enum : Tolerant n m inside solid F enum :=
  tolerates_declaration_of_body (.block tolerates_enumStatement) _ _ _

/-! ## Fields -/

theorem tolerates_elemType : Tolerant n m inside solid F elemType := by
  refine .atPunct fun bracket => ?_
  split
  · refine .andThen (.punct (by decide) fun _ => by decide) fun first => ?_
    refine .andThen (.mark (by decide)) fun _ => ?_
    exact .andThen (.word _) fun _ => .pure _
  · refine .andThen .identifier fun name => ?_
    split
    · exact .pure _
    · exact .ite (.pure _) (.refuse _)

theorem tolerates_mapType :
    Tolerant n m inside solid F (mapType elemType) := by
  refine .andThen (.discard (.word _)) fun _ => .commit ?_
  refine .andThen (.mark (by decide)) fun _ => ?_
  refine .andThen tolerates_elemType fun key => ?_
  refine .andThen (.mark (by decide)) fun _ => ?_
  refine .atWord fun isMap => .atWord fun isList => ?_
  extract_lets next
  have hnext : Tolerant n m inside true F (next ()) := by
    refine .andThen tolerates_elemType fun value => ?_
    refine .andThen (.mark (by decide)) fun _ => ?_
    split
    · exact .ite (.pure _) (.refuse _)
    · exact .refuse _
  exact .ite (.refuse_at _) hnext

theorem tolerates_fieldType : Tolerant n m inside solid F fieldType := by
  refine .atWord fun isMap => ?_
  split
  · exact .andThen tolerates_mapType fun _ => .pure _
  · refine .atWord fun isList => ?_
    split
    · refine .andThen (.discard (.word _)) fun _ => .atWord fun isList' => .atWord fun isMap' => ?_
      extract_lets next
      have hnext : Tolerant n m inside true F (next ()) :=
        .andThen tolerates_elemType.commit fun _ => .pure _
      exact .ite (.refuse_at _) hnext
    · exact .andThen tolerates_elemType fun _ => .pure _

theorem tolerates_field : Tolerant n m inside solid Ends field := by
  refine .andThen tolerates_fieldType fun type => .commit ?_
  refine .andThen .identifier fun name => ?_
  refine .andThen (.mark (by decide)) fun _ => ?_
  exact .andThen .fieldTag fun tag => tolerates_optionsEnd

/-! ## Services -/

theorem tolerates_methodMessage (fieldName role : String) :
    Tolerant n m inside solid F (methodMessage fieldName role) := by
  refine .andThen tolerates_elemType fun elem => ?_
  split
  · exact .refuse _
  · exact .ite (.pure _) (.pure _)

theorem tolerates_method (config : ParseConfig) :
    Tolerant n m inside solid Ends (method config) := by
  refine .andThen (tolerates_declaredName _) fun name => .commit ?_
  refine .andThen (.mark (by decide)) fun _ => .atPunct fun closed => ?_
  extract_lets next
  have hnext (solid : Bool) (request : Option MethodMessage) :
      Tolerant n m inside solid Ends (next request) := by
    refine .andThen (.discard (.punct (by decide) fun _ => by decide)) fun _ => ?_
    refine .andThen (tolerates_methodMessage _ _) fun reply => ?_
    refine .punct? (by decide) (fun span => ?_) tolerates_optionsEnd following_of_optionsEnd
    exact .andThen (Tolerates.integer.map _) fun id => tolerates_optionsEnd
  split
  · exact hnext true none
  · exact .andThen (tolerates_methodMessage _ _) (hnext false)

/-- An option does not look like what only a mark behind its name tells apart from it. -/
theorem take_ne_of_option
    {found : OptionDecl} (hspared : Spared before tokens tokens')
    (h : option tokens = .ok (found, rest)) (hends : Ends rest) {mark : Punct}
    (hmark : Token.punct mark ∈ continuing) (hequals : mark ≠ .equals) (name : String) :
    (tokens'.take 2).map (·.value) ≠ [.identifier name, .punct mark] := by
  obtain ⟨key, between, hkey, hvalue⟩ := bind_ok_iff.1 h
  obtain ⟨rfl, -⟩ := optionKey_ok_iff.1 hkey
  obtain ⟨more, rfl, hrest, -⟩ := hspared.of_cons nofun
  -- behind the key stands the value, or the statement ends
  have hfollowing : following between ≠ some (.punct mark) := by
    rw [Tolerates.punct?_bind_eq] at hvalue
    obtain ⟨_, _, hat, hend⟩ := bind_ok_iff.1 hvalue
    obtain ⟨rfl, rfl⟩ := atPunct_ok_iff.1 hat
    split at hend
    next hat =>
      rw [following_of_head (by decide) (beq_iff_eq.1 hat)]
      simpa using hequals.symm
    next =>
      rw [following_of_end hend]
      exact hends _ hmark
  intro htake
  cases more with
  | nil => cases (List.cons.inj htake).2
  | cons u more =>
    refine hfollowing (hrest.following_eq ▸ following_of_head ?_ ?_)
    · rintro rfl
      exact absurd hmark (by decide)
    · exact congrArg some (List.cons.inj (List.cons.inj htake).2).1

theorem tolerates_serviceStatement (config : ParseConfig) :
    Tolerant n m inside solid Ends (serviceStatement config) := by
  refine .peekMany (fun next => ?_) fun {before tokens tokens' found rest} hbeside h hends => ?_
  · split
    · refine .andThen .identifier fun flag => .andThen ?_ fun mode => ?_
      · exact .ite (.pure _) (.ite (.pure _) (.refuse _))
      · exact .andThen (.mark (by decide)) fun _ => .pure _
    · exact (tolerates_method config).map _
    · exact tolerates_option.map _
  · generalize htake : (tokens.take 2).map (·.value) = next at h ⊢
    split at h
    next name => rw [hbeside.spared.take_eq htake (by simp) rfl]
    next name => rw [hbeside.spared.take_eq htake (by simp) rfl]
    next =>
      obtain ⟨o, ho, -⟩ := map_ok_iff.1 h
      have hne := @take_ne_of_option _ _ _ _ _ hbeside.spared ho hends
      generalize htake' : (tokens'.take 2).map (·.value) = next'
      split
      next name => exact absurd htake' (hne (by decide) (by decide) _)
      next name => exact absurd htake' (hne (by decide) (by decide) _)
      next => rfl

theorem tolerates_service (config : ParseConfig) :
    Tolerant n m inside solid F (service config) :=
  tolerates_declaration_of_body (.block (tolerates_serviceStatement config)) _ _ _

/-! ## Projects -/

theorem tolerates_projectStatement :
    Tolerant n m inside solid Ends projectStatement := by
  refine .peekMany (fun next => ?_) fun {before tokens tokens' found rest} hbeside h hends => ?_
  · split
    · refine .andThen (tolerates_declaredName _) fun name => ?_
      exact .andThen (.mark (by decide)) fun _ => .pure _
    · exact tolerates_option.map _
  · generalize htake : (tokens.take 2).map (·.value) = next at h ⊢
    split at h
    next name => rw [hbeside.spared.take_eq htake (by simp) rfl]
    next =>
      obtain ⟨o, ho, -⟩ := map_ok_iff.1 h
      generalize htake' : (tokens'.take 2).map (·.value) = next'
      split
      next name =>
        exact absurd htake' (take_ne_of_option hbeside.spared ho hends (by decide) (by decide) _)
      next => rfl

theorem tolerates_project : Tolerant n m inside solid F project :=
  tolerates_declaration_of_body (.block tolerates_projectStatement) _ _ _

/-! ## Messages -/

theorem isJoint_take (tokens : List Token) : isJoint (tokens.take 3) = isJoint tokens := by
  rcases tokens with _ | ⟨first, _ | ⟨second, _ | ⟨third, more⟩⟩⟩
  · rfl
  · rfl
  · rfl
  · rw [Bool.eq_iff_iff, isJoint_iff, isJoint_iff]
    simp

theorem MessageItem.ofTokens_dotted
    {key : String} (hdot : key.toList.contains '.') (tail : List Token) :
    ofTokens ((.identifier key :: tail).take 3) =
      if isJoint (.identifier key :: tail) then .field else .option := by
  have hword {word : String} (hword : '.' ∉ word.toList) : key ≠ word := by
    rintro rfl
    exact hword (by simpa using hdot)
  have hmessage : key ≠ "message" := hword (by decide)
  have henum : key ≠ "enum" := hword (by decide)
  have hrepeated : key ≠ "repeated" := hword (by decide)
  have hmap : key ≠ "map" := hword (by decide)
  rw [← isJoint_take, take_succ_cons]
  unfold ofTokens isJoint
  split <;> simp_all

/-- What a statement of a message body is shows in tokens without terminators; only an option could
look like something else, and does not without a new joint. -/
theorem MessageItem.ofTokens_of_spared
    (hinside : inMessage 0 before) (hspared : Spared before tokens tokens')
    (hoption : ofTokens ((tokens.take 3).map (·.value)) = .option →
      ∃ key span more, tokens = ⟨.identifier key, span⟩ :: more ∧ key.toList.contains '.') :
    ofTokens ((tokens'.take 3).map (·.value)) = ofTokens ((tokens.take 3).map (·.value)) := by
  generalize htake : (tokens.take 3).map (·.value) = next at hoption ⊢
  have hkept (front tail : List Token) (hnext : next = front ++ tail)
      (hfront : ∀ t ∈ front, t ≠ .punct .semicolon)
      (hsame : ∀ tail', ofTokens (front ++ tail') = ofTokens next) :
      ofTokens ((tokens'.take 3).map (·.value)) = ofTokens next := by
    obtain ⟨tail', htake'⟩ := hspared.exists_take_eq (htake.trans hnext) hfront
    rw [htake', hsame]
  by_cases hitem : ofTokens next = .option
  · obtain ⟨key, span, more, rfl, hdot⟩ := hoption hitem
    obtain ⟨more', rfl, -, hjoint⟩ := hspared.of_cons nofun
    rw [← htake, map_take, map_cons, ofTokens_dotted hdot] at hitem
    rw [← htake, map_take, map_take, map_cons, map_cons, ofTokens_dotted hdot,
      ofTokens_dotted hdot, hitem, if_neg]
    intro hjoint'
    have hold : isJoint (.identifier key :: more.map (·.value)) := hjoint hinside hjoint'
    rw [if_pos hold] at hitem
    cases hitem
  · unfold ofTokens at hitem
    split at hitem
    · exact hkept [_, _, _] _ rfl (by simp) fun _ => rfl
    · exact hkept [_, _, _] _ rfl (by simp) fun _ => rfl
    · exact hkept [_] _ rfl (by simp) fun _ => rfl
    · exact hkept [_, _] _ rfl (by simp) fun _ => rfl
    · exact hkept [_] _ rfl (by simp) fun _ => rfl
    · refine hkept [_, _, _] _ rfl (by simp) fun tail' => ?_
      exact (ofTokens_field _ _ tail').trans (ofTokens_field _ _ _).symm
    · exact absurd rfl hitem

theorem tolerates_messageStatement (h : Tolerates n m true true Ends nested nested') :
    Tolerates n m true true Ends (messageStatement nested) (messageStatement nested') := by
  refine .peekMany (fun next => ?_) fun hbeside h _ => ?_
  · split
    · exact h.map _
    · exact tolerates_enum.map _
    · exact tolerates_field.map _
    · exact tolerates_option.map _
  · rw [MessageItem.ofTokens_of_spared (hbeside.inside rfl) hbeside.spared fun hoption => ?_]
    rw [hoption] at h
    obtain ⟨o, ho, -⟩ := map_ok_iff.1 h
    obtain ⟨key, between, hkey, -⟩ := bind_ok_iff.1 ho
    obtain ⟨rfl, hname⟩ := optionKey_ok_iff.1 hkey
    exact ⟨_, _, _, rfl, (Bool.and_eq_true_iff.1 hname).1⟩

theorem messageWith_ok_iff {found : Message} :
    messageWith nested tokens = .ok (found, rest) ↔
      ∃ span, ∃ name : Located String, ∃ body statements between,
        tokens = ⟨.identifier "message", span⟩ :: ⟨.identifier name.value, name.span⟩ :: body ∧
        isLowerIdentifier name.value.toList ∧
        block (messageStatement nested) body = .ok (statements, between) ∧
        (do terminator; return .ofStatements name statements : PlainParser Message) between =
          .ok (found, rest) := by
  constructor
  · intro h
    obtain ⟨_, left, hword, hafter⟩ := bind_ok_iff.1 h
    obtain ⟨span, hword⟩ := discard_ok_iff.1 hword
    obtain ⟨name, body, hname, hbodyEnd⟩ := bind_ok_iff.1 (commit_ok_iff.1 hafter)
    obtain ⟨statements, between, hblock, hend⟩ := bind_ok_iff.1 hbodyEnd
    obtain ⟨rfl, hlower⟩ := declaredName_ok_iff.1 hname
    obtain rfl := word_ok_iff.1 hword
    exact ⟨span, name, body, statements, between, rfl, hlower, hblock, hend⟩
  · rintro ⟨span, name, body, statements, between, rfl, hlower, hblock, hend⟩
    exact bind_ok_iff.2 ⟨(), _, discard_ok_iff.2 ⟨span, word_ok_iff.2 rfl⟩, commit_ok_iff.2
      (bind_ok_iff.2 ⟨name, body, declaredName_ok_iff.2 ⟨rfl, hlower⟩,
        bind_ok_iff.2 ⟨statements, between, hblock, hend⟩⟩)⟩

/-- A message that holds messages reads the same if these do. -/
theorem tolerates_messageWith
    (h : Tolerates n m true true Ends nested nested') (inside : Bool)
    (F : List (Located Token) → Prop) :
    Tolerates (n + 1) (m + 1) inside true F (messageWith nested) (messageWith nested') := by
  have hstatements := tolerates_statements (F := fun _ => True) skips_terminators
    (tolerates_messageStatement h)
  constructor
  · intro tokens found rest hread
    obtain ⟨span, name, body, statements, between, rfl, -, hblock, hend⟩ :=
      messageWith_ok_iff.1 hread
    have hbody := (leads_enclosed hstatements hblock).length_le
    have hrest := (tolerates_end _ : Tolerant n m inside false F _).leads hend |>.length_le
    have hlength : rest.length < body.length + 1 + 1 := by omega
    exact ⟨Nat.le_of_lt hlength, fun _ => ⟨hlength, _, rfl, by simp [Opens, continuing]⟩⟩
  · intro before tokens tokens' found rest hbeside hread hF
    obtain ⟨span, name, body, statements, between, rfl, hlower, hblock, hend⟩ :=
      messageWith_ok_iff.1 hread
    obtain ⟨_, rfl, hleft, -⟩ := hbeside.spared.of_cons (by simp)
    obtain ⟨body', rfl, hbody, -⟩ := hleft.of_cons (by simp)
    have hlength := hbeside.length_lt
    have hlength' := hbeside.length_lt'
    simp only [length_cons] at hlength hlength'
    have hlevel : Level before (.identifier name.value :: .identifier "message" :: before) :=
      (level_cons (by simp [Inner]) _).trans (level_cons (by simp [Inner]) _)
    -- the brace behind the name is that of a message
    have hbeside' : Beside n m false _ body body' := ⟨hbody, by omega, by omega, by simp⟩
    obtain ⟨before', between', hblock', hleads, hlevel', hspared⟩ :=
      reads_enclosed hstatements hbeside' (fun _ => rfl) hblock
    obtain ⟨before'', rest', hend', hleads', hlevel'', hrest⟩ :=
      (tolerates_end _ : Tolerant n m false false F _).reads
        (hbeside'.next (leads_enclosed hstatements hblock).length_le hleads.length_le hlevel'
          hspared)
        hend hF
    have hrest' := Nat.le_trans hleads'.length_le hleads.length_le
    have hlength : rest'.length < body'.length + 1 + 1 := by omega
    exact ⟨before'', rest',
      messageWith_ok_iff.2 ⟨span, name, body', statements, between', rfl, hlower, hblock', hend'⟩,
      ⟨Nat.le_of_lt hlength, fun _ => ⟨hlength, _, rfl, by simp [Opens, continuing]⟩⟩,
      hlevel.trans (hlevel'.trans hlevel''), hrest⟩

theorem tolerates_message : Tolerant n m inside true F message :=
  .recursive tolerates_messageWith

/-! ## Files -/

theorem tolerates_declaration (config : ParseConfig) :
    Tolerant n m inside solid Ends (declaration config) := by
  refine .peek? fun next => ?_
  split
  · exact tolerates_importFile.map _
  · exact tolerates_enum.map _
  · exact tolerates_message.map _
  · exact (tolerates_service config).map _
  · exact tolerates_project.map _
  · exact tolerates_option.map _

theorem tolerates_schema (config : ParseConfig) :
    Tolerant n m false false F (schema config) := by
  refine .andThen tolerates_package fun name => .map ?_ _
  refine tolerates_collect peek? id Option.isNone skips_terminators
    (fun _ => peek?_ok_iff.2 ⟨rfl, rfl⟩) ?_
    (tolerates_declaration config)
  nofun

theorem thinned_significant (h : Thinned tokens tokens') :
    Thinned (significant tokens) (significant tokens') := by
  induction h with
  | nil => exact .nil
  | drop span h ih => exact .drop span ih
  | keep t h ih =>
    unfold significant at ih ⊢
    rw [filter_cons, filter_cons]
    split
    · exact .keep t ih
    · exact ih

/-- Terminators may be left out, whichever and as many, as long as no joint is new. -/
theorem build_without_terminators
    {config : ParseConfig} {tokens thinned : List (Located Token)} {found : Schema}
    (hthinned : Thinned tokens thinned)
    (hjoints : joints [] ((significant thinned).map (·.value)) =
      joints [] ((significant tokens).map (·.value)))
    (h : Dialect.native.build config tokens = .ok found) :
    Dialect.native.build config thinned = .ok found := by
  obtain ⟨rest, hread⟩ := Dialect.build_ok_iff.1 h
  have hspared := spared_of_thinned (thinned_significant hthinned) hjoints
  obtain ⟨_, rest', hread', -⟩ := (tolerates_schema (F := fun _ => True) config).reads
    ⟨hspared, Nat.lt_succ_self _, Nat.lt_succ_self _, nofun⟩ hread trivial
  exact Dialect.build_ok_iff.2 ⟨rest', hread'⟩

/-- A file with all kinds of terminators. -/
def terminated : String :=
  "package p;; import q \"r\"; a.b; enum e { c.d = 1; x = 2; y; };\n" ++
  "message m { e.f; q.r f = 1 { g.h; i.j = 2; }; message n { int32 a = 1; }; k.l = true; };\n" ++
  "service s { notify: a(m) void = 3 { m.n; }; o.p; call: }; project w { b: q.r = 1; };"

theorem build_without_terminators_terminated :
    ∃ tokens, Lexer.tokenize terminated.toList = .ok tokens ∧
      ∃ found, Dialect.native.build ⟨true⟩ tokens = .ok found ∧
        Dialect.native.build ⟨true⟩ (tokens.filter (·.value != .punct .semicolon)) =
          .ok found := by
  obtain ⟨tokens, htokens, hjoints, hbuild⟩ := exists_eq_ok_of_any
    (r := Lexer.tokenize terminated.toList)
    (P := fun tokens =>
      joints [] ((significant (tokens.filter (·.value != .punct .semicolon))).map (·.value)) =
          joints [] ((significant tokens).map (·.value)) ∧
        (Dialect.native.build ⟨true⟩ tokens).toOption.any fun _ => decide True)
    (by decide +kernel)
  obtain ⟨found, hfound, -⟩ := exists_eq_ok_of_any hbuild
  exact ⟨tokens, htokens, found, hfound,
    build_without_terminators (.filter tokens) hjoints hfound⟩

/-- The options and the fields of the messages, by name. -/
def bodies (schema : Schema) : List (List String × List String) :=
  schema.messages.map fun m => (m.options.map (·.key.value), m.fields.map (·.name.value))

/-- Two options of a message body and the terminator between them. -/
def separated : String := "package p message m { a.b; c.d = 1 }"

/-- Without the terminator the two options are one field. -/
theorem build_joined_options :
    ∃ tokens, Lexer.tokenize separated.toList = .ok tokens ∧
      (∃ found, Dialect.native.build ⟨true⟩ tokens = .ok found ∧
        bodies found = [(["a.b", "c.d"], [])]) ∧
      ∃ thinned, Thinned tokens thinned ∧
        ∃ found, Dialect.native.build ⟨true⟩ thinned = .ok found ∧
          bodies found = [([], ["c.d"])] := by
  obtain ⟨tokens, htokens, hbuild, hbuild'⟩ := exists_eq_ok_of_any
    (r := Lexer.tokenize separated.toList)
    (P := fun tokens =>
      ((Dialect.native.build ⟨true⟩ tokens).toOption.any fun found =>
          decide (bodies found = [(["a.b", "c.d"], [])])) ∧
        (Dialect.native.build ⟨true⟩
          (tokens.filter (·.value != .punct .semicolon))).toOption.any fun found =>
            decide (bodies found = [([], ["c.d"])]))
    (by decide +kernel)
  exact ⟨tokens, htokens, exists_eq_ok_of_any hbuild,
    _, .filter tokens, exists_eq_ok_of_any hbuild'⟩

end Idl.Native
