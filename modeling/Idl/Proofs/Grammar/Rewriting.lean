import Idl.Proofs.Grammar.Accepted
import Idl.Proofs.Grammar.Canonical
import Idl.Proofs.Grammar.Reading

/-!
# Reading the canonical form

The canonical form of a declaration that the native grammar accepts is accepted too, and the same
declaration is read from it, places and comments apart.  Words of the notation are names like any
others: what a statement is taken for depends on the tokens behind its first one, and those are the
ones of the canonical form.
-/

namespace Idl.Native

open Idl.Parser List

variable {name : String} {m : Method}
variable {n : Nat} {config : ParseConfig} {β : Type} {type : FieldType} {d : Declaration}

/-! ## Names, options and types -/

theorem reads_declaredName (what : String) (h : LowerName name.toList) :
    (declaredName what).Reads n [.identifier name] ⟨name, default⟩ := by
  refine (Reads.identifier name).bind_end ?_
  rw [if_pos ((isLowerIdentifier_iff _).2 h)]
  exact .pure

theorem reads_optionValue (value : OptionValue) :
    optionValue.Reads n [valueToken value] value := by
  cases value <;> exact .of_head fun _ => rfl

theorem reads_option {o : OptionDecl} (h : DottedName (2 ≤ ·) o.key.value) :
    option.Reads n (optionTokens o) (o.relabel .plain) := by
  have hkey : optionKey.Reads n [.identifier o.key.value] ⟨o.key.value, default⟩ := by
    refine (Reads.identifier _).bind_end ?_
    rw [if_pos ((isOptionName_iff _).2 h)]
    exact .pure
  refine hkey.cons ?_
  obtain ⟨key, value, doc⟩ := o
  cases value with
  | none => exact .punct?_none (by decide) .ending
  | some value => exact .punct? ((reads_optionValue value).commit.map.cons .ending)

theorem reads_options {options : List OptionDecl} (h : KeyedOptions options) :
    optionBlock.Reads n (.punct .leftBrace ::
      (options.flatMap optionTokens ++ [.punct .rightBrace]))
      (options.map (·.relabel .plain)) :=
  .enclosed (fun o ho => .atPunct rfl (reads_option (h o ho)).map) (fun _ _ => cons_ne_nil _ _)
    fun _ => rfl

theorem reads_optionBlock?
    {options : List OptionDecl} (h : KeyedOptions options) {b : β}
    {next : List OptionDecl → PlainParser β} {t : Token} {more : List Token}
    (ht : t ≠ .punct .leftBrace)
    (hnext : (next (options.map (·.relabel .plain))).Reads n (t :: more) b) :
    Reads n (optionBlock? >>= next) (optionBlockTokens options ++ t :: more) b := by
  unfold optionBlockTokens
  split
  next hempty =>
    rw [List.isEmpty_iff.1 hempty] at hnext
    have hat (rest : List (Located Token)) :
        (atPunct .leftBrace : PlainParser Bool) (⟨t, default⟩ :: rest) =
          .ok (false, ⟨t, default⟩ :: rest) :=
      atPunct_ok_iff.2 ⟨by simpa using ht, rfl⟩
    exact .ahead (fun _ => bind_ok_iff.2 ⟨false, _, hat _, rfl⟩) hnext
  next =>
    have hblock : optionBlock?.Reads n _ _ := .atPunct rfl (reads_options h)
    exact hblock.bind hnext

theorem exists_optionBlockTokens (options : List OptionDecl) :
    ∃ mark more, optionBlockTokens options ++ [.punct .semicolon] = .punct mark :: more ∧
      mark ≠ .equals := by
  unfold optionBlockTokens
  split
  · exact ⟨_, _, rfl, nofun⟩
  · exact ⟨_, _, rfl, nofun⟩

theorem ofName?_name (base : BaseType) : BaseType.ofName? base.name = some base := by
  cases base <;> decide

theorem reads_elemType
    {elem : ElemType} (hformed : ∀ type, elem.custom? = some type → FormedType type.name.value)
    (hunbound : ∀ type, elem.custom? = some type → type.Unbound) :
    elemType.Reads n [.identifier elem.name] ⟨elem.relabel .plain, default, []⟩ := by
  refine .atPunct rfl ((Reads.identifier _).bind_end ?_)
  cases elem with
  | base base =>
    rw [ElemType.name, ofName?_name]
    exact .pure
  | custom type =>
    obtain ⟨hparts, hbase⟩ := hformed type rfl
    obtain ⟨hcount, hall⟩ := (all_segments_iff (by simp) _).2 hparts
    have hlength : (segments type.name.value).length ≤ 2 := by omega
    have htarget : type.target = none := hunbound type rfl
    rw [ElemType.name, (BaseType.ofName?_eq_none_iff _).2 hbase, ElemType.relabel,
      ElemType.mapCustom, TypeName.relabel, htarget]
    simp only [hlength, decide_true, hall, Bool.and_self, if_true]
    exact .pure

/-! ## Fields -/

/-- No element is written as a word that opens a container. -/
theorem name_notMem_words (h : FormedFieldType type) : type.elem.name ∉ ["map", "repeated"] := by
  cases helem : type.elem with
  | base base => cases base <;> decide
  | custom name => exact h.words name (by rw [FieldType.custom?, helem]; rfl)

theorem identifier_beq_eq_false {word : String} (h : name ≠ word) :
    (Token.identifier name == .identifier word) = false := by
  simp [h]

theorem reads_mapType
    {key : BaseType} {elem : ElemType} (hkey : key ≠ .binary)
    (hwords : elem.name ∉ ["map", "repeated"])
    (helem : elemType.Reads n [.identifier elem.name] ⟨elem.relabel .plain, default, []⟩) :
    (mapType elemType).Reads n (fieldTypeTokens (.map key elem))
      (.relabel .plain (.map key elem), []) := by
  simp only [mem_cons, not_mem_nil, or_false, not_or] at hwords
  have hbase : elemType.Reads n [.identifier key.name] ⟨.base key, default, []⟩ :=
    @reads_elemType n (.base key) nofun nofun
  have hmapKey : key.isMapKey := by simpa [BaseType.isMapKey] using hkey
  refine .keyword (.commit (.mark (hbase.cons (.mark ?_))))
  refine .atWord (identifier_beq_eq_false hwords.1)
    (.atWord (identifier_beq_eq_false hwords.2) (helem.cons (.mark ?_)))
  simp only [hmapKey, if_true]
  exact .pure

theorem reads_fieldType
    (hformed : FormedFieldType type) (hunbound : ∀ name, type.custom? = some name → name.Unbound) :
    fieldType.Reads n (fieldTypeTokens type) (type.relabel .plain) := by
  have helem : elemType.Reads n [.identifier type.elem.name]
      ⟨type.elem.relabel .plain, default, []⟩ :=
    reads_elemType hformed.name hunbound
  have hwords := name_notMem_words hformed
  simp only [mem_cons, not_mem_nil, or_false, not_or] at hwords
  have hmap := identifier_beq_eq_false hwords.1
  have hrepeated := identifier_beq_eq_false hwords.2
  cases type with
  | single elem => exact .atWord hmap (.atWord hrepeated (helem.bind_end .pure))
  | list elem =>
    refine .atWord rfl (.atWord rfl (.keyword ?_))
    exact .atWord hrepeated (.atWord hmap (helem.commit.bind_end .pure))
  | map key elem =>
    have hread := reads_mapType (hformed.key key elem rfl) (name_notMem_words hformed) helem
    exact .atWord rfl hread.map

theorem reads_field {f : Field} (hformed : FormedField f) (hunbound : f.Each TypeName.Unbound) :
    field.Reads n (fieldTokens f) (f.relabel .plain) := by
  refine (reads_fieldType hformed.type hunbound).bind (.commit ?_)
  refine .cons (.identifier _) (.mark (.cons (.fieldTag hformed.tag) ?_))
  exact reads_optionBlock? hformed.options nofun .ending

/-! ## Bodies -/

theorem reads_body
    {α : Type} {statement : PlainParser α} {items : List α} {tokens : α → List Token}
    {value : α → α}
    {build : Located String → List α → β} (kind what : String) (hname : LowerName name.toList)
    (hitems : ∀ s ∈ items, statement.Reads n (tokens s) (value s))
    (hhead : ∀ s ∈ items, ∃ first more, tokens s = .identifier first :: more) :
    Reads (n + 1) (do
      discard (word kind)
      commit do
        let name ← declaredName what
        let statements ← block statement
        terminator
        return build name statements) (bodyTokens kind name (items.flatMap tokens))
      (build ⟨name, default⟩ (items.map value)) := by
  refine .bind_fewer (Reads.word _).map (.commit ((reads_declaredName what hname).cons ?_))
  exact (Reads.block hitems hhead).bind .ending

/-! ### Enums -/

theorem reads_enumStatement {s : EnumStatement} (h : s.Follows (facts config)) :
    enumStatement.Reads n (enumStatementTokens s) (s.relabel .plain) := by
  cases s with
  | option o =>
    have hdot : o.key.value.toList.contains '.' :=
      (Bool.and_eq_true_iff.1 ((isOptionName_iff _).2 h)).1
    refine .peek ?_
    simp only [hdot, if_true]
    exact (reads_option h).map
  | value name number =>
    have hdot : name.value.toList.contains '.' = false := by
      simpa using LowerName.dot_notMem h
    refine .peek ?_
    simp only [hdot, Bool.false_eq_true, if_false]
    refine (reads_declaredName _ h).cons ?_
    cases number with
    | none => exact .punct?_none nofun .ending
    | some number => exact .punct? (.peek (.cons (.integer _) .ending))

theorem reads_enum {e : EnumDef} (h : e.Follows (facts config)) :
    enum.Reads n (enumTokens e) (e.relabel .plain) := by
  have hstatements : ∀ s ∈ enumStatements e, s.Follows (facts config) := by
    intro s hs
    simp only [enumStatements, mem_append, mem_map] at hs
    obtain ⟨value, hvalue, rfl⟩ | ⟨o, ho, rfl⟩ := hs
    · exact (h.values value hvalue).1
    · exact h.options o ho
  rw [← enum_ofStatements, EnumDef.relabel_ofStatements rfl]
  refine Reads.of_succ (reads_body "enum" "enum name" h.name
    (fun s hs => reads_enumStatement (hstatements s hs)) fun s _ => ?_)
  cases s <;> exact ⟨_, _, rfl⟩

/-! ### Messages -/

theorem MessageItem.ofTokens_option
    {key : String} (hkey : key ≠ "repeated") (mark : Punct) (hmark : mark ≠ .leftAngle)
    (tail : List Token) :
    MessageItem.ofTokens (.identifier key :: .punct mark :: tail) = .option := by
  unfold MessageItem.ofTokens
  split <;> simp_all

/-- The key of an option has a dot, so that it is no word. -/
theorem DottedName.ne_word
    {key : String} (h : DottedName (2 ≤ ·) key) {word : String} (hword : '.' ∉ word.toList) :
    key ≠ word := by
  rintro rfl
  have hdot := (Bool.and_eq_true_iff.1 ((isOptionName_iff _).2 h)).1
  exact hword (by simpa using hdot)

theorem reads_messageStatement
    {nested : PlainParser Message} {s : MessageStatement} (h : s.Follows (facts config))
    (hnested : ∀ m, s = .message m → nested.Reads n (messageTokens m) (m.relabel .plain)) :
    (messageStatement nested).Reads n (messageStatementTokens s) (s.relabel .plain) := by
  cases s with
  | message m =>
    have hread := hnested m rfl
    rw [messageTokens_eq] at hread
    rw [messageStatementTokens, messageTokens_eq]
    exact .peekMany [_, _, _] 0 fun _ => hread.map
  | enum e => exact .peekMany [_, _, _] 0 fun _ => (reads_enum h).map
  | field f =>
    have hread := (reads_field (n := n) h.1 h.2).map (g := MessageStatement.field)
    obtain ⟨name, tag, type, options, doc⟩ := f
    cases type with
    | single elem =>
      refine .peekMany [_, _, _] 0 fun tail => ?_
      simp only [cons_append, nil_append, MessageItem.ofTokens_field]
      exact hread
    | list elem => exact .peekMany [_] 2 fun _ => hread
    | map key elem => exact .peekMany [_, _] 1 fun _ => hread
  | option o =>
    have hread := (reads_option (n := n) h).map (g := MessageStatement.option)
    have hkey : o.key.value ≠ "repeated" := DottedName.ne_word h (by decide)
    obtain ⟨key, value, doc⟩ := o
    cases value with
    | none =>
      refine .peekMany [_, _] 1 fun tail => ?_
      simp only [cons_append, nil_append,
        MessageItem.ofTokens_option hkey .semicolon (by decide)]
      exact hread
    | some value =>
      refine .peekMany [_, _] 1 fun tail => ?_
      simp only [cons_append, nil_append,
        MessageItem.ofTokens_option hkey .equals (by decide)]
      exact hread

theorem exists_messageStatementTokens (s : MessageStatement) :
    ∃ name more, messageStatementTokens s = .identifier name :: more := by
  cases s with
  | message m => exact ⟨_, _, messageTokens_eq m⟩
  | enum e | option o => exact ⟨_, _, rfl⟩
  | field f =>
    obtain ⟨name, tag, type, options, doc⟩ := f
    cases type <;> exact ⟨_, _, rfl⟩

theorem reads_message
    (m : Message) (h : ∀ path sub, m.descend path = some sub → sub.Follows (facts config))
    (n : Nat) : message.Reads n (messageTokens m) (m.relabel .plain) := by
  induction m using Message.induction_nested generalizing n with
  | h m ih =>
    obtain ⟨hself, hbelow⟩ := Message.forall_descend_iff.1 h
    rw [messageTokens_eq, ← message_ofStatements, Message.relabel_ofStatements rfl]
    refine Reads.recursive (cons_ne_nil _ _) (fun n nested hnested => ?_) n
    refine reads_body "message" "message name" hself.name (fun s hs => ?_)
      fun s _ => exists_messageStatementTokens s
    have hmem : (∃ sub ∈ m.messages, s = .message sub) ∨ (∃ e ∈ m.enums, s = .enum e) ∨
        (∃ f ∈ m.fields, s = .field f) ∨ ∃ o ∈ m.options, s = .option o := by
      simpa [messageStatements, eq_comm, or_assoc] using hs
    have hfollows : s.Follows (facts config) := by
      obtain ⟨sub, hsub, rfl⟩ | ⟨e, he, rfl⟩ | ⟨f, hf, rfl⟩ | ⟨o, ho, rfl⟩ := hmem
      · exact hbelow sub hsub
      · exact hself.enums e he
      · exact hself.fields f hf
      · exact hself.options o ho
    refine reads_messageStatement hfollows ?_
    rintro sub rfl
    have hsub : sub ∈ m.messages := by simpa using hmem
    exact hnested _ _ (ih sub hsub (hbelow sub hsub))

/-! ### Services -/

theorem formedType_void : FormedType "void" := by
  refine ⟨(all_segments_iff (by simp) _).1 (by decide), ?_⟩
  exact (BaseType.ofName?_eq_none_iff _).1 (by decide)

theorem reads_typeName (h : FormedType name) :
    elemType.Reads n [.identifier name] ⟨.custom (.unbound ⟨name, default⟩), default, []⟩ := by
  refine @reads_elemType n (.custom (.unbound ⟨name, default⟩)) ?_ ?_
  · rintro _ ⟨⟩
    exact h
  · rintro _ ⟨⟩
    rfl

theorem reads_methodMessage
    (fieldName role : String) {message : MethodMessage}
    (hformed : FormedMethodMessage fieldName message) (hfresh : message.Fresh) :
    (methodMessage fieldName role).Reads n [.identifier (messageName message)]
      (some (message.relabel .plain)) := by
  obtain ⟨m, field, type, rfl, hfields, hmessages, henums, hoptions, hname, htag, hkeys, htype,
    hsame, hvoid, hformed⟩ := hformed
  have htarget : type.target = none := by
    have hunbound : field.Each TypeName.Unbound := by
      cases hfresh with
      | inline _ hunbound =>
        obtain rfl := singleton_inj.1 hfields
        exact hunbound
    exact hunbound type (by rw [htype]; rfl)
  refine (reads_typeName hformed).bind_end ?_
  rw [MethodMessage.relabel, Message.relabel_eq, hfields, hmessages, henums, hoptions]
  simp only [TypeName.unbound, hvoid, if_false, map_cons, Field.relabel, Located.relabel, hname,
    htag, htype, hkeys, FieldType.relabel, FieldType.mapCustom, ElemType.mapCustom,
    TypeName.relabel, hsame, htarget]
  exact .pure

theorem reads_reply
    {reply : Option MethodMessage}
    (hformed : ∀ message, reply = some message → FormedMethodMessage "rs" message)
    (hfresh : ∀ message, reply = some message → message.Fresh) :
    (methodMessage "rs" "reply").Reads n [.identifier ((reply.map messageName).getD "void")]
      (reply.map (·.relabel .plain)) := by
  cases reply with
  | some message => exact reads_methodMessage "rs" "reply" (hformed _ rfl) (hfresh _ rfl)
  | none => exact (reads_typeName formedType_void).bind_end .pure

theorem reads_methodId
    {next : Option (Located Int64) → PlainParser Method} {found : Method}
    (hnext : (next (m.id.map (·.relabel .plain))).Reads n
      (optionBlockTokens m.options ++ [.punct .semicolon]) found) :
    Reads n (do
      let id ← if (← punct? .equals).isSome then some <$> integer else pure none
      next id)
      ((m.id.elim [] fun id => [.punct .equals, .integer id.value]) ++
        (optionBlockTokens m.options ++ [.punct .semicolon])) found := by
  cases hid : m.id with
  | none =>
    obtain ⟨mark, more, htokens, hmark⟩ := exists_optionBlockTokens m.options
    rw [hid] at hnext
    simp only [Option.elim_none, nil_append]
    rw [htokens] at hnext ⊢
    exact .punct?_none (by simpa using hmark) hnext
  | some id =>
    rw [hid] at hnext
    exact .punct? ((Reads.integer _).map.cons hnext)

theorem reads_method (hformed : FormedMethod config m) (hfresh : m.Fresh) (hmode : m.mode = .call) :
    (method config).Reads n (methodTokens m) (m.relabel .plain) := by
  have hrequests : ∀ message, m.request = some message → message.Fresh :=
    fun message h => hfresh message (by simp [Method.messages, h])
  have hreplies : ∀ message, m.reply = some message → message.Fresh :=
    fun message h => hfresh message (by simp [Method.messages, h])
  have hid : (if config.useMethodId then m.id.map (·.relabel .plain) else none) =
      m.id.map (·.relabel .plain) := by
    cases hid : m.id with
    | none => exact ite_self _
    | some id => exact if_pos (hformed.id (by rw [hid]; rfl))
  refine (reads_declaredName _ hformed.name).cons (.commit (.mark ?_))
  have hend : Reads n (do
      discard (punct .rightParen)
      let reply ← methodMessage "rs" "reply"
      let id ← if (← punct? .equals).isSome then some <$> integer else pure none
      let options ← optionBlock?
      terminator
      return ({
        name := ⟨m.name.value, default⟩, doc := .none, request := m.request.map (·.relabel .plain)
        reply, mode := .call, options, id := if config.useMethodId then id else none } : Method))
      (.punct .rightParen :: .identifier ((m.reply.map messageName).getD "void") ::
        ((m.id.elim [] fun id => [.punct .equals, .integer id.value]) ++
          (optionBlockTokens m.options ++ [.punct .semicolon]))) (m.relabel .plain) := by
    refine .mark ((reads_reply hformed.reply hreplies).cons ?_)
    refine reads_methodId (reads_optionBlock? hformed.options (by simp) ?_)
    rw [hid, Method.relabel, hmode]
    exact .ending
  cases hrequest : m.request with
  | none =>
    rw [hrequest] at hend
    exact .atPunct rfl hend
  | some message =>
    rw [hrequest] at hend
    exact .atPunct rfl ((reads_methodMessage "rq" "request" (hformed.request _ hrequest)
      (hrequests _ hrequest)).cons hend)

theorem reads_serviceStatement
    {s : ServiceStatement} (hformed : s.Follows (facts config) (FormedMethod config))
    (hmethod : ∀ m, s = .method m → m.Fresh ∧ m.mode = .call) :
    (serviceStatement config).Reads n (serviceStatementTokens s) (s.relabel .plain) := by
  cases s with
  | mode mode =>
    cases mode <;> exact .peekTwo (.cons (.identifier _) (.ahead (fun _ => rfl) (.mark .pure)))
  | method m =>
    obtain ⟨hfresh, hmode⟩ := hmethod m rfl
    exact .peekTwo (reads_method hformed hfresh hmode).map
  | option o =>
    have hread := (reads_option (n := n) hformed).map (g := ServiceStatement.option)
    obtain ⟨key, value, doc⟩ := o
    cases value <;> exact .peekTwo hread

theorem reads_service
    {service : Service} (hformed : FormedService config service)
    (hfresh : service.Fresh) :
    (Native.service config).Reads n (declarationTokens (.service service))
      (service.relabel .plain) := by
  have hstatements : ∀ s ∈ serviceStatements service,
      s.Follows (facts config) (FormedMethod config) ∧
        ∀ m, s = .method m → m.Fresh ∧ m.mode = .call := by
    intro s hs
    simp only [serviceStatements, mem_append, mem_flatMap, mem_map,
      mem_cons, not_mem_nil, or_false] at hs
    obtain ⟨method, hmethod, rfl | rfl⟩ | ⟨o, ho, rfl⟩ := hs
    · refine ⟨trivial, ?_⟩
      rintro _ ⟨⟩
    · have hformed := hformed.methods method hmethod
      refine ⟨⟨hformed.name, hformed.request, hformed.reply, hformed.id, hformed.options⟩, ?_⟩
      rintro _ ⟨⟩
      exact ⟨hfresh method hmethod, rfl⟩
    · refine ⟨hformed.options o ho, ?_⟩
      rintro _ ⟨⟩
  rw [← service_ofStatements, Service.relabel_ofStatements rfl]
  refine Reads.of_succ (reads_body "service" "service name" hformed.name
    (fun s hs => reads_serviceStatement (hstatements s hs).1 (hstatements s hs).2) fun s _ => ?_)
  cases s <;> exact ⟨_, _, rfl⟩

/-! ### Projects -/

theorem reads_projectStatement {s : ProjectStatement} (h : FormedProjectStatement s) :
    projectStatement.Reads n (projectStatementTokens s) (s.relabel .plain) := by
  cases s with
  | area name => exact .peekTwo ((reads_declaredName _ h).cons (.mark .pure))
  | option o =>
    have hread := (reads_option (n := n) h).map (g := ProjectStatement.option)
    obtain ⟨key, value, doc⟩ := o
    cases value <;> exact .peekTwo hread

theorem reads_project {project : Project} (h : FormedProject project) :
    Native.project.Reads n (declarationTokens (.project project)) (project.relabel .plain) := by
  have hstatements : ∀ s ∈ projectStatements project, FormedProjectStatement s := by
    intro s hs
    obtain ⟨area, harea, hs⟩ := mem_flatMap.1 hs
    rcases mem_append.1 hs with hs | hs
    · split at hs
      next => cases hs
      next hname =>
        rw [mem_singleton.1 hs]
        exact (h.areas.names area harea).resolve_left hname
    · obtain ⟨o, ho, rfl⟩ := mem_map.1 hs
      exact h.areas.options area harea o ho
  rw [(project_ofStatements h.areas).symm.trans (@Project.relabel_ofStatements .plain _ _)]
  refine Reads.of_succ (reads_body "project" "project name" h.name
    (fun s hs => reads_projectStatement (hstatements s hs)) fun s _ => ?_)
  cases s <;> exact ⟨_, _, rfl⟩

/-! ## Files -/

theorem reads_import {item : Import} (h : item.Follows (facts config)) :
    importFile.Reads n (declarationTokens (.import_ item)) (item.relabel .plain) := by
  obtain ⟨file, localName, doc, target⟩ := item
  obtain ⟨-, hname, -, rfl⟩ := h
  refine .keyword (.commit ?_)
  cases localName with
  | none => exact .peek (.ahead (fun _ => rfl) (.cons (.textLiteral _) .ending))
  | some name =>
    exact .peek ((reads_declaredName _ (hname name rfl)).map.cons (.cons (.textLiteral _) .ending))

theorem reads_declaration (h : d.Follows (facts config)) :
    (declaration config).Reads n (declarationTokens d) (d.relabel .plain) := by
  cases d with
  | import_ item => exact .peek (reads_import h).map
  | enum e => exact .peek (reads_enum h).map
  | message m =>
    have hread := reads_message m h n
    rw [messageTokens_eq] at hread
    rw [declarationTokens, messageTokens_eq]
    exact .peek hread.map
  | service s => exact .peek (reads_service h.1 h.2).map
  | project p => exact .peek (reads_project h).map
  | option o =>
    have hword : ∀ word : String, '.' ∉ word.toList →
        some (Token.identifier o.key.value) ≠ some (.identifier word) := by
      intro word hdot heq
      exact DottedName.ne_word h hdot (Token.identifier.inj (Option.some.inj heq))
    refine .peek ?_
    split
    next heq => exact absurd heq (hword _ (by decide))
    next heq => exact absurd heq (hword _ (by decide))
    next heq => exact absurd heq (hword _ (by decide))
    next heq => exact absurd heq (hword _ (by decide))
    next heq => exact absurd heq (hword _ (by decide))
    next => exact (reads_option h).map

theorem exists_declarationTokens (d : Declaration) :
    ∃ name more, declarationTokens d = .identifier name :: more := by
  cases d with
  | message m => exact ⟨_, _, messageTokens_eq m⟩
  | _ => exact ⟨_, _, rfl⟩

theorem reads_package (h : LowerName name.toList) :
    package.Reads n [.identifier "package", .identifier name, .punct .semicolon] ⟨name, default⟩ :=
  .atWord rfl (.keyword ((reads_declaredName _ h).commit.cons .ending))

theorem follows_of_mem
    {schema : Schema} (h : schema.Follows (facts config)) (hd : d ∈ fileDeclarations schema) :
    d.Follows (facts config) := by
  simp only [fileDeclarations, mem_append, mem_map] at hd
  obtain ((((⟨item, hitem, rfl⟩ | ⟨o, ho, rfl⟩) | ⟨e, he, rfl⟩) | ⟨m, hm, rfl⟩) | ⟨s, hs, rfl⟩) |
    ⟨p, hp, rfl⟩ := hd
  · exact h.imports item hitem
  · exact h.options o ho
  · exact h.enums e he
  · exact h.messages m hm
  · exact h.services s hs
  · exact h.projects p hp

theorem schema_eq_ok {original : Schema} (h : original.Follows (facts config)) :
    schema config (nowhere (fileTokens original)) = .ok (original.relabel .plain, []) := by
  have hdeclarations := Reads.declarations (p := declaration config)
    (fun d hd _ => reads_declaration (follows_of_mem h hd))
    fun d _ => exists_declarationTokens d
  rw [← file_ofDeclarations, Schema.relabel_ofDeclarations rfl, fileTokens, nowhere, map_append]
  exact bind_ok_iff.2 ⟨_, _, reads_package h.package _ le_rfl,
    bind_ok_iff.2 ⟨_, _, hdeclarations, rfl⟩⟩

/-- The canonical form of a file that the native grammar accepts is accepted too, wherever its
tokens stand, and the same schema is read from it, places and comments apart. -/
theorem build_canonical
    {config : ParseConfig} {tokens : List (Located Token)} {schema : Schema}
    (h : Dialect.native.build config tokens = .ok schema) {again : List (Located Token)}
    (hagain : (significant again).map (·.value) = fileTokens schema) :
    ∃ schema', Dialect.native.build config again = .ok schema' ∧
      schema'.relabel .plain = schema.relabel .plain := by
  have hfollows := Dialect.follows_of_build h (ensures_facts config _)
  exact Dialect.native.exists_build (schema_eq_ok hfollows) hagain

/-- Words of the notation as names, and numbers, modes and areas that are not written out. -/
def wordsText : String :=
  "package p enum e { a = 4 b } message m { message f = 1 { a.b } } " ++
    "service call { notify: map(m) void } project w { a.b c: d.e = true }"

theorem build_canonical_words :
    ∃ tokens schema schema', Lexer.tokenize wordsText.toList = .ok tokens ∧
      Dialect.native.build ⟨true⟩ tokens = .ok schema ∧
      Dialect.native.build ⟨true⟩ ((fileTokens schema).map (⟨·, default⟩)) = .ok schema' ∧
      schema'.relabel .plain = schema.relabel .plain := by
  have hreads : ((Lexer.tokenize wordsText.toList).toOption.bind fun tokens =>
      (Dialect.native.build ⟨true⟩ tokens).toOption.map fun schema =>
        (fileTokens schema).all (!·.isTrivia)) = some true := by
    decide +kernel
  cases htokens : Lexer.tokenize wordsText.toList with
  | error faults => simp [htokens, Except.toOption] at hreads
  | ok tokens =>
    cases hbuild : Dialect.native.build ⟨true⟩ tokens with
    | error report => simp [htokens, hbuild, Except.toOption] at hreads
    | ok schema =>
      have hplain : ∀ t ∈ fileTokens schema, (!t.isTrivia) = true := by
        simpa [htokens, hbuild, Except.toOption] using hreads
      let again : List (Located Token) := (fileTokens schema).map (⟨·, default⟩)
      have hall : ∀ t ∈ again, (!t.value.isTrivia) = true := forall_mem_map.2 hplain
      have hagain : (significant again).map (·.value) = fileTokens schema := by
        rw [significant, filter_eq_self.2 hall, map_map]
        exact map_id _
      obtain ⟨schema', hschema', heq⟩ := build_canonical hbuild hagain
      exact ⟨tokens, schema, schema', rfl, hbuild, hschema', heq⟩

end Idl.Native
