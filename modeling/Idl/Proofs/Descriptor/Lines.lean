import Idl.Proofs.Descriptor.Mentions
import Idl.Proofs.Descriptor.Scalars
import Idl.Proofs.Grammar.Lexical

/-!
# What printed lines say

The protobuf notation of a file is printed line by line.  Each line says the tokens of one
declaration or of a part of it, whatever its level and the comments above it; so the whole text says
the tokens of its package, imports, enums and messages in order.
-/

namespace Idl

open Lexer List

variable {level : Nat} {α : Type} {tokens' : List Token} {xs : List α} {f : α → List Line}

/-! ## Tokens of declarations -/

/-- A field type as it is spelled in print. -/
def FieldType.spelling (signed fixed : Bool) : FieldType → Spelling
  | single e => .single (e.printed signed fixed)
  | list e => .list (e.printed signed fixed)
  | map key e => .map (key.scalar signed fixed) (e.printed signed fixed)

namespace Field

/-- The type of the field as it is spelled in print. -/
def spelling (field : Field) : Spelling :=
  field.type.spelling (OptionDecl.isSet field.options Protobuf.signedHint)
    (OptionDecl.isSet field.options Protobuf.fixedHint)

def tokens (field : Field) : List Token :=
  field.spelling.tokens ++
    [.identifier field.name.value, .punct .equals, .integer field.tag.value, .punct .semicolon]

end Field

def EnumValue.tokens (value : EnumValue) : List Token :=
  [.identifier value.name.value, .punct .equals, .integer value.number, .punct .semicolon]

/-- A declaration with a body. -/
def declarationTokens (kind name : String) (body : List Token) : List Token :=
  [.identifier kind, .identifier name, .punct .leftBrace] ++ body ++ [.punct .rightBrace]

def EnumDef.tokens (enum : EnumDef) : List Token :=
  declarationTokens "enum" enum.name.value (enum.values.flatMap (·.tokens))

namespace Message

mutual

/-- Nested enums come first, then nested messages, then fields. -/
def tokens : Message → List Token
  | ⟨name, _, fields, messages, enums, _⟩ =>
    declarationTokens "message" name.value
      (enums.flatMap (·.tokens) ++ allTokens messages ++ fields.flatMap (·.tokens))

def allTokens : List Message → List Token
  | [] => []
  | message :: messages => message.tokens ++ allTokens messages

end

theorem allTokens_eq_flatMap (messages : List Message) :
    allTokens messages = messages.flatMap (·.tokens) := by
  induction messages with
  | nil => rfl
  | cons message messages ih => rw [allTokens, flatMap_cons, ih]

end Message

def Import.tokens (item : Import) : List Token :=
  [.identifier "import", .text (Proto.fileName item.file.value), .punct .semicolon]

/-- The package that the options of a file name for its generated code. -/
def Proto.goPackage? (options : OptionsDesc) : Option String :=
  match options.lookup "proto.gopkg" with
  | some (some (.text package)) => some package
  | _ => none

def Proto.optionTokens (options : OptionsDesc) : List Token :=
  match Proto.goPackage? options with
  | some package =>
    [.identifier "option", .identifier "go_package", .punct .equals, .text package,
      .punct .semicolon]
  | none => []

/-- A whole file, under the options that are printed. -/
def Schema.tokens (options : OptionsDesc) (schema : Schema) : List Token :=
  [.identifier "syntax", .punct .equals, .text "proto3", .punct .semicolon, .identifier "package",
      .identifier schema.package.name.value, .punct .semicolon]
    ++ Proto.optionTokens options ++ schema.imports.flatMap (·.tokens)
    ++ schema.enums.flatMap (·.tokens) ++ schema.messages.flatMap (·.tokens)

/-! ## Lines -/

namespace Lexer

theorem says_blanks (n : Nat) : Says (List.replicate n ' ') [] := by
  induction n with
  | zero => exact Says.nil
  | succ n ih => exact says_blank.append ih

theorem SaysBefore.of_says {text : List Char} {tokens : List Token} (h : Says text tokens) :
    SaysBefore text tokens := fun rest _ => h rest

theorem Says.append_before
    {text text' : List Char} {tokens : List Token} (h : Says text tokens)
    (h' : SaysBefore text' tokens') : SaysBefore (text ++ text') (tokens ++ tokens') := by
  intro rest hstops
  rw [append_assoc, h, h' rest hstops, map_append, append_assoc]

instance : DecidablePred IsName
  | [] => inferInstanceAs (Decidable False)
  | _ :: _ => inferInstanceAs (Decidable (_ ∧ _))

instance : DecidablePred Stops
  | [] => inferInstanceAs (Decidable True)
  | _ :: _ => inferInstanceAs (Decidable (_ ∧ _))

/-- The text ends a name or a numeral before it, and says the tokens whatever follows. -/
structure Separates (text : String) (tokens : List Token) : Prop where
  chunk : Says text.toList tokens
  stops : text.toList ≠ [] ∧ Stops text.toList

theorem separates_blank : Separates " " [] := ⟨says_blank, by decide⟩

theorem separates_equals : Separates " = " [.punct .equals] :=
  ⟨says_blank.append ((says_punct .equals).append says_blank), by decide⟩

theorem separates_semicolon : Separates ";" [.punct .semicolon] :=
  ⟨says_punct .semicolon, by decide⟩

theorem separates_brace : Separates " \x7b" [.punct .leftBrace] :=
  ⟨says_blank.append (says_punct .leftBrace), by decide⟩

theorem separates_angle : Separates "<" [.punct .leftAngle] := ⟨says_punct .leftAngle, by decide⟩

theorem separates_comma : Separates ", " [.punct .comma] :=
  ⟨(says_punct .comma).append says_blank, by decide⟩

theorem separates_close : Separates ">" [.punct .rightAngle] :=
  ⟨says_punct .rightAngle, by decide⟩

theorem says_word
    (word : String) {separator : String} {marks : List Token} (hword : IsName word.toList)
    (hseparator : Separates separator marks) :
    Says (word ++ separator).toList (.identifier word :: marks) := by
  rw [String.toList_append]
  exact (saysBefore_name hword).append hseparator.chunk hseparator.stops.1 hseparator.stops.2

theorem says_assignment {name : String} (hname : IsName name.toList) (value : Int64) :
    Says (name ++ " = " ++ Text.showInt64 value ++ ";").toList
      [.identifier name, .punct .equals, .integer value, .punct .semicolon] := by
  have hleft := says_word name hname separates_equals
  have hright : Says (Text.showInt64 value ++ ";").toList [.integer value, .punct .semicolon] := by
    rw [String.toList_append]
    exact (saysBefore_integer value).append separates_semicolon.chunk separates_semicolon.stops.1
      separates_semicolon.stops.2
  rw [String.append_assoc, String.toList_append]
  exact hleft.append hright

end Lexer

namespace Proto

/-- The lines say the tokens. -/
def SaysLines (lines : List Line) (tokens : List Token) : Prop :=
  Says (lines.flatMap fun line => line.render.toList) tokens

namespace SaysLines

theorem append
    {lines lines' : List Line} {tokens : List Token} (h : SaysLines lines tokens)
    (h' : SaysLines lines' tokens') : SaysLines (lines ++ lines') (tokens ++ tokens') := by
  unfold SaysLines
  rw [flatMap_append]
  exact Says.append h h'

theorem flatMap {g : α → List Token} (h : ∀ x ∈ xs, SaysLines (f x) (g x)) :
    SaysLines (xs.flatMap f) (xs.flatMap g) := by
  unfold SaysLines
  rw [flatMap_assoc]
  exact Says.flatMap h

theorem flatMap_nil (h : ∀ x ∈ xs, SaysLines (f x) []) : SaysLines (xs.flatMap f) [] := by
  have hflat := flatMap h
  rwa [flatMap_eq_nil_iff.2 fun _ _ => rfl] at hflat

theorem of_text {text : String} {tokens : List Token} (h : Says (text.toList ++ ['\n']) tokens) :
    SaysLines [⟨level, text⟩] tokens := by
  unfold SaysLines
  rw [flatMap_singleton, Line.render]
  split
  next hempty =>
    have htext : text.toList = [] := by simpa using hempty
    rw [htext] at h
    exact h
  next =>
    rw [String.toList_append, String.toList_append, String.toList_ofList, append_assoc]
    exact (says_blanks _).append h

theorem line {text : String} {tokens : List Token} (h : Says text.toList tokens) :
    SaysLines [⟨level, text⟩] tokens := by
  have hline := h.append says_newline
  rw [append_nil] at hline
  exact of_text hline

end SaysLines

theorem says_docLines (level : Nat) {doc : Doc} (h : doc.Lexical) :
    SaysLines (docLines level doc.describe) [] := by
  unfold Doc.describe
  split
  next => exact Says.nil
  next =>
    rw [docLines, map_eq_flatMap]
    refine SaysLines.flatMap_nil fun line hline => SaysLines.of_text ?_
    obtain ⟨body, hbody, hclean⟩ := h line hline
    rw [hbody]
    exact says_comment hclean

theorem says_bodyLines
    (level : Nat) (kind : String) {name : String} {body : List Line} {tokens : List Token}
    (hkind : IsName kind.toList) (hname : IsName name.toList) (hbody : SaysLines body tokens) :
    SaysLines (bodyLines level (kind ++ " " ++ name) body)
      (declarationTokens kind name tokens) := by
  have hopen : Says (kind ++ " " ++ name ++ " \x7b").toList
      [.identifier kind, .identifier name, .punct .leftBrace] := by
    have hleft := says_word kind hkind separates_blank
    have hright := says_word name hname separates_brace
    rw [String.append_assoc, String.toList_append]
    exact hleft.append hright
  have hclose : Says "\x7d".toList [.punct .rightBrace] := says_punct .rightBrace
  exact ((SaysLines.line hopen).append hbody).append (SaysLines.line hclose)

theorem says_enumLines (level : Nat) {enum : EnumDef} (h : Traits.lexical.enum enum) :
    SaysLines (enumLines level enum.describe) enum.tokens := by
  obtain ⟨hname, hdoc, hvalues⟩ := h
  have hbody : SaysLines (enum.values.flatMap fun value =>
      docLines (level + 1) value.doc.describe ++
        [⟨level + 1, value.name.value ++ " = " ++ Text.showInt64 value.number ++ ";"⟩])
      (enum.values.flatMap (·.tokens)) := by
    refine SaysLines.flatMap fun value hvalue => ?_
    obtain ⟨hvalueName, hvalueDoc⟩ := hvalues value hvalue
    exact (says_docLines _ hvalueDoc).append (SaysLines.line (says_assignment hvalueName _))
  have henum := (says_docLines level hdoc).append
    (says_bodyLines level "enum" (by decide) hname hbody)
  simpa [enumLines, EnumDef.describe, EnumDef.tokens, flatMap_map] using henum

end Proto

/-! ### Fields -/

theorem BaseType.isName_scalar (signed fixed : Bool) (base : BaseType) :
    Lexer.IsName (base.scalar signed fixed).toList := by
  cases base <;> cases signed <;> cases fixed <;> decide

theorem ElemType.Lexical.isName_printed
    {elem : ElemType} {words : List String} (h : elem.Lexical words) (signed fixed : Bool) :
    IsName (elem.printed signed fixed).toList := by
  cases elem with
  | base base => exact base.isName_scalar signed fixed
  | custom type => exact h.1

theorem FieldType.Lexical.saysBefore {type : FieldType} (h : type.Lexical) (signed fixed : Bool) :
    SaysBefore (type.printed signed fixed).toList (type.spelling signed fixed).tokens := by
  cases type with
  | single e => exact saysBefore_name (ElemType.Lexical.isName_printed h signed fixed)
  | list e =>
    have hword := says_word "repeated" (by decide) separates_blank
    have hname := saysBefore_name (ElemType.Lexical.isName_printed h signed fixed)
    have htext := hword.append_before hname
    rw [← String.toList_append] at htext
    exact htext
  | map key e =>
    have hmap := says_word "map" (by decide) separates_angle
    have hkey := says_word _ (key.isName_scalar signed fixed) separates_comma
    have hvalue := says_word _ (ElemType.Lexical.isName_printed h.2 signed fixed) separates_close
    have htext := hmap.append (hkey.append hvalue)
    rw [← String.toList_append, ← String.toList_append] at htext
    simp only [printed, String.append_assoc] at htext ⊢
    exact SaysBefore.of_says htext

namespace Proto

theorem says_fieldLines
    (level : Nat) (copy : MessageRef → Option MessageDesc) {field : Field}
    (h : Traits.lexical.field field) :
    SaysLines (fieldLines level (field.describe copy)) field.tokens := by
  obtain ⟨hname, hdoc, -, htype⟩ := h
  have htext : Says (typeName (field.describe copy) ++ " " ++ field.name.value ++ " = " ++
      Text.showInt64 field.tag.value ++ ";").toList field.tokens := by
    have htype : SaysBefore (typeName (field.describe copy)).toList field.spelling.tokens := by
      rw [typeName_describe]
      exact htype.saysBefore _ _
    have hleft := htype.append says_blank (by decide) (by decide)
    have hboth := hleft.append (says_assignment hname field.tag.value)
    simpa [Field.tokens] using hboth
  exact (says_docLines level hdoc).append (SaysLines.line htext)

theorem messagesLines_eq_flatMap (level : Nat) (messages : List MessageDesc) :
    messagesLines level messages = messages.flatMap (messageLines level) := by
  induction messages with
  | nil => rfl
  | cons message messages ih => rw [messagesLines, flatMap_cons, ih]

theorem says_messageLines (copy : MessageRef → Option MessageDesc) (m : Message) :
    m.Has Traits.lexical → ∀ level, SaysLines (messageLines level (m.describe copy)) m.tokens := by
  induction m using Message.induction_nested with
  | h m ih =>
    intro h level
    obtain ⟨⟨hname, hdoc, henums, hfields⟩, hmessages⟩ := Message.has_iff.1 h
    obtain ⟨name, doc, fields, messages, enums, options⟩ := m
    have henumLines : SaysLines (enums.flatMap fun enum => enumLines (level + 1) enum.describe)
        (enums.flatMap (·.tokens)) :=
      SaysLines.flatMap fun enum henum => says_enumLines _ (henums enum henum)
    have hmessageLines : SaysLines (messages.flatMap fun sub =>
        messageLines (level + 1) (sub.describe copy)) (messages.flatMap (·.tokens)) :=
      SaysLines.flatMap fun sub hsub => ih sub hsub (hmessages sub hsub) _
    have hfieldLines : SaysLines (fields.flatMap fun field =>
        fieldLines (level + 1) (field.describe copy)) (fields.flatMap (·.tokens)) :=
      SaysLines.flatMap fun field hfield => says_fieldLines _ copy (hfields field hfield)
    have hbody := says_bodyLines level "message" (by decide) hname
      ((henumLines.append hmessageLines).append hfieldLines)
    have hmessage := (says_docLines level hdoc).append hbody
    rw [Message.tokens, Message.allTokens_eq_flatMap, Message.describe, messageLines,
      messagesLines_eq_flatMap, Message.describeAll_eq_map, flatMap_map, flatMap_map,
      flatMap_map]
    exact hmessage

/-! ### Files -/

theorem says_importLines
    {item : Import} (hdoc : item.doc.Lexical)
    (hfile : ∀ c ∈ (fileName item.file.value).toList, c ∉ ['\\', '"', '\n', '\r']) :
    SaysLines (importLines item.describe) item.tokens := by
  have htext : Says ("import \"" ++ fileName item.file.value ++ "\";").toList item.tokens := by
    have hword := says_word "import" (by decide) separates_blank
    have hboth := hword.append ((says_plain hfile).append separates_semicolon.chunk)
    simpa [Import.tokens] using hboth
  exact (says_docLines 0 hdoc).append (SaysLines.line htext)

theorem optionLines_eq (options : OptionsDesc) :
    optionLines options = (goPackage? options).toList.map fun package =>
      ⟨0, "option go_package = " ++ Text.quoted package ++ ";"⟩ := by
  unfold optionLines goPackage?
  rcases options.lookup "proto.gopkg" with _ | _ | (_ | _) <;> rfl

theorem says_optionLines
    {options : OptionsDesc}
    (h : ∀ package, goPackage? options = some package →
      ∀ c ∈ package.toList, Text.quoteChar c ≠ Text.codePointEscape c) :
    SaysLines (optionLines options) (optionTokens options) := by
  rw [optionLines_eq, optionTokens]
  cases hpackage : goPackage? options with
  | none => exact Says.nil
  | some package =>
    refine SaysLines.line ?_
    have hword := says_word "option" (by decide) separates_blank
    have hname := says_word "go_package" (by decide) separates_equals
    have hvalue := (says_quoted (h package hpackage)).append separates_semicolon.chunk
    have hall := hword.append (hname.append hvalue)
    simpa using hall

theorem says_syntaxLines
    {package : String} {doc : Doc} (hpackage : IsName package.toList) (hdoc : doc.Lexical)
    {file : String} (hfile : '\n' ∉ file.toList) :
    SaysLines ([⟨0, "// Code generated by wctl. DO NOT EDIT."⟩, ⟨0, "// source: " ++ file⟩, ⟨0, ""⟩,
        ⟨0, "syntax = \"proto3\";"⟩, ⟨0, ""⟩] ++ docLines 0 doc.describe ++
          [⟨0, "package " ++ package ++ ";"⟩])
      [.identifier "syntax", .punct .equals, .text "proto3", .punct .semicolon,
        .identifier "package", .identifier package, .punct .semicolon] := by
  have hgenerated : SaysLines [⟨0, "// Code generated by wctl. DO NOT EDIT."⟩] [] :=
    SaysLines.of_text (says_comment (by decide))
  have hsource : SaysLines [⟨0, "// source: " ++ file⟩] [] := by
    have hbody : '\n' ∉ " source: ".toList ++ file.toList := by simp [hfile]
    refine SaysLines.of_text ?_
    rw [String.toList_append]
    exact says_comment hbody
  have hempty : SaysLines [⟨0, ""⟩] [] := SaysLines.line Says.nil
  have hversion : SaysLines [⟨0, "syntax = \"proto3\";"⟩]
      [.identifier "syntax", .punct .equals, .text "proto3", .punct .semicolon] := by
    have hword := says_word "syntax" (by decide) separates_equals
    have hplain : "proto3".toList.all fun c => c ∉ ['\\', '"', '\n', '\r'] := by decide
    have hversion := says_plain fun c hc => of_decide_eq_true (all_eq_true.1 hplain c hc)
    exact SaysLines.line (hword.append (hversion.append separates_semicolon.chunk))
  have hname : SaysLines [⟨0, "package " ++ package ++ ";"⟩]
      [.identifier "package", .identifier package, .punct .semicolon] := by
    have hword := says_word "package" (by decide) separates_blank
    have hname := says_word package hpackage separates_semicolon
    have hboth := hword.append hname
    rw [← String.toList_append] at hboth
    exact SaysLines.line hboth
  have hhead := hgenerated.append (hsource.append (hempty.append (hversion.append hempty)))
  exact (hhead.append (says_docLines 0 hdoc)).append hname

/-- A text begins with two lines of comment, of which the second names the file. -/
theorem exists_toList_render (file : FileDesc) :
    ∃ rest, (render file).toList =
      "// Code generated by wctl. DO NOT EDIT.\n// source: ".toList ++
        (file.file.toList ++ '\n' :: rest) := by
  obtain ⟨lines, hlines⟩ : ∃ lines, fileLines file =
      ⟨0, "// Code generated by wctl. DO NOT EDIT."⟩ :: ⟨0, "// source: " ++ file.file⟩ :: lines :=
    ⟨_, rfl⟩
  refine ⟨lines.flatMap fun line => line.render.toList, ?_⟩
  rw [render, String.toList_join, flatMap_map, hlines, flatMap_cons, flatMap_cons]
  simp [Line.render]

theorem file_eq_of_render_eq
    {file file' : FileDesc} (hfile : '\n' ∉ file.file.toList) (hfile' : '\n' ∉ file'.file.toList)
    (h : render file = render file') : file.file = file'.file := by
  have htake : ∀ (name rest : List Char), '\n' ∉ name →
      (name ++ '\n' :: rest).takeWhile (· != '\n') = name := by
    intro name rest hname
    have hall : ∀ c ∈ name, (c != '\n') = true := fun c hc => bne_iff_ne.2 fun heq =>
      hname (heq ▸ hc)
    rw [takeWhile_append_of_pos hall]
    simp
  obtain ⟨rest, hrest⟩ := exists_toList_render file
  obtain ⟨rest', hrest'⟩ := exists_toList_render file'
  rw [h, hrest'] at hrest
  have hlines := congrArg (List.takeWhile (· != '\n')) (append_cancel_left hrest)
  rw [htake _ _ hfile, htake _ _ hfile'] at hlines
  exact String.toList_inj.1 hlines.symm

/-- The text of a program says the tokens of its schema. -/
theorem says_render
    {arena : Arena} {program : Program} (h : program.schema.Has Traits.lexical)
    (hfile : '\n' ∉ program.file.toList)
    (himports : ∀ item ∈ program.schema.imports,
      ∀ c ∈ (fileName item.file.value).toList, c ∉ ['\\', '"', '\n', '\r'])
    (hpackage : ∀ package, goPackage? (program.describe arena).options = some package →
      ∀ c ∈ package.toList, Text.quoteChar c ≠ Text.codePointEscape c) :
    Says (render (program.describe arena)).toList
      (program.schema.tokens (program.describe arena).options) := by
  have hempty : SaysLines [⟨0, ""⟩] [] := SaysLines.line Says.nil
  have hhead := says_syntaxLines h.package h.packageDoc hfile
  have hoptions := says_optionLines hpackage
  have hbreak : SaysLines (if (program.schema.imports.map (·.describe)).isEmpty then []
      else [⟨0, ""⟩]) [] := by
    split
    · exact Says.nil
    · exact hempty
  have himportLines : SaysLines (program.schema.imports.flatMap fun item =>
      importLines item.describe) (program.schema.imports.flatMap (·.tokens)) :=
    SaysLines.flatMap fun item hitem =>
      says_importLines (h.imports item hitem) (himports item hitem)
  have henums : SaysLines (program.schema.enums.flatMap fun enum =>
      ⟨0, ""⟩ :: enumLines 0 enum.describe) (program.schema.enums.flatMap (·.tokens)) :=
    SaysLines.flatMap fun enum henum => hempty.append (says_enumLines 0 (h.enums enum henum))
  have hmessages : SaysLines (program.schema.messages.flatMap fun message =>
      ⟨0, ""⟩ :: messageLines 0 (message.describe (arena.copy [])))
        (program.schema.messages.flatMap (·.tokens)) :=
    SaysLines.flatMap fun message hmessage =>
      hempty.append (says_messageLines _ message (h.messages message hmessage) 0)
  have hall := ((((hhead.append hoptions).append hbreak).append himportLines).append henums).append
    hmessages
  have hlines : SaysLines (fileLines (program.describe arena))
      (program.schema.tokens (program.describe arena).options) := by
    simp only [fileLines, Program.describe, Message.describeAll_eq_map, flatMap_map]
    rw [Schema.tokens]
    rw [append_nil] at hall
    exact hall
  rw [render, String.toList_join, flatMap_map]
  exact hlines

end Proto

end Idl
