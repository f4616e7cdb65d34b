import Idl.Proofs.Except
import Idl.Proofs.Token.Literals

/-!
# Texts and the tokens they say

What a text says is what its pieces are, once comments, blanks and line feeds are left out.  A text
that says the same whatever follows it can be put before any other, so what a printed text says is
put together from what its parts say.  Names and numerals go on until something stops them; they say
the same before all that does.
-/

namespace Idl.Lexer

open List

variable {tokens : List Token}
variable {c : Char} {cs rest : List Char}
variable {write : Char → List Char} {content : List Char} {token : Token} {name : String}
  {s text : List Char}

/-! ## What a text says -/

/-- Whether a piece counts: a token that is not trivia, or a fault. -/
def counts : Except LexFault Token → Bool
  | .ok token => !token.isTrivia
  | .error _ => true

/-- The tokens and faults of a text in order, without trivia. -/
def said (cs : List Char) : List (Except LexFault Token) :=
  ((pieces cs).map (·.outcome)).filter counts

theorem said_nil : said [] = [] := by
  simp [said, pieces]

/-- The text begins with a token or a fault, behind which the scanner goes on with `rest`. -/
def Begins (outcome : Except LexFault Token) (text rest : List Char) : Prop :=
  ∃ c cs, text = c :: cs ∧ (cut c cs).outcome = outcome ∧ (cut c cs).rest = rest

namespace Begins

variable {outcome : Except LexFault Token} {text : List Char}

theorem of_cut (h : ((cut c cs).outcome, (cut c cs).rest) = (outcome, rest)) :
    Begins outcome (c :: cs) rest :=
  ⟨c, cs, rfl, (Prod.mk.inj h).1, (Prod.mk.inj h).2⟩

theorem outcomes (h : Begins outcome text rest) :
    (pieces text).map (·.outcome) = outcome :: (pieces rest).map (·.outcome) := by
  obtain ⟨c, cs, rfl, rfl, rfl⟩ := h
  rw [pieces, map_cons]

theorem said (h : Begins outcome text rest) :
    said text = (if counts outcome then [outcome] else []) ++ said rest := by
  rw [Lexer.said, h.outcomes, filter_cons]
  split <;> rfl

end Begins

/-- The text says the tokens, whatever follows it. -/
def Says (text : List Char) (tokens : List Token) : Prop :=
  ∀ rest, said (text ++ rest) = tokens.map .ok ++ said rest

namespace Says

variable {text text' : List Char} {tokens tokens' : List Token}

theorem nil : Says [] [] := fun _ => rfl

theorem append (h : Says text tokens) (h' : Says text' tokens') :
    Says (text ++ text') (tokens ++ tokens') := by
  intro rest
  rw [append_assoc, h, h', map_append, append_assoc]

theorem flatMap {α : Type} {f : α → List Char} {g : α → List Token} {xs : List α}
    (h : ∀ x ∈ xs, Says (f x) (g x)) : Says (xs.flatMap f) (xs.flatMap g) := by
  induction xs with
  | nil => exact nil
  | cons x xs ih =>
    obtain ⟨hx, hxs⟩ := forall_mem_cons.1 h
    exact hx.append (ih hxs)

end Says

/-! ## Single pieces -/

theorem numeral?_eq_none (hdigit : Text.isDigit c = false) (hplus : c ≠ '+') (hminus : c ≠ '-') :
    numeral? (c :: cs) = none := by
  have hzero : c ≠ '0' := by
    rintro rfl
    exact absurd hdigit (by decide)
  have hunsigned : (unsignedNumeral (c :: cs)).digits = [] := by
    unfold unsignedNumeral
    split
    next heq => exact absurd (List.cons.inj heq).1 hzero
    next => simp [hdigit]
  have hsigned : signedNumeral (c :: cs) = unsignedNumeral (c :: cs) := by
    unfold signedNumeral
    split
    next heq => exact absurd (List.cons.inj heq).1 hplus
    next heq => exact absurd (List.cons.inj heq).1 hminus
    next => rfl
  simp [numeral?, hsigned, hunsigned]

/-- What is cut off a text that begins with no comment, string or numeral depends on its first
character. -/
theorem cut_eq
    (cs : List Char) (hslash : c ≠ '/') (hquote : c ≠ '"')
    (hnumeral : numeral? (c :: cs) = none) :
    ((cut c cs).outcome, (cut c cs).rest) =
      if isIdentStart c then
        (.ok (.identifier (String.ofList (c :: (identTail cs).1))), (identTail cs).2)
      else match Punct.ofChar? c with
      | some mark => (.ok (.punct mark), cs)
      | none =>
        if c = '\n' then (.ok .newline, cs)
        else if Text.isBlank c then
          (.ok .blank, cs.dropWhile fun d => Text.isBlank d && d != '\n')
        else (.error .unexpectedCharacter, cs) := by
  unfold cut
  rw [if_neg (by simp [hslash]), if_neg hquote]
  split
  next n heq => simp [hnumeral] at heq
  next =>
    by_cases hident : isIdentStart c
    · rw [if_pos hident, if_pos hident]
    · rw [if_neg hident, if_neg hident]
      cases hmark : Punct.ofChar? c with
      | some mark => rfl
      | none =>
        dsimp only
        by_cases hline : c = '\n'
        · rw [if_pos hline, if_pos hline]
          rfl
        · rw [if_neg hline, if_neg hline]
          split <;> rfl

/-- The text says the tokens before all that stops a name or a numeral. -/
def SaysBefore (text : List Char) (tokens : List Token) : Prop :=
  ∀ rest, Stops rest → said (text ++ rest) = tokens.map .ok ++ said rest

theorem SaysBefore.append
    {text' : List Char} {tokens' : List Token} (h : SaysBefore text tokens)
    (h' : Says text' tokens') (hne : text' ≠ []) (hstops : Stops text') :
    Says (text ++ text') (tokens ++ tokens') := by
  intro rest
  have hstops' : Stops (text' ++ rest) := by
    cases text' with
    | nil => exact absurd rfl hne
    | cons c text' => exact hstops
  rw [append_assoc, h _ hstops', h', map_append, append_assoc]

/-! ### Separators -/

theorem begins_newline (rest : List Char) : Begins (.ok .newline) ('\n' :: rest) rest :=
  .of_cut (cut_eq rest (by decide) (by decide)
    (numeral?_eq_none (by decide) (by decide) (by decide)))

theorem says_newline : Says ['\n'] [] := fun rest => (begins_newline rest).said

theorem kind_of_isBlank (h : Text.isBlank c) :
    c ≠ '/' ∧ c ≠ '"' ∧ Text.isDigit c = false ∧ c ≠ '+' ∧ c ≠ '-' ∧ isIdentStart c = false ∧
      Punct.ofChar? c = none := by
  have hother : ∀ d, Text.isBlank d = false → c ≠ d := by
    rintro _ hd rfl
    rw [h] at hd
    cases hd
  have hident : isIdentStart c = false ∧ Text.isDigit c = false := by
    simp only [Text.isBlank, Bool.or_eq_true, Bool.and_eq_true, decide_eq_true_eq, beq_iff_eq] at h
    have hletters : 'a'.val.toNat = 97 ∧ 'z'.val.toNat = 122 ∧ 'A'.val.toNat = 65 ∧
        'Z'.val.toNat = 90 ∧ '0'.val.toNat = 48 ∧ '9'.val.toNat = 57 := by
      decide
    have hunderscore : c ≠ '_' := hother _ (by decide)
    have hval : c.toNat = c.val.toNat := rfl
    simp only [isIdentStart, Text.isDigit, Bool.or_eq_false_iff, Bool.and_eq_false_iff,
      decide_eq_false_iff_not, Char.le_def, UInt32.le_iff_toNat_le, beq_eq_false_iff_ne]
    refine ⟨⟨⟨?_, ?_⟩, hunderscore⟩, ?_⟩ <;> omega
  refine ⟨hother _ (by decide), hother _ (by decide), hident.2, hother _ (by decide),
    hother _ (by decide), hident.1, ?_⟩
  refine find?_eq_none.2 fun mark _ heq => hother mark.char ?_ (eq_of_beq heq).symm
  cases mark <;> decide

theorem begins_blank (hblank : Text.isBlank c) (hline : c ≠ '\n') (cs : List Char) :
    Begins (.ok .blank) (c :: cs) (cs.dropWhile fun d => Text.isBlank d && d != '\n') := by
  obtain ⟨hslash, hquote, hdigit, hplus, hminus, hident, hmark⟩ := kind_of_isBlank hblank
  have hcut := cut_eq cs hslash hquote (numeral?_eq_none hdigit hplus hminus)
  simp only [hident, hmark, hline, hblank, Bool.false_eq_true, if_false, if_true] at hcut
  exact .of_cut hcut

theorem says_blank : Says [' '] [] := by
  intro rest
  rw [singleton_append, (begins_blank (by decide) (by decide) rest).said]
  cases rest with
  | nil => rfl
  | cons d rest =>
    by_cases hblank : Text.isBlank d && d != '\n'
    · -- both are blanks of one piece
      have hd : Text.isBlank d ∧ d ≠ '\n' := by simpa using hblank
      rw [dropWhile_cons, if_pos hblank, (begins_blank hd.1 hd.2 rest).said]
      rfl
    · rw [dropWhile_cons, if_neg hblank]
      rfl

theorem begins_punct (mark : Punct) (rest : List Char) :
    Begins (.ok (.punct mark)) (mark.char :: rest) rest := by
  have hclass : mark.char ≠ '/' ∧ mark.char ≠ '"' ∧ Text.isDigit mark.char = false ∧
      mark.char ≠ '+' ∧ mark.char ≠ '-' ∧ isIdentStart mark.char = false ∧
      Punct.ofChar? mark.char = some mark := by
    cases mark <;> decide
  obtain ⟨hslash, hquote, hdigit, hplus, hminus, hident, hmark⟩ := hclass
  have hcut := cut_eq rest hslash hquote
    (numeral?_eq_none hdigit hplus hminus)
  simp only [hident, hmark, Bool.false_eq_true, if_false] at hcut
  exact .of_cut hcut

theorem says_punct (mark : Punct) : Says [mark.char] [.punct mark] :=
  fun rest => (begins_punct mark rest).said

theorem says_comment
    {body : List Char} (hbody : '\n' ∉ body) : Says ('/' :: '/' :: body ++ ['\n']) [] := by
  intro rest
  have hall : ∀ c ∈ '/' :: body, (c != '\n') = true := by
    intro c hc
    rcases mem_cons.1 hc with rfl | hc
    · decide
    · exact bne_iff_ne.2 fun heq => hbody (heq ▸ hc)
  have hrest : (cut '/' ('/' :: body ++ '\n' :: rest)).rest = '\n' :: rest := by
    have hdrop : ('/' :: body ++ '\n' :: rest).dropWhile (· != '\n') = '\n' :: rest := by
      rw [dropWhile_append_of_pos hall]
      simp
    exact hdrop
  have hsaid : said ('/' :: ('/' :: body ++ '\n' :: rest)) = said ('\n' :: rest) :=
    Begins.said ⟨_, _, rfl, rfl, hrest⟩
  calc said ('/' :: '/' :: body ++ ['\n'] ++ rest)
      = said ('/' :: ('/' :: body ++ '\n' :: rest)) := by simp
    _ = said rest := hsaid.trans (says_newline rest)

/-! ### Names, numerals and strings -/

/-- The characters of a name. -/
def IsName : List Char → Prop
  | [] => False
  | c :: cs => isIdentStart c ∧ identTail cs = (cs, [])

theorem identTail_of_stops (hstops : Stops rest) : identTail rest = ([], rest) := by
  unfold identTail
  split
  next => rfl
  next c => simp [hstops.1]
  next c d cs => simp [hstops.1, hstops.2]

/-- A name goes on up to what stops it. -/
theorem identTail_append_rest
    (h : identTail cs = (cs, [])) (hstops : Stops rest) : identTail (cs ++ rest) = (cs, rest) := by
  fun_induction identTail cs with
  | case1 => exact identTail_of_stops hstops
  | case2 c hc =>
    cases rest with
    | nil => simp [identTail, hc]
    | cons d rest => simp [identTail, hc, identTail_of_stops hstops]
  | case3 c hc | case6 c d cs hc hd => simp at h
  | case4 c d cs hc read tail hread ih =>
    simp_all [identTail]
  | case5 c d cs hc hd read tail hread ih => simp_all [identTail]

theorem isDigit_eq_false_of_isIdentStart (h : isIdentStart c) : Text.isDigit c = false := by
  have hletters : 'a'.val.toNat = 97 ∧ 'A'.val.toNat = 65 ∧ '9'.val.toNat = 57 := by
    decide
  simp only [isIdentStart, Bool.or_eq_true, Bool.and_eq_true, decide_eq_true_eq, Char.le_def,
    UInt32.le_iff_toNat_le, beq_iff_eq] at h
  simp only [Text.isDigit, Bool.and_eq_false_iff, decide_eq_false_iff_not, Char.le_def,
    UInt32.le_iff_toNat_le]
  rcases h with (h | h) | rfl
  · omega
  · omega
  · decide

theorem begins_name (h : IsName name.toList) (hstops : Stops rest) :
    Begins (.ok (.identifier name)) (name.toList ++ rest) rest := by
  cases hname : name.toList with
  | nil => simp [hname, IsName] at h
  | cons c cs =>
    rw [hname] at h
    obtain ⟨hident, htail⟩ := h
    have hother : ∀ d, isIdentStart d = false → c ≠ d := by
      rintro _ hd rfl
      rw [hident] at hd
      cases hd
    have hnumeral : numeral? (c :: (cs ++ rest)) = none :=
      numeral?_eq_none (isDigit_eq_false_of_isIdentStart hident) (hother _ (by decide))
        (hother _ (by decide))
    have hcut := cut_eq _ (hother _ (by decide)) (hother _ (by decide)) hnumeral
    rw [if_pos hident, identTail_append_rest htail hstops, ← hname, String.ofList_toList] at hcut
    exact .of_cut hcut

theorem saysBefore_name (h : IsName name.toList) : SaysBefore name.toList [.identifier name] :=
  fun _ hstops => (begins_name h hstops).said

theorem ofDigits_toDigits (n : Nat) : Text.ofDigits 10 (Nat.toDigits 10 n) = n := by
  have hfold : ∀ (digits : List Char) (start : Nat), (∀ c ∈ digits, Text.isDigit c) →
      digits.foldl (fun n c => n * 10 + Text.digitValue c) start =
        Nat.ofDigitChars 10 digits start := by
    intro digits
    induction digits with
    | nil => intro start _; rfl
    | cons c digits ih =>
      intro start h
      obtain ⟨hc, hdigits⟩ := forall_mem_cons.1 h
      rw [foldl_cons, ih _ hdigits, Nat.ofDigitChars, Nat.ofDigitChars, foldl_cons,
        Text.digitValue, if_pos hc, Nat.mul_comm]
  rw [Text.ofDigits, hfold _ _ fun c hc => Nat.isDigit_of_mem_toDigits (by decide) (by decide) hc]
  exact Nat.ofDigitChars_toDigits (by decide) (by decide)

theorem int64?_toInt (n : Int64) : Text.int64? n.toInt = some n := by
  rw [Text.int64?, if_pos ⟨n.minValue_le_toInt, n.toInt_le⟩, Int64.ofInt_toInt]

theorem toInt_of_int64? {value : Int} {n : Int64} (h : Text.int64? value = some n) :
    n.toInt = value := by
  unfold Text.int64? at h
  split at h
  next hrange =>
    cases h
    have hmax : Int64.maxValue.toInt < 2 ^ 63 := by decide
    exact Int64.toInt_ofInt_of_le hrange.1 (Int.lt_of_le_of_lt hrange.2 hmax)
  next => cases h

/-- The decimal literal of an integer. -/
def Literal.decimal (value : Int) : Literal where
  sign := if value < 0 then ['-'] else []
  mark := []
  digits := Nat.toDigits 10 value.natAbs
  sign_mem := by split <;> simp
  mark_mem := by simp
  digits_ne_nil := Nat.toDigits_ne_nil
  digits_valid _ hc := Nat.isDigit_of_mem_toDigits (by decide) (by decide) hc

theorem Literal.text_decimal (value : Int) : (decimal value).text = (toString value).toList := by
  cases value with
  | ofNat k =>
    have htext : (toString (Int.ofNat k)).toList = Nat.toDigits 10 k := Nat.toList_repr
    rw [htext]
    rfl
  | negSucc k =>
    have htext : toString (Int.negSucc k) = "-" ++ Nat.repr (k + 1) := rfl
    rw [htext, String.toList_append, Nat.toList_repr]
    simp [text, decimal, Int.negSucc_lt_zero]

theorem Literal.value_decimal (value : Int) : (decimal value).value = value := by
  have hdigits : Nat.ofDigits (decimal value).radix
      ((decimal value).digits.map Text.digitValue).reverse = value.natAbs :=
    (ofDigits_eq _ _).symm.trans (ofDigits_toDigits value.natAbs)
  rw [Literal.value, hdigits]
  by_cases hneg : value < 0
  · simp only [decimal, if_pos hneg, if_true]
    omega
  · simp only [decimal, if_neg hneg, reduceCtorEq, if_false]
    omega

/-- A literal is an integer if its value fits, and a fault otherwise. -/
theorem cut_literal (l : Literal) (hstops : Stops rest) :
    Begins ((Text.int64? l.value).elim (.error (.integerOutOfRange (byteSize l.text)))
      (.ok ∘ .integer)) (l.text ++ rest)
      (if (Text.int64? l.value).isSome then rest else rest.drop 1) := by
  have hnumeral := l.numeral?_eq hstops
  cases htext : l.text ++ rest with
  | nil => simp [htext, numeral?, signedNumeral, unsignedNumeral] at hnumeral
  | cons c cs =>
    rw [htext] at hnumeral
    have hother : ∀ d, Text.isDigit d = false → d ≠ '+' → d ≠ '-' → c ≠ d := by
      rintro _ hdigit hplus hminus rfl
      rw [numeral?_eq_none hdigit hplus hminus] at hnumeral
      cases hnumeral
    refine .of_cut ?_
    unfold cut
    have hslash : c ≠ '/' := hother _ (by decide) (by decide) (by decide)
    rw [if_neg (by simp [hslash]), if_neg (hother _ (by decide) (by decide) (by decide))]
    split
    next n heq =>
      cases heq.symm.trans hnumeral
      split
      next value hvalue =>
        rw [l.numeral_value] at hvalue
        rw [hvalue]
        rfl
      next hvalue =>
        rw [l.numeral_value] at hvalue
        rw [hvalue]
        rfl
    next heq =>
      rw [hnumeral] at heq
      cases heq

theorem begins_integer {value : Int64} {l : Literal} (hl : l.value = value.toInt)
    (hstops : Stops rest) :
    Begins (.ok (.integer value)) (l.text ++ rest) rest := by
  have hcut := cut_literal l hstops
  rw [hl, int64?_toInt] at hcut
  exact hcut

theorem saysBefore_integer (value : Int64) :
    SaysBefore (Text.showInt64 value).toList [.integer value] := by
  intro rest hstops
  rw [Text.showInt64, ← Literal.text_decimal]
  exact (begins_integer (Literal.value_decimal _) hstops).said

/-- How a character is written in a string: as it is, or by an escape that stands for it. -/
def Writes (written : List Char) (c : Char) : Prop :=
  (written = [c] ∧ c ∉ ['\\', '"', '\n', '\r']) ∨
    ∃ d, written = ['\\', d] ∧ escaped? d = some c

theorem textBody_append (h : ∀ c ∈ content, Writes (write c) c) (rest : List Char) :
    textBody (content.flatMap write ++ '"' :: rest) =
      ⟨content, content.flatMap write, .closed, '"' :: rest⟩ := by
  induction content with
  | nil => simp [textBody]
  | cons c content ih =>
    obtain ⟨hc, hcontent⟩ := forall_mem_cons.1 h
    rw [flatMap_cons, append_assoc]
    rcases hc with ⟨hwritten, hplain⟩ | ⟨d, hwritten, hescape⟩
    · simp only [mem_cons, not_mem_nil, or_false, not_or] at hplain
      obtain ⟨hslash, hquote, hline, hreturn⟩ := hplain
      rw [hwritten, singleton_append]
      unfold textBody
      split
      next heq => cases heq
      next heq => exact absurd (List.cons.inj heq).1 hslash
      next heq =>
        obtain ⟨rfl, rfl⟩ := List.cons.inj heq
        simp [hslash, hquote, hline, hreturn, ih hcontent]
    · rw [hwritten, cons_append, cons_append, nil_append, textBody, hescape]
      simp [ih hcontent]

theorem begins_text (h : ∀ c ∈ content, Writes (write c) c) (rest : List Char) :
    Begins (.ok (.text (String.ofList content)))
      ('"' :: content.flatMap write ++ ['"'] ++ rest) rest := by
  have hbody := textBody_append h rest
  have htext : '"' :: content.flatMap write ++ ['"'] ++ rest =
      '"' :: (content.flatMap write ++ '"' :: rest) := by simp
  have hcut : cut '"' (content.flatMap write ++ '"' :: rest) = cutText '"' _ := rfl
  refine ⟨_, _, htext, ?_⟩
  rw [hcut]
  unfold cutText
  dsimp only
  split
  next hending =>
    exact ⟨congrArg (fun body => Except.ok (Token.text (String.ofList body.content))) hbody,
      congrArg (fun body => body.rest.tail) hbody⟩
  all_goals
    rename_i hending
    rw [hbody] at hending
    cases hending

theorem says_text (h : ∀ c ∈ content, Writes (write c) c) :
    Says ('"' :: content.flatMap write ++ ['"']) [.text (String.ofList content)] :=
  fun rest => (begins_text h rest).said

/-- A text in quotes says the text, unless a character of it is given by its code point. -/
theorem says_quoted
    {text : String} (h : ∀ c ∈ text.toList, Text.quoteChar c ≠ Text.codePointEscape c) :
    Says (Text.quoted text).toList [.text text] := by
  have hwrites : ∀ c ∈ text.toList, Writes (Text.quoteChar c) c := by
    intro c hc
    by_cases hspecial : c ∈ ['\x00', '\t', '\r', '\n', '"', '\\']
    · simp only [mem_cons, not_mem_nil, or_false] at hspecial
      rcases hspecial with rfl | rfl | rfl | rfl | rfl | rfl
      all_goals exact .inr ⟨_, rfl, rfl⟩
    · have hescape := h c hc
      simp only [mem_cons, not_mem_nil, or_false, not_or] at hspecial
      obtain ⟨hnul, htab, hreturn, hline, hquote, hslash⟩ := hspecial
      simp only [Text.quoteChar, hnul, htab, hreturn, hline, hquote, hslash, if_false] at hescape ⊢
      split at hescape
      next => exact absurd rfl hescape
      next hshown =>
        rw [if_neg hshown]
        exact .inl ⟨rfl, by simp [hslash, hquote, hline, hreturn]⟩
  have hsays := says_text hwrites
  rw [String.ofList_toList] at hsays
  rwa [Text.quoted, String.toList_ofList]

/-- A text between quotes says itself if it has none of the characters that are escaped. -/
theorem says_plain {text : String} (h : ∀ c ∈ text.toList, c ∉ ['\\', '"', '\n', '\r']) :
    Says ('"' :: text.toList ++ ['"']) [.text text] := by
  have hwrites : ∀ c ∈ text.toList, Writes [c] c := fun c hc => .inl ⟨rfl, h c hc⟩
  have hsays := says_text hwrites
  rwa [String.ofList_toList, flatMap_singleton'] at hsays

/-! ## Tokens -/

theorem map_value_locate (start : Nat) (found : List Piece) :
    (locate start found).map (·.value) = found.map (·.outcome) := by
  induction found generalizing start with
  | nil => rfl
  | cons piece found ih => rw [locate, map_cons, map_cons, ih]

theorem exists_of_filter_counts
    {outcomes : List (Except LexFault Token)} (h : outcomes.filter counts = tokens.map .ok) :
    ∃ all : List Token, outcomes = all.map .ok ∧ all.filter (!·.isTrivia) = tokens := by
  induction outcomes generalizing tokens with
  | nil => exact ⟨[], rfl, (map_eq_nil_iff.1 h.symm).symm⟩
  | cons outcome outcomes ih =>
    by_cases hcounts : counts outcome
    · rw [filter_cons_of_pos hcounts] at h
      obtain ⟨first, tokens, rfl, rfl, hrest⟩ := map_eq_cons_iff.1 h.symm
      obtain ⟨all, rfl, hall⟩ := ih hrest.symm
      have hfirst : (!first.isTrivia) = true := hcounts
      exact ⟨first :: all, rfl, by rw [filter_cons, if_pos hfirst, hall]⟩
    · rw [filter_cons_of_neg hcounts] at h
      obtain ⟨all, rfl, hall⟩ := ih h
      cases outcome with
      | error fault => exact absurd rfl hcounts
      | ok token =>
        have htoken : ¬ (!token.isTrivia) = true := hcounts
        exact ⟨token :: all, rfl, by rw [filter_cons, if_neg htoken, hall]⟩

theorem exists_tokenize_of_outcomes (h : (pieces text).map (·.outcome) = tokens.map .ok) :
    ∃ found, tokenize text = .ok found ∧ found.map (·.value) = tokens := by
  have hvalues := (map_value_locate 0 (pieces text)).trans h
  simp only [tokenize_eq_ok_iff]
  clear h
  generalize locate 0 (pieces text) = outcomes at hvalues
  induction outcomes generalizing tokens with
  | nil => exact ⟨[], rfl, (map_eq_nil_iff.1 hvalues.symm).symm⟩
  | cons o outcomes ih =>
    obtain ⟨token, tokens, rfl, htoken, hmore⟩ := map_eq_cons_iff.1 hvalues.symm
    obtain ⟨found, rfl, rfl⟩ := ih hmore.symm
    refine ⟨⟨token, o.span⟩ :: found, ?_, rfl⟩
    rw [map_cons, Located.map, htoken]

/-- A text that says some tokens is free of faults, and they are its significant tokens. -/
theorem exists_tokenize_of_says (h : Says text tokens) :
    ∃ found, tokenize text = .ok found ∧ (significant found).map (·.value) = tokens := by
  have hsaid : said text = tokens.map .ok := by simpa [said_nil] using h []
  obtain ⟨all, hall, rfl⟩ := exists_of_filter_counts hsaid
  obtain ⟨found, hfound, rfl⟩ := exists_tokenize_of_outcomes hall
  refine ⟨found, hfound, ?_⟩
  rw [significant, filter_map]
  rfl

/-! ## Printed tokens -/

/-- The characters of a segment of a name. -/
def IsSegment : List Char → Prop
  | [] => False
  | c :: cs => isIdentStart c ∧ ∀ d ∈ cs, isIdentChar d

/-- Segments with dots between them. -/
def IsDotted (text : List Char) : Prop :=
  ∃ segments ≠ [], (∀ s ∈ segments, IsSegment s) ∧ text = ['.'].intercalate segments

theorem identTail_segment (hcs : ∀ d ∈ cs, isIdentChar d) (rest : List Char) :
    identTail (cs ++ rest) = (cs ++ (identTail rest).1, (identTail rest).2) := by
  induction cs with
  | nil => rfl
  | cons c cs ih =>
    obtain ⟨hc, hcs⟩ := forall_mem_cons.1 hcs
    cases hmore : cs ++ rest with
    | nil =>
      obtain ⟨rfl, rfl⟩ := append_eq_nil_iff.1 hmore
      simp [identTail, hc]
    | cons d more =>
      rw [cons_append, hmore, identTail, if_pos hc, ← hmore, ih hcs]
      rfl

theorem isName_segment (h : IsSegment s) : IsName s := by
  cases s with
  | nil => exact h
  | cons c cs =>
    have htail := identTail_segment h.2 []
    rw [identTail, append_nil] at htail
    exact ⟨h.1, htail⟩

theorem isName_segment_append (h : IsSegment s) (htext : IsName text) :
    IsName (s ++ '.' :: text) := by
  cases s with
  | nil => exact h.elim
  | cons c cs =>
    cases text with
    | nil => exact htext.elim
    | cons d ds =>
      have htail : identTail ('.' :: d :: ds) = ('.' :: d :: ds, []) := by
        rw [identTail, if_neg (by decide), if_pos (by simp [htext.1]), htext.2]
      refine ⟨h.1, ?_⟩
      rw [append_eq, identTail_segment h.2, htail]

theorem isName_of_isDotted (h : IsDotted text) : IsName text := by
  obtain ⟨segments, hne, hsegments, rfl⟩ := h
  induction segments with
  | nil => exact absurd rfl hne
  | cons s segments ih =>
    obtain ⟨hs, hmore⟩ := forall_mem_cons.1 hsegments
    cases segments with
    | nil => simpa [List.intercalate] using isName_segment hs
    | cons s' segments =>
      simpa [List.intercalate] using isName_segment_append hs (ih (by simp) hmore)

/-- How a character of a string is printed: as it is, unless it would end the string or its line, or
begin an escape. -/
def printChar (c : Char) : List Char :=
  if c = '\\' then ['\\', '\\']
  else if c = '"' then ['\\', '"']
  else if c = '\n' then ['\\', 'n']
  else if c = '\r' then ['\\', 'r']
  else [c]

theorem writes_printChar (c : Char) : Writes (printChar c) c := by
  by_cases hspecial : c ∈ ['\\', '"', '\n', '\r']
  · simp only [mem_cons, not_mem_nil, or_false] at hspecial
    rcases hspecial with rfl | rfl | rfl | rfl
    all_goals exact .inr ⟨_, rfl, rfl⟩
  · refine .inl ⟨?_, hspecial⟩
    simp only [mem_cons, not_mem_nil, or_false, not_or] at hspecial
    simp [printChar, hspecial]

/-- A token in print.  Trivia is not printed. -/
def printToken : Token → List Char
  | .identifier name => name.toList
  | .integer value => (Text.showInt64 value).toList
  | .text value => '"' :: value.toList.flatMap printChar ++ ['"']
  | .punct mark => [mark.char]
  | .comment _ | .blank | .newline => []

/-- Tokens in print, with one space between neighbours. -/
def printAll (tokens : List Token) : List Char := [' '].intercalate (tokens.map printToken)

/-- All tokens but trivia can be printed, if they are identifiers of segments. -/
def Printable : Token → Prop
  | .identifier name => IsDotted name.toList
  | .integer _ | .text _ | .punct _ => True
  | .comment _ | .blank | .newline => False

theorem begins_printToken (h : Printable token) (hstops : Stops rest) :
    Begins (.ok token) (printToken token ++ rest) rest := by
  cases token with
  | identifier name => exact begins_name (isName_of_isDotted h) hstops
  | integer value =>
    rw [printToken, Text.showInt64, ← Literal.text_decimal]
    exact begins_integer (Literal.value_decimal _) hstops
  | text value =>
    have hbegins := begins_text (fun c (_ : c ∈ value.toList) => writes_printChar c) rest
    rwa [String.ofList_toList] at hbegins
  | punct mark => exact begins_punct mark rest
  | comment body | blank | newline => exact h.elim

theorem not_isTrivia_of_printable (h : Printable token) : ¬token.isTrivia := by
  cases token <;> simp_all [Printable, Token.isTrivia]

theorem isTrivia_of_isBlank (hblank : Text.isBlank c) (h : (cut c cs).outcome = .ok token) :
    token.isTrivia := by
  have hbegins : ∃ rest token, Begins (.ok token) (c :: cs) rest ∧ token.isTrivia := by
    by_cases hline : c = '\n'
    · exact ⟨_, _, hline ▸ begins_newline cs, rfl⟩
    · exact ⟨_, _, begins_blank hblank hline cs, rfl⟩
  obtain ⟨_, found, ⟨_, _, ⟨⟩, houtcome, -⟩, htrivia⟩ := hbegins
  cases h.symm.trans houtcome
  exact htrivia

theorem stops_space (cs : List Char) : Stops (' ' :: cs) := by
  constructor <;> decide

theorem outcomes_printAll (h : ∀ t ∈ tokens, Printable t) :
    (pieces (printAll tokens)).map (·.outcome) = (tokens.intersperse .blank).map .ok := by
  induction tokens with
  | nil => simp [printAll, pieces]
  | cons t tokens ih =>
    obtain ⟨ht, hmore⟩ := forall_mem_cons.1 h
    cases tokens with
    | nil =>
      have htext : printAll [t] = printToken t ++ [] := by simp [printAll, List.intercalate]
      have hstops : Stops [] := trivial
      rw [htext, (begins_printToken ht hstops).outcomes, pieces]
      rfl
    | cons t' tokens =>
      have htext : printAll (t :: t' :: tokens) =
          printToken t ++ ' ' :: printAll (t' :: tokens) := by
        simp [printAll, List.intercalate]
      have hvalues := ih hmore
      have hspace : Begins (.ok .blank) (' ' :: printAll (t' :: tokens))
          (printAll (t' :: tokens)) := by
        have hbegins := begins_blank (c := ' ') (by decide) (by decide) (printAll (t' :: tokens))
        cases hprinted : printAll (t' :: tokens) with
        | nil => rwa [hprinted] at hbegins
        | cons c cs =>
          -- the next token does not begin with a blank, so the space stands alone
          have hhead : (cut c cs).outcome = .ok t' := by
            rw [hprinted, pieces] at hvalues
            cases tokens <;> exact (List.cons.inj hvalues).1
          have hblank : ¬Text.isBlank c := fun hblank => by
            have hprintable := (forall_mem_cons.1 hmore).1
            exact not_isTrivia_of_printable hprintable (isTrivia_of_isBlank hblank hhead)
          rw [hprinted, dropWhile_cons, if_neg (by simp [hblank])] at hbegins
          exact hbegins
      rw [htext, (begins_printToken ht (stops_space _)).outcomes, hspace.outcomes, hvalues]
      rfl

/-- A literal that stands alone is its value, or a fault if that does not fit 64 bits. -/
theorem ends_tokenize_literal (l : Literal) :
    Ends (fun found => ∃ n : Int64, n.toInt = l.value ∧ found.map (·.value) = [.integer n])
      (fun faults => (∀ n : Int64, n.toInt ≠ l.value) ∧
        faults.map (·.code.map Code.text) = [some "E004"])
      (tokenize l.text) := by
  have hstops : Stops [] := trivial
  have hbegins := (cut_literal l hstops).outcomes
  rw [append_nil] at hbegins
  cases hvalue : Text.int64? l.value with
  | some n =>
    have houtcomes : (pieces l.text).map (·.outcome) = [Token.integer n].map .ok := by
      rw [hbegins, hvalue]
      simp [pieces]
    obtain ⟨found, hfound, hvalues⟩ := exists_tokenize_of_outcomes houtcomes
    rw [hfound]
    exact .ok ⟨n, toInt_of_int64? hvalue, hvalues⟩
  | none =>
    have houtcomes : (pieces l.text).map (·.outcome) =
        [.error (.integerOutOfRange (byteSize l.text))] := by
      rw [hbegins, hvalue]
      simp [pieces]
    rw [← map_value_locate 0] at houtcomes
    obtain ⟨o, hlocate, ho⟩ := map_eq_singleton_iff.1 houtcomes
    cases htokens : tokenize l.text with
    | ok tokens =>
      rw [tokenize_eq_ok_iff.1 htokens] at hlocate
      obtain ⟨t, -, rfl⟩ := map_eq_singleton_iff.1 hlocate
      cases ho
    | error faults =>
      obtain ⟨hne, report, rfl, hreport⟩ := exists_of_tokenize_error htokens
      rw [hlocate] at hne ⊢
      cases hd : report o with
      | none => simp [hd] at hne
      | some d =>
        obtain ⟨fault, hfault, rfl⟩ := hreport o d hd
        obtain rfl := Except.error.inj (hfault.symm.trans ho)
        refine .error ⟨fun n hn => ?_, ?_⟩
        · rw [← hn, int64?_toInt] at hvalue
          cases hvalue
        · rw [filterMap_cons_some hd]
          rfl

/-- Printed tokens are read back as they were, with one blank between neighbours; and every integer
literal has its exact value, or does not fit 64 bits and is refused. -/
theorem tokenize_inverts_printing (h : ∀ t ∈ tokens, Printable t) (l : Literal) :
    (∃ found, tokenize (printAll tokens) = .ok found ∧
      found.map (·.value) = tokens.intersperse .blank) ∧
    Ends (fun found => ∃ n : Int64, n.toInt = l.value ∧ found.map (·.value) = [.integer n])
      (fun faults => (∀ n : Int64, n.toInt ≠ l.value) ∧
        faults.map (·.code.map Code.text) = [some "E004"])
      (tokenize l.text) :=
  ⟨exists_tokenize_of_outcomes (outcomes_printAll h), ends_tokenize_literal l⟩

/-- A name of two segments, the least integer, a string with every character that is escaped, and a
mark. -/
def mixedTokens : List Token :=
  [.identifier "pkg.v_1", .integer Int64.minValue, .text "\\\"\n\r\té", .punct .leftBrace]

/-- The least integer in hexadecimal digits. -/
def leastLiteral : Literal where
  sign := ['-']
  mark := ['0', 'x']
  digits := "8000000000000000".toList
  sign_mem := by decide
  mark_mem := by decide
  digits_ne_nil := by decide
  digits_valid := all_eq_true.1 (by decide : "8000000000000000".toList.all Text.isHexDigit)

theorem tokenize_inverts_printing_mixed :
    (∀ t ∈ mixedTokens, Printable t) ∧ leastLiteral.value = Int64.minValue.toInt ∧
      (∃ found, tokenize (printAll mixedTokens) = .ok found ∧
        found.map (·.value) = mixedTokens.intersperse .blank) ∧
      ∃ found, tokenize leastLiteral.text = .ok found ∧
        found.map (·.value) = [.integer Int64.minValue] := by
  have hname : IsDotted "pkg.v_1".toList :=
    ⟨["pkg".toList, "v_1".toList], by decide,
      forall_mem_cons.2 ⟨⟨by decide, all_eq_true.1 (by decide)⟩,
        forall_mem_singleton.2 ⟨by decide, all_eq_true.1 (by decide)⟩⟩, by decide⟩
  have hprintable : ∀ t ∈ mixedTokens, Printable t :=
    forall_mem_cons.2 ⟨hname, forall_mem_cons.2 ⟨trivial, forall_mem_cons.2
      ⟨trivial, forall_mem_singleton.2 trivial⟩⟩⟩
  have hvalue : leastLiteral.value = Int64.minValue.toInt := by decide
  obtain ⟨hfound, hliteral⟩ := tokenize_inverts_printing hprintable leastLiteral
  refine ⟨hprintable, hvalue, hfound, ?_⟩
  cases htokens : tokenize leastLiteral.text with
  | ok found =>
    obtain ⟨n, hn, hvalues⟩ := hliteral.of_ok htokens
    obtain rfl := Int64.toInt_inj.1 (hn.trans hvalue)
    exact ⟨found, rfl, hvalues⟩
  | error faults => exact ((hliteral.of_error htokens).1 _ hvalue.symm).elim

end Idl.Lexer
