import Idl.Comment
import Idl.Proofs.Source.Lines
import Idl.Proofs.Token.Printing

/-!
# Comments of a text

The tokens of a text cover it one behind the other, and only two kinds of them matter for lines: a
line feed is a token of its own, and a comment goes on up to the next one.  So the comments that are
collected from the tokens are those of the text, one on a line at most, each with its line, and each
marked as alone on its line if there is nothing but blanks before it.
-/

namespace Idl

open List

variable {source before text rest cs : List Char} {token : Token} {tokens : List (Located Token)}
  {c : Char} {behind : List Char}

/-! ## Characters of tokens -/

/-- The token is written with the given characters, and the others follow it. -/
def Token.Covers (text rest : List Char) : Token → Prop
  | newline => text = ['\n']
  | blank => '\n' ∉ text ∧ ∀ c ∈ text, Text.isBlank c
  | comment body => '\n' ∉ text ∧ (∀ c ∈ rest.head?, c = '\n') ∧
      ∃ returns, text = body.toList ++ returns ∧ ∀ c ∈ returns, c = '\r'
  | identifier _ | integer _ | Token.text _ | punct _ =>
    '\n' ∉ text ∧ ∃ c ∈ text, Text.isBlank c = false

namespace Lexer

theorem isBlank_eq_false (h : isIdentChar c ∨ c = '.' ∨ c = '+' ∨ c = '-') :
    Text.isBlank c = false := by
  by_contra hblank
  obtain ⟨-, -, hdigit, hplus, hminus, hident, -⟩ :=
    kind_of_isBlank (Bool.not_eq_false _ ▸ hblank)
  rcases h with h | rfl | rfl | rfl
  · simp [isIdentChar, hident, hdigit] at h
  · exact hblank (by decide)
  · exact hplus rfl
  · exact hminus rfl

theorem isIdentChar_of_mem_identTail (h : c ∈ (identTail cs).1) : isIdentChar c ∨ c = '.' := by
  fun_induction identTail cs with
  | case1 | case3 c hc | case6 c d cs hc hd => cases h
  | case2 d hd => exact .inl (mem_singleton.1 h ▸ hd)
  | case4 d e cs hd read tail hread ih =>
    rw [hread] at ih
    rcases mem_cons.1 h with rfl | h
    · exact .inl hd
    · exact ih h
  | case5 d e cs hd he read tail hread ih =>
    rw [hread] at ih
    simp only [Bool.and_eq_true, decide_eq_true_eq] at he
    rcases mem_cons.1 h with rfl | h
    · exact .inr he.1
    · rcases mem_cons.1 h with rfl | h
      · exact .inl (by simp [isIdentChar, he.2])
      · exact ih h

theorem isBlank_of_mem_literal (l : Literal) (h : c ∈ l.text) : Text.isBlank c = false := by
  apply isBlank_eq_false
  rcases mem_append.1 h with h | h
  · have hsign := l.sign_mem
    simp only [mem_cons, not_mem_nil, or_false] at hsign
    rcases hsign with hsign | hsign | hsign <;> simp_all
  rcases mem_append.1 h with h | h
  · have hmark := l.mark_mem
    simp only [mem_cons, not_mem_nil, or_false] at hmark
    rcases hmark with hmark | hmark | hmark <;> simp_all <;> rcases h with rfl | rfl <;> decide
  · have hdigit := l.digits_valid c h
    split at hdigit
    · exact .inl (isIdentChar_of_isDigit c hdigit)
    · exact .inl (isIdentChar_of_isHexDigit c hdigit)

/-- A string does not go beyond its line. -/
theorem lineFeed_notMem_textBody (cs : List Char) : '\n' ∉ (textBody cs).read := by
  fun_induction textBody cs with
  | case1 | case3 | case4 | case5 | case6 => exact not_mem_nil
  | case2 c cs e he body ih =>
    have hc : c ≠ '\n' := by
      rintro rfl
      cases he
    simp only [mem_cons, not_or]
    exact ⟨by decide, hc.symm, ih⟩
  | case7 c cs _ hslash hquote hend body ih =>
    simp only [Bool.or_eq_true, decide_eq_true_eq, not_or] at hend
    simp only [mem_cons, not_or]
    exact ⟨Ne.symm hend.1, ih⟩

theorem covers_comment (hrest : ∀ c ∈ rest.head?, c = '\n') (htext : '\n' ∉ text) :
    (Token.comment (commentText text)).Covers text rest := by
  refine ⟨htext, hrest, (text.reverse.takeWhile (· == '\r')).reverse, ?_, fun c hc => ?_⟩
  · rw [commentText, String.toList_ofList, Text.dropEndWhile, ← reverse_append,
      takeWhile_append_dropWhile, reverse_reverse]
  · simpa using mem_takeWhile_imp (mem_reverse.1 hc)

/-- No character of it is blank. -/
theorem covers_of_not_blank (hne : text ≠ []) (h : ∀ c ∈ text, Text.isBlank c = false) :
    '\n' ∉ text ∧ ∃ c ∈ text, Text.isBlank c = false := by
  obtain ⟨c, hc⟩ := exists_mem_of_ne_nil _ hne
  exact ⟨fun hmem => absurd (h _ hmem) (by decide), c, hc, h c hc⟩

theorem Cuts.covers (h : Cuts c cs (.ok token) text rest) : token.Covers text rest := by
  cases h with
  | comment hslash hanother =>
    refine covers_comment (fun d hd => ?_) ?_
    · have hhead := head?_dropWhile_not (· != '\n') cs
      rw [Option.mem_def.1 hd] at hhead
      simpa using hhead
    · simp only [hslash, mem_cons, not_or]
      exact ⟨by decide, fun hmem => absurd (mem_takeWhile_imp hmem) (by decide)⟩
  | string hquote hclosed =>
    subst hquote
    refine ⟨?_, '"', mem_cons_self, by decide⟩
    simp [lineFeed_notMem_textBody]
  | integer hn hvalue =>
    obtain ⟨l, hread, -⟩ := exists_literal_of_numeral? hn
    exact covers_of_not_blank (numeral?_eq_some hn).2 fun d hd =>
      isBlank_of_mem_literal l (hread ▸ hd)
  | identifier hident =>
    refine covers_of_not_blank (cons_ne_nil _ _) (forall_mem_cons.2 ⟨?_, fun d hd => ?_⟩)
    · exact isBlank_eq_false (.inl (by simp [isIdentChar, hident]))
    · exact isBlank_eq_false ((isIdentChar_of_mem_identTail hd).imp_right .inl)
  | punct hmark =>
    refine covers_of_not_blank (cons_ne_nil _ _) (forall_mem_singleton.2 ?_)
    by_contra hblank
    obtain ⟨-, -, -, -, -, -, hnone⟩ := kind_of_isBlank (Bool.not_eq_false _ ▸ hblank)
    rw [hmark] at hnone
    cases hnone
  | newline hline => exact congrArg ([·]) hline
  | blank hblank hline =>
    have htail : ∀ d ∈ cs.takeWhile (fun d => Text.isBlank d && d != '\n'),
        Text.isBlank d ∧ d ≠ '\n' := fun d hd => by simpa using mem_takeWhile_imp hd
    refine ⟨fun hmem => ?_, forall_mem_cons.2 ⟨hblank, fun d hd => (htail d hd).1⟩⟩
    rcases mem_cons.1 hmem with heq | hmem
    · exact hline heq.symm
    · exact (htail _ hmem).2 rfl

end Lexer

/-- The tokens cover the characters one behind the other, where others come before them. -/
inductive Covered : List Char → List Char → List (Located Token) → Prop
  | nil {before : List Char} : Covered before [] []
  | cons {before text rest : List Char} {token : Token} {tokens : List (Located Token)}
    (ne_nil : text ≠ []) (covers : token.Covers text rest)
    (more : Covered (before ++ text) rest tokens) :
    Covered before (text ++ rest)
      (⟨token, .between (byteSize before) (byteSize before + byteSize text)⟩ :: tokens)

theorem Lexer.covered_of_locate (cs : List Char) :
    ∀ before tokens, locate (byteSize before) (pieces cs) = tokens.map (·.map .ok) →
      Covered before cs tokens := by
  fun_induction pieces cs with
  | case1 =>
    intro before tokens h
    obtain rfl := map_eq_nil_iff.1 h.symm
    exact .nil
  | case2 c cs first ih =>
    intro before tokens h
    cases tokens with
    | nil => cases h
    | cons t tokens =>
      obtain ⟨token, span⟩ := t
      obtain ⟨hfirst, hmore⟩ := cons.inj h
      obtain ⟨houtcome, rfl⟩ := Located.mk.inj hfirst
      rw [← byteSize_append] at hmore
      have hcovered := Covered.cons first.text_ne_nil (cuts_of_cut houtcome).covers
        (ih _ _ hmore)
      rwa [first.text_append_rest] at hcovered

theorem Lexer.covered_of_tokenize (h : tokenize cs = .ok tokens) : Covered [] cs tokens :=
  covered_of_locate cs [] tokens (tokenize_eq_ok_iff.1 h)

/-! ## Lines -/

/-- What stands on the last line of some characters. -/
def lastLine (before : List Char) : List Char := (before.reverse.takeWhile (· != '\n')).reverse

theorem lastLine_append (h : '\n' ∉ text) :
    lastLine (before ++ text) = lastLine before ++ text := by
  have htext : ∀ c ∈ text.reverse, (c != '\n') = true := fun c hc =>
    bne_iff_ne.2 fun heq => h (heq ▸ mem_reverse.1 hc)
  rw [lastLine, lastLine, reverse_append, takeWhile_append_of_pos htext, reverse_append,
    reverse_reverse]

theorem lastLine_lineFeed (before : List Char) : lastLine (before ++ ['\n']) = [] := by
  simp [lastLine]

namespace LineIndex

theorem length_bytes (cs : List Char) : (bytes cs).length = byteSize cs := by
  induction cs with
  | nil => rfl
  | cons c cs ih => rw [bytes_cons, length_append, String.length_utf8EncodeChar, ih, byteSize]

theorem count_bytes (cs : List Char) : (bytes cs).count lineFeed = cs.count '\n' := by
  induction cs with
  | nil => rfl
  | cons c cs ih =>
    rw [bytes_cons, count_append, ih, count_cons, Nat.add_comm]
    congr 1
    by_cases hc : c = '\n'
    · subst hc
      decide
    · rw [count_eq_zero.2 (lineFeed_notMem_utf8EncodeChar hc), if_neg (by simpa using hc)]

theorem lineFeedsBelow_eq_count {source : String} (h : source.toList = before ++ behind) :
    lineFeedsBelow source (byteSize before) = before.count '\n' := by
  rw [lineFeedsBelow, toList_toUTF8, h, bytes, flatMap_append, ← length_bytes]
  exact (congrArg (count lineFeed) take_left).trans (count_bytes before)

end LineIndex

/-! ## Comments -/

namespace Comment

/-- The comment is written in the text at its start, up to the end of its line, where carriage
returns do not count; and it is told apart whether there is anything but blanks before it. -/
def IsWritten (source : String) (c : Comment) : Prop :=
  ∃ before returns behind, source.toList = before ++ (c.text.toList ++ returns) ++ behind ∧
    byteSize before = c.start ∧ (∀ d ∈ returns, d = '\r') ∧ (∀ d ∈ behind.head?, d = '\n') ∧
    (c.ownLine ↔ ∀ d ∈ lastLine before, Text.isBlank d)

/-- A comment of the text: a token of it, with its line and its characters. -/
structure IsOf (source : String) (c : Comment) : Prop where
  token : ∃ tokens span, Lexer.tokenize source.toList = .ok tokens ∧
    ⟨.comment c.text, span⟩ ∈ tokens ∧ span.start = c.start
  line : c.line = LineIndex.lineFeedsBelow source c.start + 1
  written : c.IsWritten source

variable {source : String} {code : Bool} {c : Comment}

/-- Whether the line has had more than blanks and comments behind a token. -/
def codeAfter (code : Bool) : Token → Bool
  | .newline => false
  | .blank | .comment _ => code
  | _ => true

theorem collect_cons (index : LineIndex) (t : Located Token) :
    collect index code (t :: tokens) =
      (match t.value with
        | .comment text => [⟨t.span.start, index.line t.span.start, text, !code⟩]
        | _ => []) ++ collect index (codeAfter code t.value) tokens := by
  obtain ⟨token, span⟩ := t
  cases token <;> rfl

/-- It is known whether there is anything but blanks before what comes next, unless this is the end
of the line. -/
def Knows (code : Bool) (before cs : List Char) : Prop :=
  (∀ c ∈ cs.head?, c = '\n') ∨ (code = false ↔ ∀ d ∈ lastLine before, Text.isBlank d)

theorem Knows.resolve (h : Knows code before (text ++ rest)) (hne : text ≠ [])
    (htext : '\n' ∉ text) :
    code = false ↔ ∀ d ∈ lastLine before, Text.isBlank d := by
  rcases h with h | h
  · obtain ⟨d, text, rfl⟩ := exists_cons_of_ne_nil hne
    exact absurd (h d rfl ▸ mem_cons_self) htext
  · exact h

theorem Knows.next
    (h : Knows code before (text ++ rest)) (hne : text ≠ []) (hcovers : token.Covers text rest) :
    Knows (codeAfter code token) (before ++ text) rest := by
  cases token with
  | newline =>
    cases hcovers
    exact .inr (by simp [codeAfter, lastLine_lineFeed])
  | blank =>
    obtain ⟨htext, hblank⟩ := hcovers
    refine .inr ((h.resolve hne htext).trans ?_)
    rw [lastLine_append htext, forall_mem_append]
    exact ⟨fun h => ⟨h, hblank⟩, And.left⟩
  | comment body => exact .inl hcovers.2.1
  | identifier | integer | text | punct =>
    obtain ⟨htext, d, hd, hblank⟩ := hcovers
    refine .inr ⟨nofun, fun h => ?_⟩
    rw [lastLine_append htext] at h
    exact absurd (h d (mem_append_right _ hd)) (by simp [hblank])

theorem isWritten_of_mem_collect
    (h : Covered before cs tokens) (hsource : source.toList = before ++ cs)
    (hcode : Knows code before cs) (hc : c ∈ collect (.ofText source) code tokens) :
    byteSize before ≤ c.start ∧ c.line = LineIndex.lineFeedsBelow source c.start + 1 ∧
      c.IsWritten source := by
  induction h generalizing code with
  | nil => cases hc
  | @cons before text rest token tokens hne hcovers _ ih =>
    rw [collect_cons] at hc
    rcases mem_append.1 hc with hc | hc
    · cases token with
      | comment body =>
        obtain rfl := mem_singleton.1 hc
        obtain ⟨htext, hrest, returns, rfl, hreturns⟩ := hcovers
        refine ⟨Nat.le_refl _, LineIndex.line_eq source _, before, returns, rest, ?_, rfl, hreturns,
          hrest, ?_⟩
        · exact hsource.trans (append_assoc _ _ _).symm
        · rw [Bool.not_eq_true']
          exact hcode.resolve hne htext
      | _ => cases hc
    · obtain ⟨hle, hwritten⟩ := ih (by rw [hsource, append_assoc]) (hcode.next hne hcovers) hc
      rw [byteSize_append] at hle
      exact ⟨Nat.le_of_add_right_le hle, hwritten⟩

/-- Where a line ends, the next comment is on another one. -/
theorem lt_line_of_mem_collect
    (h : Covered before cs tokens) (hsource : source.toList = before ++ cs)
    (hcs : ∀ d ∈ cs.head?, d = '\n') (hc : c ∈ collect (.ofText source) code tokens) :
    LineIndex.lineFeedsBelow source (byteSize before) + 1 < c.line := by
  cases h with
  | nil => cases hc
  | @cons _ text rest token tokens hne hcovers hmore =>
    obtain ⟨d, text, rfl⟩ := exists_cons_of_ne_nil hne
    obtain rfl := hcs d rfl
    cases token with
    | newline =>
      cases hcovers
      have hbehind : source.toList = (before ++ ['\n']) ++ rest := by
        rw [hsource, append_assoc]
      obtain ⟨hle, hline, -⟩ := isWritten_of_mem_collect hmore hbehind
        (.inr (by simp [lastLine_lineFeed])) hc
      have hmono := LineIndex.monotone_line source hle
      rw [LineIndex.line_eq, LineIndex.line_eq, LineIndex.lineFeedsBelow_eq_count hbehind,
        count_append, count_singleton_self] at hmono
      rw [hline, LineIndex.lineFeedsBelow_eq_count hsource]
      omega
    | blank | comment | identifier | integer | text | punct =>
      exact absurd mem_cons_self hcovers.1

theorem pairwise_line_collect
    (h : Covered before cs tokens) (hsource : source.toList = before ++ cs) (code : Bool) :
    (collect (.ofText source) code tokens).Pairwise fun c c' => c.line < c'.line := by
  induction h generalizing code with
  | nil => exact .nil
  | @cons before text rest token tokens hne hcovers hmore ih =>
    have hbehind : source.toList = (before ++ text) ++ rest := by rw [hsource, append_assoc]
    rw [collect_cons]
    cases token with
    | comment body =>
      obtain ⟨htext, hrest, -⟩ := hcovers
      refine pairwise_cons.2 ⟨fun c' hc' => ?_, ih hbehind _⟩
      have hline := lt_line_of_mem_collect hmore hbehind hrest hc'
      rw [LineIndex.lineFeedsBelow_eq_count hbehind, count_append, count_eq_zero.2 htext,
        Nat.add_zero, ← LineIndex.lineFeedsBelow_eq_count hsource] at hline
      rw [LineIndex.line_eq]
      exact hline
    | _ => exact ih hbehind _

theorem exists_of_mem_tokens
    {text : String} {span : Span} (index : LineIndex) (code : Bool)
    (h : ⟨.comment text, span⟩ ∈ tokens) :
    ∃ c ∈ collect index code tokens, c.text = text ∧ c.start = span.start := by
  induction tokens generalizing code with
  | nil => cases h
  | cons t tokens ih =>
    rw [collect_cons]
    rcases mem_cons.1 h with rfl | h
    · exact ⟨_, mem_append_left _ (mem_singleton_self _), rfl, rfl⟩
    · obtain ⟨c, hc, heq⟩ := ih _ h
      exact ⟨c, mem_append_right _ hc, heq⟩

theorem exists_token_of_mem_collect
    {index : LineIndex} (h : c ∈ collect index code tokens) :
    ∃ span, ⟨.comment c.text, span⟩ ∈ tokens ∧ span.start = c.start := by
  induction tokens generalizing code with
  | nil => cases h
  | cons t tokens ih =>
    rw [collect_cons] at h
    rcases mem_append.1 h with h | h
    · obtain ⟨token, span⟩ := t
      cases token with
      | comment body =>
        obtain rfl := mem_singleton.1 h
        exact ⟨span, mem_cons_self, rfl⟩
      | _ => cases h
    · obtain ⟨span, hspan, hstart⟩ := ih h
      exact ⟨span, mem_cons_of_mem _ hspan, hstart⟩

/-- A place in a text is told by the bytes before it. -/
theorem eq_of_byteSize_eq
    {before' behind' : List Char} (h : before ++ behind = before' ++ behind')
    (hsize : byteSize before = byteSize before') : before = before' := by
  have hnil : ∀ {cs : List Char}, byteSize cs = 0 → cs = [] := fun {cs} hcs => by
    by_contra hne
    exact absurd (byteSize_pos hne) (by omega)
  rcases append_eq_append_iff.1 h with ⟨more, rfl, -⟩ | ⟨more, rfl, -⟩
  all_goals
    rw [byteSize_append] at hsize
    rw [hnil (show byteSize more = 0 by omega), append_nil]

theorem IsOf.ext
    {c' : Comment} (h : c.IsOf source) (h' : c'.IsOf source) (hstart : c.start = c'.start)
    (htext : c.text = c'.text) : c = c' := by
  obtain ⟨before, returns, behind, hsource, hbefore, -, -, hown⟩ := h.written
  obtain ⟨before', returns', behind', hsource', hbefore', -, -, hown'⟩ := h'.written
  have hline : c.line = c'.line := by rw [h.line, h'.line, hstart]
  have hsame : before = before' := by
    rw [append_assoc] at hsource hsource'
    exact eq_of_byteSize_eq (hsource.symm.trans hsource') (by rw [hbefore, hbefore', hstart])
  have howns : c.ownLine = c'.ownLine := by
    rw [Bool.eq_iff_iff, hown, hown', hsame]
  obtain ⟨_, _, _, _⟩ := c
  cases hstart
  cases hline
  cases htext
  cases howns
  rfl

/-- The comments that are collected from the tokens of a text are those of the text. -/
theorem mem_collect_iff (htokens : Lexer.tokenize source.toList = .ok tokens) :
    c ∈ collect (.ofText source) false tokens ↔ c.IsOf source := by
  have hcovered := Lexer.covered_of_tokenize htokens
  have hisOf : ∀ c ∈ collect (.ofText source) false tokens, c.IsOf source := by
    intro c hc
    obtain ⟨span, hspan, hstart⟩ := exists_token_of_mem_collect hc
    obtain ⟨-, hline, hwritten⟩ := isWritten_of_mem_collect hcovered rfl
      (.inr ⟨fun _ => forall_mem_nil _, fun _ => rfl⟩) hc
    exact ⟨⟨tokens, span, htokens, hspan, hstart⟩, hline, hwritten⟩
  constructor
  · exact hisOf c
  intro h
  obtain ⟨tokens', span, htokens', hspan, hstart⟩ := h.token
  cases htokens.symm.trans htokens'
  obtain ⟨c', hc', htext, hstart'⟩ := exists_of_mem_tokens (.ofText source) false hspan
  rwa [h.ext (hisOf c' hc') (hstart.symm.trans hstart'.symm) htext.symm]

end Comment

end Idl
