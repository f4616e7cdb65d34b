import Idl.Token.Lexer

/-!
# Ranges of a text

A range lies in a text if it starts on a character boundary and does not end beyond the last byte.
The pieces of a text stand side by side, so both ends of every token are boundaries; a lexical fault
is reported inside its piece, from a boundary on.
-/

namespace Idl

open List

variable {source : String} {cs : List Char} {offset : Nat}
variable {fault : LexFault} {tokens : List (Located Token)} {span : Span} {piece : Piece}
  {text : List Char} {faults : List Diagnostic} {o : Located (Except LexFault Token)}

/-! ## Boundaries -/

theorem byteSize_append (cs ds : List Char) : byteSize (cs ++ ds) = byteSize cs + byteSize ds := by
  induction cs with
  | nil => simp [byteSize]
  | cons c cs ih => simp only [cons_append, byteSize, ih, Nat.add_assoc]

theorem byteSize_pos (h : text ≠ []) : 0 < byteSize text := by
  obtain ⟨c, cs, rfl⟩ := exists_cons_of_ne_nil h
  exact Nat.add_pos_left c.utf8Size_pos _

theorem utf8ByteSize_ofList (cs : List Char) : (String.ofList cs).utf8ByteSize = byteSize cs := by
  induction cs with
  | nil => rfl
  | cons c cs ih =>
    rw [String.ofList_cons, String.utf8ByteSize_append, String.utf8ByteSize_singleton, ih, byteSize]

/-- The offset stands between two characters of the text, or at one of its ends. -/
def IsBoundary (text : List Char) (offset : Nat) : Prop :=
  ∃ before, before <+: text ∧ byteSize before = offset

theorem isBoundary_zero (text : List Char) : IsBoundary text 0 :=
  ⟨[], nil_prefix, rfl⟩

theorem IsBoundary.le (h : IsBoundary text offset) : offset ≤ byteSize text := by
  obtain ⟨before, ⟨behind, rfl⟩, rfl⟩ := h
  rw [byteSize_append]
  exact Nat.le_add_right _ _

theorem IsBoundary.isValid (h : IsBoundary source.toList offset) :
    String.Pos.Raw.IsValid source ⟨offset⟩ := by
  obtain ⟨before, ⟨behind, hbehind⟩, rfl⟩ := h
  refine String.Pos.Raw.isValid_iff_exists_append.2
    ⟨String.ofList before, String.ofList behind, ?_, ?_⟩
  · rw [← String.ofList_append, hbehind, String.ofList_toList]
  · rw [← utf8ByteSize_ofList]
    rfl

namespace Span

/-- The range lies in the text, and starts on a character boundary. -/
structure InText (source : String) (span : Span) : Prop where
  ordered : span.start ≤ span.stop
  bounded : span.stop ≤ source.utf8ByteSize
  boundary : String.Pos.Raw.IsValid source ⟨span.start⟩

/-- The range starts and ends on a character boundary. -/
structure Aligned (text : List Char) (span : Span) : Prop where
  start : IsBoundary text span.start
  stop : IsBoundary text span.stop

theorem inText_of_boundary
    (hstart : IsBoundary source.toList span.start) (hstop : span.stop ≤ byteSize source.toList) :
    span.InText source where
  ordered := span.start_le_stop
  bounded := by rwa [← utf8ByteSize_ofList, String.ofList_toList] at hstop
  boundary := hstart.isValid

namespace Aligned

variable {text : List Char} {s t : Span}

theorem inText (h : s.Aligned source.toList) : s.InText source :=
  inText_of_boundary h.start h.stop.le

theorem point (h : IsBoundary text offset) : (Span.point offset).Aligned text :=
  ⟨h, h⟩

theorem default (text : List Char) : (default : Span).Aligned text :=
  point (isBoundary_zero text)

end Aligned

end Span

/-! ## Faults in a piece -/

/-- What holds of the one place that a diagnostic marks holds of all of its labels. -/
theorem Diagnostic.forall_labels
    {d : Diagnostic} (h : d.labels.map (·.span) = [span]) {P : Span → Prop} (hspan : P span) :
    ∀ label ∈ d.labels, P label.span := by
  intro label hlabel
  have hmem := mem_map_of_mem (f := (·.span)) hlabel
  rw [h] at hmem
  rwa [mem_singleton.1 hmem]

/-- A fault of a piece with the given text is reported at a range in it, which is not empty and
starts on a boundary. -/
def LexFault.Marks (text : List Char) (fault : LexFault) : Prop :=
  ∃ offset length, IsBoundary text offset ∧ 0 < length ∧ offset + length ≤ byteSize text ∧
    ∀ start, (fault.diagnostic start).labels.map (·.span) =
      [.between (start + offset) (start + offset + length)]

namespace Lexer

theorem textBody_rest_of_badEscape (h : (textBody cs).ending = .badEscape) :
    ∃ rest, (textBody cs).rest = '\\' :: rest := by
  fun_induction textBody cs <;> simp_all +zetaDelta

/-- What is cut off a text: a token or a fault, with its characters and what is left. -/
inductive Cuts (c : Char) (cs : List Char) :
    Except LexFault Token → List Char → List Char → Prop
  | comment (slash : c = '/') (another : cs.head? = some '/') :
    Cuts c cs (.ok (.comment (commentText (c :: cs.takeWhile (· != '\n')))))
      (c :: cs.takeWhile (· != '\n')) (cs.dropWhile (· != '\n'))
  | string (quote : c = '"') (ending : (textBody cs).ending = .closed) :
    Cuts c cs (.ok (.text (String.ofList (textBody cs).content)))
      (c :: (textBody cs).read ++ ['"']) (textBody cs).rest.tail
  | cutShort (quote : c = '"') (ending : (textBody cs).ending = .cutShort) :
    Cuts c cs (.error (.unterminatedString (1 + byteSize (textBody cs).read)))
      (c :: (textBody cs).read ++ (textBody cs).rest.take 1) ((textBody cs).rest.drop 1)
  | badEscape (quote : c = '"') (ending : (textBody cs).ending = .badEscape) :
    Cuts c cs (.error (.invalidEscape (1 + byteSize (textBody cs).read)))
      (c :: (textBody cs).read ++ (textBody cs).rest.take 2) ((textBody cs).rest.drop 2)
  | integer {n : Numeral} {value : Int64} (numeral : numeral? (c :: cs) = some n)
    (fits : Text.int64? n.value = some value) : Cuts c cs (.ok (.integer value)) n.read n.rest
  | outOfRange {n : Numeral} (numeral : numeral? (c :: cs) = some n) :
    Cuts c cs (.error (.integerOutOfRange (byteSize n.read))) (n.read ++ n.rest.take 1)
      (n.rest.drop 1)
  | identifier (start : isIdentStart c) :
    Cuts c cs (.ok (.identifier (String.ofList (c :: (identTail cs).1)))) (c :: (identTail cs).1)
      (identTail cs).2
  | punct {mark : Punct} (is : Punct.ofChar? c = some mark) : Cuts c cs (.ok (.punct mark)) [c] cs
  | newline (feed : c = '\n') : Cuts c cs (.ok .newline) [c] cs
  | blank (blank : Text.isBlank c) (other : c ≠ '\n') :
    Cuts c cs (.ok .blank) (c :: cs.takeWhile fun d => Text.isBlank d && d != '\n')
      (cs.dropWhile fun d => Text.isBlank d && d != '\n')
  | other : Cuts c cs (.error .unexpectedCharacter) [c] cs

theorem cuts_of_cut
    {c : Char} {outcome : Except LexFault Token} (h : (cut c cs).outcome = outcome) :
    Cuts c cs outcome (cut c cs).text (cut c cs).rest := by
  subst h
  fun_cases cut c cs with
  | case1 hcomment =>
    simp only [Bool.and_eq_true, decide_eq_true_eq] at hcomment
    exact .comment hcomment.1 hcomment.2
  | case2 _ hquote =>
    unfold cutText
    dsimp only
    split
    next hending => exact .string hquote hending
    next hending => exact .cutShort hquote hending
    next hending => exact .badEscape hquote hending
  | case3 _ _ n hn _ value hvalue => exact .integer hn hvalue
  | case4 _ _ n hn => exact .outOfRange hn
  | case5 _ _ _ hident => exact .identifier hident
  | case6 _ _ _ _ mark hmark => exact .punct hmark
  | case7 _ _ _ _ _ hline => exact .newline hline
  | case8 _ _ _ _ _ hline hblank => exact .blank hblank hline
  | case9 => exact .other

/-- A quote has one byte, so the offsets of a fault in a string are those of characters. -/
theorem Cuts.marks {c : Char} {text rest : List Char} (h : Cuts c cs (.error fault) text rest) :
    fault.Marks text := by
  have hquote : ∀ ds, byteSize ('"' :: ds) = 1 + byteSize ds := fun _ => rfl
  cases h with
  | cutShort quote ending =>
    refine ⟨0, 1 + byteSize (textBody cs).read, isBoundary_zero _, by omega, ?_, fun start => rfl⟩
    rw [quote, byteSize_append, hquote]
    omega
  | badEscape quote ending =>
    obtain ⟨rest, hrest⟩ := textBody_rest_of_badEscape ending
    have hslash : 1 ≤ byteSize ((textBody cs).rest.take 2) := by
      rw [hrest, take_succ_cons, byteSize]
      exact Nat.le_add_right _ _
    refine ⟨1 + byteSize (textBody cs).read, 1, ⟨c :: (textBody cs).read, ?_, ?_⟩, Nat.one_pos,
      ?_, fun start => rfl⟩
    · exact prefix_append _ _
    · rw [quote, hquote]
    · rw [quote, byteSize_append, hquote]
      omega
  | outOfRange hn =>
    refine ⟨0, _, isBoundary_zero _, byteSize_pos (numeral?_eq_some hn).2, ?_, fun start => rfl⟩
    rw [byteSize_append]
    omega
  | other =>
    refine ⟨0, 1, isBoundary_zero _, Nat.one_pos, ?_, fun start => rfl⟩
    have hsize := c.utf8Size_pos
    rw [byteSize]
    omega

/-! ## Pieces of a text -/

theorem flatMap_text_pieces (cs : List Char) : (pieces cs).flatMap (·.text) = cs := by
  fun_induction pieces cs with
  | case1 => rfl
  | case2 c cs first ih => rw [flatMap_cons, ih, first.text_append_rest]

theorem exists_cut_of_mem_pieces (h : piece ∈ pieces cs) :
    ∃ c ds, piece = ⟨(cut c ds).outcome, (cut c ds).text⟩ := by
  fun_induction pieces cs with
  | case1 => cases h
  | case2 c cs first ih =>
    rcases mem_cons.1 h with rfl | h
    · exact ⟨c, cs, rfl⟩
    · exact ih h

theorem marks_of_pieces (hpiece : piece ∈ pieces cs) (h : piece.outcome = .error fault) :
    fault.Marks piece.text := by
  obtain ⟨c, ds, rfl⟩ := exists_cut_of_mem_pieces hpiece
  exact (cuts_of_cut h).marks

theorem exists_piece_of_locate {start : Nat} {ps : List Piece} (h : o ∈ locate start ps) :
    ∃ before piece behind, ps = before ++ piece :: behind ∧ o.value = piece.outcome ∧
      o.span = .between (start + byteSize (before.flatMap (·.text)))
        (start + byteSize (before.flatMap (·.text)) + byteSize piece.text) := by
  induction ps generalizing start with
  | nil => cases h
  | cons p ps ih =>
    rcases mem_cons.1 h with rfl | h
    · exact ⟨[], p, ps, rfl, rfl, rfl⟩
    · obtain ⟨before, piece, behind, rfl, hvalue, hspan⟩ := ih h
      refine ⟨p :: before, piece, behind, rfl, hvalue, ?_⟩
      rw [hspan, flatMap_cons, byteSize_append, ← Nat.add_assoc]

theorem exists_piece_of_mem {source : List Char} (h : o ∈ locate 0 (pieces source)) :
    ∃ before behind, ∃ piece ∈ pieces source, source = before ++ piece.text ++ behind ∧
      o.value = piece.outcome ∧
      o.span = .between (byteSize before) (byteSize before + byteSize piece.text) := by
  obtain ⟨before, piece, behind, hpieces, hvalue, hspan⟩ := exists_piece_of_locate h
  refine ⟨before.flatMap (·.text), behind.flatMap (·.text), piece, by simp [hpieces], ?_, hvalue,
    by simpa using hspan⟩
  rw [← flatMap_text_pieces source, hpieces]
  simp

theorem tokenize_eq_ok_iff {source : List Char} :
    tokenize source = .ok tokens ↔ locate 0 (pieces source) = tokens.map (·.map .ok) := by
  unfold tokenize
  generalize locate 0 (pieces source) = outcomes
  constructor
  · intro h
    dsimp only at h
    split at h
    next hnone =>
      cases h
      rw [List.isEmpty_iff, filterMap_eq_nil_iff] at hnone
      induction outcomes with
      | nil => rfl
      | cons o outcomes ih =>
        obtain ⟨ho, hmore⟩ := forall_mem_cons.1 hnone
        obtain ⟨value, span⟩ := o
        cases value with
        | error fault => cases ho
        | ok token => exact congrArg (_ :: ·) (ih hmore)
    next => cases h
  · rintro rfl
    simp [filterMap_map, Function.comp_def, Located.map]

theorem exists_of_tokenize_error {source : List Char} (h : tokenize source = .error faults) :
    faults ≠ [] ∧ ∃ report : Located (Except LexFault Token) → Option Diagnostic,
      faults = (locate 0 (pieces source)).filterMap report ∧
      ∀ o d, report o = some d → ∃ fault, o.value = .error fault ∧
        d = fault.diagnostic o.span.start := by
  simp only [tokenize] at h
  split at h
  next => cases h
  next hsome =>
    obtain rfl := Except.error.inj h
    refine ⟨fun hnil => hsome (List.isEmpty_iff.2 hnil), _, rfl, fun o d hd => ?_⟩
    split at hd
    next fault hfault => exact ⟨fault, hfault, (Option.some.inj hd).symm⟩
    next => cases hd

theorem exists_piece_of_tokenize
    {source : List Char} (h : tokenize source = .ok tokens) {t : Located Token} (ht : t ∈ tokens) :
    ∃ before behind, ∃ piece ∈ pieces source, source = before ++ piece.text ++ behind ∧
      piece.outcome = .ok t.value ∧
      t.span = .between (byteSize before) (byteSize before + byteSize piece.text) := by
  have hmem : t.map .ok ∈ locate 0 (pieces source) :=
    tokenize_eq_ok_iff.1 h ▸ mem_map_of_mem ht
  obtain ⟨before, behind, piece, hpiece, hsource, hvalue, hspan⟩ := exists_piece_of_mem hmem
  exact ⟨before, behind, piece, hpiece, hsource, hvalue.symm, hspan⟩

/-- Both ends of every token of a text are character boundaries. -/
theorem aligned_of_tokenize {source : List Char} (h : tokenize source = .ok tokens) :
    ∀ t ∈ tokens, t.span.Aligned source := by
  intro t ht
  obtain ⟨before, behind, piece, -, hsource, -, hspan⟩ := exists_piece_of_tokenize h ht
  rw [hspan]
  refine ⟨⟨before, ?_, rfl⟩, ⟨before ++ piece.text, ?_, ?_⟩⟩
  · rw [hsource, append_assoc]
    exact prefix_append _ _
  · rw [hsource]
    exact prefix_append _ _
  · rw [byteSize_append]
    exact (Nat.max_eq_right (Nat.le_add_right _ _)).symm

/-- Every lexical fault of a text is reported at a range of the text. -/
theorem inText_of_tokenize (h : tokenize source.toList = .error faults) :
    ∀ d ∈ faults, ∀ label ∈ d.labels, label.span.InText source := by
  obtain ⟨-, report, rfl, hreport⟩ := exists_of_tokenize_error h
  intro d hd
  obtain ⟨o, ho, heq⟩ := mem_filterMap.1 hd
  obtain ⟨fault, hfault, rfl⟩ := hreport o d heq
  obtain ⟨before, behind, piece, hpiece, hsource, hvalue, hspan⟩ := exists_piece_of_mem ho
  obtain ⟨offset, length, ⟨read, hread, rfl⟩, -, hlength, hlabels⟩ :=
    marks_of_pieces hpiece (hvalue.symm.trans hfault)
  have hstart : o.span.start = byteSize before := congrArg Span.start hspan
  rw [hstart]
  refine Diagnostic.forall_labels (hlabels _) ?_
  refine Span.inText_of_boundary ⟨before ++ read, ?_, byteSize_append _ _⟩ ?_
  · rw [hsource, append_assoc, prefix_append_right_inj]
    exact hread.trans (prefix_append _ _)
  · rw [hsource, byteSize_append, byteSize_append]
    simp only [Span.between]
    omega

end Lexer

end Idl
