import Idl.Proofs.Except
import Idl.Proofs.Token.Ranges

/-!
# Tokens side by side

The pieces of a text are not empty, and side by side they are the text again.  So the ranges of its
tokens tile a text, and its faults, each reported inside its own piece, are reported from left to
right.  Each round of the scanner takes at least one character, so there are at most as many rounds
as characters.
-/

namespace Idl

open List

/-! ## Ranges that tile a text -/

namespace Span

variable {start stop : Nat} {spans : List Span}

/-- The ranges are not empty, and stand side by side from `start` to `stop`. -/
def Tile (start : Nat) : List Span → Nat → Prop
  | [], stop => start = stop
  | s :: spans, stop => s.start = start ∧ s.start < s.stop ∧ Tile s.stop spans stop

namespace Tile

theorem bounds (h : Tile start spans stop) :
    start ≤ stop ∧ ∀ s ∈ spans, start ≤ s.start ∧ s.start < stop := by
  induction spans generalizing start with
  | nil => exact ⟨Nat.le_of_eq h, forall_mem_nil _⟩
  | cons s spans ih =>
    obtain ⟨rfl, hlt, hmore⟩ := h
    obtain ⟨hle, hbehind⟩ := ih hmore
    refine ⟨by omega, forall_mem_cons.2 ⟨by omega, fun t ht => ?_⟩⟩
    have hbounds := hbehind t ht
    omega

theorem pairwise (h : Tile start spans stop) :
    spans.Pairwise fun s t => s.start < s.stop ∧ s.stop ≤ t.start := by
  induction spans generalizing start with
  | nil => exact .nil
  | cons s spans ih =>
    obtain ⟨-, hlt, hmore⟩ := h
    exact pairwise_cons.2 ⟨fun t ht => ⟨hlt, (hmore.bounds.2 t ht).1⟩, ih hmore⟩

end Tile

end Span

namespace Lexer

variable {cs : List Char}

/-! ## Pieces -/

theorem text_ne_nil_of_mem_pieces {piece : Piece} (h : piece ∈ pieces cs) : piece.text ≠ [] := by
  obtain ⟨c, ds, rfl⟩ := exists_cut_of_mem_pieces h
  exact (cut c ds).text_ne_nil

theorem length_pieces_le (cs : List Char) : (pieces cs).length ≤ cs.length := by
  fun_induction pieces cs with
  | case1 => exact Nat.le_refl 0
  | case2 c cs first ih =>
    have hshorter := first.rest_length_lt
    rw [length_cons]
    omega

theorem tile_locate (start : Nat) {ps : List Piece} (h : ∀ p ∈ ps, p.text ≠ []) :
    Span.Tile start ((locate start ps).map (·.span))
      (start + byteSize (ps.flatMap (·.text))) := by
  induction ps generalizing start with
  | nil => rfl
  | cons p ps ih =>
    obtain ⟨hp, hps⟩ := forall_mem_cons.1 h
    have hsize := byteSize_pos hp
    have hstop : (Span.between start (start + byteSize p.text)).stop = start + byteSize p.text :=
      Nat.max_eq_right (Nat.le_add_right _ _)
    refine ⟨rfl, ?_, ?_⟩
    · rw [hstop]
      exact Nat.lt_add_of_pos_right hsize
    · rw [hstop, flatMap_cons, byteSize_append, ← Nat.add_assoc]
      exact ih _ hps

theorem tile_pieces (source : List Char) :
    Span.Tile 0 ((locate 0 (pieces source)).map (·.span)) (byteSize source) := by
  have htile := tile_locate 0 fun p (hp : p ∈ pieces source) => text_ne_nil_of_mem_pieces hp
  rwa [flatMap_text_pieces, Nat.zero_add] at htile

/-! ## Tokens and faults -/

theorem tile_of_tokenize
    {source : List Char} {tokens : List (Located Token)} (h : tokenize source = .ok tokens) :
    Span.Tile 0 (tokens.map (·.span)) (byteSize source) := by
  have htile := tile_pieces source
  rwa [tokenize_eq_ok_iff.1 h, map_map] at htile

theorem exists_label_of_locate
    {source : List Char} {o : Located (Except LexFault Token)} {fault : LexFault}
    (ho : o ∈ locate 0 (pieces source)) (hfault : o.value = .error fault) :
    ∃ label, (fault.diagnostic o.span.start).labels = [label] ∧
      o.span.start ≤ label.span.start ∧ label.span.start < o.span.stop := by
  obtain ⟨before, behind, piece, hpiece, -, hvalue, hspan⟩ := exists_piece_of_mem ho
  obtain ⟨offset, length, -, hpos, hlength, hlabels⟩ :=
    marks_of_pieces hpiece (hvalue.symm.trans hfault)
  obtain ⟨label, hlabel, hmarked⟩ := map_eq_singleton_iff.1 (hlabels o.span.start)
  refine ⟨label, hlabel, ?_⟩
  rw [hmarked, hspan]
  simp only [Span.between]
  omega

/-- The tokens of a text tile it, between character boundaries; or there are faults, which are
reported at one place each, from left to right.  The scanner takes at most one round for each
character. -/
theorem tokenize_tiles_or_reports_in_order (source : String) :
    (pieces source.toList).length ≤ source.length ∧
      Ends
        (fun tokens => Span.Tile 0 (tokens.map (·.span)) source.utf8ByteSize ∧
          ∀ t ∈ tokens, t.span.Aligned source.toList)
        (fun faults => faults ≠ [] ∧ (∀ d ∈ faults, d.labels.length = 1) ∧
          (faults.flatMap (·.labels)).Pairwise fun l l' => l.span.start < l'.span.start)
        (tokenize source.toList) := by
  refine ⟨length_pieces_le _, ?_⟩
  cases htokens : tokenize source.toList with
  | ok tokens =>
    have htile := tile_of_tokenize htokens
    rw [← utf8ByteSize_ofList, String.ofList_toList] at htile
    exact .ok ⟨htile, aligned_of_tokenize htokens⟩
  | error faults =>
    obtain ⟨hne, report, rfl, hreport⟩ := exists_of_tokenize_error htokens
    have hlabel : ∀ o ∈ locate 0 (pieces source.toList), ∀ d, report o = some d →
        ∃ label, d.labels = [label] ∧ o.span.start ≤ label.span.start ∧
          label.span.start < o.span.stop := by
      intro o ho d hd
      obtain ⟨fault, hfault, rfl⟩ := hreport o d hd
      exact exists_label_of_locate ho hfault
    refine .error ⟨hne, fun d hd => ?_, ?_⟩
    · obtain ⟨o, ho, heq⟩ := mem_filterMap.1 hd
      obtain ⟨label, hlabels, -⟩ := hlabel o ho d heq
      rw [hlabels, length_singleton]
    · have hpieces := pairwise_map.1 (tile_pieces source.toList).pairwise
      refine pairwise_flatMap.2 ⟨fun d hd => ?_, pairwise_filterMap.2
        (hpieces.imp_of_mem fun ho ho' hbefore d hd d' hd' l hl l' hl' => ?_)⟩
      · obtain ⟨o, ho, heq⟩ := mem_filterMap.1 hd
        obtain ⟨label, hlabels, -⟩ := hlabel o ho d heq
        rw [hlabels]
        exact pairwise_singleton _ _
      · -- one label lies in the earlier piece, the other in the later one
        obtain ⟨label, hlabels, -, hlt⟩ := hlabel _ ho d hd
        obtain ⟨label', hlabels', hle, -⟩ := hlabel _ ho' d' hd'
        rw [hlabels, mem_singleton] at hl
        rw [hlabels', mem_singleton] at hl'
        subst hl hl'
        exact Nat.lt_of_lt_of_le (Nat.lt_of_lt_of_le hlt hbefore.2) hle

end Lexer

end Idl
