import Idl.Proofs.Except
import Idl.Proofs.Grammar.Significant
import Idl.Proofs.Schema.Documented
import Idl.Proofs.Schema.Placed

/-!
# Ranges of a schema

A parser makes no places up.  What it reads, and what it reports when it stops, stands where the
tokens stand that it was given, or reaches from one of them to another, or is at the start of the
text.  So all places of a schema that is read from a text are ranges of the text, and a text that is
refused is refused at ranges of it.
-/

namespace Idl

open List

variable {tokens : List (Located Token)}
variable {text : List Char}

/-- The tokens are ranges of the text. -/
def AllAligned (text : List Char) (tokens : List (Located Token)) : Prop :=
  ∀ t ∈ tokens, t.span.Aligned text

theorem allAligned_iff {tokens : Tokens} :
    AllAligned text tokens.list ↔
      tokens.relabel (.aligning text) = tokens.relabel .undocumented := by
  simp only [AllAligned, Tokens.relabel, Tokens.mk.injEq, map_inj_left,
    Located.relabel_aligning_iff]

noncomputable def Shift.aligning (text : List Char) : Shift where
  toRelabel := .aligning text
  union _ _ := by
    simp only [Relabel.aligning, Span.union, Relabel.monotone_lastBoundary.map_min,
      Relabel.monotone_lastBoundary.map_max]
  default := Relabel.aligning_span_iff.2 (.default text)
  doc_none := rfl

def Shift.undocumented : Shift := ⟨.undocumented, fun _ _ => rfl, rfl, rfl⟩

/-! ## Places of a fault -/

/-- The labels of a refusal are at the place of the construct. -/
theorem Refusal.spans_relabel (how : Relabel) (reason : Refusal) :
    (reason.relabel how).diagnostic.labels.map (·.span) =
      reason.diagnostic.labels.map fun label => how.span label.span := by
  cases reason <;> rfl

theorem Refusal.aligned_labels {reason : Refusal} (h : Placed text Refusal.relabel reason) :
    ∀ label ∈ reason.diagnostic.labels, label.span.Aligned text := by
  intro label hlabel
  have hspans := congrArg (fun reason => reason.diagnostic.labels.map (·.span)) h
  simp only [spans_relabel] at hspans
  exact Relabel.aligning_span_iff.1 (map_inj_left.1 hspans label hlabel)

/-- The end of the tokens is a boundary, so a fault there has a place as well. -/
theorem Fault.aligned_labels
    {fault : Fault Tokens} {tokens : Tokens}
    (h : Placed text (fun how => Fault.carry how (Tokens.relabel how)) fault)
    (htokens : AllAligned text tokens.list) :
    ∀ label ∈ (fault.diagnostic tokens).labels, label.span.Aligned text := by
  cases fault with
  | refused reason => exact Refusal.aligned_labels (Fault.refused.inj h)
  | expected what stop start =>
    obtain ⟨-, hstop, hstart⟩ := Fault.expected.inj h
    intro label hlabel
    simp only [diagnostic] at hlabel
    split at hlabel
    next =>
      obtain rfl := mem_singleton.1 hlabel
      refine Span.Aligned.point ?_
      split
      next last hlast =>
        exact (htokens last (mem_filter.1 (mem_of_getLast? hlast)).1).stop
      next => exact isBoundary_zero text
    next found hfound =>
      have hfound := allAligned_iff.2 hstop found (mem_of_find?_eq_some hfound)
      split at hlabel
      next first hfirst =>
        rcases mem_append.1 hlabel with hlabel | hlabel
        · obtain rfl := mem_singleton.1 hlabel
          exact hfound
        · obtain rfl := mem_singleton.1 hlabel
          obtain ⟨begun, rfl, hbegun⟩ := Option.bind_eq_some_iff.1 hfirst
          exact allAligned_iff.2 (Option.some.inj hstart) first
            (mem_of_mem_take (mem_of_find?_eq_some hbegun))
      next =>
        obtain rfl := mem_singleton.1 hlabel
        exact hfound

/-! ## Whole files -/

namespace Dialect

theorem ends_build (dialect : Dialect) (config : ParseConfig) (h : AllAligned text tokens) :
    Ends (Placed text Schema.relabel) (fun d => ∀ label ∈ d.labels, label.span.Aligned text)
      (dialect.build config tokens) := by
  have hsame : Tokens.relabel (Shift.aligning text) ⟨tokens⟩ =
      Tokens.relabel Shift.undocumented ⟨tokens⟩ := allAligned_iff.1 h
  have hends := dialect.moved_grammar_eq config (.aligning text) .undocumented hsame
  simp only [Dialect.build, Parser.run]
  generalize dialect.grammar config (⟨tokens⟩ : Tokens) = result at hends ⊢
  rcases result with fault | ⟨schema, rest⟩
  · exact .error (Fault.aligned_labels (Except.error.inj hends) h)
  · exact .ok (Prod.mk.inj (Except.ok.inj hends)).1

/-- All places of a schema that is read from a text are ranges of the text, and so are the places
that are reported when the text is refused. -/
theorem ends_parse (dialect : Dialect) (config : ParseConfig) (source : String) :
    Ends (Placed source.toList Schema.relabel)
      (fun diagnostics => ∀ d ∈ diagnostics, ∀ label ∈ d.labels, label.span.InText source)
      (dialect.parse config source) := by
  unfold Dialect.parse
  cases htokens : Lexer.tokenize source.toList with
  | error faults => exact .error (Lexer.inText_of_tokenize htokens)
  | ok tokens =>
    have haligned := Lexer.aligned_of_tokenize htokens
    refine ((dialect.ends_build config haligned).mapError fun d hd => ?_).bind fun schema h => ?_
    · exact forall_mem_singleton.2 fun label hlabel => (hd label hlabel).inText
    · refine .ok (Eq.trans ?_ (h.trans ?_))
      · exact schema.relabel_withDocs _ _
      · exact (schema.undocumented_withDocs _).symm

end Dialect

end Idl
