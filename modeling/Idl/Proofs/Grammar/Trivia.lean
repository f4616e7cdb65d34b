import Idl.Proofs.Grammar.Significant

/-!
# Trivia

Blanks, line ends and comments between the tokens of a file mean nothing to either grammar, and
neither do the places of the tokens: whole files that differ in trivia and places only are read
alike.
-/

namespace Idl

open List

def Shift.unplaced : Shift := ⟨.unplaced, fun _ _ => rfl, rfl, rfl⟩

/-- The first token that is no trivia. -/
theorem Tokens.head?_plain {how : Relabel} (tokens : Tokens) :
    (tokens.plain how).head?.map (·.value) =
      (tokens.list.find? (!·.value.isTrivia)).map (·.value) := by
  rw [plain, head?_map, significant, head?_filter, Option.map_map]
  rfl

theorem Refusal.report_relabel (how : Relabel) (reason : Refusal) :
    (reason.relabel how).diagnostic.code = reason.diagnostic.code ∧
      (reason.relabel how).diagnostic.message = reason.diagnostic.message := by
  cases reason <;> exact ⟨rfl, rfl⟩

/-- The report of a fault names what was expected and the token that was found. -/
theorem Fault.report_expected
    {what : String} {stop : Tokens} {start : Option Tokens} {tokens : Tokens} :
    ((expected what stop start).diagnostic tokens).code =
        (if (stop.list.find? (!·.value.isTrivia)).isSome then some .unexpectedToken
          else some .incompleteInput) ∧
      ((expected what stop start).diagnostic tokens).message =
        ((stop.list.find? (!·.value.isTrivia)).map (·.value)).elim
          ("unexpected end of input, expected " ++ what)
          fun found => "expected " ++ what ++ ", found " ++ found.describe := by
  simp only [diagnostic]
  split
  next hfound => exact ⟨by simp [hfound, Diagnostic.error], by simp [hfound, Diagnostic.error]⟩
  next found hfound =>
    rw [hfound]
    split <;> exact ⟨rfl, rfl⟩

/-- What is reported of a fault depends neither on trivia nor on places, apart from the places
themselves. -/
theorem Fault.report_eq
    {how : Relabel} {fault fault' : Fault Tokens}
    (h : fault.carry how (Tokens.plain how) = fault'.carry how (Tokens.plain how))
    (tokens tokens' : Tokens) :
    (fault.diagnostic tokens).code = (fault'.diagnostic tokens').code ∧
      (fault.diagnostic tokens).message = (fault'.diagnostic tokens').message := by
  rcases fault with reason | ⟨what, stop, start⟩ <;>
    rcases fault' with reason' | ⟨what', stop', start'⟩
  · have hreason : reason.relabel how = reason'.relabel how := Fault.refused.inj h
    obtain ⟨hcode, hmessage⟩ := reason.report_relabel how
    obtain ⟨hcode', hmessage'⟩ := reason'.report_relabel how
    rw [hreason] at hcode hmessage
    exact ⟨hcode.symm.trans hcode', hmessage.symm.trans hmessage'⟩
  · cases h
  · cases h
  · obtain ⟨rfl, hstop, -⟩ := Fault.expected.inj h
    have hfound := congrArg (fun tokens => tokens.head?.map (·.value)) hstop
    simp only [Tokens.head?_plain] at hfound
    have hsome := congrArg Option.isSome hfound
    rw [Option.isSome_map, Option.isSome_map] at hsome
    simp only [report_expected, hfound, hsome, and_self]

namespace Dialect

/-- Two files with the same tokens, trivia and places apart, are read alike: both are accepted, with
schemas that are equal up to places, or both are refused, with the same code and message. -/
theorem build_ignores_trivia
    (dialect : Dialect) (config : ParseConfig) {tokens tokens' : List (Located Token)}
    (h : (significant tokens).map (·.value) = (significant tokens').map (·.value)) :
    (∃ schema schema', dialect.build config tokens = .ok schema ∧
        dialect.build config tokens' = .ok schema' ∧
        schema.relabel .unplaced = schema'.relabel .unplaced) ∨
      ∃ report report', dialect.build config tokens = .error report ∧
        dialect.build config tokens' = .error report' ∧
        report.code = report'.code ∧ report.message = report'.message := by
  have hsame : Tokens.plain Shift.unplaced ⟨tokens⟩ = Tokens.plain Shift.unplaced ⟨tokens'⟩ := by
    have hmap := congrArg (List.map fun value => (⟨value, default⟩ : Located Token)) h
    rwa [map_map, map_map] at hmap
  have hends := dialect.moved_grammar_eq config .unplaced .unplaced hsame
  simp only [Dialect.build, Parser.run]
  generalize dialect.grammar config (⟨tokens⟩ : Tokens) = result,
    dialect.grammar config (⟨tokens'⟩ : Tokens) = result' at hends
  rcases result with fault | ⟨schema, rest⟩ <;> rcases result' with fault' | ⟨schema', rest'⟩
  · exact .inr ⟨_, _, rfl, rfl, Fault.report_eq (Except.error.inj hends) _ _⟩
  · cases hends
  · cases hends
  · exact .inl ⟨_, _, rfl, rfl, (Prod.mk.inj (Except.ok.inj hends)).1⟩

/-- A file on one line. -/
def oneLine : String := "package p;option a.b=1"

/-- The same file on three lines, with a comment. -/
def threeLines : String := "package p;\n// c\noption a.b = 1"

theorem build_ignores_trivia_threeLines :
    ∃ tokens tokens', Lexer.tokenize oneLine.toList = .ok tokens ∧
      Lexer.tokenize threeLines.toList = .ok tokens' ∧
      ((∃ schema schema', protobuf.build ⟨true⟩ tokens = .ok schema ∧
          protobuf.build ⟨true⟩ tokens' = .ok schema' ∧
          schema.relabel .unplaced = schema'.relabel .unplaced) ∨
        ∃ report report', protobuf.build ⟨true⟩ tokens = .error report ∧
          protobuf.build ⟨true⟩ tokens' = .error report' ∧
          report.code = report'.code ∧ report.message = report'.message) := by
  let values (text : String) : Option (List Token) :=
    (Lexer.tokenize text.toList).toOption.map fun tokens => (significant tokens).map (·.value)
  have hsame : values oneLine = values threeLines := by decide +kernel
  have hread : (values oneLine).isSome ∧ (values threeLines).isSome := by decide +kernel
  simp only [values] at hsame hread
  cases htokens : Lexer.tokenize oneLine.toList with
  | error faults => simp [htokens, Except.toOption] at hread
  | ok tokens =>
    cases htokens' : Lexer.tokenize threeLines.toList with
    | error faults => simp [htokens', Except.toOption] at hread
    | ok tokens' =>
      rw [htokens, htokens'] at hsame
      exact ⟨tokens, tokens', rfl, rfl,
        build_ignores_trivia protobuf ⟨true⟩ (Option.some.inj hsame)⟩

end Dialect

end Idl
