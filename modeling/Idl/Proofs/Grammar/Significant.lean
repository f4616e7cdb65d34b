import Idl.Proofs.Grammar.Productions

/-!
# Streams without trivia

The tokens of a text without the trivia among them are a stream, too, in which there is nothing to
pass over.  A grammar ends on them as it does on all tokens of the text.  So whatever holds of the
schemas that are read from lists of tokens holds of those that are read from texts.
-/

namespace Idl

open List

instance : TokenStream (List (Located Token)) where
  skip tokens := tokens
  next? tokens := match tokens with
    | [] => none
    | t :: rest => some (t, rest)
  remaining := length

@[simp] theorem remaining_eq_length (tokens : List (Located Token)) :
    TokenStream.remaining tokens = tokens.length := rfl

/-- A parser of tokens that have no trivia among them. -/
abbrev PlainParser := Parser (List (Located Token))

variable {how : Relabel} {tokens : List (Located Token)}

/-! ## Views -/

theorem significant_dropWhile (tokens : List (Located Token)) :
    significant (tokens.dropWhile (·.value.isTrivia)) = significant tokens := by
  induction tokens with
  | nil => rfl
  | cons t tokens ih =>
    rw [dropWhile_cons]
    split
    next ht => rw [ih, significant, significant, filter_cons_of_neg (by simp [ht])]
    next => rfl

namespace Tokens

/-- The same tokens at other places. -/
def relabel (how : Relabel) (tokens : Tokens) : Tokens := ⟨tokens.list.map (·.relabel how)⟩

/-- The tokens that are no trivia, at other places. -/
def plain (how : Relabel) (tokens : Tokens) : List (Located Token) :=
  (significant tokens.list).map (·.relabel how)

end Tokens

theorem significant_map_relabel (tokens : List (Located Token)) :
    significant (tokens.map (·.relabel how)) = (significant tokens).map (·.relabel how) :=
  filter_map

instance Carries.relabel : Carries how (Tokens.relabel how) where
  skip tokens := congrArg Tokens.mk dropWhile_map
  next? tokens := by
    simp only [TokenStream.skip, Tokens.relabel, TokenStream.next?]
    cases tokens.list.dropWhile (·.value.isTrivia) <;> rfl
  remaining tokens := by
    simp only [TokenStream.remaining, Tokens.relabel, significant_map_relabel, length_map]

instance Carries.plain : Carries how (Tokens.plain how) where
  skip tokens := by
    simp only [TokenStream.skip, Tokens.plain, significant_dropWhile]
  next? tokens := by
    -- what stands in front once the trivia are passed over is none
    simp only [TokenStream.skip, Tokens.plain, TokenStream.next?]
    cases hrest : tokens.list.dropWhile (·.value.isTrivia) with
    | nil => rfl
    | cons t rest =>
      have ht : t.value.isTrivia = false := by
        have := head?_dropWhile_not (fun t : Located Token => t.value.isTrivia) tokens.list
        simpa [hrest] using this
      rw [significant, filter_cons_of_pos (by simp [ht])]
      rfl
  remaining tokens := length_map _

/-! ## Whole files -/

theorem Parser.run_ok_iff {α : Type} {p : Parser Tokens α} {a : α} :
    p.run tokens = .ok a ↔ ∃ rest, p ⟨tokens⟩ = .ok (a, rest) := by
  rw [run]
  rcases p ⟨tokens⟩ with fault | ⟨found, rest⟩ <;> simp

def Shift.unchanged : Shift := ⟨.unchanged, fun _ _ => rfl, rfl, rfl⟩

namespace Dialect

variable {dialect : Dialect} {config : ParseConfig} {schema : Schema}

/-- A schema is read from a text if it is read from its tokens without the trivia. -/
theorem build_ok_iff :
    dialect.build config tokens = .ok schema ↔
      ∃ rest, dialect.grammar config (significant tokens) = .ok (schema, rest) := by
  have hplain : Tokens.plain Shift.unchanged ⟨tokens⟩ = significant tokens := map_id _
  have halike := alike_grammar .unchanged (Tokens.plain Shift.unchanged) dialect config ⟨tokens⟩
  rw [hplain] at halike
  rw [halike, build, Parser.run_ok_iff]
  rcases dialect.grammar config (⟨tokens⟩ : Tokens) with fault | ⟨found, rest⟩
  · simp [Parser.moved]
  · have hsame : found.relabel Shift.unchanged = found := found.relabel_unchanged
    simp [Parser.moved, hsame]

end Dialect

end Idl
