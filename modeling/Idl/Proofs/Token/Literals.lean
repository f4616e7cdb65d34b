import Idl.Proofs.Token.Ranges
import Mathlib.Data.List.Induction
import Mathlib.Data.List.TakeWhile
import Mathlib.Data.Nat.Digits.Defs

/-!
# Integer literals

An integer is written with an optional sign, and with decimal digits or hexadecimal ones behind
their mark.  The scanner takes a literal for one numeral wherever nothing goes on behind it, and
every numeral that it takes is a literal.  What a literal is worth is said by its digits alone, as
a positional number.
-/

namespace Idl.Lexer

open List

variable {cs rest : List Char} {digits : List Char}

/-- Nothing goes on a name or a numeral here. -/
def Stops : List Char → Prop
  | [] => True
  | c :: _ => isIdentChar c = false ∧ c ≠ '.'

/-- An integer as it can be written. -/
structure Literal where
  sign : List Char
  mark : List Char
  digits : List Char
  sign_mem : sign ∈ [[], ['+'], ['-']]
  mark_mem : mark ∈ [[], ['0', 'x'], ['0', 'X']]
  digits_ne_nil : digits ≠ []
  digits_valid : ∀ c ∈ digits, if mark = [] then Text.isDigit c else Text.isHexDigit c

namespace Literal

def text (l : Literal) : List Char := l.sign ++ (l.mark ++ l.digits)

def radix (l : Literal) : Nat := if l.mark = [] then 10 else 16

/-- The number that is written; the last digit counts for itself. -/
def value (l : Literal) : Int :=
  (if l.sign = ['-'] then -1 else 1) *
    (Nat.ofDigits l.radix (l.digits.map Text.digitValue).reverse : Nat)

end Literal

theorem ofDigits_eq (radix : Nat) (digits : List Char) :
    Text.ofDigits radix digits = Nat.ofDigits radix (digits.map Text.digitValue).reverse := by
  induction digits using List.reverseRecOn with
  | nil => rfl
  | append_singleton digits c ih =>
    rw [map_append, reverse_append, map_singleton, reverse_singleton,
      singleton_append, Nat.ofDigits_cons, ← ih, Text.ofDigits, foldl_append]
    exact (Nat.add_comm _ _).trans (congrArg (_ + ·) (Nat.mul_comm _ _))

/-! ## Reading literals -/

theorem takeWhile_of_stops
    {p : Char → Bool} (hp : ∀ c, p c → isIdentChar c) (hdigits : ∀ c ∈ digits, p c)
    (hstops : Stops rest) :
    (digits ++ rest).takeWhile p = digits ∧ (digits ++ rest).dropWhile p = rest := by
  have hrest : rest.takeWhile p = [] ∧ rest.dropWhile p = rest := by
    cases rest with
    | nil => exact ⟨rfl, rfl⟩
    | cons c rest =>
      have hc : ¬p c := fun hc => absurd (hp c hc) (by simp [hstops.1])
      simp [hc]
  rw [takeWhile_append_of_pos hdigits, dropWhile_append_of_pos hdigits, hrest.1, hrest.2,
    append_nil]
  exact ⟨rfl, rfl⟩

theorem isIdentChar_of_isDigit (c : Char) (h : Text.isDigit c) : isIdentChar c := by
  simp [isIdentChar, h]

theorem isIdentChar_of_isHexDigit (c : Char) (h : Text.isHexDigit c) : isIdentChar c := by
  have hle : ∀ {d e : Char}, d ≤ e → c ≤ d → c ≤ e := fun hde hcd => Char.le_trans hcd hde
  simp only [Text.isHexDigit, Bool.or_eq_true, Bool.and_eq_true, decide_eq_true_eq] at h
  rcases h with (h | h) | h
  · exact isIdentChar_of_isDigit c h
  · simp [isIdentChar, isIdentStart, h.1, hle (d := 'f') (e := 'z') (by decide) h.2]
  · simp [isIdentChar, isIdentStart, h.1, hle (d := 'F') (e := 'Z') (by decide) h.2]

theorem unsignedNumeral_decimal
    (hne : digits ≠ []) (hdigits : ∀ c ∈ digits, Text.isDigit c) (hstops : Stops rest) :
    unsignedNumeral (digits ++ rest) = ⟨digits, false, 10, digits, rest⟩ := by
  obtain ⟨htake, hdrop⟩ := takeWhile_of_stops isIdentChar_of_isDigit hdigits hstops
  unfold unsignedNumeral
  rw [htake, hdrop]
  dsimp only
  split
  next x h cs heq =>
    -- neither a digit nor what stops a numeral marks a hexadecimal one
    have hx : isIdentChar x = false ∨ Text.isDigit x = true := by
      cases digits with
      | nil => exact absurd rfl hne
      | cons d digits =>
        obtain ⟨-, heq⟩ := List.cons.inj heq
        cases digits with
        | nil =>
          obtain rfl : rest = x :: h :: cs := heq
          exact .inl hstops.1
        | cons e digits =>
          obtain ⟨rfl, -⟩ := List.cons.inj heq
          exact .inr (hdigits e (by simp))
    have hx : x ≠ 'x' ∧ x ≠ 'X' := by
      constructor
      all_goals
        rintro rfl
        exact absurd hx (by decide)
    rw [if_neg (by simp [hx.1, hx.2])]
  next => rfl

theorem unsignedNumeral_hexadecimal
    {x : Char} (hx : x = 'x' ∨ x = 'X') (hne : digits ≠ [])
    (hdigits : ∀ c ∈ digits, Text.isHexDigit c) (hstops : Stops rest) :
    unsignedNumeral ('0' :: x :: (digits ++ rest)) =
      ⟨'0' :: x :: digits, false, 16, digits, rest⟩ := by
  obtain ⟨htake, hdrop⟩ := takeWhile_of_stops isIdentChar_of_isHexDigit hdigits hstops
  obtain ⟨d, digits, rfl⟩ := exists_cons_of_ne_nil hne
  have hd := (forall_mem_cons.1 hdigits).1
  rw [cons_append] at htake hdrop ⊢
  simp only [unsignedNumeral, hd, htake, hdrop, Bool.and_true, Bool.or_eq_true, decide_eq_true_eq,
    if_pos hx]

namespace Literal

theorem unsignedNumeral_eq (l : Literal) (hstops : Stops rest) :
    unsignedNumeral (l.mark ++ l.digits ++ rest) =
      ⟨l.mark ++ l.digits, false, l.radix, l.digits, rest⟩ := by
  have hdigits := l.digits_valid
  have hmark := l.mark_mem
  simp only [mem_cons, not_mem_nil, or_false] at hmark
  rw [radix]
  rcases hmark with hmark | hmark | hmark
  · rw [hmark] at hdigits ⊢
    exact unsignedNumeral_decimal l.digits_ne_nil hdigits hstops
  all_goals
    rw [hmark] at hdigits ⊢
    exact unsignedNumeral_hexadecimal (by decide) l.digits_ne_nil hdigits hstops

/-- No literal begins with a sign behind its sign. -/
theorem signedNumeral_eq (l : Literal) (hstops : Stops rest) :
    signedNumeral (l.text ++ rest) = ⟨l.text, l.sign == ['-'], l.radix, l.digits, rest⟩ := by
  have hunsigned := l.unsignedNumeral_eq hstops
  have hsign := l.sign_mem
  simp only [mem_cons, not_mem_nil, or_false] at hsign
  rw [text]
  rcases hsign with hsign | hsign | hsign
  · have hhead : ∃ c cs, l.mark ++ l.digits ++ rest = c :: cs ∧ Text.isDigit c := by
      have hdigits := l.digits_valid
      have hmark := l.mark_mem
      simp only [mem_cons, not_mem_nil, or_false] at hmark
      rcases hmark with hmark | hmark | hmark
      · obtain ⟨d, digits, heq⟩ := exists_cons_of_ne_nil l.digits_ne_nil
        rw [hmark, heq] at hdigits ⊢
        exact ⟨d, digits ++ rest, rfl, hdigits d mem_cons_self⟩
      all_goals
        rw [hmark]
        exact ⟨'0', _, rfl, by decide⟩
    obtain ⟨c, cs, heq, hc⟩ := hhead
    rw [heq] at hunsigned
    rw [hsign, nil_append, heq]
    unfold signedNumeral
    split
    next heq' =>
      rw [(List.cons.inj heq').1] at hc
      exact absurd hc (by decide)
    next heq' =>
      rw [(List.cons.inj heq').1] at hc
      exact absurd hc (by decide)
    next => exact hunsigned
  all_goals
    rw [hsign, singleton_append, cons_append, signedNumeral, hunsigned]
    rfl

theorem numeral?_eq (l : Literal) (hstops : Stops rest) :
    numeral? (l.text ++ rest) = some ⟨l.text, l.sign == ['-'], l.radix, l.digits, rest⟩ := by
  unfold numeral?
  rw [signedNumeral_eq l hstops]
  simp only [List.isEmpty_iff, l.digits_ne_nil, if_false]
  cases rest with
  | nil => rfl
  | cons c rest => simp [hstops.1, hstops.2]

theorem numeral_value (l : Literal) (read rest : List Char) :
    Numeral.value ⟨read, l.sign == ['-'], l.radix, l.digits, rest⟩ = l.value := by
  simp only [Numeral.value, Text.signed, value, ofDigits_eq, beq_iff_eq]
  split <;> simp

end Literal

/-! ## Numerals that were read -/

theorem exists_mark_of_unsignedNumeral (cs : List Char) :
    ∃ mark ∈ [[], ['0', 'x'], ['0', 'X']], ∃ digits rest,
      unsignedNumeral cs = ⟨mark ++ digits, false, if mark = [] then 10 else 16, digits, rest⟩ ∧
      ∀ c ∈ digits, if mark = [] then Text.isDigit c else Text.isHexDigit c := by
  have hdecimal : ∀ c ∈ cs.takeWhile Text.isDigit, Text.isDigit c := fun _ => mem_takeWhile_imp
  unfold unsignedNumeral
  dsimp only
  split
  next x h cs' =>
    split
    next hmark =>
      simp only [Bool.and_eq_true, Bool.or_eq_true, decide_eq_true_eq] at hmark
      have hhex : ∀ c ∈ (h :: cs').takeWhile Text.isHexDigit, Text.isHexDigit c :=
        fun _ => mem_takeWhile_imp
      rcases hmark.1 with rfl | rfl
      · exact ⟨['0', 'x'], by simp, _, _, rfl, hhex⟩
      · exact ⟨['0', 'X'], by simp, _, _, rfl, hhex⟩
    next => exact ⟨[], by simp, _, _, rfl, hdecimal⟩
  next => exact ⟨[], by simp, _, _, rfl, hdecimal⟩

/-- Every numeral that is read is a literal. -/
theorem exists_literal_of_numeral? {n : Numeral} (h : numeral? cs = some n) :
    ∃ l : Literal, l.text = n.read ∧ l.value = n.value := by
  obtain ⟨hn, hne⟩ := numeral?_eq_some_signed h
  -- behind its sign, a numeral is read as one without a sign
  have hliteral : ∀ sign ∈ [[], ['+'], ['-']], ∀ cs',
      n.negative = ((unsignedNumeral cs').negative || sign == ['-']) →
      n = { unsignedNumeral cs' with
        read := sign ++ (unsignedNumeral cs').read, negative := n.negative } →
      ∃ l : Literal, l.text = n.read ∧ l.value = n.value := by
    intro sign hsign cs' hnegative heq
    obtain ⟨mark, hmark, digits, rest, hunsigned, hdigits⟩ := exists_mark_of_unsignedNumeral cs'
    rw [hnegative, hunsigned] at heq
    subst heq
    let l : Literal := ⟨sign, mark, digits, hsign, hmark, hne, hdigits⟩
    refine ⟨l, rfl, (l.numeral_value (sign ++ (mark ++ digits)) rest).symm.trans ?_⟩
    rw [Bool.false_or]
    rfl
  unfold signedNumeral at hn
  split at hn
  next cs' => exact hliteral ['+'] (by simp) cs' (by simp [hn]) (by rw [hn]; rfl)
  next cs' => exact hliteral ['-'] (by simp) cs' (by simp [hn]) (by rw [hn]; rfl)
  next => exact hliteral [] (by simp) cs (by simp [hn]) (by rw [hn]; rfl)

end Idl.Lexer
