import Idl.Proofs.Grammar.Assembly
import Idl.Proofs.Schema.Documented
import Idl.Proofs.Token.Tiling
import Mathlib.Algebra.Ring.Int.Defs
import Mathlib.Algebra.Ring.Nat
import Mathlib.Tactic.MkIffOfInductiveProp

/-!
# Numbers of enum values

In the native notation the number of an enum value may be left out; the value then counts on from
the one before it, and the first one is zero.  The number that is written for a value can be looked
up in the tokens, behind the name of the value.  The count is one of 64 bits: over a run of values
without numbers it is exact as long as it does not pass the largest number, and goes on with the
smallest one behind it.
-/

namespace Idl

open Idl.Parser List

variable {source : List (Located Token)} {name : Located String} {tokens : List (Located Token)}

/-! ## Written numbers -/

/-- The number behind an equals sign. -/
def numberAt? : List (Located Token) → Option Int64
  | ⟨.punct .equals, _⟩ :: ⟨.integer n, _⟩ :: _ => some n
  | _ => none

theorem numberAt?_of_head? (h : tokens.head?.map (·.value) ≠ some (.punct .equals)) :
    numberAt? tokens = none := by
  unfold numberAt?
  split
  · exact absurd rfl h
  · rfl

/-- The number that is written behind the token at the given place. -/
def writtenNumber? (tokens : List (Located Token)) (place : Span) : Option Int64 :=
  numberAt? (tokens.dropWhile (·.span ≠ place)).tail

/-- No two tokens are at the same place. -/
def Apart (tokens : List (Located Token)) : Prop :=
  tokens.Pairwise fun t t' => t.span ≠ t'.span

theorem Lexer.apart_of_tokenize {text : List Char} (h : tokenize text = .ok tokens) :
    Apart (significant tokens) := by
  have hpairs := pairwise_map.1 (tile_of_tokenize h).pairwise
  refine (hpairs.sublist filter_sublist).imp fun {t t'} hbefore heq => ?_
  rw [heq] at hbefore
  omega

theorem writtenNumber?_of_suffix
    (hsource : Apart source) {t : Located Token} {behind : List (Located Token)}
    (h : t :: behind <:+ source) : writtenNumber? source t.span = numberAt? behind := by
  obtain ⟨before, rfl⟩ := h
  have hbefore : ∀ s ∈ before, decide (s.span ≠ t.span) = true := fun s hs =>
    decide_eq_true ((pairwise_append.1 hsource).2.2 s hs t mem_cons_self)
  rw [writtenNumber?, dropWhile_append_of_pos hbefore, dropWhile_cons_of_neg (by simp), tail_cons]

/-! ## Counting -/

namespace EnumValue

variable {previous : Option Int64} {written : List (Located String × Option Int64)}
  {before value : EnumValue}

theorem numbered_first (h : (numbered previous written)[0]? = some value) :
    ∃ number, written[0]? = some (value.name, number) ∧
      value.number = number.getD (previous.elim 0 (· + 1)) := by
  cases written with
  | nil => cases h
  | cons first written =>
    cases h
    refine ⟨first.2, rfl, ?_⟩
    cases previous <;> rfl

theorem numbered_next
    {i : Nat} (hbefore : (numbered previous written)[i]? = some before)
    (h : (numbered previous written)[i + 1]? = some value) :
    ∃ number, written[i + 1]? = some (value.name, number) ∧
      value.number = number.getD (before.number + 1) := by
  induction i generalizing previous written with
  | zero =>
    cases written with
    | nil => cases h
    | cons first written =>
      cases hbefore
      exact numbered_first h
  | succ i ih =>
    cases written with
    | nil => cases h
    | cons first written => exact ih hbefore h

end EnumValue

/-- A value has the number that is written for it, and otherwise counts on from the value before. -/
@[mk_iff]
structure EnumDef.CountsOn (written : Span → Option Int64) (enum : EnumDef) : Prop where
  first : ∀ value, enum.values[0]? = some value →
    value.number = (written value.name.span).getD 0
  next : ∀ i before value, enum.values[i]? = some before → enum.values[i + 1]? = some value →
    value.number = (written value.name.span).getD (before.number + 1)

namespace EnumDef

variable {written : Span → Option Int64} {enum : EnumDef}

theorem countsOn_ofStatements
    {found : List EnumStatement}
    (h : ∀ s ∈ found, ∀ name number, s.value? = some (name, number) → written name.span = number) :
    (ofStatements name found).CountsOn written := by
  have hwritten : ∀ {i : Nat} {name : Located String} {number : Option Int64},
      (found.filterMap (·.value?))[i]? = some (name, number) → written name.span = number := by
    intro i name number hi
    obtain ⟨s, hs, heq⟩ := mem_filterMap.1 (mem_of_getElem? hi)
    exact h s hs name number heq
  constructor
  · intro value hvalue
    obtain ⟨number, hnumber, heq⟩ := EnumValue.numbered_first hvalue
    rw [heq, hwritten hnumber, Option.elim_none]
  · intro i before value hbefore hvalue
    obtain ⟨number, hnumber, heq⟩ := EnumValue.numbered_next hbefore hvalue
    rw [heq, hwritten hnumber]

theorem CountsOn.number_of_written
    (h : enum.CountsOn written) {value : EnumValue} (hvalue : value ∈ enum.values) {n : Int64}
    (hn : written value.name.span = some n) : value.number = n := by
  obtain ⟨i, hi⟩ := mem_iff_getElem?.1 hvalue
  cases i with
  | zero => rw [h.first value hi, hn, Option.getD_some]
  | succ i =>
    obtain ⟨hlt, -⟩ := List.getElem?_eq_some_iff.1 hi
    rw [h.next i _ value (getElem?_eq_getElem (Nat.lt_of_succ_lt hlt)) hi, hn, Option.getD_some]

theorem CountsOn.toInt_of_run
    (h : enum.CountsOn written) {i k : Nat} {first last : EnumValue}
    (hfirst : enum.values[i]? = some first) (hlast : enum.values[i + k]? = some last)
    (hrun : ∀ j value, i < j → j ≤ i + k → enum.values[j]? = some value →
      written value.name.span = none) :
    last.number.toInt = (first.number.toInt + k).bmod (2 ^ 64) := by
  induction k generalizing last with
  | zero =>
    obtain rfl := Option.some.inj (hfirst.symm.trans hlast)
    simp
  | succ k ih =>
    obtain ⟨hlt, -⟩ := List.getElem?_eq_some_iff.1 hlast
    have hbefore := getElem?_eq_getElem (Nat.lt_of_succ_lt hlt)
    have hcount := ih hbefore fun j value hj hjk => hrun j value hj (Nat.le_succ_of_le hjk)
    have hnone := hrun (i + (k + 1)) last (by omega) (Nat.le_refl _) hlast
    rw [h.next _ _ last hbefore hlast, hnone, Option.getD_none, Int64.toInt_add, hcount,
      Int.bmod_add_bmod, Int.add_assoc]
    rfl

/-- A count of 64 bits is exact up to the largest number. -/
theorem bmod_add_eq_iff (n : Int64) (k : Nat) :
    (n.toInt + k).bmod (2 ^ 64) = n.toInt + k ↔ n.toInt + k < 2 ^ 63 := by
  have hle := n.le_toInt
  constructor
  · intro heq
    have hlt := Int.bmod_lt (x := n.toInt + k) (m := 2 ^ 64) (by decide)
    rw [heq] at hlt
    exact hlt
  · intro hlt
    exact Int.bmod_eq_of_le (by omega) (by omega)

/-- Written numbers are kept, and over a run of values without numbers the count goes on, modulo the
numbers that there are.  So it is exact unless it passes the largest of them. -/
structure CountsModulo (written : Span → Option Int64) (enum : EnumDef) : Prop where
  kept : ∀ value ∈ enum.values, ∀ n, written value.name.span = some n → value.number = n
  first : ∀ value, enum.values[0]? = some value → written value.name.span = none →
    value.number = 0
  run : ∀ (i k : Nat) (first last : EnumValue),
    enum.values[i]? = some first → enum.values[i + k]? = some last →
    (∀ j value, i < j → j ≤ i + k → enum.values[j]? = some value →
      written value.name.span = none) →
    last.number.toInt = (first.number.toInt + k).bmod (2 ^ 64) ∧
      (last.number.toInt = first.number.toInt + k ↔ first.number.toInt + k < 2 ^ 63)

theorem CountsOn.countsModulo (h : enum.CountsOn written) : enum.CountsModulo written where
  kept _ hvalue _ := h.number_of_written hvalue
  first value hvalue hnone := by rw [h.first value hvalue, hnone, Option.getD_none]
  run i k first last hfirst hlast hrun := by
    have hcount := h.toInt_of_run hfirst hlast hrun
    rw [hcount]
    exact ⟨rfl, bmod_add_eq_iff first.number k⟩

theorem countsOn_undocumented_iff (enum : EnumDef) :
    (enum.relabel .undocumented).CountsOn written ↔ enum.CountsOn written := by
  simp only [countsOn_iff, relabel, EnumValue.relabel, Located.relabel_undocumented, getElem?_map,
    Option.map_eq_some_iff, forall_exists_index, and_imp, forall_apply_eq_imp_iff₂]
  refine and_congr_right fun _ => forall_congr' fun i =>
    ⟨fun h before value hbefore hvalue => ?_, ?_⟩
  · have hnext := h _ _ before hbefore rfl value hvalue rfl
    exact hnext
  · rintro h _ _ before hbefore rfl value hvalue rfl
    exact h before value hbefore hvalue

end EnumDef

/-! ## Productions -/

namespace Native

theorem writtenNumber?_of_enumValue
    (hsource : Apart source) {rest : List (Located Token)} {s : EnumStatement}
    (htokens : tokens <:+ source) (h : enumValue tokens = .ok (s, rest)) {number : Option Int64}
    (hs : s.value? = some (name, number)) : writtenNumber? source name.span = number := by
  obtain ⟨read, behind, hread, hbehind⟩ := bind_ok_iff.1 h
  obtain ⟨rfl, -⟩ := declaredName_ok_iff.1 hread
  obtain ⟨equals, after, hequals, hafter⟩ := bind_ok_iff.1 hbehind
  rcases punct?_cases hequals with ⟨span, rfl, rfl⟩ | ⟨rfl, hhead, rfl⟩
  · obtain ⟨next, _, hnext, hnumber⟩ := bind_ok_iff.1 hafter
    obtain ⟨-, rfl⟩ := peek?_ok_iff.1 hnext
    dsimp only at hnumber
    split at hnumber
    · obtain ⟨_, _, -, hrefused⟩ := bind_ok_iff.1 hnumber
      obtain ⟨_, _, hrefuse, -⟩ := bind_ok_iff.1 hrefused
      exact (refuse_ok_iff.1 hrefuse).elim
    · obtain ⟨found, last, hfound, hlast⟩ := bind_ok_iff.1 hnumber
      obtain rfl := integer_ok_iff.1 hfound
      obtain ⟨_, _, -, hend⟩ := bind_ok_iff.1 hlast
      obtain ⟨rfl, -⟩ := pure_ok_iff.1 hend
      cases hs
      exact writtenNumber?_of_suffix hsource htokens
  · obtain ⟨_, _, -, hend⟩ := bind_ok_iff.1 hafter
    obtain ⟨rfl, -⟩ := pure_ok_iff.1 hend
    cases hs
    rw [writtenNumber?_of_suffix hsource htokens, numberAt?_of_head? hhead]

theorem within_numberedStatement (hsource : Apart source) :
    enumStatement.Within source fun s => ∀ name number, s.value? = some (name, number) →
      writtenNumber? source name.span = number := by
  refine .after fun next => ?_
  split
  · split
    · exact .after fun o => .pure fun _ _ heq => by cases heq
    · exact fun _ _ _ htokens h _ _ => writtenNumber?_of_enumValue hsource htokens h
  · exact fun _ _ _ htokens h _ _ => writtenNumber?_of_enumValue hsource htokens h

/-- What is known of enums where no two tokens are at the same place. -/
def countFacts (source : List (Located Token)) : Facts where
  name _ := True
  option _ := True
  field _ := True
  service _ := True
  project _ := True
  enum := EnumDef.CountsOn (writtenNumber? source)

theorem ensures_countFacts (hsource : Apart source) (config : ParseConfig) :
    Dialect.native.Ensures config source (countFacts source) := by
  refine ⟨fun _ => .any _, .any _, .any _, .any _, .any _, .any _, ?_⟩
  refine .after fun _ => .commit (.after fun name => ?_)
  exact (Within.block (within_numberedStatement hsource)).bind fun found hfound =>
    .after fun _ => .pure (EnumDef.countsOn_ofStatements hfound)

end Native

/-! ## Texts -/

theorem Schema.forall_countsOn_undocumented_iff (written : Span → Option Int64) (schema : Schema) :
    (∀ path enum, (schema.relabel .undocumented).enum? path = some enum → enum.CountsOn written) ↔
      ∀ path enum, schema.enum? path = some enum → enum.CountsOn written := by
  have hmessage : ∀ m : Message,
      (∀ enum ∈ (m.relabel .undocumented).enums, enum.CountsOn written) ↔
        ∀ enum ∈ m.enums, enum.CountsOn written := by
    intro m
    rw [Message.relabel_eq]
    simp only [forall_mem_map, EnumDef.countsOn_undocumented_iff]
  rw [forall_enum?_iff, forall_enum?_iff, forall_message?_relabel_iff _ hmessage]
  simp only [Schema.relabel, forall_mem_map, EnumDef.countsOn_undocumented_iff]

/-- The enums of a schema that is read from a text in the native notation, at every depth, have the
numbers that are written in the text, and count on from them modulo the numbers that there are. -/
theorem Native.omitted_numbers_count_on
    {config : ParseConfig} {source : String} {schema : Schema}
    (h : Dialect.native.parse config source = .ok schema) :
    ∃ tokens, Lexer.tokenize source.toList = .ok tokens ∧
      ∀ path enum, schema.enum? path = some enum →
        enum.CountsModulo (writtenNumber? (significant tokens)) := by
  obtain ⟨tokens, built, docs, htokens, hbuild, rfl⟩ := Dialect.exists_of_parse h
  have hfollows := Dialect.follows_of_build hbuild
    (ensures_countFacts (Lexer.apart_of_tokenize htokens) config)
  have hbuilt : ∀ path enum, built.enum? path = some enum →
      enum.CountsOn (writtenNumber? (significant tokens)) :=
    Schema.forall_enum?_iff.2 ⟨fun enum henum => (hfollows.enums enum henum).whole,
      Schema.forall_message?_iff.2 fun m hm path sub hsub enum henum =>
        ((hfollows.messages m hm path sub hsub).enums enum henum).whole⟩
  have hread := (Schema.withDocs_iff
    (P := fun schema => ∀ path enum, schema.enum? path = some enum →
    enum.CountsOn _) (Schema.forall_countsOn_undocumented_iff _) built docs).2 hbuilt
  exact ⟨tokens, htokens, fun path enum henum => (hread path enum henum).countsModulo⟩

/-- An enum in a message, with two runs of values without numbers behind written ones. -/
theorem Native.omitted_numbers_count_on_nested :
    let source := "package p\nmessage m { enum e { a b = -2 c d = 0x7FFFFFFFFFFFFFFE f g } }"
    ∃ schema, Dialect.native.parse ⟨false⟩ source = .ok schema ∧
      (schema.enum? ⟨some [0], 0⟩).map (·.values.map (·.number.toInt)) =
        some [0, -2, -1, 2 ^ 63 - 2, 2 ^ 63 - 1, -2 ^ 63] ∧
      ∃ tokens, Lexer.tokenize source.toList = .ok tokens ∧
        ∀ path enum, schema.enum? path = some enum →
          enum.CountsModulo (writtenNumber? (significant tokens)) := by
  intro source
  obtain ⟨schema, hparse, hnumbers⟩ := exists_eq_ok_of_any
    (r := Dialect.native.parse ⟨false⟩ source)
    (P := fun schema => (schema.enum? ⟨some [0], 0⟩).map (·.values.map (·.number.toInt)) =
      some [0, -2, -1, 2 ^ 63 - 2, 2 ^ 63 - 1, -2 ^ 63]) (by decide +kernel)
  exact ⟨schema, hparse, hnumbers, omitted_numbers_count_on hparse⟩

/-- Behind the largest number the count goes on with the smallest one. -/
theorem Native.count_wraps_behind_largest :
    ∃ schema, Dialect.native.parse ⟨false⟩ "package p\nenum e { a = 9223372036854775807 b }" =
        .ok schema ∧
      (schema.enum? ⟨none, 0⟩).map (·.values.map (·.number.toInt)) =
        some [9223372036854775807, -9223372036854775808] :=
  exists_eq_ok_of_any (by decide +kernel)

end Idl
