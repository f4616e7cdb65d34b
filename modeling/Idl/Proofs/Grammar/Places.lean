import Idl.Proofs.Except
import Idl.Proofs.Grammar.Significant

/-!
# Places of the source

No parser goes back: what it leaves is the end of what it was given.  So whatever a grammar reads,
it reads at a place of its source, and what is known of the tokens there is known of what is read.
-/

namespace Idl.Parser

open List

variable {span : Span}
variable {α β : Type} {P : α → Prop} {Q : β → Prop} {source tokens rest : List (Located Token)}
variable {p : PlainParser α} {a : α} {found : Bool} {mark : Punct} {text what : String}
  {x y : PlainParser α}
  {R : α → Prop} {f next : α → PlainParser β} {name : Located String}
  {body : PlainParser α → PlainParser α}

/-! ## What has been read -/

theorem bind_ok_iff {b : β} :
    (p >>= f) tokens = .ok (b, rest) ↔
      ∃ a between, p tokens = .ok (a, between) ∧ f a between = .ok (b, rest) :=
  bind_eq_ok_iff.trans Prod.exists

theorem pure_ok_iff {b : α} :
    (Pure.pure a : PlainParser α) tokens = .ok (b, rest) ↔ a = b ∧ tokens = rest := by
  constructor
  · intro h
    cases h
    exact ⟨rfl, rfl⟩
  · rintro ⟨rfl, rfl⟩
    rfl

theorem map_ok_iff {f : α → β} {b : β} :
    (f <$> p) tokens = .ok (b, rest) ↔ ∃ a, p tokens = .ok (a, rest) ∧ f a = b := by
  refine (bind_ok_iff (p := p) (f := fun a => Pure.pure (f a))).trans ?_
  simp only [pure_ok_iff]
  exact ⟨fun ⟨a, _, hp, hf, h⟩ => ⟨a, h ▸ hp, hf⟩, fun ⟨a, hp, hf⟩ => ⟨a, rest, hp, hf, rfl⟩⟩

theorem discard_ok_iff {u : Unit} :
    (discard p) tokens = .ok (u, rest) ↔ ∃ a, p tokens = .ok (a, rest) :=
  map_ok_iff.trans (exists_congr fun _ => and_iff_left rfl)

theorem commit_ok_iff : p.commit tokens = .ok (a, rest) ↔ p tokens = .ok (a, rest) := by
  unfold Parser.commit
  split <;> simp_all

theorem refuse_ok_iff {reason : Refusal} : refuse reason tokens = .ok (a, rest) ↔ False := by
  simp [refuse]

theorem token_ok_iff {accept : Token → Option α} {a : Located α} :
    token what accept tokens = .ok (a, rest) ↔
      ∃ t, tokens = ⟨t, a.span⟩ :: rest ∧ accept t = some a.value := by
  obtain ⟨value, span⟩ := a
  cases tokens with
  | nil => simp [token]
  | cons first tokens =>
    obtain ⟨t, place⟩ := first
    simp only [token, TokenStream.skip, TokenStream.next?, List.cons.injEq, Located.mk.injEq]
    cases haccept : accept t with
    | none =>
      simp only [reduceCtorEq, false_iff, not_exists]
      rintro t' ⟨⟨⟨rfl, -⟩, -⟩, ht'⟩
      simp [haccept] at ht'
    | some found =>
      simp only [Except.ok.injEq, Prod.mk.injEq, Located.mk.injEq]
      constructor
      · rintro ⟨⟨rfl, rfl⟩, rfl⟩
        exact ⟨t, ⟨⟨rfl, rfl⟩, rfl⟩, haccept⟩
      · rintro ⟨_, ⟨⟨rfl, rfl⟩, rfl⟩, ht'⟩
        exact ⟨⟨Option.some.inj (haccept.symm.trans ht'), rfl⟩, rfl⟩

theorem identifier_ok_iff :
    identifier tokens = .ok (name, rest) ↔
      tokens = ⟨.identifier name.value, name.span⟩ :: rest := by
  rw [identifier, token_ok_iff]
  constructor
  · rintro ⟨t, rfl, ht⟩
    cases t <;> simp_all
  · rintro rfl
    exact ⟨_, rfl, rfl⟩

theorem integer_ok_iff {value : Located Int64} :
    integer tokens = .ok (value, rest) ↔ tokens = ⟨.integer value.value, value.span⟩ :: rest := by
  rw [integer, token_ok_iff]
  constructor
  · rintro ⟨t, rfl, ht⟩
    cases t <;> simp_all
  · rintro rfl
    exact ⟨_, rfl, rfl⟩

theorem given_ok_iff {t : Token} :
    (do
      let found ← token what fun t' => if t' = t then some () else none
      return found.span) tokens = .ok (span, rest) ↔ tokens = ⟨t, span⟩ :: rest := by
  simp only [bind_ok_iff, pure_ok_iff, token_ok_iff]
  constructor
  · rintro ⟨⟨_, place⟩, _, ⟨t', rfl, ht'⟩, rfl, rfl⟩
    simp_all
  · rintro rfl
    exact ⟨⟨(), span⟩, rest, ⟨t, rfl, by simp⟩, rfl, rfl⟩

theorem punct_ok_iff :
    punct mark tokens = .ok (span, rest) ↔ tokens = ⟨.punct mark, span⟩ :: rest :=
  given_ok_iff

theorem word_ok_iff :
    word text tokens = .ok (span, rest) ↔ tokens = ⟨.identifier text, span⟩ :: rest :=
  given_ok_iff

theorem lookahead_eq_take (n : Nat) (tokens : List (Located Token)) :
    lookahead n tokens = tokens.take n := by
  induction n generalizing tokens with
  | zero => rfl
  | succ n ih =>
    cases tokens with
    | nil => rfl
    | cons t tokens => exact congrArg (t :: ·) (ih tokens)

theorem peek?_ok_iff {found : Option Token} :
    peek? tokens = .ok (found, rest) ↔ tokens.head?.map (·.value) = found ∧ tokens = rest := by
  cases tokens <;> exact pure_ok_iff

theorem peekMany_ok_iff {n : Nat} {found : List Token} :
    peekMany n tokens = .ok (found, rest) ↔
      (tokens.take n).map (·.value) = found ∧ tokens = rest := by
  rw [← lookahead_eq_take]
  exact pure_ok_iff

theorem nextSpan_ok_iff :
    nextSpan tokens = .ok (span, rest) ↔
      (tokens.head?.map (·.span)).getD default = span ∧ tokens = rest := by
  cases tokens <;> exact pure_ok_iff

theorem atPunct_ok_iff :
    atPunct mark tokens = .ok (found, rest) ↔
      (tokens.head?.map (·.value) == some (.punct mark)) = found ∧ tokens = rest := by
  cases tokens <;> exact pure_ok_iff

theorem atWord_ok_iff :
    atWord text tokens = .ok (found, rest) ↔
      (tokens.head?.map (·.value) == some (.identifier text)) = found ∧ tokens = rest := by
  cases tokens <;> exact pure_ok_iff

theorem punct?_cases {found : Option Span} (h : punct? mark tokens = .ok (found, rest)) :
    (∃ span, found = some span ∧ tokens = ⟨.punct mark, span⟩ :: rest) ∨
      found = none ∧ tokens.head?.map (·.value) ≠ some (.punct mark) ∧ tokens = rest := by
  obtain ⟨isMark, between, hmark, h⟩ := bind_ok_iff.1 h
  obtain ⟨rfl, rfl⟩ := atPunct_ok_iff.1 hmark
  split at h
  next heq =>
    obtain ⟨span, hspan, rfl⟩ := map_ok_iff.1 h
    exact .inl ⟨span, rfl, punct_ok_iff.1 hspan⟩
  next hne =>
    obtain ⟨rfl, rfl⟩ := pure_ok_iff.1 h
    exact .inr ⟨rfl, fun heq => hne (beq_iff_eq.2 heq), rfl⟩

theorem punct?_of_eq (span : Span) (tokens : List (Located Token)) :
    punct? mark (⟨.punct mark, span⟩ :: tokens) = .ok (some span, tokens) := by
  refine bind_ok_iff.2 ⟨true, _, atPunct_ok_iff.2 ⟨beq_self_eq_true _, rfl⟩, ?_⟩
  exact map_ok_iff.2 ⟨span, punct_ok_iff.2 rfl, rfl⟩

theorem punct?_of_ne (h : tokens.head?.map (·.value) ≠ some (.punct mark)) :
    punct? mark tokens = .ok (none, tokens) :=
  bind_ok_iff.2 ⟨false, tokens, atPunct_ok_iff.2 ⟨beq_eq_false_iff_ne.2 h, rfl⟩, rfl⟩

theorem terminators_eq (tokens : List (Located Token)) :
    terminators tokens = .ok ((), tokens.dropWhile fun t => t.value == .punct .semicolon) := by
  refine discard_ok_iff.2 ?_
  induction tokens with
  | nil => exact ⟨[], by rw [collect, punct?_of_ne (by rintro ⟨⟩)]; rfl⟩
  | cons t tokens ih =>
    obtain ⟨value, span⟩ := t
    rw [dropWhile_cons]
    split
    next h =>
      obtain rfl := eq_of_beq h
      obtain ⟨spans, hspans⟩ := ih
      refine ⟨span :: spans, ?_⟩
      rw [collect, punct?_of_eq]
      simp only [TokenStream.remaining, length_cons, Nat.lt_add_one, if_true, hspans]
    next h =>
      have hne : punct? .semicolon (⟨value, span⟩ :: tokens) =
          .ok (none, ⟨value, span⟩ :: tokens) :=
        punct?_of_ne fun heq => h (beq_iff_eq.2 (Option.some.inj heq))
      exact ⟨[], by rw [collect, hne]⟩

theorem tested_ok_iff (test : String → Bool) {reason : Located String → Refusal} :
    (do
      let name ← identifier
      if test name.value then return name else refuse (reason name)) tokens = .ok (name, rest) ↔
      tokens = ⟨.identifier name.value, name.span⟩ :: rest ∧ test name.value := by
  constructor
  · intro h
    obtain ⟨found, between, hfound, htested⟩ := bind_ok_iff.1 h
    obtain rfl := identifier_ok_iff.1 hfound
    split at htested
    next htest =>
      obtain ⟨rfl, rfl⟩ := pure_ok_iff.1 htested
      exact ⟨rfl, htest⟩
    next => exact (refuse_ok_iff.1 htested).elim
  · rintro ⟨rfl, htest⟩
    refine bind_ok_iff.2 ⟨name, rest, identifier_ok_iff.2 rfl, ?_⟩
    rw [if_pos htest]
    rfl

theorem fieldTag_ok_iff {tag : Located Int64} :
    fieldTag tokens = .ok (tag, rest) ↔
      tokens = ⟨.integer tag.value, tag.span⟩ :: rest ∧ 1 ≤ tag.value ∧ tag.value ≤ 255 := by
  simp only [fieldTag, bind_ok_iff, integer_ok_iff]
  constructor
  · rintro ⟨found, _, rfl, h⟩
    split at h
    next hrange =>
      obtain ⟨rfl, rfl⟩ := pure_ok_iff.1 h
      exact ⟨rfl, hrange⟩
    next => cases h
  · rintro ⟨rfl, hrange⟩
    exact ⟨tag, rest, rfl, by rw [if_pos hrange]; rfl⟩

/-- A map that is read has a base type before the comma, and behind it no container. -/
theorem mapType_eq_ok
    {elem : PlainParser WrittenElem} {found : FieldType × List String}
    (h : mapType elem tokens = .ok (found, rest)) :
    ∃ (word left comma right : Span) (first second : List (Located Token)) (key value : WrittenElem)
      (base : BaseType),
      tokens = ⟨.identifier "map", word⟩ :: ⟨.punct .leftAngle, left⟩ :: first ∧
      elem first = .ok (key, ⟨.punct .comma, comma⟩ :: second) ∧
      elem second = .ok (value, ⟨.punct .rightAngle, right⟩ :: rest) ∧
      (∀ word ∈ ["map", "repeated"], second.head?.map (·.value) ≠ some (.identifier word)) ∧
      key.type = .base base ∧ base.isMapKey ∧
      found = (.map base value.type, (key.hints ++ value.hints).eraseDups) := by
  simp only [mapType, bind_ok_iff, discard_ok_iff, commit_ok_iff, word_ok_iff, punct_ok_iff,
    atWord_ok_iff] at h
  obtain ⟨_, _, ⟨word, rfl⟩, _, first, ⟨left, rfl⟩, key, _, hkey, _, second, ⟨comma, rfl⟩, _, _,
    ⟨rfl, rfl⟩, _, _, ⟨rfl, rfl⟩, h⟩ := h
  split at h
  · simp only [bind_ok_iff, refuse_ok_iff, false_and, exists_false, and_false] at h
  next hwords =>
    simp only [bind_ok_iff, discard_ok_iff, punct_ok_iff] at h
    obtain ⟨value, _, hvalue, _, _, ⟨right, rfl⟩, h⟩ := h
    cases hbase : key.type with
    | custom type => simp [hbase, refuse_ok_iff] at h
    | base base =>
      simp only [hbase] at h
      split at h
      next hkeyBase =>
        obtain ⟨rfl, rfl⟩ := pure_ok_iff.1 h
        refine ⟨word, left, comma, right, first, second, key, value, base, rfl, hkey, hvalue, ?_,
          hbase, hkeyBase, rfl⟩
        intro word hword
        simp only [Bool.or_eq_true, beq_iff_eq, not_or] at hwords
        rcases mem_cons.1 hword with rfl | hword
        · exact hwords.1
        · rw [mem_singleton.1 hword]
          exact hwords.2
      next => cases h

/-! ## Parsers that advance -/

/-- What the parser leaves is the end of what it was given. -/
class Advances (p : PlainParser α) : Prop where
  suffix : ∀ tokens a rest, p tokens = .ok (a, rest) → rest <:+ tokens

namespace Advances

instance pure (a : α) : Advances (Pure.pure a) :=
  ⟨fun _ _ _ h => (pure_ok_iff.1 h).2 ▸ suffix_refl _⟩

instance bind (p : PlainParser α) (f : α → PlainParser β) [Advances p] [∀ a, Advances (f a)] :
    Advances (p >>= f) := by
  refine ⟨fun tokens b rest h => ?_⟩
  obtain ⟨a, between, hp, hf⟩ := bind_ok_iff.1 h
  exact (suffix between b rest hf).trans (suffix tokens a between hp)

/-- What follows has to be taken apart first. -/
theorem bind_of [Advances p] (h : ∀ a, Advances (f a)) : Advances (p >>= f) :=
  inferInstance

instance map (f : α → β) (p : PlainParser α) [Advances p] : Advances (f <$> p) := by
  refine ⟨fun tokens b rest h => ?_⟩
  obtain ⟨a, hp, -⟩ := map_ok_iff.1 h
  exact suffix tokens a rest hp

instance discard (p : PlainParser α) [Advances p] : Advances (discard p) := by
  refine ⟨fun tokens u rest h => ?_⟩
  obtain ⟨a, hp⟩ := discard_ok_iff.1 h
  exact suffix tokens a rest hp

instance ite (c : Prop) [Decidable c] (p q : PlainParser α) [Advances p] [Advances q] :
    Advances (if c then p else q) := by
  split <;> infer_instance

instance commit (p : PlainParser α) [Advances p] : Advances p.commit :=
  ⟨fun tokens a rest h => suffix tokens a rest (commit_ok_iff.1 h)⟩

instance refuse (reason : Refusal) : Advances (Parser.refuse reason : PlainParser α) :=
  ⟨fun _ _ _ h => (refuse_ok_iff.1 h).elim⟩

instance expected (what : String) : Advances (Parser.expected what : PlainParser α) :=
  ⟨fun _ _ _ h => by cases h⟩

instance token (what : String) (accept : Token → Option α) :
    Advances (Parser.token what accept) := by
  refine ⟨fun tokens a rest h => ?_⟩
  obtain ⟨t, rfl, -⟩ := token_ok_iff.1 h
  exact suffix_cons _ _

instance peek? : Advances Parser.peek? := ⟨fun _ _ _ h => (peek?_ok_iff.1 h).2 ▸ suffix_refl _⟩

instance peekMany (n : Nat) : Advances (Parser.peekMany n) :=
  ⟨fun _ _ _ h => (peekMany_ok_iff.1 h).2 ▸ suffix_refl _⟩

instance nextSpan : Advances Parser.nextSpan :=
  ⟨fun _ _ _ h => (nextSpan_ok_iff.1 h).2 ▸ suffix_refl _⟩

instance punct? (mark : Punct) : Advances (Parser.punct? mark) := by
  refine ⟨fun tokens a rest h => ?_⟩
  rcases punct?_cases h with ⟨span, -, rfl⟩ | ⟨-, -, rfl⟩
  · exact suffix_cons _ _
  · exact suffix_refl _

instance terminators : Advances Parser.terminators := by
  refine ⟨fun tokens a rest h => ?_⟩
  cases (terminators_eq tokens).symm.trans h
  exact dropWhile_suffix _

instance punct (mark : Punct) : Advances (Parser.punct mark) := by
  unfold Parser.punct; infer_instance

instance atPunct (mark : Punct) : Advances (Parser.atPunct mark) := by
  unfold Parser.atPunct; infer_instance

instance atWord (text : String) : Advances (Parser.atWord text) := by
  unfold Parser.atWord; infer_instance

instance terminator : Advances Parser.terminator := by
  unfold Parser.terminator; infer_instance

instance identifier : Advances Parser.identifier := by
  unfold Parser.identifier; infer_instance

instance word (text : String) : Advances (Parser.word text) := by
  unfold Parser.word; infer_instance

instance textLiteral : Advances Parser.textLiteral := by
  unfold Parser.textLiteral; infer_instance

instance integer : Advances Parser.integer := by
  unfold Parser.integer; infer_instance

instance optionValue : Advances Parser.optionValue := by
  unfold Parser.optionValue; infer_instance

instance fieldTag : Advances Parser.fieldTag := by
  unfold Parser.fieldTag; infer_instance

instance collect (next : PlainParser (Option α)) [Advances next] :
    Advances (Parser.collect next) := by
  refine ⟨fun tokens as rest h => ?_⟩
  fun_induction Parser.collect next tokens generalizing as rest with
  | case1 tokens fault hnext | case3 tokens a rest' hnext hlt fault hmore ih => cases h
  | case2 tokens rest' hnext | case5 tokens a rest' hnext hlt =>
    cases h
    exact suffix tokens _ rest' hnext
  | case4 tokens a rest' hnext hlt as' rest'' hmore ih =>
    cases h
    exact (ih as' rest'' hmore).trans (suffix tokens _ rest' hnext)

instance block (statement : PlainParser α) [Advances statement] :
    Advances (Parser.block statement) := by
  unfold Parser.block; infer_instance

instance declarations (declaration : PlainParser Declaration) [Advances declaration] :
    Advances (Parser.declarations declaration) := by
  unfold Parser.declarations; infer_instance

instance mapType (elem : PlainParser WrittenElem) [Advances elem] :
    Advances (Parser.mapType elem) := by
  refine ⟨fun tokens found rest h => ?_⟩
  obtain ⟨_, _, _, _, first, second, key, value, _, rfl, hkey, hvalue, -⟩ := mapType_eq_ok h
  have hend : rest <:+ second := (suffix_cons _ _).trans (suffix second value _ hvalue)
  have hmiddle : second <:+ first := (suffix_cons _ _).trans (suffix first key _ hkey)
  exact ((hend.trans hmiddle).trans (suffix_cons _ _)).trans (suffix_cons _ _)

theorem recursive (h : ∀ nested : PlainParser α, Advances nested → Advances (body nested)) :
    Advances (Parser.recursive body) := by
  refine ⟨fun tokens => ?_⟩
  induction hlength : tokens.length using Nat.strongRecOn generalizing tokens with
  | ind length ih =>
    subst hlength
    rw [Parser.recursive]
    refine (h _ ⟨fun inner a left heq => ?_⟩).suffix tokens
    split at heq
    next hlt => exact ih inner.length hlt inner rfl a left heq
    next => cases heq

end Advances

/-! ## What is read at a place -/

/-- Wherever in the source the parser starts, what it reads has the property. -/
def Within (source : List (Located Token)) (p : PlainParser α) (P : α → Prop) : Prop :=
  ∀ tokens a rest, tokens <:+ source → p tokens = .ok (a, rest) → P a

namespace Within

theorem mono (h : p.Within source P) (hP : ∀ a, P a → R a) : p.Within source R :=
  fun tokens a rest htokens ha => hP a (h tokens a rest htokens ha)

theorem all (h : ∀ a, P a) : p.Within source P :=
  fun _ a _ _ _ => h a

theorem any (p : PlainParser α) : p.Within source fun _ => True :=
  all fun _ => trivial

theorem and (h : p.Within source P) (h' : p.Within source R) :
    p.Within source fun a => P a ∧ R a :=
  fun tokens a rest htokens ha => ⟨h tokens a rest htokens ha, h' tokens a rest htokens ha⟩

theorem pure (h : P a) : Within source (Pure.pure a) P := by
  intro tokens b rest _ hb
  obtain ⟨rfl, -⟩ := pure_ok_iff.1 hb
  exact h

theorem bind [Advances p] (hp : p.Within source P) (hf : ∀ a, P a → (f a).Within source Q) :
    Within source (p >>= f) Q := by
  intro tokens b rest htokens h
  obtain ⟨a, between, ha, hb⟩ := bind_ok_iff.1 h
  exact hf a (hp tokens a between htokens ha) between b rest
    ((Advances.suffix tokens a between ha).trans htokens) hb

theorem after [Advances p] (hf : ∀ a, (f a).Within source Q) : Within source (p >>= f) Q :=
  (any p).bind fun a _ => hf a

theorem commit (h : p.Within source P) : p.commit.Within source P :=
  fun tokens a rest htokens ha => h tokens a rest htokens (commit_ok_iff.1 ha)

theorem refuse (reason : Refusal) : Within source (Parser.refuse reason) P :=
  fun _ _ _ _ h => (refuse_ok_iff.1 h).elim

theorem refuse_bind (reason : Refusal) (next : α → PlainParser β) :
    Within source (Parser.refuse reason >>= next) Q :=
  bind (P := fun _ => False) (refuse reason) fun _ h => h.elim

theorem expected (what : String) : Within source (Parser.expected what) P :=
  fun _ _ _ _ h => by cases h

theorem join
    {c : Prop} [Decidable c] [Advances x] [Advances y] (hx : x.Within source P)
    (hy : y.Within source P) (h : ∀ a, P a → (next a).Within source Q) :
    Within source (if c then x >>= next else y >>= next) Q := by
  split
  · exact hx.bind h
  · exact hy.bind h

theorem of_join
    {c : Prop} [Decidable c] [Advances x] [Advances y] (h : ∀ a, (next a).Within source Q) :
    Within source (if c then x >>= next else y >>= next) Q :=
  join (any x) (any y) fun a _ => h a

theorem identifier :
    Parser.identifier.Within source fun name => ⟨.identifier name.value, name.span⟩ ∈ source := by
  intro tokens name rest htokens h
  rw [identifier_ok_iff.1 h] at htokens
  exact htokens.subset mem_cons_self

theorem integer :
    Parser.integer.Within source fun number => ⟨.integer number.value, number.span⟩ ∈ source := by
  intro tokens number rest htokens h
  rw [integer_ok_iff.1 h] at htokens
  exact htokens.subset mem_cons_self

theorem fieldTag : Parser.fieldTag.Within source fun tag => 1 ≤ tag.value ∧ tag.value ≤ 255 :=
  fun _ _ _ _ h => (fieldTag_ok_iff.1 h).2

theorem collect
    {next : PlainParser (Option α)} [Advances next]
    (h : next.Within source fun found => ∀ a, found = some a → P a) :
    Within source (Parser.collect next) fun found => ∀ a ∈ found, P a := by
  intro tokens as rest htokens heq
  fun_induction Parser.collect next tokens generalizing as rest with
  | case1 tokens fault hnext | case3 tokens a rest' hnext hlt fault hmore ih => cases heq
  | case2 tokens rest' hnext =>
    cases heq
    exact forall_mem_nil _
  | case4 tokens a rest' hnext hlt as' rest'' hmore ih =>
    cases heq
    have hrest' : rest' <:+ source := (Advances.suffix tokens _ rest' hnext).trans htokens
    exact forall_mem_cons.2 ⟨h tokens _ rest' htokens hnext a rfl, ih as' rest'' hrest' hmore⟩
  | case5 tokens a rest' hnext hlt =>
    cases heq
    exact forall_mem_singleton.2 (h tokens _ rest' htokens hnext a rfl)

theorem block {statement : PlainParser α} [Advances statement] (h : statement.Within source P) :
    Within source (Parser.block statement) fun found => ∀ a ∈ found, P a := by
  refine after fun _ => bind (collect ?_) fun found hfound =>
    after fun _ => pure hfound
  refine after fun _ => after fun closed => ?_
  split
  · exact pure fun _ heq => by cases heq
  · exact h.bind fun a ha => pure fun _ heq => by cases heq; exact ha

theorem declarations
    {declaration : PlainParser Declaration} [Advances declaration] {P : Declaration → Prop}
    (h : declaration.Within source P) :
    Within source (Parser.declarations declaration) fun found => ∀ d ∈ found, P d := by
  refine collect (after fun _ => after fun found => ?_)
  split
  · exact pure fun _ heq => by cases heq
  · exact h.bind fun d hd => pure fun _ heq => by cases heq; exact hd

theorem recursive
    (hadvances : ∀ nested : PlainParser α, Advances nested → Advances (body nested))
    (h : ∀ nested : PlainParser α, Advances nested → nested.Within source P →
      (body nested).Within source P) : Within source (Parser.recursive body) P := by
  intro tokens
  induction hlength : tokens.length using Nat.strongRecOn generalizing tokens with
  | ind length ih =>
    subst hlength
    rw [Parser.recursive]
    refine h _ ⟨fun inner a left heq => ?_⟩ (fun inner a left hinner heq => ?_) tokens
    · split at heq
      next => exact (Advances.recursive hadvances).suffix inner a left heq
      next => cases heq
    · split at heq
      next hlt => exact ih inner.length hlt inner rfl a left hinner heq
      next => cases heq

end Within

end Idl.Parser

namespace Idl

open Idl.Parser List

variable {Q : FieldType → Prop} {source : List (Located Token)} {N : Located String → Prop}
  {found : FieldType × List String}

/-! ## Field types -/

variable {tokens rest : List (Located Token)}

/-- The words that would open a container if they stood for the element. -/
def FieldType.openers : FieldType → List String
  | single _ => ["map"]
  | list _ => []
  | map _ _ => ["map", "repeated"]

/-- The type is read around an element in the tokens, where none of the words is next. -/
def FieldType.Around
    (elem : PlainParser WrittenElem) (tokens : List (Located Token)) (words : List String)
    (type : FieldType) : Prop :=
  (∀ key value, type = .map key value → key.isMapKey) ∧
    ∃ found inner after, type.elem = found.type ∧ inner <:+ tokens ∧
      elem inner = .ok (found, after) ∧
      ∀ word ∈ words, inner.head?.map (·.value) ≠ some (.identifier word)

theorem Parser.around_of_mapType
    {elem : PlainParser WrittenElem} [Advances elem] (h : mapType elem tokens = .ok (found, rest)) :
    found.1.Around elem tokens ["map", "repeated"] := by
  obtain ⟨_, _, _, _, first, second, key, value, base, rfl, hkey, hvalue, hwords, -, hbase, rfl⟩ :=
    mapType_eq_ok h
  have hsecond : second <:+ first := (suffix_cons _ _).trans (Advances.suffix first key _ hkey)
  refine ⟨?_, value, second, _, rfl,
    hsecond.trans ((suffix_cons _ _).trans (suffix_cons _ _)), hvalue, hwords⟩
  rintro _ _ ⟨⟩
  exact hbase

/-! ## The grammars -/

namespace Native

theorem optionKey_ok_iff {key : Located String} :
    optionKey tokens = .ok (key, rest) ↔
      tokens = ⟨.identifier key.value, key.span⟩ :: rest ∧ isOptionName key.value :=
  tested_ok_iff isOptionName

theorem declaredName_ok_iff {what : String} {name : Located String} :
    declaredName what tokens = .ok (name, rest) ↔
      tokens = ⟨.identifier name.value, name.span⟩ :: rest ∧
        isLowerIdentifier name.value.toList :=
  tested_ok_iff fun name => isLowerIdentifier name.toList

instance (what : String) : Advances (declaredName what) := by unfold declaredName; infer_instance

instance : Advances optionKey := by unfold optionKey; infer_instance

instance : Advances option := by unfold option; infer_instance

instance : Advances optionBlock := by unfold optionBlock; infer_instance

instance : Advances optionBlock? := by unfold optionBlock?; infer_instance

instance : Advances package := by unfold package; infer_instance

instance : Advances importFile := by
  refine Advances.bind_of fun _ => @Advances.commit _ _ (Advances.bind_of fun next => ?_)
  dsimp only
  split <;> infer_instance

instance : Advances enumValue := by
  refine Advances.bind_of fun name => Advances.bind_of fun equals => ?_
  split
  · refine Advances.bind_of fun next => ?_
    dsimp only
    split <;> infer_instance
  · infer_instance

instance : Advances enumStatement := by
  refine Advances.bind_of fun next => ?_
  split <;> infer_instance

instance : Advances enum := by unfold enum; infer_instance

instance : Advances elemType := by
  refine Advances.bind_of fun bracket => ?_
  split
  · infer_instance
  · refine Advances.bind_of fun name => ?_
    split <;> infer_instance

instance : Advances fieldType := by
  refine Advances.bind_of fun isMap => ?_
  split
  · infer_instance
  · refine Advances.bind_of fun isList => ?_
    split
    · refine Advances.bind_of fun _ => Advances.bind_of fun _ => Advances.bind_of fun _ => ?_
      infer_instance
    · infer_instance

theorem around_of_fieldType {type : FieldType} (h : fieldType tokens = .ok (type, rest)) :
    type.Around elemType tokens ["map", "repeated"] := by
  simp only [fieldType, bind_ok_iff, atWord_ok_iff] at h
  obtain ⟨_, _, ⟨rfl, rfl⟩, h⟩ := h
  split at h
  next =>
    simp only [bind_ok_iff, pure_ok_iff] at h
    obtain ⟨found, _, hfound, rfl, rfl⟩ := h
    exact around_of_mapType hfound
  next hmap =>
    simp only [bind_ok_iff, atWord_ok_iff] at h
    obtain ⟨_, _, ⟨rfl, rfl⟩, h⟩ := h
    split at h
    next =>
      simp only [bind_ok_iff, discard_ok_iff, word_ok_iff, atWord_ok_iff] at h
      obtain ⟨_, inner, ⟨span, rfl⟩, _, _, ⟨rfl, rfl⟩, _, _, ⟨rfl, rfl⟩, h⟩ := h
      split at h
      next => simp only [bind_ok_iff, refuse_ok_iff, false_and, exists_false, and_false] at h
      next hnested =>
        simp only [bind_ok_iff, commit_ok_iff, pure_ok_iff] at h
        obtain ⟨elem, _, helem, rfl, rfl⟩ := h
        exact ⟨nofun, elem, inner, _, rfl, suffix_cons _ _, helem,
          by simpa [and_comm] using hnested⟩
    next hlist =>
      simp only [bind_ok_iff, pure_ok_iff] at h
      obtain ⟨elem, _, helem, rfl, rfl⟩ := h
      simp only [beq_iff_eq] at hmap hlist
      exact ⟨nofun, elem, tokens, _, rfl, suffix_refl _, helem,
        forall_mem_cons.2 ⟨hmap, forall_mem_singleton.2 hlist⟩⟩

instance : Advances field := by unfold field; infer_instance

theorem within_field
    {T : Located Int64 → Prop} {O : List OptionDecl → Prop} (hname : identifier.Within source N)
    (htag : fieldTag.Within source T) (htype : fieldType.Within source Q)
    (hoptions : optionBlock?.Within source O) :
    field.Within source fun f => (N f.name ∧ T f.tag ∧ Q f.type ∧ f.doc = .none) ∧ O f.options := by
  refine htype.bind fun type htype => .commit (hname.bind fun name hname => ?_)
  refine .after fun _ => htag.bind fun tag htag => ?_
  exact hoptions.bind fun options hoptions => .after fun _ =>
    .pure ⟨⟨hname, htag, htype, rfl⟩, hoptions⟩

theorem MessageItem.ofTokens_field (type name : String) (tail : List Token) :
    MessageItem.ofTokens (.identifier type :: .identifier name :: .punct .equals :: tail) =
      .field := by
  unfold MessageItem.ofTokens
  split <;> simp_all

instance (nested : PlainParser Message) [Advances nested] : Advances (messageStatement nested) := by
  refine Advances.bind_of fun next => ?_
  split <;> infer_instance

instance (nested : PlainParser Message) [Advances nested] : Advances (messageWith nested) := by
  unfold messageWith; infer_instance

instance : Advances message := Advances.recursive fun _ _ => inferInstance

instance (fieldName role : String) : Advances (methodMessage fieldName role) := by
  refine Advances.bind_of fun elem => ?_
  split <;> infer_instance

instance (config : ParseConfig) : Advances (method config) := by
  refine Advances.bind_of fun name => @Advances.commit _ _ (Advances.bind_of fun _ =>
    Advances.bind_of fun closed => ?_)
  extract_lets jp
  have hjp (request : Option MethodMessage) : Advances (jp request) :=
    Advances.bind_of fun _ => Advances.bind_of fun reply => inferInstance
  split <;> infer_instance

instance (flag : Located String) : Advances (flagMode flag) := by unfold flagMode; infer_instance

instance (config : ParseConfig) : Advances (serviceStatement config) := by
  refine Advances.bind_of fun next => ?_
  split <;> infer_instance

instance (config : ParseConfig) : Advances (service config) := by unfold service; infer_instance

instance : Advances projectStatement := by
  refine Advances.bind_of fun next => ?_
  split <;> infer_instance

instance : Advances project := by unfold project; infer_instance

instance (config : ParseConfig) : Advances (declaration config) := by
  refine Advances.bind_of fun next => ?_
  split <;> infer_instance

end Native

namespace Protobuf

instance : Advances syntaxVersion? := by
  refine Advances.bind_of fun found => ?_
  split
  · refine Advances.bind_of fun span => @Advances.commit _ _ (Advances.bind_of fun _ =>
      Advances.bind_of fun version => ?_)
    split <;> infer_instance
  · infer_instance

instance : Advances package := by unfold package; infer_instance

instance : Advances importFile := by
  refine Advances.bind_of fun _ => @Advances.commit _ _ (Advances.bind_of fun next => ?_)
  dsimp only
  split <;> infer_instance

instance : Advances optionName := by
  refine Advances.bind_of fun parenthesis => ?_
  split <;> infer_instance

instance : Advances option := by unfold option; infer_instance

instance : Advances fieldOption := by unfold fieldOption; infer_instance

instance : Advances fieldOptions := by unfold fieldOptions; infer_instance

instance : Advances enumStatement := by
  refine Advances.bind_of fun found => ?_
  split <;> infer_instance

instance : Advances enum := by unfold enum; infer_instance

instance : Advances elemType := by
  refine Advances.bind_of fun name => ?_
  split <;> infer_instance

instance : Advances cardinality := by unfold cardinality; infer_instance

instance (repeated : Bool) : Advances (fieldType repeated) := by unfold fieldType; infer_instance

theorem around_of_fieldType {repeated : Bool} (h : fieldType repeated tokens = .ok (found, rest)) :
    found.1.Around elemType tokens found.1.openers := by
  simp only [fieldType, bind_ok_iff, atWord_ok_iff] at h
  obtain ⟨_, _, ⟨rfl, rfl⟩, h⟩ := h
  split at h
  next =>
    have hmap := around_of_mapType h
    obtain ⟨_, _, _, _, _, _, _, _, _, -, -, -, -, -, -, rfl⟩ := mapType_eq_ok h
    exact hmap
  next hmap =>
    simp only [bind_ok_iff, pure_ok_iff] at h
    obtain ⟨elem, _, helem, rfl, rfl⟩ := h
    cases repeated with
    | true =>
      exact ⟨nofun, elem, tokens, _, rfl, suffix_refl _, helem, fun _ hword => nomatch hword⟩
    | false =>
      refine ⟨nofun, elem, tokens, _, rfl, suffix_refl _, helem, fun word hword heq => ?_⟩
      obtain rfl := mem_singleton.1 hword
      exact hmap (by simp [heq])

instance : Advances field := by
  refine Advances.bind_of fun repeated => Advances.bind_of fun found => ?_
  infer_instance

theorem within_field
    (hname : identifier.Within source N)
    (htype : ∀ repeated, (fieldType repeated).Within source fun found => Q found.1) :
    field.Within source fun f =>
      N f.name ∧ (1 ≤ f.tag.value ∧ f.tag.value ≤ 255) ∧ Q f.type ∧ f.doc = .none := by
  refine .after fun repeated => (htype repeated).bind fun found htype => .commit ?_
  refine hname.bind fun name hname => .after fun _ => Within.fieldTag.bind
    fun tag htag => .after fun bracket => .of_join fun written => ?_
  exact .after fun _ => .pure ⟨hname, htag, htype, rfl⟩

instance (nested : PlainParser Message) [Advances nested] : Advances (messageStatement nested) := by
  refine Advances.bind_of fun next => ?_
  split <;> infer_instance

instance (nested : PlainParser Message) [Advances nested] : Advances (messageWith nested) := by
  unfold messageWith; infer_instance

instance : Advances message := Advances.recursive fun _ _ => inferInstance

instance : Advances rpcMessage := by unfold rpcMessage; infer_instance

instance (config : ParseConfig) : Advances (rpc config) := by
  refine Advances.bind_of fun _ => @Advances.commit _ _ (Advances.bind_of fun name =>
    Advances.bind_of fun _ => Advances.bind_of fun request => Advances.bind_of fun _ =>
    Advances.bind_of fun _ => Advances.bind_of fun _ => Advances.bind_of fun reply =>
    Advances.bind_of fun _ => Advances.bind_of fun equals => ?_)
  extract_lets jp
  have hjp (id : Option (Located Int64)) : Advances (jp id) :=
    Advances.bind_of fun brace => inferInstance
  infer_instance

instance (config : ParseConfig) : Advances (serviceStatement config) := by
  refine Advances.bind_of fun next => ?_
  split <;> infer_instance

instance (config : ParseConfig) : Advances (service config) := by unfold service; infer_instance

instance (config : ParseConfig) : Advances (declaration config) := by
  refine Advances.bind_of fun next => ?_
  split <;> infer_instance

end Protobuf

end Idl
