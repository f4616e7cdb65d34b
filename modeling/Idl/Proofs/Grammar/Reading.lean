import Idl.Proofs.Grammar.Places

/-!
# Parsers on given tokens

A parser that is given the tokens of a declaration reads exactly these, whatever follows them.
Since it does not look at places, the tokens may all stand at the start of the text.  What it finds
is put together from what its parts find: one token after the other, item by item in a list or a
block, and by recursion in what is nested.
-/

namespace Idl

open List

namespace Parser

/-- The tokens, none of them at a place of its own. -/
def nowhere (tokens : List Token) : List (Located Token) := tokens.map (⟨·, default⟩)

variable {α β γ ι : Type} {n : Nat} {a : α} {b : β} {p : PlainParser α} {f : α → PlainParser β}
  {t : Token}
  {first more : List Token}

/-- Given the tokens, whatever follows them, the parser reads these and no others, and finds what is
said; no more than `n` tokens need to be left. -/
def Reads (n : Nat) (p : PlainParser α) (tokens : List Token) (a : α) : Prop :=
  ∀ rest : List (Located Token), (nowhere tokens ++ rest).length ≤ n →
    p (nowhere tokens ++ rest) = .ok (a, rest)

namespace Reads

theorem of_succ (h : p.Reads (n + 1) first a) : p.Reads n first a :=
  fun rest hlength => h rest (Nat.le_succ_of_le hlength)

theorem pure : Reads n (Pure.pure a) [] a := fun _ _ => rfl

theorem bind (hp : p.Reads n first a) (hf : (f a).Reads n more b) :
    Reads n (p >>= f) (first ++ more) b := by
  intro rest hlength
  rw [nowhere, map_append, append_assoc] at hlength ⊢
  have hmore : (nowhere more ++ rest).length ≤ n := by
    rw [length_append] at hlength
    exact Nat.le_trans (Nat.le_add_left _ _) hlength
  exact bind_ok_iff.2 ⟨a, _, hp _ hlength, hf rest hmore⟩

theorem bind_fewer (hp : p.Reads (n + 1) [t] a) (hf : (f a).Reads n more b) :
    Reads (n + 1) (p >>= f) (t :: more) b :=
  fun rest hlength => bind_ok_iff.2 ⟨a, nowhere more ++ rest, hp _ hlength,
    hf rest (Nat.le_of_succ_le_succ hlength)⟩

theorem bind_end (hp : p.Reads n first a) (hf : (f a).Reads n [] b) :
    Reads n (p >>= f) first b := by
  have h := bind hp hf
  rwa [append_nil] at h

theorem cons (hp : p.Reads n [t] a) (hf : (f a).Reads n more b) :
    Reads n (p >>= f) (t :: more) b := bind hp hf

theorem map (hp : p.Reads n first a) {g : α → β} : Reads n (g <$> p) first (g a) :=
  hp.bind_end (f := fun a => Pure.pure (g a)) pure

theorem commit (hp : p.Reads n first a) : p.commit.Reads n first a :=
  fun rest hlength => commit_ok_iff.2 (hp rest hlength)

/-! ### Tokens -/

theorem of_head (h : ∀ rest, p (⟨t, default⟩ :: rest) = .ok (a, rest)) : p.Reads n [t] a :=
  fun rest _ => h rest

theorem identifier (name : String) :
    Reads n Parser.identifier [.identifier name] ⟨name, default⟩ := of_head fun _ => rfl

theorem integer (value : Int64) : Reads n Parser.integer [.integer value] ⟨value, default⟩ :=
  of_head fun _ => rfl

theorem textLiteral (text : String) : Reads n Parser.textLiteral [.text text] ⟨text, default⟩ :=
  of_head fun _ => rfl

theorem word (text : String) : Reads n (Parser.word text) [.identifier text] default :=
  of_head fun _ => word_ok_iff.2 rfl

theorem mark {mark : Punct} {f : Unit → PlainParser β} (h : (f ()).Reads n more b) :
    Reads n (discard (punct mark) >>= f) (.punct mark :: more) b :=
  cons (of_head fun _ => discard_ok_iff.2 ⟨_, punct_ok_iff.2 rfl⟩) h

theorem keyword {text : String} {f : Unit → PlainParser β} (h : (f ()).Reads n more b) :
    Reads n (discard (Parser.word text) >>= f) (.identifier text :: more) b :=
  cons (word text).map h

theorem fieldTag {value : Int64} (h : 1 ≤ value ∧ value ≤ 255) :
    Reads n Parser.fieldTag [.integer value] ⟨value, default⟩ :=
  of_head fun _ => fieldTag_ok_iff.2 ⟨rfl, h⟩

theorem ending : Reads n (do terminator; return a) [.punct .semicolon] a :=
  of_head fun _ => rfl

/-! ### Looking ahead -/

theorem ahead
    {look : PlainParser γ} {c : γ} {g : γ → PlainParser β} {tokens : List Token}
    (hlook : ∀ rest, look (nowhere tokens ++ rest) = .ok (c, nowhere tokens ++ rest))
    (h : (g c).Reads n tokens b) : Reads n (look >>= g) tokens b :=
  fun rest hlength => bind_ok_iff.2 ⟨c, _, hlook rest, h rest hlength⟩

theorem peek {g : Option Token → PlainParser β} (h : (g (some t)).Reads n (t :: more) b) :
    Reads n (peek? >>= g) (t :: more) b :=
  ahead (fun _ => rfl) h

theorem atPunct
    {mark : Punct} {found : Bool} {g : Bool → PlainParser β} (hfound : (t == .punct mark) = found)
    (h : (g found).Reads n (t :: more) b) : Reads n (Parser.atPunct mark >>= g) (t :: more) b :=
  ahead (fun _ => atPunct_ok_iff.2 ⟨hfound, rfl⟩) h

theorem atWord
    {text : String} {found : Bool} {g : Bool → PlainParser β}
    (hfound : (t == .identifier text) = found)
    (h : (g found).Reads n (t :: more) b) : Reads n (Parser.atWord text >>= g) (t :: more) b :=
  ahead (fun _ => atWord_ok_iff.2 ⟨hfound, rfl⟩) h

theorem punct?
    {mark : Punct} {g : Option Span → PlainParser β} (h : (g (some default)).Reads n more b) :
    Reads n (Parser.punct? mark >>= g) (.punct mark :: more) b :=
  cons (of_head fun _ => punct?_of_eq _ _) h

theorem punct?_none
    {mark : Punct} {g : Option Span → PlainParser β} (ht : t ≠ .punct mark)
    (h : (g none).Reads n (t :: more) b) : Reads n (Parser.punct? mark >>= g) (t :: more) b :=
  ahead (fun _ => punct?_of_ne fun heq => ht (Option.some.inj heq)) h

theorem peekTwo
    {u : Token} {g : List Token → PlainParser β} (h : (g [t, u]).Reads n (t :: u :: more) b) :
    Reads n (peekMany 2 >>= g) (t :: u :: more) b :=
  ahead (fun _ => rfl) h

/-- More tokens may be looked at than are given. -/
theorem peekMany
    (front : List Token) (k : Nat) {g : List Token → PlainParser β}
    (h : ∀ tail, (g (front ++ tail)).Reads n (front ++ more) b) :
    Reads n (Parser.peekMany (front.length + k) >>= g) (front ++ more) b := by
  intro rest hlength
  refine bind_ok_iff.2 ⟨front ++ ((nowhere more ++ rest).take k).map (·.value), _,
    peekMany_ok_iff.2 ⟨?_, rfl⟩, h _ rest hlength⟩
  rw [nowhere, map_append, append_assoc, ← length_map (⟨·, default⟩ : Token → Located Token),
    take_length_add_append, map_append, map_map]
  exact congrArg (· ++ _) (map_id front)

/-! ### Lists -/

section Lists

variable {items : List ι} {tokens : ι → List Token} {value : ι → α}

theorem collect
    {next : PlainParser (Option α)} (hnext : ∀ x ∈ items, next.Reads n (tokens x) (some (value x)))
    (hne : ∀ x ∈ items, tokens x ≠ []) {stop : List (Located Token)}
    (hstop : next stop = .ok (none, stop))
    (hlength : (nowhere (items.flatMap tokens) ++ stop).length ≤ n) :
    Parser.collect next (nowhere (items.flatMap tokens) ++ stop) = .ok (items.map value, stop) := by
  induction items with
  | nil =>
    change Parser.collect next stop = _
    rw [Parser.collect, hstop]
    rfl
  | cons x items ih =>
    obtain ⟨hx, hitems⟩ := forall_mem_cons.1 hnext
    obtain ⟨hxne, hitemsne⟩ := forall_mem_cons.1 hne
    rw [flatMap_cons, nowhere, map_append, append_assoc] at hlength ⊢
    have hread := hx _ hlength
    have hpos := length_pos_iff.2 hxne
    have hmore := ih hitems hitemsne
      (by rw [length_append] at hlength; exact Nat.le_trans (Nat.le_add_left _ _) hlength)
    rw [nowhere] at hread hmore
    rw [Parser.collect, hread]
    simp [hmore, hpos]

theorem enclosed
    {next : PlainParser (Option α)} (hnext : ∀ x ∈ items, next.Reads n (tokens x) (some (value x)))
    (hne : ∀ x ∈ items, tokens x ≠ [])
    (hstop : ∀ rest, next (⟨.punct .rightBrace, default⟩ :: rest) =
      .ok (none, ⟨.punct .rightBrace, default⟩ :: rest)) :
    Reads n (do
      discard (punct .leftBrace)
      let found ← Parser.collect next
      discard (punct .rightBrace)
      return found)
      (.punct .leftBrace :: (items.flatMap tokens ++ [.punct .rightBrace])) (items.map value) := by
  refine mark fun rest hlength => ?_
  rw [nowhere, map_append, append_assoc] at hlength ⊢
  exact bind_ok_iff.2 ⟨_, _, collect hnext hne (hstop rest) hlength, rfl⟩

variable
  (hp : ∀ x ∈ items, p.Reads n (tokens x) (value x))
  (hname : ∀ x ∈ items, ∃ name more, tokens x = .identifier name :: more)

include hp hname

theorem block :
    Reads n (Parser.block p)
      (.punct .leftBrace :: (items.flatMap tokens ++ [.punct .rightBrace])) (items.map value) := by
  refine enclosed (fun x hx => ?_) (fun x hx => ?_)
    fun _ => bind_ok_iff.2 ⟨(), _, terminators_eq _, rfl⟩
  · obtain ⟨name, more, htokens⟩ := hname x hx
    have hread := hp x hx
    rw [htokens] at hread ⊢
    exact ahead (fun _ => terminators_eq _) (atPunct rfl (hread.bind_end pure))
  · obtain ⟨name, more, htokens⟩ := hname x hx
    simp [htokens]

end Lists

theorem declarations
    {p : PlainParser Declaration} {items : List ι} {tokens : ι → List Token}
    {value : ι → Declaration}
    (hp : ∀ x ∈ items, ∀ n, p.Reads n (tokens x) (value x))
    (hname : ∀ x ∈ items, ∃ name more, tokens x = .identifier name :: more) :
    Parser.declarations p (nowhere (items.flatMap tokens)) = .ok (items.map value, []) := by
  rw [← append_nil (nowhere _)]
  refine collect (fun x hx => ?_) (fun x hx => ?_)
    (bind_ok_iff.2 ⟨(), _, terminators_eq _, rfl⟩) (Nat.le_refl _)
  · obtain ⟨name, more, htokens⟩ := hname x hx
    have hread := hp x hx
    rw [htokens] at hread ⊢
    exact ahead (fun _ => terminators_eq _) (peek ((hread _).bind_end pure))
  · obtain ⟨name, more, htokens⟩ := hname x hx
    simp [htokens]

/-- A parser that uses itself reads what its body reads, where the body may rely on what the parser
reads behind the first token. -/
theorem recursive
    {body : PlainParser α → PlainParser α} {tokens : List Token} (hne : tokens ≠ [])
    (h : ∀ (n : Nat) (nested : PlainParser α), (∀ (tokens : List Token) (a : α),
        (∀ n, Reads n (Parser.recursive body) tokens a) → nested.Reads n tokens a) →
      (body nested).Reads (n + 1) tokens a) (n : Nat) :
    Reads n (Parser.recursive body) tokens a := by
  intro rest _
  have hpos : 0 < (nowhere tokens ++ rest).length := by
    have := length_pos_iff.2 hne
    simp only [nowhere, length_append, length_map]
    omega
  rw [Parser.recursive]
  refine h ((nowhere tokens ++ rest).length - 1) _ ?_ rest (by omega)
  intro inner a' hinner rest' hlength'
  have hlt : (nowhere inner ++ rest').length < (nowhere tokens ++ rest).length := by omega
  simp only [remaining_eq_length, hlt, if_true]
  exact hinner _ rest' hlength'

end Reads

end Parser

def Shift.plain : Shift := ⟨.plain, fun _ _ => rfl, rfl, rfl⟩

namespace Dialect

variable (dialect : Dialect) {config : ParseConfig} {again : List (Located Token)}

/-- Where no token has a place, the same is read, places and comments apart. -/
theorem grammar_nowhere :
    dialect.grammar config (Parser.nowhere ((significant again).map (·.value))) =
      Parser.moved Shift.plain (Tokens.plain Shift.plain) (·.relabel .plain)
        (dialect.grammar config ⟨again⟩) := by
  rw [Parser.nowhere, map_map]
  exact alike_grammar .plain (Tokens.plain Shift.plain) dialect config ⟨again⟩

theorem exists_build
    {schema : Schema} {tokens : List Token} {rest : List (Located Token)}
    (h : dialect.grammar config (Parser.nowhere tokens) = .ok (schema, rest))
    (hagain : (significant again).map (·.value) = tokens) :
    ∃ found, dialect.build config again = .ok found ∧ found.relabel .plain = schema := by
  rw [← hagain, grammar_nowhere] at h
  cases hread : dialect.grammar config (⟨again⟩ : Tokens) with
  | error fault => simp [hread, Parser.moved] at h
  | ok found =>
    simp only [hread, Parser.moved, Except.ok.injEq, Prod.mk.injEq] at h
    exact ⟨found.1, Parser.run_ok_iff.2 ⟨found.2, hread⟩, h.1⟩

end Dialect

end Idl
