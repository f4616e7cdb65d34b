import Idl.Grammar
import Idl.Proofs.Grammar.Spared

/-!
# Parsers that do without terminators

A parser of the native notation reads the same when terminators are missing.  What it reads last may
be missing too, so that it matters what follows: behind a statement there is nothing that goes on
with it, since no statement begins so.  The property is put together from the parts of a parser.
-/

namespace Idl.Native

open Idl.Parser

variable {F : List (Located Token) → Prop}
variable {α β γ : Type} {n m : Nat} {inside solid : Bool} {before : List Token}
  {tokens tokens' between rest rest' : List (Located Token)} {what : String}
  {statement' : PlainParser α}
  {accept : Token → Option α}

/-! ## What is read -/

/-- Up to the rest, no tokens are added; if `solid` says so, one is read, and the first one begins a
statement. -/
structure Leads (solid : Bool) (tokens rest : List (Located Token)) : Prop where
  length_le : rest.length ≤ tokens.length
  solid : solid → rest.length < tokens.length ∧ ∃ t ∈ tokens.head?, Opens t.value

namespace Leads

theorem refl (tokens : List (Located Token)) : Leads false tokens tokens := ⟨Nat.le_refl _, nofun⟩

theorem trans (h : Leads solid tokens between) (h' : Leads false between rest) :
    Leads solid tokens rest where
  length_le := Nat.le_trans h'.length_le h.length_le
  solid hsolid := ⟨Nat.lt_of_le_of_lt h'.length_le (h.solid hsolid).1, (h.solid hsolid).2⟩

theorem of_solid (h : Leads true tokens rest) : Leads solid tokens rest :=
  ⟨h.length_le, fun _ => h.solid rfl⟩

theorem cons (t : Located Token) (rest : List (Located Token)) (ht : solid → Opens t.value) :
    Leads solid (t :: rest) rest :=
  ⟨Nat.le_succ _, fun hsolid => ⟨Nat.lt_succ_self _, t, rfl, ht hsolid⟩⟩

end Leads

/-- What is left in two runs, fewer than `n` and `m` tokens: in the second run terminators are
missing.  It is left directly in the body of a message if `inside` says so. -/
structure Beside (n m : Nat) (inside : Bool) (before : List Token)
    (tokens tokens' : List (Located Token)) : Prop where
  spared : Spared before tokens tokens'
  length_lt : tokens.length < n
  length_lt' : tokens'.length < m
  inside : inside → inMessage 0 before

theorem Beside.next
    {before' : List Token} (h : Beside n m inside before tokens tokens')
    (hlength : rest.length ≤ tokens.length) (hlength' : rest'.length ≤ tokens'.length)
    (hlevel : Level before before') (hspared : Spared before' rest rest') :
    Beside n m inside before' rest rest' where
  spared := hspared
  length_lt := Nat.lt_of_le_of_lt hlength h.length_lt
  length_lt' := Nat.lt_of_le_of_lt hlength' h.length_lt'
  inside hinside := (hlevel 0).trans (h.inside hinside)

/-- What the first parser reads, up to a rest as described, the second one also reads when
terminators are missing. -/
structure Tolerates (n m : Nat) (inside solid : Bool) (F : List (Located Token) → Prop)
    (p q : PlainParser α) : Prop where
  leads : ∀ {tokens a rest}, p tokens = .ok (a, rest) → Leads solid tokens rest
  reads : ∀ {before tokens tokens' a rest}, Beside n m inside before tokens tokens' →
    p tokens = .ok (a, rest) → F rest →
    ∃ before' rest', q tokens' = .ok (a, rest') ∧ Leads solid tokens' rest' ∧
      Level before before' ∧ Spared before' rest rest'

/-- What the parser reads it also reads when terminators are missing. -/
abbrev Tolerant (n m : Nat) (inside solid : Bool) (F : List (Located Token) → Prop)
    (p : PlainParser α) : Prop :=
  Tolerates n m inside solid F p p

namespace Tolerates

variable {F G : List (Located Token) → Prop} {p q p' q' : PlainParser α} {f g : α → PlainParser β}

theorem pure (a : α) : Tolerant n m inside false F (Pure.pure a) where
  leads h := (pure_ok_iff.1 h).2 ▸ .refl _
  reads hbeside h _ := by
    obtain ⟨rfl, rfl⟩ := pure_ok_iff.1 h
    exact ⟨_, _, rfl, .refl _, .refl _, hbeside.spared⟩

theorem bind
    (hp : Tolerates n m inside solid G p q) (hf : ∀ a, Tolerates n m inside false F (f a) (g a))
    (hG : ∀ a between b rest, f a between = .ok (b, rest) → F rest → G between) :
    Tolerates n m inside solid F (p >>= f) (q >>= g) where
  leads h := by
    obtain ⟨a, between, ha, hb⟩ := bind_ok_iff.1 h
    exact (hp.leads ha).trans ((hf a).leads hb)
  reads hbeside h hF := by
    obtain ⟨a, between, ha, hb⟩ := bind_ok_iff.1 h
    obtain ⟨before', between', ha', hleads, hlevel, hspared⟩ :=
      hp.reads hbeside ha (hG a between _ _ hb hF)
    obtain ⟨before'', rest', hb', hleads', hlevel', hrest⟩ :=
      (hf a).reads (hbeside.next (hp.leads ha).length_le hleads.length_le hlevel hspared) hb hF
    exact ⟨before'', rest', bind_ok_iff.2 ⟨a, between', ha', hb'⟩, hleads.trans hleads',
      hlevel.trans hlevel', hrest⟩

/-- Behind the first part anything may stand. -/
theorem andThen
    (hp : Tolerates n m inside solid (fun _ => True) p q)
    (hf : ∀ a, Tolerates n m inside false F (f a) (g a)) :
    Tolerates n m inside solid F (p >>= f) (q >>= g) :=
  bind hp hf fun _ _ _ _ _ _ => trivial

theorem map (h : Tolerates n m inside solid F p q) (f : α → β) :
    Tolerates n m inside solid F (f <$> p) (f <$> q) :=
  bind h (fun a => pure (f a)) fun _ _ _ _ hb hF => (pure_ok_iff.1 hb).2 ▸ hF

theorem discard (h : Tolerates n m inside solid F p q) :
    Tolerates n m inside solid F (discard p) (discard q) :=
  h.map _

theorem commit (h : Tolerates n m inside solid F p q) :
    Tolerates n m inside solid F p.commit q.commit where
  leads ha := h.leads (commit_ok_iff.1 ha)
  reads hbeside ha hF := by
    obtain ⟨before', rest', ha', hmore⟩ := h.reads hbeside (commit_ok_iff.1 ha) hF
    exact ⟨before', rest', commit_ok_iff.2 ha', hmore⟩

theorem ite
    {c : Prop} [Decidable c] (hp : Tolerates n m inside solid F p q)
    (hp' : Tolerates n m inside solid F p' q') :
    Tolerates n m inside solid F (if c then p else p') (if c then q else q') := by
  split
  · exact hp
  · exact hp'

theorem of_fails (h : ∀ tokens a rest, p tokens ≠ .ok (a, rest)) :
    Tolerates n m inside solid F p q :=
  ⟨fun ha => (h _ _ _ ha).elim, fun _ ha => (h _ _ _ ha).elim⟩

theorem refuse (reason : Refusal) :
    Tolerates n m inside solid F (Parser.refuse reason : PlainParser α) (Parser.refuse reason) :=
  of_fails fun _ _ _ h => refuse_ok_iff.1 h

theorem refuse_at (reason : Span → Refusal) :
    Tolerant n m inside solid F (nextSpan >>= fun span => Parser.refuse (reason span) >>= f) := by
  refine of_fails fun tokens b rest h => ?_
  obtain ⟨span, between, -, h⟩ := bind_ok_iff.1 h
  obtain ⟨_, _, hrefuse, -⟩ := bind_ok_iff.1 h
  exact refuse_ok_iff.1 hrefuse

/-! ### Tokens -/

theorem token (h : ∀ t a, accept t = some a → Inner t ∧ (solid → Opens t)) :
    Tolerant n m inside solid F (Parser.token what accept) where
  leads ha := by
    obtain ⟨t, rfl, ht⟩ := token_ok_iff.1 ha
    exact .cons _ _ (h t _ ht).2
  reads hbeside ha _ := by
    obtain ⟨t, rfl, ht⟩ := token_ok_iff.1 ha
    obtain ⟨hinner, hopens⟩ := h t _ ht
    obtain ⟨more, rfl, hmore, -⟩ :=
      hbeside.spared.of_cons fun (heq : t = _) => hinner (by simp [heq])
    exact ⟨_, more, token_ok_iff.2 ⟨t, rfl, ht⟩, .cons _ _ hopens, level_cons hinner _, hmore⟩

theorem token_of_ne (h : ∀ mark, accept (.punct mark) = none) :
    Tolerant n m inside solid F (Parser.token what accept) := by
  refine token fun t a ht => ?_
  cases t with
  | punct mark => cases (h mark).symm.trans ht
  | _ => simp [Inner, Opens, continuing]

theorem identifier : Tolerant n m inside solid F Parser.identifier :=
  token_of_ne fun _ => rfl

theorem integer : Tolerant n m inside solid F Parser.integer :=
  token_of_ne fun _ => rfl

theorem textLiteral : Tolerant n m inside solid F Parser.textLiteral :=
  token_of_ne fun _ => rfl

theorem word (text : String) :
    Tolerant n m inside solid F (Parser.word text) :=
  (token_of_ne fun _ => if_neg nofun).andThen fun _ => pure _

theorem punct {mark : Punct} (hmark : Inner (.punct mark)) (hopens : solid → Opens (.punct mark)) :
    Tolerant n m inside solid F (Parser.punct mark) := by
  refine (token fun t a ht => ?_).andThen fun _ => pure _
  split at ht
  next heq => exact heq ▸ ⟨hmark, hopens⟩
  next => cases ht

theorem mark {mark : Punct} (hmark : Inner (.punct mark)) :
    Tolerant n m inside false F (Functor.discard (Parser.punct mark)) :=
  discard (punct hmark (fun h => nomatch h))

theorem optionValue : Tolerant n m inside solid F Parser.optionValue :=
  (token_of_ne fun _ => rfl).andThen fun _ => pure _

theorem fieldTag : Tolerant n m inside solid F Parser.fieldTag :=
  integer.andThen fun _ => ite (pure _) (refuse _)

/-! ### Looking ahead -/

/-- What is looked at is kept, if what is read then begins with it. -/
theorem ahead
    {look : PlainParser γ} {f g : γ → PlainParser α} (see : Option Token → γ)
    (hlook : ∀ tokens, look tokens = .ok (see (tokens.head?.map (·.value)), tokens))
    (h : ∀ c, Tolerates n m inside true F (f c) (g c)) :
    Tolerates n m inside solid F (look >>= f) (look >>= g) where
  leads ha := by
    obtain ⟨c, between, hc, ha⟩ := bind_ok_iff.1 ha
    cases (hlook _).symm.trans hc
    exact ((h _).leads ha).of_solid
  reads hbeside ha hF := by
    obtain ⟨c, between, hc, ha⟩ := bind_ok_iff.1 ha
    cases (hlook _).symm.trans hc
    obtain ⟨before', rest', ha', hleads, hmore⟩ := (h _).reads hbeside ha hF
    refine ⟨before', rest', bind_ok_iff.2 ⟨_, _, hlook _, ?_⟩, hleads.of_solid, hmore⟩
    rw [hbeside.spared.head_eq (((h _).leads ha).solid rfl).2]
    exact ha'

theorem peek? {f g : Option Token → PlainParser α}
    (h : ∀ c, Tolerates n m inside true F (f c) (g c)) :
    Tolerates n m inside solid F (Parser.peek? >>= f) (Parser.peek? >>= g) :=
  ahead id (fun _ => peek?_ok_iff.2 ⟨rfl, rfl⟩) h

theorem atPunct
    {mark : Punct} {f g : Bool → PlainParser α} (h : ∀ c, Tolerates n m inside true F (f c) (g c)) :
    Tolerates n m inside solid F (Parser.atPunct mark >>= f) (Parser.atPunct mark >>= g) :=
  ahead (· == some (.punct mark)) (fun _ => atPunct_ok_iff.2 ⟨rfl, rfl⟩) h

theorem atWord
    {text : String} {f g : Bool → PlainParser α}
    (h : ∀ c, Tolerates n m inside true F (f c) (g c)) :
    Tolerates n m inside solid F (Parser.atWord text >>= f) (Parser.atWord text >>= g) :=
  ahead (· == some (.identifier text)) (fun _ => atWord_ok_iff.2 ⟨rfl, rfl⟩) h

/-- What is seen of several tokens may change when terminators go, but not what is read then. -/
theorem peekMany
    {k : Nat} {f g : List Token → PlainParser α}
    (h : ∀ next, Tolerates n m inside solid F (f next) (g next))
    (hstable : ∀ {before tokens tokens' a rest}, Beside n m inside before tokens tokens' →
      f ((tokens.take k).map (·.value)) tokens = .ok (a, rest) → F rest →
      g ((tokens'.take k).map (·.value)) = g ((tokens.take k).map (·.value))) :
    Tolerates n m inside solid F (Parser.peekMany k >>= f) (Parser.peekMany k >>= g) where
  leads ha := by
    obtain ⟨_, _, hnext, ha⟩ := bind_ok_iff.1 ha
    obtain ⟨rfl, rfl⟩ := peekMany_ok_iff.1 hnext
    exact (h _).leads ha
  reads hbeside ha hF := by
    obtain ⟨_, _, hnext, ha⟩ := bind_ok_iff.1 ha
    obtain ⟨rfl, rfl⟩ := peekMany_ok_iff.1 hnext
    obtain ⟨before', rest', ha', hmore⟩ := (h _).reads hbeside ha hF
    rw [← hstable hbeside ha hF] at ha'
    exact ⟨before', rest', bind_ok_iff.2 ⟨_, _, peekMany_ok_iff.2 ⟨rfl, rfl⟩, ha'⟩, hmore⟩

/-- Whether a mark is there decides what is read, if what is read without it does not end before
it. -/
theorem ifPunct
    {mark : Punct} (hmark : mark ≠ .semicolon) (hp : Tolerates n m inside false F p q)
    (hp' : Tolerates n m inside false F p' q')
    (hfollowing : ∀ {tokens a rest}, p' tokens = .ok (a, rest) → F rest →
      following tokens ≠ some (.punct mark)) :
    Tolerates n m inside false F (do if ← Parser.atPunct mark then p else p')
      (do if ← Parser.atPunct mark then q else q') where
  leads ha := by
    obtain ⟨_, _, hseen, ha⟩ := bind_ok_iff.1 ha
    obtain ⟨-, rfl⟩ := atPunct_ok_iff.1 hseen
    split at ha
    · exact hp.leads ha
    · exact hp'.leads ha
  reads {before tokens tokens' a rest} hbeside ha hF := by
    obtain ⟨_, _, hseen, ha⟩ := bind_ok_iff.1 ha
    obtain ⟨rfl, rfl⟩ := atPunct_ok_iff.1 hseen
    split at ha
    next hat =>
      have hat' := (hbeside.spared.at_iff hmark fun h => absurd (beq_iff_eq.1 hat) h).2
        (beq_iff_eq.1 hat)
      obtain ⟨before', rest', ha', hmore⟩ := hp.reads hbeside ha hF
      exact ⟨before', rest',
        bind_ok_iff.2 ⟨true, tokens', atPunct_ok_iff.2 ⟨beq_iff_eq.2 hat', rfl⟩, ha'⟩, hmore⟩
    next hat =>
      have hat' := mt (hbeside.spared.at_iff hmark fun _ => hfollowing ha hF).1
        (mt beq_iff_eq.2 hat)
      obtain ⟨before', rest', ha', hmore⟩ := hp'.reads hbeside ha hF
      exact ⟨before', rest',
        bind_ok_iff.2 ⟨false, tokens', atPunct_ok_iff.2 ⟨beq_eq_false_iff_ne.2 hat', rfl⟩, ha'⟩,
        hmore⟩

theorem punct?_bind_eq (mark : Punct) (f : Option Span → PlainParser α) :
    (Parser.punct? mark >>= f) =
      (do if ← Parser.atPunct mark then f (some (← Parser.punct mark)) else f none) := by
  simp only [Parser.punct?, bind_assoc]
  congr 1
  funext found
  cases found <;> simp

/-- A value may follow or not. -/
theorem punct?
    {mark : Punct} (hmark : Inner (.punct mark)) {f g : Option Span → PlainParser α}
    (hsome : ∀ span, Tolerates n m inside false F (f (some span)) (g (some span)))
    (hnone : Tolerates n m inside false F (f none) (g none))
    (hfollowing : ∀ {tokens a rest}, f none tokens = .ok (a, rest) → F rest →
      following tokens ≠ some (.punct mark)) :
    Tolerates n m inside false F (Parser.punct? mark >>= f) (Parser.punct? mark >>= g) := by
  rw [punct?_bind_eq, punct?_bind_eq]
  refine ifPunct ?_ (andThen (punct hmark ?_) hsome) hnone hfollowing
  · rintro rfl
    exact hmark (by decide)
  · nofun

/-- The tokens behind a terminator, if one is next. -/
def passed : List (Located Token) → List (Located Token)
  | [] => []
  | t :: tokens => if t.value = .punct .semicolon then tokens else t :: tokens

/-- Of several terminators in a row another one may be passed. -/
theorem spared_passed (h : Spared before tokens tokens') :
    Spared before (passed tokens) (passed tokens') := by
  cases h with
  | nil => exact .nil
  | terminator span h => exact h
  | keep ht hjoint h =>
    rw [passed, passed, if_neg ht, if_neg ht]
    exact .keep ht hjoint h
  | drop span h =>
    cases tokens' with
    | nil => exact h
    | cons t tokens' =>
      change Spared before _ (if t.value = .punct .semicolon then tokens' else t :: tokens')
      split
      next ht =>
        obtain ⟨_, span⟩ := t
        obtain rfl := ht
        exact h.drop_head
      next => exact h

theorem length_passed_le (tokens : List (Located Token)) :
    (passed tokens).length ≤ tokens.length := by
  unfold passed
  split
  · exact Nat.le_refl _
  · split
    · exact Nat.le_succ _
    · exact Nat.le_refl _

theorem terminator_eq (tokens : List (Located Token)) :
    Parser.terminator tokens = .ok ((), passed tokens) := by
  refine discard_ok_iff.2 ?_
  cases tokens with
  | nil => exact ⟨none, punct?_of_ne (by rintro ⟨⟩)⟩
  | cons t tokens =>
    obtain ⟨value, span⟩ := t
    by_cases ht : value = .punct .semicolon
    · subst ht
      exact ⟨some span, punct?_of_eq span tokens⟩
    · rw [passed, if_neg ht]
      exact ⟨none, punct?_of_ne fun heq => ht (Option.some.inj heq)⟩

theorem terminator : Tolerant n m inside false F Parser.terminator where
  leads h := by
    rw [terminator_eq] at h
    cases h
    exact ⟨length_passed_le _, nofun⟩
  reads hbeside h _ := by
    rw [terminator_eq] at h
    cases h
    exact ⟨_, _, terminator_eq _, ⟨length_passed_le _, nofun⟩, .refl _,
      spared_passed hbeside.spared⟩

/-! ### Lists -/

theorem recursive
    {body : PlainParser α → PlainParser α}
    (h : ∀ {n m nested nested'}, Tolerates n m true true Ends nested nested' →
      ∀ inside F, Tolerates (n + 1) (m + 1) inside true F (body nested) (body nested')) :
    Tolerant n m inside true F (Parser.recursive body) := by
  have hnested (n m : Nat) (inside : Bool) (F : List (Located Token) → Prop) :
      Tolerates n m inside true F
        (fun tokens => if tokens.length < n then Parser.recursive body tokens
          else .error (.expected "declaration" tokens none))
        (fun tokens => if tokens.length < m then Parser.recursive body tokens
          else .error (.expected "declaration" tokens none)) := by
    induction n using Nat.strongRecOn generalizing m inside F with
    | ind n ih =>
      constructor
      · intro tokens a rest ha
        split at ha
        next hlt =>
          rw [Parser.recursive] at ha
          exact (h (ih _ hlt tokens.length _ _) inside F).leads ha
        next => cases ha
      · intro before tokens tokens' a rest hbeside ha hF
        rw [if_pos hbeside.length_lt, Parser.recursive] at ha
        rw [if_pos hbeside.length_lt', Parser.recursive]
        exact (h (ih _ hbeside.length_lt tokens'.length _ _) inside F).reads
          ⟨hbeside.spared, Nat.lt_succ_self _, Nat.lt_succ_self _, hbeside.inside⟩ ha hF
  constructor
  · intro tokens a rest ha
    exact (hnested (tokens.length + 1) 0 inside F).leads ((if_pos (Nat.lt_succ_self _)).trans ha)
  · intro before tokens tokens' a rest hbeside ha hF
    obtain ⟨before', rest', ha', hmore⟩ :=
      (hnested n m inside F).reads hbeside ((if_pos hbeside.length_lt).trans ha) hF
    exact ⟨before', rest', (if_pos hbeside.length_lt').symm.trans ha', hmore⟩

end Tolerates

/-! ### Items -/

/-- What may stand before an item is skipped. -/
structure Skips (skip : PlainParser Unit)
    (skipped : List (Located Token) → List (Located Token)) : Prop where
  eq_ok : ∀ tokens, skip tokens = .ok ((), skipped tokens)
  spared : ∀ {before tokens tokens'}, Spared before tokens tokens' →
    Spared before (skipped tokens) (skipped tokens')
  following_eq : ∀ tokens, following (skipped tokens) = following tokens
  length_le : ∀ tokens, (skipped tokens).length ≤ tokens.length

theorem skips_nothing : Skips (Pure.pure ()) id where
  eq_ok _ := rfl
  spared h := h
  following_eq _ := rfl
  length_le _ := Nat.le_refl _

theorem skips_terminators : Skips terminators statementStart where
  eq_ok := terminators_eq
  spared h := h.statementStart
  following_eq tokens := by
    induction tokens with
    | nil => rfl
    | cons t tokens ih =>
      by_cases ht : t.value = .punct .semicolon
      · obtain ⟨_, span⟩ := t
        obtain rfl := ht
        rw [following, following, statementStart_terminator]
        exact ih
      · rw [following, following, statementStart_cons ht, statementStart_cons ht]
  length_le tokens := (List.dropWhile_suffix _).length_le

/-- An item, unless what is next halts. -/
abbrev item (skip : PlainParser Unit) (look : PlainParser γ) (halts : γ → Bool)
    (statement : PlainParser α) :
    PlainParser (Option α) := do
  skip
  if halts (← look) then return none else return some (← statement)

section Items

variable {skip : PlainParser Unit} {skipped : List (Located Token) → List (Located Token)}
  {look : PlainParser γ} {see : Option Token → γ} {halts : γ → Bool}
  {statement statement' : PlainParser α}
  (hskip : Skips skip skipped)
  (hlook : ∀ tokens, look tokens = .ok (see (tokens.head?.map (·.value)), tokens))

include hskip hlook

/-- What is read is the end or an item, from the first token on that is not skipped. -/
theorem item_ok_iff {found : Option α} :
    item skip look halts statement tokens = .ok (found, rest) ↔
      (halts (see ((skipped tokens).head?.map (·.value))) = true ∧ found = none ∧
          skipped tokens = rest) ∨
        (halts (see ((skipped tokens).head?.map (·.value))) = false ∧
          ∃ a, found = some a ∧ statement (skipped tokens) = .ok (a, rest)) := by
  constructor
  · intro h
    obtain ⟨_, _, hskipped, h⟩ := bind_ok_iff.1 h
    cases (hskip.eq_ok tokens).symm.trans hskipped
    obtain ⟨_, _, hlooked, h⟩ := bind_ok_iff.1 h
    cases (hlook _).symm.trans hlooked
    split at h
    next hhalts =>
      obtain ⟨rfl, rfl⟩ := pure_ok_iff.1 h
      exact .inl ⟨hhalts, rfl, rfl⟩
    next hhalts =>
      obtain ⟨a, _, ha, h⟩ := bind_ok_iff.1 h
      obtain ⟨rfl, rfl⟩ := pure_ok_iff.1 h
      exact .inr ⟨Bool.eq_false_iff.2 hhalts, a, rfl, ha⟩
  · rintro (⟨hhalts, rfl, rfl⟩ | ⟨hhalts, a, rfl, ha⟩)
    · refine bind_ok_iff.2 ⟨(), _, hskip.eq_ok tokens, bind_ok_iff.2 ⟨_, _, hlook _, ?_⟩⟩
      rw [if_pos hhalts]
      rfl
    · refine bind_ok_iff.2 ⟨(), _, hskip.eq_ok tokens, bind_ok_iff.2 ⟨_, _, hlook _, ?_⟩⟩
      rw [hhalts]
      exact bind_ok_iff.2 ⟨a, rest, ha, rfl⟩

variable (hhalts : ∀ t, halts (see (some t)) = true → Opens t)
  (h : Tolerates n m inside true Ends statement statement')

include h

theorem length_of_item
    {found : Option α} (hitem : item skip look halts statement tokens = .ok (found, rest)) :
    rest.length ≤ tokens.length ∧ (found.isSome → rest.length < tokens.length) := by
  have hlength := hskip.length_le tokens
  rcases (item_ok_iff hskip hlook).1 hitem with ⟨-, rfl, rfl⟩ | ⟨-, a, rfl, ha⟩
  · exact ⟨hlength, nofun⟩
  · have hlt := ((h.leads ha).solid rfl).1
    exact ⟨by omega, fun _ => by omega⟩

include hhalts

/-- An item or the end does not go on with what stands before it. -/
theorem ends_of_item
    {found : Option α} (hitem : item skip look halts statement tokens = .ok (found, rest)) :
    Ends tokens := by
  have hends : Ends (skipped tokens) := by
    rcases (item_ok_iff hskip hlook).1 hitem with ⟨hhalt, -, -⟩ | ⟨-, a, -, ha⟩
    · cases hskipped : skipped tokens with
      | nil => exact fun _ _ => nofun
      | cons t more =>
        rw [hskipped] at hhalt
        exact ends_cons (hhalts _ hhalt) more
    · obtain ⟨t, ht, hopens⟩ := ((h.leads ha).solid rfl).2
      obtain ⟨more, hskipped⟩ := List.head?_eq_some_iff.1 ht
      rw [hskipped]
      exact ends_cons hopens more
  unfold Ends at hends ⊢
  rwa [hskip.following_eq] at hends

/-- An item, or the end, is also read when terminators are missing. -/
theorem reads_item
    (hbeside : Beside n m inside before tokens tokens') {found : Option α}
    (hitem : item skip look halts statement tokens = .ok (found, rest))
    (hends : found.isSome → Ends rest) :
    ∃ before' rest', item skip look halts statement' tokens' = .ok (found, rest') ∧
      (rest'.length ≤ tokens'.length ∧ (found.isSome → rest'.length < tokens'.length)) ∧
      Level before before' ∧ Spared before' rest rest' := by
  have hspared := hskip.spared hbeside.spared
  have hlength := hskip.length_le tokens
  have hlength' := hskip.length_le tokens'
  rcases (item_ok_iff hskip hlook).1 hitem with ⟨hhalt, rfl, rfl⟩ | ⟨hgoes, a, rfl, ha⟩
  · refine ⟨before, skipped tokens', ?_, ⟨hlength', nofun⟩, .refl before, hspared⟩
    refine (item_ok_iff hskip hlook).2 (.inl ⟨?_, rfl, rfl⟩)
    cases hskipped : skipped tokens with
    | nil =>
      rw [hskipped] at hspared hhalt
      rwa [hspared.of_nil]
    | cons t more =>
      rw [hskipped] at hspared hhalt
      rwa [hspared.head_eq ⟨t, rfl, hhalts _ hhalt⟩]
  · obtain ⟨before', rest', ha', hleads, hmore⟩ :=
      h.reads (hbeside.next hlength hlength' (.refl before) hspared) ha (hends rfl)
    have hlt := (hleads.solid rfl).1
    refine ⟨before', rest', ?_, ⟨by omega, fun _ => by omega⟩, hmore⟩
    rw [← hspared.head_eq ((h.leads ha).solid rfl).2] at hgoes
    exact (item_ok_iff hskip hlook).2 (.inr ⟨hgoes, a, rfl, ha'⟩)

variable (look see halts) in
theorem tolerates_collect :
    Tolerates n m inside false F (collect (item skip look halts statement))
      (collect (item skip look halts statement')) := by
  constructor
  · intro tokens found rest hcollect
    refine ⟨?_, nofun⟩
    fun_induction collect (item skip look halts statement) tokens generalizing found rest with
    | case1 | case3 => cases hcollect
    | case2 tokens between hnext =>
      cases hcollect
      exact (length_of_item hskip hlook h hnext).1
    | case4 tokens a between hnext hlt as rest' hmore ih =>
      cases hcollect
      exact Nat.le_trans (ih hmore) (Nat.le_of_lt hlt)
    | case5 tokens a between hnext hlt =>
      exact absurd ((length_of_item hskip hlook h hnext).2 rfl) hlt
  · intro before tokens tokens' found rest hbeside hcollect hF
    fun_induction collect (item skip look halts statement) tokens
      generalizing before tokens' found rest with
    | case1 | case3 => cases hcollect
    | case5 tokens a between hnext hlt =>
      exact absurd ((length_of_item hskip hlook h hnext).2 rfl) hlt
    | case2 tokens between hnext =>
      cases hcollect
      obtain ⟨before', rest', hnext', hlength, hmore⟩ :=
        reads_item hskip hlook hhalts h hbeside hnext nofun
      refine ⟨before', rest', ?_, ⟨hlength.1, nofun⟩, hmore⟩
      rw [collect, hnext']
    | case4 tokens a between hnext hlt as rest' hmore ih =>
      cases hcollect
      have hends : Ends between := by
        rw [collect] at hmore
        cases hitem : item skip look halts statement between with
        | error fault => simp [hitem] at hmore
        | ok found => exact ends_of_item hskip hlook hhalts h hitem
      obtain ⟨before', between', hnext', hlength, hlevel, hspared⟩ :=
        reads_item hskip hlook hhalts h hbeside hnext fun _ => hends
      obtain ⟨before'', rest'', hcollect', hleads, hlevel', hrest⟩ := ih
        (hbeside.next (Nat.le_of_lt hlt) hlength.1 hlevel hspared) hmore hF
      refine ⟨before'', rest'', ?_, ⟨Nat.le_trans hleads.length_le hlength.1, nofun⟩,
        hlevel.trans hlevel', hrest⟩
      rw [collect, hnext']
      simp only [remaining_eq_length, hlength.2 rfl, if_true, hcollect']

end Items

/-- Items between braces. -/
abbrev enclosed (next : PlainParser (Option α)) : PlainParser (List α) := do
  discard (punct .leftBrace)
  let found ← collect next
  discard (punct .rightBrace)
  return found

theorem enclosed_ok_iff {next : PlainParser (Option α)} {found : List α} :
    enclosed next tokens = .ok (found, rest) ↔
      ∃ span span' inner, tokens = ⟨.punct .leftBrace, span⟩ :: inner ∧
        collect next inner = .ok (found, ⟨.punct .rightBrace, span'⟩ :: rest) := by
  simp only [bind_ok_iff, discard_ok_iff, punct_ok_iff, pure_ok_iff]
  constructor
  · rintro ⟨_, inner, ⟨span, rfl⟩, _, _, hcollect, _, _, ⟨span', rfl⟩, rfl, rfl⟩
    exact ⟨span, span', inner, rfl, hcollect⟩
  · rintro ⟨span, span', inner, rfl, hcollect⟩
    exact ⟨(), inner, ⟨span, rfl⟩, found, _, hcollect, (), rest, ⟨span', rfl⟩, rfl, rfl⟩

section Enclosed

variable {next next' : PlainParser (Option α)} {found : List α}
  (h : Tolerates n m inside false (fun _ => True) (collect next) (collect next'))

include h

theorem leads_enclosed (hread : enclosed next tokens = .ok (found, rest)) :
    Leads false tokens rest := by
  obtain ⟨span, span', inner, rfl, hcollect⟩ := enclosed_ok_iff.1 hread
  have hlength := (h.leads hcollect).length_le
  simp only [List.length_cons] at hlength
  exact ⟨by rw [List.length_cons]; omega, nofun⟩

theorem reads_enclosed
    {inside' : Bool} (hbeside : Beside n m inside' before tokens tokens')
    (hinside : inside → inMessage 0 (.punct .leftBrace :: before))
    (hread : enclosed next tokens = .ok (found, rest)) :
    ∃ before' rest', enclosed next' tokens' = .ok (found, rest') ∧ Leads false tokens' rest' ∧
      Level before before' ∧ Spared before' rest rest' := by
  obtain ⟨span, span', inner, rfl, hcollect⟩ := enclosed_ok_iff.1 hread
  obtain ⟨inner', rfl, hinner, -⟩ := hbeside.spared.of_cons nofun
  have hbeside' : Beside n m inside (.punct .leftBrace :: before) inner inner' :=
    ⟨hinner, Nat.lt_of_succ_lt hbeside.length_lt, Nat.lt_of_succ_lt hbeside.length_lt', hinside⟩
  obtain ⟨before', rest', hcollect', hleads, hlevel, hrest⟩ := h.reads hbeside' hcollect trivial
  obtain ⟨rest'', rfl, hrest', -⟩ := hrest.of_cons nofun
  have hlength := hleads.length_le
  simp only [List.length_cons] at hlength
  refine ⟨_, rest'', enclosed_ok_iff.2 ⟨span, span', inner', rfl, hcollect'⟩, ⟨?_, nofun⟩,
    level_body hlevel, hrest'⟩
  rw [List.length_cons]
  omega

end Enclosed

theorem Tolerates.enclosed
    {next next' : PlainParser (Option α)}
    (h : Tolerates n m false false (fun _ => True) (collect next) (collect next')) :
    Tolerates n m inside false F (Native.enclosed next) (Native.enclosed next') where
  leads hread := leads_enclosed h hread
  reads hbeside hread _ := reads_enclosed h hbeside nofun hread

theorem tolerates_statements
    {skip : PlainParser Unit} {skipped : List (Located Token) → List (Located Token)}
    (hskip : Skips skip skipped) {statement : PlainParser α}
    (h : Tolerates n m inside true Ends statement statement') :
    Tolerates n m inside false F (collect (item skip (atPunct .rightBrace) id statement))
      (collect (item skip (atPunct .rightBrace) id statement')) := by
  refine tolerates_collect (atPunct .rightBrace) (· == some (.punct .rightBrace)) id hskip
    (fun _ => atPunct_ok_iff.2 ⟨rfl, rfl⟩) (fun t ht => ?_) h
  obtain rfl : t = .punct .rightBrace := by simpa using ht
  decide

theorem Tolerates.block
    {statement : PlainParser α} (h : Tolerates n m false true Ends statement statement') :
    Tolerates n m inside false F (Parser.block statement) (Parser.block statement') :=
  .enclosed (tolerates_statements skips_terminators h)

end Idl.Native
