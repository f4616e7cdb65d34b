import Idl.Proofs.Grammar.Places

/-!
# Parsers from left to right

Tokens stand one behind the other, and a parser reads them from left to right.  So what it reads
stands behind what was read before, and before what it leaves; and what it reads item by item stands
in the order of the items.
-/

namespace Idl

open Idl.Parser List

variable {α β : Type} {stop lo mid hi : Nat} {a : α} {hi' lo' : Nat} {as : List α}
  {next : PlainParser (Option α)}

/-! ## Places in order -/

/-- The range starts at `lo` or behind, and before `hi`. -/
def Span.Between (lo hi : Nat) (s : Span) : Prop := lo ≤ s.start ∧ s.start < hi

theorem Span.Between.wider {s : Span} (h : s.Between lo hi) (hlo : lo' ≤ lo) (hhi : hi ≤ hi') :
    s.Between lo' hi' :=
  ⟨Nat.le_trans hlo h.1, Nat.lt_of_lt_of_le h.2 hhi⟩

/-- Where something stands, and what it means that it is in order inside. -/
structure Layout (α : Type) where
  At : α → Span → Prop
  Sorted : α → Prop

namespace Layout

variable {L : Layout α} {L' : Layout β}

def places (At : α → Span → Prop) : Layout α := ⟨At, fun _ => True⟩

/-- All of the first stands before all of the second. -/
def Before (L : Layout α) (a b : α) : Prop := ∀ s t, L.At a s → L.At b t → s.start < t.start

/-- The elements stand one behind the other, and each of them is in order. -/
structure InOrder (L : Layout α) (as : List α) : Prop where
  sorted : ∀ a ∈ as, L.Sorted a
  pairwise : as.Pairwise L.Before

/-- All that is in a list. -/
def list (L : Layout α) : Layout (List α) := ⟨fun as s => ∃ a ∈ as, L.At a s, L.InOrder⟩

def optional (L : Layout α) : Layout (Option α) :=
  ⟨fun found s => ∃ a ∈ found, L.At a s, fun found => ∀ a ∈ found, L.Sorted a⟩

/-- It stands in a stretch of the text, and is in order. -/
structure Lies (L : Layout α) (lo hi : Nat) (a : α) : Prop where
  between : ∀ s, L.At a s → s.Between lo hi
  sorted : L.Sorted a

theorem Lies.wider (h : L.Lies lo hi a) (hlo : lo' ≤ lo) (hhi : hi ≤ hi') : L.Lies lo' hi' a :=
  ⟨fun s hs => (h.between s hs).wider hlo hhi, h.sorted⟩

theorem lies_nil : L.list.Lies lo hi [] :=
  ⟨fun _ ⟨_, hmem, _⟩ => (nomatch hmem), forall_mem_nil _, .nil⟩

theorem Lies.cons
    (h : L.optional.Lies lo mid (some a)) (hmore : L.list.Lies mid hi as) (hlo : lo ≤ mid)
    (hhi : mid ≤ hi) : L.list.Lies lo hi (a :: as) := by
  have hfirst : ∀ s, L.At a s → s.Between lo mid := fun s hs => h.between s ⟨a, rfl, hs⟩
  have hbehind : ∀ b ∈ as, ∀ s, L.At b s → s.Between mid hi :=
    fun b hb s hs => hmore.between s ⟨b, hb, hs⟩
  refine ⟨?_, ⟨forall_mem_cons.2 ⟨h.sorted a rfl, hmore.sorted.sorted⟩,
    pairwise_cons.2 ⟨fun b hb s t hs ht => ?_, hmore.sorted.pairwise⟩⟩⟩
  · rintro s ⟨b, hb, hs⟩
    rcases mem_cons.1 hb with rfl | hb
    · exact (hfirst s hs).wider (Nat.le_refl _) hhi
    · exact (hbehind b hb s hs).wider hlo (Nat.le_refl _)
  · exact Nat.lt_of_lt_of_le (hfirst s hs).2 (hbehind b hb t ht).1

namespace InOrder

theorem sublist {bs : List α} (h : L.InOrder bs) (hsublist : as.Sublist bs) : L.InOrder as :=
  ⟨fun a ha => h.sorted a (hsublist.subset ha), h.pairwise.sublist hsublist⟩

theorem filterMap
    (h : L.InOrder as) {kind : α → Option β}
    (hkind : ∀ a b, kind a = some b → (∀ s, L'.At b s → L.At a s) ∧ (L.Sorted a → L'.Sorted b)) :
    L'.InOrder (as.filterMap kind) := by
  refine ⟨fun b hb => ?_,
    List.Pairwise.filterMap kind (fun a a' hbefore b hb b' hb' s t hs ht => ?_)
    h.pairwise⟩
  · obtain ⟨a, ha, heq⟩ := mem_filterMap.1 hb
    exact (hkind a b heq).2 (h.sorted a ha)
  · exact hbefore s t ((hkind a b hb).1 s hs) ((hkind a' b' hb').1 t ht)

end InOrder

theorem inOrder_map_iff
    {f : β → α} {bs : List β} (hat : ∀ b s, L.At (f b) s ↔ L'.At b s)
    (hsorted : ∀ b, L.Sorted (f b) ↔ L'.Sorted b) : L.InOrder (bs.map f) ↔ L'.InOrder bs := by
  have hbefore : ∀ b b', L.Before (f b) (f b') ↔ L'.Before b b' := by simp [Before, hat]
  constructor
  · intro h
    refine ⟨fun b hb => (hsorted b).1 (h.sorted _ (mem_map_of_mem hb)), ?_⟩
    exact (pairwise_map.1 h.pairwise).imp fun {b b'} => (hbefore b b').1
  · intro h
    refine ⟨forall_mem_map.2 fun b hb => (hsorted b).2 (h.sorted b hb), ?_⟩
    exact pairwise_map.2 (h.pairwise.imp fun {b b'} => (hbefore b b').2)

end Layout

/-! ## Parsers that read from left to right -/

namespace Parser

variable {tokens rest : List (Located Token)} {p : PlainParser α} {f : α → PlainParser β}
  {P : Nat → α → Prop} {Q : Nat → β → Prop} {L : Layout α} {L' : Layout β}

/-- The tokens start one behind the other, and before `stop`. -/
structure Ascending (stop : Nat) (tokens : List (Located Token)) : Prop where
  pairwise : tokens.Pairwise fun t u => t.span.start < u.span.start
  lt_stop : ∀ t ∈ tokens, t.span.start < stop

/-- Where the first token starts; without tokens, the end. -/
def front (stop : Nat) : List (Located Token) → Nat
  | [] => stop
  | t :: _ => t.span.start

namespace Ascending

theorem suffix (h : Ascending stop tokens) (hrest : rest <:+ tokens) : Ascending stop rest :=
  ⟨h.pairwise.sublist hrest.sublist, fun t ht => h.lt_stop t (hrest.subset ht)⟩

theorem lt_front {t : Located Token} (h : Ascending stop (t :: rest)) :
    t.span.start < front stop rest := by
  cases rest with
  | nil => exact h.lt_stop t mem_cons_self
  | cons u rest => exact (pairwise_cons.1 h.pairwise).1 u mem_cons_self

theorem front_le (h : Ascending stop tokens) (hrest : rest <:+ tokens) :
    front stop tokens ≤ front stop rest := by
  induction tokens with
  | nil =>
    obtain rfl := suffix_nil.1 hrest
    exact Nat.le_refl _
  | cons t tokens ih =>
    rcases suffix_cons_iff.1 hrest with rfl | hrest
    · exact Nat.le_refl _
    · exact Nat.le_trans (Nat.le_of_lt h.lt_front)
        (ih (h.suffix (suffix_cons t tokens)) hrest)

end Ascending

/-- What is read of tokens from `lo` on is as said, given where the tokens that are left start. -/
def Lays (stop lo : Nat) (p : PlainParser α) (P : Nat → α → Prop) : Prop :=
  ∀ tokens a rest, Ascending stop tokens → lo ≤ front stop tokens → p tokens = .ok (a, rest) →
    P (front stop rest) a

namespace Lays

theorem pure (h : ∀ hi, lo ≤ hi → P hi a) : Lays stop lo (Pure.pure a) P := by
  intro tokens b rest _ hlo hb
  obtain ⟨rfl, rfl⟩ := pure_ok_iff.1 hb
  exact h _ hlo

theorem bind
    [Advances p] (hp : p.Lays stop lo P)
    (hf : ∀ mid a, lo ≤ mid → P mid a → (f a).Lays stop mid Q) : Lays stop lo (p >>= f) Q := by
  intro tokens b rest htokens hlo h
  obtain ⟨a, between, ha, hb⟩ := bind_ok_iff.1 h
  have hsuffix := Advances.suffix tokens a between ha
  exact hf _ a (Nat.le_trans hlo (htokens.front_le hsuffix)) (hp tokens a between htokens hlo ha)
    between b rest (htokens.suffix hsuffix) (Nat.le_refl _) hb

theorem after [Advances p] (hf : ∀ a, (f a).Lays stop lo Q) :
    Lays stop lo (p >>= f) Q := by
  intro tokens b rest htokens hlo h
  obtain ⟨a, between, ha, hb⟩ := bind_ok_iff.1 h
  have hsuffix := Advances.suffix tokens a between ha
  exact hf a between b rest (htokens.suffix hsuffix) (Nat.le_trans hlo (htokens.front_le hsuffix))
    hb

theorem commit (h : p.Lays stop lo P) : p.commit.Lays stop lo P :=
  fun tokens a rest htokens hlo ha => h tokens a rest htokens hlo (commit_ok_iff.1 ha)

theorem refuse (reason : Refusal) : Lays stop lo (Parser.refuse reason) P :=
  fun _ _ _ _ _ h => (refuse_ok_iff.1 h).elim

theorem refuse_bind (reason : Refusal) : Lays stop lo (Parser.refuse reason >>= f) Q :=
  bind (P := fun _ _ => False) (refuse reason) fun _ _ _ h => h.elim

theorem join
    {c : Prop} [Decidable c] {q : PlainParser α} [Advances p] [Advances q] (hp : p.Lays stop lo P)
    (hq : q.Lays stop lo P) (hf : ∀ mid a, lo ≤ mid → P mid a → (f a).Lays stop mid Q) :
    Lays stop lo (if c then p >>= f else q >>= f) Q := by
  split
  · exact hp.bind hf
  · exact hq.bind hf

theorem token (what : String) (accept : Token → Option α) :
    Lays stop lo (Parser.token what accept) fun hi found => found.span.Between lo hi := by
  intro tokens found rest htokens hlo h
  obtain ⟨t, rfl, -⟩ := token_ok_iff.1 h
  exact ⟨hlo, htokens.lt_front⟩

theorem identifier : Lays stop lo Parser.identifier fun hi name => name.span.Between lo hi :=
  token _ _

theorem integer : Lays stop lo Parser.integer fun hi value => value.span.Between lo hi :=
  token _ _

/-- A token that is looked at once more. -/
theorem tested
    {γ : Type} {p : PlainParser (Located γ)} [Advances p]
    (hp : p.Lays stop lo fun hi found => found.span.Between lo hi) (c : Located γ → Prop)
    [DecidablePred c] (reason : Located γ → Refusal) :
    Lays stop lo (do
      let found ← p
      if c found then return found else Parser.refuse (reason found))
      fun hi found => found.span.Between lo hi := by
  refine hp.bind fun mid found _ hfound => ?_
  split
  · exact .pure fun hi hhi => hfound.wider (Nat.le_refl _) hhi
  · exact .refuse _

end Lays

/-- What is read lies between the tokens before it and those that are left. -/
def Draws (L : Layout α) (p : PlainParser α) : Prop := ∀ stop lo, p.Lays stop lo (L.Lies lo)

namespace Draws

theorem map
    [Advances p] (h : Draws L p) {make : α → β} (hat : ∀ a s, L'.At (make a) s → L.At a s)
    (hsorted : ∀ a, L.Sorted a → L'.Sorted (make a)) :
    Lays stop lo (p >>= fun a => Pure.pure (make a)) (L'.Lies lo) :=
  (h stop lo).bind fun _ a _ ha => .pure fun _ hhi =>
    ⟨fun s hs => (ha.between s (hat a s hs)).wider (Nat.le_refl _) hhi, hsorted a ha.sorted⟩

theorem collect [Advances next] (h : Draws L.optional next) :
    Draws L.list (Parser.collect next) := by
  intro stop lo tokens as rest htokens hlo heq
  fun_induction Parser.collect next tokens generalizing lo as rest with
  | case1 tokens fault hnext | case3 tokens a rest' hnext hlt fault hmore ih => cases heq
  | case2 tokens rest' hnext =>
    cases heq
    exact Layout.lies_nil
  | case4 tokens a rest' hnext hlt as' rest'' hmore ih =>
    cases heq
    have hsuffix := Advances.suffix tokens _ rest' hnext
    have hrest' := htokens.suffix hsuffix
    exact (h stop lo tokens _ rest' htokens hlo hnext).cons
      (ih _ as' rest'' hrest' (Nat.le_refl _) hmore) (Nat.le_trans hlo (htokens.front_le hsuffix))
      (hrest'.front_le (Advances.suffix rest' _ rest'' hmore))
  | case5 tokens a rest' hnext hlt =>
    cases heq
    exact (h stop lo tokens _ _ htokens hlo hnext).cons Layout.lies_nil
      (Nat.le_trans hlo (htokens.front_le (Advances.suffix tokens _ _ hnext))) (Nat.le_refl _)

theorem item [Advances p] (h : Draws L p) (c : Prop) [Decidable c] :
    Lays stop lo (if c then Pure.pure none else p >>= fun a => Pure.pure (some a))
      (L.optional.Lies lo) := by
  split
  · exact .pure fun _ _ => ⟨fun _ ⟨_, hmem, _⟩ => (nomatch hmem),
      fun _ hmem => nomatch hmem⟩
  · refine h.map (fun a s => ?_) fun a ha => ?_
    · rintro ⟨_, ⟨⟩, hs⟩
      exact hs
    · rintro _ ⟨⟩
      exact ha

theorem enclosed [Advances next] (h : Draws L.optional next) :
    Draws L.list (do
      Functor.discard (punct .leftBrace)
      let found ← Parser.collect next
      Functor.discard (punct .rightBrace)
      return found) :=
  fun stop lo => .after fun _ => (collect h stop lo).bind fun _ _ _ hfound =>
    .after fun _ => .pure fun _ hhi => hfound.wider (Nat.le_refl _) hhi

theorem block {statement : PlainParser α} [Advances statement] (h : Draws L statement) :
    Draws L.list (Parser.block statement) :=
  enclosed fun _ _ => .after fun _ => .after fun closed =>
    h.item (closed = true)

theorem declarations
    {L : Layout Declaration} {declaration : PlainParser Declaration} [Advances declaration]
    (h : Draws L declaration) : Draws L.list (Parser.declarations declaration) :=
  collect fun _ _ => .after fun _ => .after fun found =>
    h.item (found.isNone = true)

theorem recursive
    {body : PlainParser α → PlainParser α}
    (hadvances : ∀ nested : PlainParser α, Advances nested → Advances (body nested))
    (h : ∀ nested : PlainParser α, Advances nested → Draws L nested → Draws L (body nested)) :
    Draws L (Parser.recursive body) := by
  intro stop lo tokens
  induction hlength : tokens.length using Nat.strongRecOn generalizing stop lo tokens with
  | ind length ih =>
    subst hlength
    rw [Parser.recursive]
    refine h _ ⟨fun inner a left heq => ?_⟩ (fun stop lo inner a left hinner hlo heq => ?_) stop lo
      tokens
    · split at heq
      next => exact (Advances.recursive hadvances).suffix inner a left heq
      next => cases heq
    · split at heq
      next hlt => exact ih inner.length hlt stop lo inner rfl a left hinner hlo heq
      next => cases heq

/-- What is read somewhere in tokens is in order. -/
theorem within {source : List (Located Token)} (h : Draws L p) (hsource : Ascending stop source) :
    p.Within source L.Sorted :=
  fun tokens a rest htokens ha =>
    (h stop 0 tokens a rest (hsource.suffix htokens) (Nat.zero_le _) ha).sorted

end Draws

end Parser

end Idl
