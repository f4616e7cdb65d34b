import Idl.Proofs.Grammar.Places

/-!
# Tokens with fewer terminators

Two lists of tokens are compared that differ in terminators only: from the second, some are missing.
What a parser reads of the first it also reads of the second, unless a terminator is missing that
kept two statements apart.  There is one such place: an option without a value in the body of a
message, and behind it an option with a value, look like a field once they are joined.
-/

namespace Idl

open List

variable {tokens tokens' : List (Located Token)} {before : List Token} {t : Located Token}

/-- The tokens without some of their terminators. -/
inductive Thinned : List (Located Token) → List (Located Token) → Prop
  | nil : Thinned [] []
  | keep (t : Located Token) {tokens tokens' : List (Located Token)} (h : Thinned tokens tokens') :
      Thinned (t :: tokens) (t :: tokens')
  | drop (span : Span) {tokens tokens' : List (Located Token)} (h : Thinned tokens tokens') :
      Thinned (⟨.punct .semicolon, span⟩ :: tokens) tokens'

theorem Thinned.filter (tokens : List (Located Token)) :
    Thinned tokens (tokens.filter (·.value != .punct .semicolon)) := by
  induction tokens with
  | nil => exact .nil
  | cons t tokens ih =>
    rw [filter_cons]
    split
    next => exact .keep t ih
    next ht =>
      obtain ⟨value, span⟩ := t
      obtain rfl : value = .punct .semicolon := by simpa using ht
      exact .drop span ih

theorem Thinned.of_cons (h : Thinned (t :: tokens) tokens') (ht : t.value ≠ .punct .semicolon) :
    ∃ more, tokens' = t :: more ∧ Thinned tokens more := by
  cases h with
  | keep _ h => exact ⟨_, rfl, h⟩
  | drop span h => exact absurd rfl ht

namespace Native

/-! ## Joints -/

/-- Whether the innermost body that is open behind the given tokens, the last one first, is that of
a message; as many bodies as `depth` says have been closed again. -/
def inMessage (depth : Nat) : List Token → Bool
  | [] => false
  | .punct .rightBrace :: before => inMessage (depth + 1) before
  | .punct .leftBrace :: before =>
    match depth, before with
    | depth + 1, _ => inMessage depth before
    | 0, .identifier _ :: .identifier "message" :: _ => true
    | 0, _ => false
  | _ :: before => inMessage depth before

/-- A name with a dot, a name and an equals sign: the beginning of a field. -/
def isJoint : List Token → Bool
  | .identifier first :: .identifier _ :: .punct .equals :: _ => first.toList.contains '.'
  | _ => false

/-- The number of joints that stand directly in the body of a message; `before` has the tokens
before the given ones, the last one first, without terminators. -/
def joints (before : List Token) : List Token → Nat
  | [] => 0
  | .punct .semicolon :: tokens => joints before tokens
  | t :: tokens =>
    (if inMessage 0 before && isJoint (t :: tokens) then 1 else 0) + joints (t :: before) tokens

theorem joints_cons {t : Token} (ht : t ≠ .punct .semicolon) (before tokens : List Token) :
    joints before (t :: tokens) =
      (if inMessage 0 before && isJoint (t :: tokens) then 1 else 0) +
        joints (t :: before) tokens := by
  rw [joints]
  exact ht

/-- Some terminators are missing, but no joint is new. -/
inductive Spared : List Token → List (Located Token) → List (Located Token) → Prop
  | nil {before : List Token} : Spared before [] []
  | drop (span : Span) {before : List Token} {tokens tokens' : List (Located Token)}
      (h : Spared before tokens tokens') :
      Spared before (⟨.punct .semicolon, span⟩ :: tokens) tokens'
  | terminator (span : Span) {before : List Token} {tokens tokens' : List (Located Token)}
      (h : Spared before tokens tokens') :
      Spared before (⟨.punct .semicolon, span⟩ :: tokens) (⟨.punct .semicolon, span⟩ :: tokens')
  | keep {t : Located Token} {before : List Token} {tokens tokens' : List (Located Token)}
      (ht : t.value ≠ .punct .semicolon)
      (hjoint : inMessage 0 before → isJoint ((t :: tokens').map (·.value)) →
        isJoint ((t :: tokens).map (·.value)))
      (h : Spared (t.value :: before) tokens tokens') : Spared before (t :: tokens) (t :: tokens')

theorem isJoint_iff (tokens : List Token) :
    isJoint tokens ↔ ∃ first second more, tokens =
      .identifier first :: .identifier second :: .punct .equals :: more ∧
        first.toList.contains '.' := by
  constructor
  · intro h
    unfold isJoint at h
    split at h
    next first second more => exact ⟨first, second, more, rfl, h⟩
    next => cases h
  · rintro ⟨first, second, more, rfl, h⟩
    exact h

theorem isJoint_of_thinned
    (h : Thinned tokens tokens') (hjoint : isJoint ((t :: tokens).map (·.value))) :
    isJoint ((t :: tokens').map (·.value)) := by
  obtain ⟨first, second, more, htokens, hdot⟩ := (isJoint_iff _).1 hjoint
  obtain ⟨hfirst, hmore⟩ := List.cons.inj htokens
  obtain ⟨u, left, rfl, hu, hleft⟩ := map_eq_cons_iff.1 hmore
  obtain ⟨v, left, rfl, hv, -⟩ := map_eq_cons_iff.1 hleft
  obtain ⟨_, rfl, hrest⟩ := h.of_cons (by rw [hu]; nofun)
  obtain ⟨left', rfl, -⟩ := hrest.of_cons (by rw [hv]; nofun)
  refine (isJoint_iff _).2 ⟨first, second, left'.map (·.value), ?_, hdot⟩
  simp only [map_cons, hfirst, hu, hv]

theorem joint_le_of_thinned (h : Thinned tokens tokens') (before : List Token) (t : Located Token) :
    (if inMessage 0 before && isJoint ((t :: tokens).map (·.value)) then 1 else 0) ≤
      if inMessage 0 before && isJoint ((t :: tokens').map (·.value)) then 1 else 0 := by
  by_cases hjoint : inMessage 0 before && isJoint ((t :: tokens).map (·.value))
  · obtain ⟨hinside, hjoint'⟩ := Bool.and_eq_true_iff.1 hjoint
    have hkept := Bool.and_eq_true_iff.2 ⟨hinside, isJoint_of_thinned h hjoint'⟩
    exact Nat.le_of_eq ((if_pos hjoint).trans (if_pos hkept).symm)
  · rw [if_neg hjoint]
    exact Nat.zero_le _

theorem joints_le_of_thinned (h : Thinned tokens tokens') (before : List Token) :
    joints before (tokens.map (·.value)) ≤ joints before (tokens'.map (·.value)) := by
  induction h generalizing before with
  | nil => exact Nat.le_refl _
  | drop span h ih => exact ih before
  | @keep t tokens tokens' h ih =>
    by_cases ht : t.value = .punct .semicolon
    · simp only [map_cons, ht, joints]
      exact ih before
    · rw [map_cons, map_cons, joints_cons ht, joints_cons ht]
      exact Nat.add_le_add (joint_le_of_thinned h before t) (ih _)

/-- Where as many joints are left, none is new. -/
theorem spared_of_thinned
    (h : Thinned tokens tokens')
    (hjoints : joints before (tokens'.map (·.value)) = joints before (tokens.map (·.value))) :
    Spared before tokens tokens' := by
  induction h generalizing before with
  | nil => exact .nil
  | drop span h ih => exact .drop span (ih hjoints)
  | @keep t tokens tokens' h ih =>
    by_cases ht : t.value = .punct .semicolon
    · obtain ⟨_, span⟩ := t
      obtain rfl := ht
      exact .terminator span (ih hjoints)
    · rw [map_cons, map_cons, joints_cons ht, joints_cons ht] at hjoints
      have hfirst := joint_le_of_thinned h before t
      have hmore := joints_le_of_thinned h (t.value :: before)
      simp only [map_cons] at hfirst
      refine .keep ht (fun hinside hjoint => ?_) (ih (by omega))
      simp only [map_cons] at hjoint ⊢
      cases hother : isJoint (t.value :: tokens.map (·.value)) with
      | true => rfl
      | false =>
        rw [if_pos (Bool.and_eq_true_iff.2 ⟨hinside, hjoint⟩), if_neg (by simp [hother])] at hjoints
        omega

/-! ## Spared tokens -/

namespace Spared

variable {before : List Token} {tokens tokens' : List (Located Token)}

theorem of_nil (h : Spared before [] tokens') : tokens' = [] := by
  cases h
  rfl

theorem of_cons (h : Spared before (t :: tokens) tokens') (ht : t.value ≠ .punct .semicolon) :
    ∃ more, tokens' = t :: more ∧ Spared (t.value :: before) tokens more ∧
      (inMessage 0 before → isJoint ((t :: more).map (·.value)) →
        isJoint ((t :: tokens).map (·.value))) := by
  cases h with
  | drop span h | terminator span h => exact absurd rfl ht
  | keep _ hjoint h => exact ⟨_, rfl, h, hjoint⟩

/-- What is seen up to a terminator is kept. -/
theorem exists_take_eq
    {k : Nat} {front tail : List Token} (h : Spared before tokens tokens')
    (htake : (tokens.take k).map (·.value) = front ++ tail)
    (hfront : ∀ t ∈ front, t ≠ .punct .semicolon) :
    ∃ tail', (tokens'.take k).map (·.value) = front ++ tail' := by
  induction front generalizing k before tokens tokens' with
  | nil => exact ⟨_, rfl⟩
  | cons t front ih =>
    obtain ⟨ht, hmore⟩ := forall_mem_cons.1 hfront
    cases k with
    | zero => cases htake
    | succ k =>
      cases tokens with
      | nil => cases htake
      | cons u tokens =>
        obtain ⟨rfl, hleft⟩ := List.cons.inj htake
        obtain ⟨more, rfl, hrest, -⟩ := h.of_cons ht
        obtain ⟨tail', htail⟩ := ih hrest hleft hmore
        exact ⟨tail', congrArg (List.cons u.value) htail⟩

theorem take_eq
    {k : Nat} {front : List Token} (h : Spared before tokens tokens')
    (htake : (tokens.take k).map (·.value) = front)
    (hfront : ∀ t ∈ front, t ≠ .punct .semicolon) (hk : front.length = k) :
    (tokens'.take k).map (·.value) = front := by
  obtain ⟨tail, htail⟩ := h.exists_take_eq (htake.trans (append_nil front).symm) hfront
  have hlength := congrArg List.length htail
  rw [length_map, length_append] at hlength
  have hnil : tail.length = 0 := by
    have := length_take_le k tokens'
    omega
  rw [htail, eq_nil_of_length_eq_zero hnil, append_nil]

theorem drop_head {span : Span} (h : Spared before tokens (⟨.punct .semicolon, span⟩ :: tokens')) :
    Spared before tokens tokens' := by
  generalize hkept : ⟨.punct .semicolon, span⟩ :: tokens' = kept at h
  induction h with
  | nil => cases hkept
  | drop span h ih => exact .drop _ (ih hkept)
  | terminator span h =>
    obtain ⟨-, rfl⟩ := List.cons.inj hkept
    exact .drop _ h
  | keep ht =>
    obtain ⟨rfl, -⟩ := List.cons.inj hkept
    exact absurd rfl ht

end Spared

/-- The tokens from the first one on that is no terminator. -/
def statementStart (tokens : List (Located Token)) : List (Located Token) :=
  tokens.dropWhile fun t => t.value == .punct .semicolon

@[simp] theorem statementStart_terminator (span : Span) (tokens : List (Located Token)) :
    statementStart (⟨.punct .semicolon, span⟩ :: tokens) = statementStart tokens := by
  rw [statementStart, dropWhile_cons_of_pos (by simp)]
  rfl

theorem statementStart_cons (ht : t.value ≠ .punct .semicolon) (tokens : List (Located Token)) :
    statementStart (t :: tokens) = t :: tokens := by
  rw [statementStart, dropWhile_cons_of_neg (by simpa using ht)]

theorem Spared.statementStart (h : Spared before tokens tokens') :
    Spared before (statementStart tokens) (Native.statementStart tokens') := by
  induction h with
  | nil => exact .nil
  | drop span h ih =>
    rw [statementStart_terminator]
    exact ih
  | terminator span h ih =>
    rw [statementStart_terminator, statementStart_terminator]
    exact ih
  | keep ht hjoint h =>
    rw [statementStart_cons ht, statementStart_cons ht]
    exact .keep ht hjoint h

/-- The next token that is no terminator. -/
def following (tokens : List (Located Token)) : Option Token :=
  (statementStart tokens).head?.map (·.value)

theorem Spared.following_eq (h : Spared before tokens tokens') :
    following tokens' = following tokens := by
  induction h with
  | nil => rfl
  | drop span h ih => rwa [following, following, statementStart_terminator]
  | terminator span h ih =>
    rwa [following, following, statementStart_terminator, statementStart_terminator]
  | keep ht =>
    rw [following, following, statementStart_cons ht, statementStart_cons ht]
    rfl

/-- What may stand behind the first name of a statement and goes on with the statement. -/
def continuing : List Token :=
  [.punct .equals, .punct .leftBrace, .punct .colon, .punct .leftParen]

/-- The token begins a statement: it is neither a terminator nor does it go on with a statement. -/
def Opens (t : Token) : Prop := t ∉ .punct .semicolon :: continuing

instance : DecidablePred Opens := fun _ => inferInstanceAs (Decidable (_ ∉ _))

/-- What follows does not go on with a statement. -/
def Ends (rest : List (Located Token)) : Prop := ∀ t ∈ continuing, following rest ≠ some t

theorem ends_cons (ht : Opens t.value) (tokens : List (Located Token)) : Ends (t :: tokens) := by
  obtain ⟨hterminator, hcontinuing⟩ := not_or.1 (mt mem_cons.2 ht)
  intro u hu
  rw [following, statementStart_cons hterminator]
  rintro ⟨⟩
  exact hcontinuing hu

theorem Spared.head_eq
    (h : Spared before tokens tokens') (hopens : ∃ t ∈ tokens.head?, Opens t.value) :
    tokens'.head? = tokens.head? := by
  obtain ⟨t, ht, hopens⟩ := hopens
  obtain ⟨more, rfl⟩ := head?_eq_some_iff.1 ht
  obtain ⟨more', rfl, -, -⟩ := h.of_cons fun heq => hopens (by simp [heq])
  rfl

theorem following_of_head
    {mark : Punct} (hmark : mark ≠ .semicolon)
    (h : tokens.head?.map (·.value) = some (.punct mark)) :
    following tokens = some (.punct mark) := by
  obtain ⟨t, ht, hvalue⟩ := Option.map_eq_some_iff.1 h
  obtain ⟨more, rfl⟩ := head?_eq_some_iff.1 ht
  rw [following, statementStart_cons (by rw [hvalue]; simpa using hmark)]
  exact h

/-- A mark appears nowhere when terminators go, if it does not follow where it is not. -/
theorem Spared.at_iff
    {mark : Punct} (h : Spared before tokens tokens') (hmark : mark ≠ .semicolon)
    (hfollowing : tokens.head?.map (·.value) ≠ some (.punct mark) →
      following tokens ≠ some (.punct mark)) :
    tokens'.head?.map (·.value) = some (.punct mark) ↔
      tokens.head?.map (·.value) = some (.punct mark) := by
  constructor
  · intro hhead
    exact Decidable.byContradiction fun hnot =>
      hfollowing hnot (h.following_eq ▸ following_of_head hmark hhead)
  · intro hhead
    obtain ⟨t, ht, hvalue⟩ := Option.map_eq_some_iff.1 hhead
    obtain ⟨more, rfl⟩ := head?_eq_some_iff.1 ht
    obtain ⟨more', rfl, -, -⟩ := h.of_cons (by rw [hvalue]; simpa using hmark)
    exact hhead

/-! ## Bodies -/

/-- The same bodies are open. -/
def Level (before before' : List Token) : Prop :=
  ∀ depth, inMessage depth before' = inMessage depth before

theorem Level.refl (before : List Token) : Level before before := fun _ => rfl

theorem Level.trans {first second third : List Token} (h : Level first second)
    (h' : Level second third) : Level first third :=
  fun depth => (h' depth).trans (h depth)

/-- The token neither ends a statement nor opens or closes a body. -/
def Inner (t : Token) : Prop :=
  t ∉ [Token.punct .semicolon, .punct .leftBrace, .punct .rightBrace]

instance : DecidablePred Inner := fun _ => inferInstanceAs (Decidable (_ ∉ _))

theorem level_cons {t : Token} (ht : Inner t) (before : List Token) :
    Level before (t :: before) := by
  intro depth
  cases t with
  | punct mark => cases mark <;> first | rfl | exact absurd ht (by decide)
  | _ => rfl

/-- A body that was opened is closed again. -/
theorem level_body {inner : List Token} (h : Level (.punct .leftBrace :: before) inner) :
    Level before (.punct .rightBrace :: inner) := by
  intro depth
  exact h (depth + 1)

end Native

end Idl
