import Idl.Grammar.Parts
import Idl.Proofs.Schema.Relabel

/-!
# Parsers that look neither at places nor at trivia

A parser looks at the values of the tokens that are no trivia, and carries their places along.  So
on a stream with the same such tokens, with other trivia among them and at other places, it ends
alike: it finds the same at the other places and leaves the same tokens, or it stops for the same
reason.  The places may change in any way that a parser does not notice when it makes one place of
two.  The property rests on what reads one token or looks ahead, each of which has to pass over
trivia by itself; it is put together from the parts of a parser, and holds of what the two dialects
have in common.
-/

namespace Idl

open List

/-! ## Other places -/

/-- A change of places that goes together with what parsers make of places. -/
structure Shift extends Relabel where
  union (s t : Span) : span (s.union t) = (span s).union (span t)
  default : span default = default
  doc_none : doc .none = .none

instance : Coe Shift Relabel := ⟨Shift.toRelabel⟩

/-- The refusal of the same construct at another place. -/
def Refusal.relabel (how : Relabel) : Refusal → Refusal
  | missingPackage dialect span => missingPackage dialect (how.span span)
  | invalidName what name => invalidName what (name.relabel how)
  | invalidOptionName key => invalidOptionName (key.relabel how)
  | invalidType name => invalidType (name.relabel how)
  | tagOutOfRange tag => tagOutOfRange (tag.relabel how)
  | binaryMapKey span => binaryMapKey (how.span span)
  | customMapKey name span => customMapKey name (how.span span)
  | containerMapValue span => containerMapValue (how.span span)
  | textEnumValue name span => textEnumValue name (how.span span)
  | enumValueOptions name span => enumValueOptions name (how.span span)
  | nestedContainer span => nestedContainer (how.span span)
  | baseMethodMessage role base span => baseMethodMessage role base (how.span span)
  | streamingMessage span => streamingMessage (how.span span)
  | baseRpcMessage name => baseRpcMessage (name.relabel how)
  | unsupportedSyntax version => unsupportedSyntax (version.relabel how)
  | unknownFlag flag => unknownFlag (flag.relabel how)

/-! ## Other trivia -/

/-- The tokens of the view of a stream are those of the stream, trivia apart, at other places. -/
class Carries {σ τ : Type} [TokenStream σ] [TokenStream τ] (how : Relabel) (view : σ → τ) :
    Prop where
  skip (s : σ) : TokenStream.skip (view s) = view (TokenStream.skip s)
  next? (s : σ) : TokenStream.next? (view (TokenStream.skip s)) =
    (TokenStream.next? (TokenStream.skip s)).map (Prod.map (·.relabel how) view)
  remaining (s : σ) : TokenStream.remaining (view s) = TokenStream.remaining s

/-- The same fault on the view of a stream. -/
def Fault.carry {σ τ : Type} (how : Relabel) (view : σ → τ) : Fault σ → Fault τ
  | refused reason => refused (reason.relabel how)
  | expected what stop start => expected what (view stop) (start.map view)

namespace Parser

variable {σ τ α β γ δ : Type} {how : Shift} {view : σ → τ} {f : α → β} {g : γ → δ}

/-- The same end of a run on the view of a stream. -/
def moved (how : Relabel) (view : σ → τ) (f : α → β) :
    Except (Fault σ) (α × σ) → Except (Fault τ) (β × τ)
  | .ok (a, rest) => .ok (f a, view rest)
  | .error fault => .error (fault.carry how view)

/-- The second parser ends on the view of a stream as the first one does on the stream. -/
def Alike (how : Relabel) (view : σ → τ) (f : α → β) (p : Parser σ α) (q : Parser τ β) : Prop :=
  ∀ tokens : σ, q (view tokens) = moved how view f (p tokens)

namespace Alike

variable {p : Parser σ α} {q : Parser τ β} {k : α → Parser σ γ} {l : β → Parser τ δ}

theorem pure {a : α} {b : β} (h : f a = b) : Alike how view f (Pure.pure a) (Pure.pure b) := by
  subst h
  exact fun _ => rfl

theorem bind (hp : Alike how view f p q) (hk : ∀ a, Alike how view g (k a) (l (f a))) :
    Alike how view g (p >>= k) (q >>= l) := by
  intro tokens
  change (q _).bind (fun found => l found.1 found.2) =
    moved how view g ((p tokens).bind fun found => k found.1 found.2)
  rw [hp tokens]
  rcases p tokens with fault | ⟨a, rest⟩
  · rfl
  · exact hk a rest

theorem map {m : α → γ} {m' : β → δ} (hp : Alike how view f p q) (h : ∀ a, g (m a) = m' (f a)) :
    Alike how view g (m <$> p) (m' <$> q) :=
  hp.bind (l := fun b => Pure.pure (m' b)) fun a => pure (h a)

theorem found (hp : Alike how view f p q) :
    Alike how view (Option.map f) (some <$> p) (some <$> q) :=
  hp.map fun _ => rfl

theorem discard (hp : Alike how view f p q) : Alike how view id (discard p) (discard q) :=
  hp.map fun _ => rfl

theorem ite
    {c : Prop} [Decidable c] {p' : Parser σ α} {q' : Parser τ β} (hp : Alike how view f p q)
    (hp' : Alike how view f p' q') :
    Alike how view f (if c then p else p') (if c then q else q') := by
  split
  · exact hp
  · exact hp'

/-- Two ways to go on that meet again. -/
theorem join
    {c : Prop} [Decidable c] {p' : Parser σ α} {q' : Parser τ β} (hp : Alike how view f p q)
    (hp' : Alike how view f p' q') (hk : ∀ a, Alike how view g (k a) (l (f a))) :
    Alike how view g (if c then p >>= k else p' >>= k) (if c then q >>= l else q' >>= l) :=
  ite (hp.bind hk) (hp'.bind hk)

theorem commit (hp : Alike how view f p q) : Alike how view f p.commit q.commit := by
  intro tokens
  unfold Parser.commit
  rw [hp tokens]
  rcases p tokens with (reason | ⟨what, stop, _ | start⟩) | ⟨a, rest⟩ <;> rfl

theorem refuse (reason : Refusal) :
    Alike how view f (Parser.refuse reason) (Parser.refuse (reason.relabel how)) :=
  fun _ => rfl

theorem refuse_bind (reason : Refusal) :
    Alike how view g (Parser.refuse reason >>= k) (Parser.refuse (reason.relabel how) >>= l) :=
  fun _ => rfl

theorem expected (what : String) : Alike how view f (Parser.expected what) (Parser.expected what) :=
  fun _ => rfl

/-! ### Tokens -/

variable [TokenStream σ] [TokenStream τ] [Carries how view]
variable {m : Unit → Parser σ γ} {m' : Unit → Parser τ δ}

theorem token (what : String) (accept : Token → Option α) :
    Alike how view (·.relabel how) (Parser.token what accept) (Parser.token what accept) := by
  intro tokens
  simp only [Parser.token, Carries.skip how, @Carries.next? σ τ _ _ how]
  rcases TokenStream.next? (TokenStream.skip tokens) with _ | ⟨t, rest⟩
  · rfl
  · simp only [Option.map_some, Prod.map_apply, Located.relabel_value]
    cases accept t.value <;> rfl

theorem identifier : Alike how view (·.relabel how) Parser.identifier Parser.identifier := token _ _

theorem integer : Alike how view (·.relabel how) Parser.integer Parser.integer := token _ _

theorem textLiteral :
    Alike how view (·.relabel how) Parser.textLiteral Parser.textLiteral := token _ _

theorem punct (mark : Punct) : Alike how view how.span (Parser.punct mark) (Parser.punct mark) :=
  (token _ _).bind fun _ => pure rfl

theorem word (text : String) : Alike how view how.span (Parser.word text) (Parser.word text) :=
  (token _ _).bind fun _ => pure rfl

theorem mark {mark : Punct} (h : Alike how view g (m ()) (m' ())) :
    Alike how view g (Functor.discard (Parser.punct mark) >>= m)
      (Functor.discard (Parser.punct mark) >>= m') :=
  (punct mark).discard.bind fun _ => h

theorem keyword {text : String} (h : Alike how view g (m ()) (m' ())) :
    Alike how view g (Functor.discard (Parser.word text) >>= m)
      (Functor.discard (Parser.word text) >>= m') :=
  (word text).discard.bind fun _ => h

theorem optionValue : Alike how view id Parser.optionValue Parser.optionValue :=
  (token _ _).bind fun _ => pure rfl

theorem fieldTag : Alike how view (·.relabel how) Parser.fieldTag Parser.fieldTag :=
  integer.bind fun _ => ite (pure rfl) (refuse _)

/-! ### Looking ahead -/

variable (how) in
theorem lookahead_view (n : Nat) (tokens : σ) :
    lookahead n (view tokens) = (lookahead n tokens).map (·.relabel how) := by
  induction n generalizing tokens with
  | zero => rfl
  | succ n ih =>
    simp only [lookahead, Carries.skip how, @Carries.next? σ τ _ _ how]
    rcases TokenStream.next? (TokenStream.skip tokens) with _ | ⟨t, rest⟩
    · rfl
    · exact congrArg (_ :: ·) (ih rest)

theorem peekMany (n : Nat) : Alike how view id (Parser.peekMany n) (Parser.peekMany n) := by
  intro tokens
  simp [Parser.peekMany, moved, lookahead_view how, Function.comp_def]

theorem peek? : Alike how view id Parser.peek? Parser.peek? := by
  intro tokens
  simp [Parser.peek?, moved, lookahead_view how, Function.comp_def]

theorem atPunct (mark : Punct) : Alike how view id (Parser.atPunct mark) (Parser.atPunct mark) :=
  peek?.bind fun _ => pure rfl

theorem atWord (text : String) : Alike how view id (Parser.atWord text) (Parser.atWord text) :=
  peek?.bind fun _ => pure rfl

theorem nextSpan : Alike how view how.span Parser.nextSpan Parser.nextSpan := by
  intro tokens
  simp only [Parser.nextSpan, moved, lookahead_view how, head?_map, Option.map_map]
  cases (lookahead 1 tokens).head? with
  | none => exact congrArg (fun span => Except.ok (span, view tokens)) how.default.symm
  | some t => rfl

theorem punct? (mark : Punct) :
    Alike how view (Option.map how.span) (Parser.punct? mark) (Parser.punct? mark) :=
  (atPunct mark).bind fun _ => ite (punct mark).found (pure rfl)

theorem ifPunct?
    {mark : Punct} {p p' : Parser σ γ} {q q' : Parser τ δ} (hp : Alike how view g p q)
    (hp' : Alike how view g p' q') :
    Alike how view g (do if (← Parser.punct? mark).isSome then p else p')
      (do if (← Parser.punct? mark).isSome then q else q') := by
  refine (punct? mark).bind fun found => ?_
  cases found with
  | none => exact hp'
  | some _ => exact hp

theorem ending {a : α} {b : β} (h : f a = b) :
    Alike how view f (do Parser.terminator; return a) (do Parser.terminator; return b) :=
  (punct? _).discard.bind fun _ => pure h

/-! ### Lists -/

variable {statement : Parser σ α} {statement' : Parser τ β}

theorem collect
    {next : Parser σ (Option α)} {next' : Parser τ (Option β)}
    (h : Alike how view (Option.map f) next next') :
    Alike how view (List.map f) (Parser.collect next) (Parser.collect next') := by
  intro tokens
  fun_induction Parser.collect next tokens with
  | case1 tokens fault hnext => rw [Parser.collect, h, hnext]; rfl
  | case2 tokens rest hnext => rw [Parser.collect, h, hnext]; rfl
  | case3 tokens a rest hnext hlt fault hmore ih =>
    rw [Parser.collect, h, hnext]
    simp only [moved, Option.map_some, Carries.remaining how, hlt, if_true, ih, hmore]
  | case4 tokens a rest hnext hlt as more hmore ih =>
    rw [Parser.collect, h, hnext]
    simp only [moved, Option.map_some, Carries.remaining how, hlt, if_true, ih, hmore, map_cons]
  | case5 tokens a rest hnext hlt =>
    rw [Parser.collect, h, hnext]
    simp only [moved, Option.map_some, Carries.remaining how, hlt, if_false, map_cons, map_nil]

theorem terminators : Alike how view id Parser.terminators Parser.terminators :=
  (collect (punct? _)).discard

/-- Statements up to where nothing more is found. -/
theorem collectUntil
    {stop : Parser σ Bool} {stop' : Parser τ Bool} (hstop : Alike how view id stop stop')
    (h : Alike how view f statement statement') :
    Alike how view (List.map f)
      (Parser.collect do if ← stop then return none else return some (← statement))
      (Parser.collect do if ← stop' then return none else return some (← statement')) :=
  collect (hstop.bind fun _ => ite (pure rfl) (h.bind fun _ => pure rfl))

theorem block (h : Alike how view f statement statement') :
    Alike how view (List.map f) (Parser.block statement) (Parser.block statement') := by
  refine mark ((collect ?_).bind fun found => mark (pure rfl))
  exact terminators.bind fun _ => (atPunct _).bind fun _ =>
    ite (pure rfl) (h.bind fun _ => pure rfl)

theorem declarations
    {declaration : Parser σ Declaration} {declaration' : Parser τ Declaration}
    {f : Declaration → Declaration}
    (h : Alike how view f declaration declaration') :
    Alike how view (List.map f) (Parser.declarations declaration)
      (Parser.declarations declaration') := by
  refine collect (terminators.bind fun _ => peek?.bind fun next => ?_)
  cases next with
  | none => exact pure rfl
  | some _ => exact h.bind fun _ => pure rfl

/-- A parser that uses itself ends alike if its body does so whenever what it uses does. -/
theorem recursive
    {body : Parser σ α → Parser σ α} {body' : Parser τ β → Parser τ β}
    (h : ∀ nested nested', Alike how view f nested nested' →
      Alike how view f (body nested) (body' nested')) :
    Alike how view f (Parser.recursive body) (Parser.recursive body') := by
  intro tokens
  induction hleft : TokenStream.remaining tokens using Nat.strongRecOn generalizing tokens with
  | ind left ih =>
    subst hleft
    rw [Parser.recursive, Parser.recursive]
    refine h _ _ (fun rest => ?_) tokens
    simp only [Carries.remaining how]
    split
    next hlt => exact ih _ hlt rest rfl
    next => rfl

end Alike

end Parser

end Idl
