/-!
# Computations that may fail

When a computation under `Except` succeeds, each of its steps has succeeded.
-/

namespace Idl

variable {ε ε' α β : Type} {a : α} {xs : List α} {r x : Except ε α} {f : α → Except ε β}

theorem bind_eq_ok_iff {b : β} : (x >>= f) = .ok b ↔ ∃ a, x = .ok a ∧ f a = .ok b := by
  cases x with
  | error e | ok a => simp [bind, Except.bind]

theorem unit_bind_eq_ok_iff {x : Except ε Unit} {f : Unit → Except ε β} {b : β} :
    (x >>= f) = .ok b ↔ x = .ok () ∧ f () = .ok b := by
  rw [bind_eq_ok_iff]
  exact ⟨fun ⟨_, hx, hf⟩ => ⟨hx, hf⟩, fun ⟨hx, hf⟩ => ⟨(), hx, hf⟩⟩

theorem pure_eq_ok_iff {b : α} : (pure a : Except ε α) = .ok b ↔ a = b := by
  simp [pure, Except.pure]

theorem forM_eq_ok_iff {f : α → Except ε Unit} : xs.forM f = .ok () ↔ ∀ x ∈ xs, f x = .ok () := by
  induction xs with
  | nil => simp [pure, Except.pure]
  | cons x xs ih =>
    rw [List.forall_mem_cons, ← ih]
    exact unit_bind_eq_ok_iff

theorem exists_of_mem_mapM {ys : List β} (h : xs.mapM f = .ok ys) {y : β} (hy : y ∈ ys) :
    ∃ x ∈ xs, f x = .ok y := by
  induction xs generalizing ys with
  | nil =>
    cases h
    cases hy
  | cons x xs ih =>
    rw [List.mapM_cons] at h
    obtain ⟨first, hfirst, h⟩ := bind_eq_ok_iff.1 h
    obtain ⟨more, hmore, h⟩ := bind_eq_ok_iff.1 h
    obtain rfl := pure_eq_ok_iff.1 h
    rcases List.mem_cons.1 hy with rfl | hy
    · exact ⟨x, List.mem_cons_self, hfirst⟩
    · obtain ⟨x', hx', hfound⟩ := ih hmore hy
      exact ⟨x', List.mem_cons_of_mem _ hx', hfound⟩

theorem mapError_error (f : ε → ε') (e : ε) :
    (Except.error e : Except ε α).mapError f = .error (f e) :=
  rfl

theorem mapError_ok (f : ε → ε') (a : α) : (Except.ok a : Except ε α).mapError f = .ok a := rfl

theorem mapError_eq_ok_iff {f : ε → ε'} : x.mapError f = .ok a ↔ x = .ok a := by
  cases x with
  | error e => simp [mapError_error]
  | ok a => simp [mapError_ok]

theorem isOk_iff_exists {result : Except ε α} : result.isOk = true ↔ ∃ a, result = .ok a := by
  cases result <;> simp [Except.isOk, Except.toBool]

/-! ## Both ends of a computation -/

/-- The computation succeeds with something that has the first property, or fails with something
that has the second. -/
inductive Ends (P : α → Prop) (Q : ε → Prop) : Except ε α → Prop
  | ok {a : α} (value : P a) : Ends P Q (.ok a)
  | error {e : ε} (fault : Q e) : Ends P Q (.error e)

namespace Ends

variable {P P' : α → Prop} {Q Q' : ε → Prop} {R : β → Prop} {x : Except ε α}

theorem of_ok (h : Ends P Q x) (hx : x = .ok a) : P a := by
  cases hx ▸ h with
  | ok value => exact value

theorem of_error (h : Ends P Q x) {e : ε} (hx : x = .error e) : Q e := by
  cases hx ▸ h with
  | error fault => exact fault

theorem mono (h : Ends P Q x) (hP : ∀ a, P a → P' a) (hQ : ∀ e, Q e → Q' e) : Ends P' Q' x := by
  cases h with
  | ok value => exact .ok (hP _ value)
  | error fault => exact .error (hQ _ fault)

theorem bind (h : Ends P Q x) (hf : ∀ a, P a → Ends R Q (f a)) : Ends R Q (x >>= f) := by
  cases h with
  | ok value => exact hf _ value
  | error fault => exact .error fault

theorem mapM {f : β → Except ε α} (h : ∀ b, Ends P Q (f b)) (bs : List β) :
    Ends (fun _ => True) Q (bs.mapM f) := by
  induction bs with
  | nil => exact .ok trivial
  | cons b bs ih =>
    rw [List.mapM_cons]
    exact (h b).bind fun _ _ => ih.bind fun _ _ => .ok trivial

theorem mapError {S : ε' → Prop} {f : ε → ε'} (h : Ends P Q x) (hf : ∀ e, Q e → S (f e)) :
    Ends P S (x.mapError f) := by
  cases h with
  | ok value => exact .ok value
  | error fault => exact .error (hf _ fault)

theorem and_eq (h : Ends P Q x) : Ends (fun a => P a ∧ x = .ok a) Q x := by
  cases h with
  | ok value => exact .ok ⟨value, rfl⟩
  | error fault => exact .error fault

theorem of_faults (h : ∀ e, x = .error e → Q e) : Ends (fun _ => True) Q x := by
  cases x with
  | ok a => exact .ok trivial
  | error e => exact .error (h e rfl)

end Ends

/-- That a result has a property can be found out by looking at it. -/
theorem exists_eq_ok_of_any
    {P : α → Prop} [DecidablePred P] (h : r.toOption.any fun a => decide (P a)) :
    ∃ a, r = .ok a ∧ P a := by
  cases r with
  | error e => cases h
  | ok a => exact ⟨a, rfl, of_decide_eq_true h⟩

/-- So can that it has failed. -/
theorem exists_eq_error_of_not_isOk (h : r.isOk = false) : ∃ e, r = .error e := by
  cases r with
  | error e => exact ⟨e, rfl⟩
  | ok a => cases h

end Idl
