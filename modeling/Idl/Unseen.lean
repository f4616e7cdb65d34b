/-!
# Counting what is left to see

A search that never returns to a key it has seen ends, because each new key leaves one fewer.
-/

namespace Idl

variable {α κ : Type} [DecidableEq κ]

/-- How many elements have a key that has not been seen. -/
def unseen (key : α → κ) (xs : List α) (seen : List κ) : Nat := xs.countP (key · ∉ seen)

theorem unseen_le_of_subset (key : α → κ) (xs : List α) {seen seen' : List κ}
    (h : seen ⊆ seen') : unseen key xs seen' ≤ unseen key xs seen := by
  refine List.countP_mono_left fun x _ hx => ?_
  simp only [decide_eq_true_eq] at hx ⊢
  exact fun hmem => hx (h hmem)

theorem unseen_cons_le (key : α → κ) (xs : List α) (k : κ) (seen : List κ) :
    unseen key xs (k :: seen) ≤ unseen key xs seen :=
  unseen_le_of_subset key xs (List.subset_cons_self k seen)

theorem unseen_cons_lt (key : α → κ) {xs : List α} {seen : List κ} {x : α} (hx : x ∈ xs)
    (hnew : key x ∉ seen) : unseen key xs (key x :: seen) < unseen key xs seen := by
  induction xs with
  | nil => simp at hx
  | cons y ys ih =>
    have hle := unseen_cons_le key ys (key x) seen
    simp only [unseen, List.countP_cons] at hle ih ⊢
    by_cases hy : key y = key x
    · simp only [hy, List.mem_cons_self, not_true_eq_false, decide_false, hnew,
        not_false_eq_true, decide_true]
      simp only [Bool.false_eq_true, if_false, if_true]
      omega
    · have hmem : x ∈ ys := by
        rcases List.mem_cons.1 hx with rfl | h
        · exact absurd rfl hy
        · exact h
      have hlt := ih hmem
      by_cases hseen : key y ∈ seen
      · simp [hseen]
        simpa using hlt
      · simp [hseen, hy]
        simpa using hlt

end Idl
