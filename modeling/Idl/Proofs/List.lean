import Mathlib.Data.List.Forall2
import Mathlib.Data.List.Nodup
import Mathlib.Data.List.Zip

/-!
# Lists

Facts about lists of anything: lists that are mapped alike, elements with their places, and lists
that are sorted and put back.
-/

namespace Idl

open List

variable {α β : Type} {xs : List α}

/-! ## Lists that are mapped -/

theorem map_eq_self {f : α → α} (h : ∀ x ∈ xs, f x = x) : xs.map f = xs :=
  (map_congr_left h).trans (map_id' xs)

theorem exists_mem_of_map_eq
    {f : α → β} {ys : List α} (h : ys.map f = xs.map f) {y : α} (hy : y ∈ ys) :
    ∃ x ∈ xs, f y = f x := by
  obtain ⟨x, hx, heq⟩ := mem_map.1 (h ▸ mem_map_of_mem hy)
  exact ⟨x, hx, heq.symm⟩

theorem eq_of_map_eq
    {f : α → β} {ys : List α} (h : xs.map f = ys.map f)
    (hsame : ∀ (i : Nat) x y, xs[i]? = some x → ys[i]? = some y → f x = f y → x = y) : xs = ys := by
  refine ext_getElem? fun i => ?_
  have hat := congrArg (fun zs : List β => zs[i]?) h
  simp only [getElem?_map] at hat
  cases hx : xs[i]? with
  | none =>
    rw [hx, Option.map_none] at hat
    exact (Option.map_eq_none_iff.1 hat.symm).symm
  | some x =>
    rw [hx, Option.map_some, eq_comm, Option.map_eq_some_iff] at hat
    obtain ⟨y, hy, heq⟩ := hat
    rw [hy, hsame i x y hx hy heq.symm]

theorem map_filterMap_comm
    {kind : α → Option β} {whole : α → α} {part : β → β}
    (h : ∀ a, kind (whole a) = (kind a).map part) (xs : List α) :
    (xs.filterMap kind).map part = (xs.map whole).filterMap kind := by
  rw [filterMap_map, map_filterMap]
  exact congrArg (List.filterMap · xs) (funext fun a => (h a).symm)

theorem mapM_map_comm
    {m : Type → Type} [Monad m] [LawfulMonad m] {f : α → α} {g : α → m α}
    (h : ∀ x, g (f x) = f <$> g x) (xs : List α) :
    (xs.map f).mapM g = List.map f <$> xs.mapM g := by
  induction xs with
  | nil => simp
  | cons x xs ih => simp [h, ih]

/-- Each element is replaced by one that comes to the same. -/
theorem map_mapM_eq
    {σ γ : Type} {f : α → StateM σ α} {g : α → γ} (h : ∀ x s, g (f x s).1 = g x) (xs : List α)
    (s : σ) :
    (xs.mapM f s).1.map g = xs.map g := by
  induction xs generalizing s with
  | nil => rfl
  | cons x xs ih =>
    rw [mapM_cons, map_cons, ← h x s, ← ih (f x s).2]
    rfl

theorem exists_of_forall₂ {R : α → β → Prop} {ys : List β} (h : List.Forall₂ R xs ys) :
    ∀ y ∈ ys, ∃ x ∈ xs, R x y := by
  induction h with
  | nil => exact forall_mem_nil _
  | cons hfirst _ ih =>
    refine forall_mem_cons.2 ⟨⟨_, mem_cons_self, hfirst⟩, fun y hy => ?_⟩
    obtain ⟨x, hx, hxy⟩ := ih y hy
    exact ⟨x, mem_cons_of_mem _ hx, hxy⟩

/-! ## Places -/

theorem lt_of_getElem? {i : Nat} {a : α} (h : xs[i]? = some a) : i < xs.length :=
  (List.getElem?_eq_some_iff.1 h).1

theorem pairwise_zipIdx {R : α → α → Prop} (h : xs.Pairwise R) (first : Nat) :
    (xs.zipIdx first).Pairwise fun x y => R x.1 y.1 ∧ x.2 < y.2 := by
  refine List.Pairwise.and (pairwise_map.1 ?_) (pairwise_map.1 ?_)
  · rwa [zipIdx_map_fst]
  · rw [zipIdx_map_snd]
    exact pairwise_lt_range'

theorem zip_tail_concat (before : List α) (a b : α) :
    (before ++ [a, b]).zip (before ++ [a, b]).tail =
      (before ++ [a]).zip (before ++ [a]).tail ++ [(a, b)] := by
  induction before with
  | nil => rfl
  | cons c before ih => cases before <;> simp_all

/-! ## Sorting and putting back -/

theorem eq_of_perm_of_map_eq
    {f : α → β} {ys : List α} (hperm : xs.Perm ys) (hmap : xs.map f = ys.map f)
    (hnodup : (ys.map f).Nodup) : xs = ys := by
  refine ext_getElem (by simpa using congrArg length hmap) fun i hx hy => ?_
  refine inj_on_of_nodup_map hnodup (hperm.mem_iff.1 (getElem_mem hx)) (getElem_mem hy) ?_
  have hi := congrArg (·[i]?) hmap
  simpa [hx, hy] using hi

theorem nodup_snd_zipIdx (xs : List α) : (xs.zipIdx.map (·.2)).Nodup := by
  rw [zipIdx_map_snd]
  exact nodup_range'

/-- What is sorted by its ranks is in the old order again. -/
theorem mergeSort_of_perm_zipIdx {ranked : List (α × Nat)} (h : ranked.Perm xs.zipIdx) :
    ranked.mergeSort (·.2 ≤ ·.2) = xs.zipIdx := by
  have hperm := (mergeSort_perm ranked (·.2 ≤ ·.2)).trans h
  have hsorted : (ranked.mergeSort (·.2 ≤ ·.2)).Pairwise fun a b => a.2 ≤ b.2 := by
    refine (pairwise_mergeSort (fun a b c hab hbc => ?_) (fun a b => ?_) _).imp of_decide_eq_true
    · exact decide_eq_true (Nat.le_trans (of_decide_eq_true hab) (of_decide_eq_true hbc))
    · simpa using Nat.le_total a.2 b.2
  have hranks : xs.zipIdx.Pairwise fun a b => a.2 ≤ b.2 := by
    refine pairwise_map.1 (?_ : (xs.zipIdx.map (·.2)).Pairwise (· ≤ ·))
    rw [zipIdx_map_snd]
    exact pairwise_le_range'
  refine hperm.eq_of_pairwise (fun a b ha hb hle hge => ?_) hsorted hranks
  exact inj_on_of_nodup_map (nodup_snd_zipIdx xs) (hperm.mem_iff.1 ha) hb (Nat.le_antisymm hle hge)

/-- The places that the elements have in the list, in the order in which they are sorted. -/
def ranks (le : α → α → Bool) (xs : List α) : List Nat :=
  (xs.zipIdx.mergeSort fun a b => le a.1 b.1).map (·.2)

/-- Puts each element at its place. -/
def putBack (ranks : List Nat) (xs : List α) : List α :=
  ((ranks.zip xs).mergeSort (·.1 ≤ ·.1)).map (·.2)

theorem putBack_map (ranks : List Nat) (f : α → β) (xs : List α) :
    putBack ranks (xs.map f) = (putBack ranks xs).map f := by
  have hmap : ((ranks.zip xs).mergeSort (·.1 ≤ ·.1)).map (Prod.map id f) =
      ((ranks.zip xs).map (Prod.map id f)).mergeSort (·.1 ≤ ·.1) :=
    map_mergeSort fun _ _ _ _ => rfl
  rw [putBack, putBack, zip_map_right, ← hmap, map_map, map_map]
  rfl

theorem map_fst_mergeSort_zipIdx (le : α → α → Bool) (xs : List α) :
    (xs.zipIdx.mergeSort fun a b => le a.1 b.1).map (·.1) = xs.mergeSort le := by
  rw [map_mergeSort (s := le) fun _ _ _ _ => rfl, zipIdx_map_fst]

/-- What is given to some elements in the order in which they are sorted can be put back in the
order of the list, and is in the order in which it was given if it is sorted again. -/
theorem putBack_ranks
    {le : α → α → Bool} {given : List (α × β)}
    (h : given.map (·.1) = xs.mergeSort le) :
    (putBack (ranks le xs) given).map (·.1) = xs ∧
      (putBack (ranks le xs) given).mergeSort (fun a b => le a.1 b.1) = given := by
  let sorted := xs.zipIdx.mergeSort fun a b => le a.1 b.1
  let back := ((ranks le xs).zip given).mergeSort (·.1 ≤ ·.1)
  let place (node : Nat × α × β) : α × Nat := (node.2.1, node.1)
  have hsorted : sorted.map (·.1) = given.map (·.1) :=
    (map_fst_mergeSort_zipIdx le xs).trans h.symm
  have hlength : given.length = (ranks le xs).length := by
    rw [ranks, length_map, ← length_map (·.1), ← hsorted, length_map]
  have hplaces : ((ranks le xs).zip given).map place = sorted := by
    have hzip : ((ranks le xs).zip given).map place = (given.map (·.1)).zip (ranks le xs) := by
      rw [← zip_swap, map_map]
      exact zip_map_left.symm
    rw [hzip, ← hsorted, ranks, zip_map']
    exact map_id' _
  have hback : back.map place = xs.zipIdx := by
    have hmap : back.map place = sorted.mergeSort (·.2 ≤ ·.2) := by
      rw [← hplaces]
      exact map_mergeSort fun _ _ _ _ => rfl
    rw [hmap]
    exact mergeSort_of_perm_zipIdx (mergeSort_perm _ _)
  have hagain : back.mergeSort (fun a b => le a.2.1 b.2.1) = (ranks le xs).zip given := by
    have hmap : (back.mergeSort fun a b => le a.2.1 b.2.1).map place =
        (back.map place).mergeSort fun a b => le a.1 b.1 := map_mergeSort fun _ _ _ _ => rfl
    rw [hback] at hmap
    refine eq_of_perm_of_map_eq ((mergeSort_perm _ _).trans (mergeSort_perm _ _))
      (hmap.trans hplaces.symm) ?_
    rw [hplaces, (mergeSort_perm _ _).nodup_iff]
    exact .of_map _ (nodup_snd_zipIdx xs)
  constructor
  · have hfirst := congrArg (map Prod.fst) hback
    rw [zipIdx_map_fst, map_map] at hfirst
    rw [putBack, map_map]
    exact hfirst
  · have hmap : (back.mergeSort fun a b => le a.2.1 b.2.1).map (·.2) =
        (back.map (·.2)).mergeSort fun a b => le a.1 b.1 := map_mergeSort fun _ _ _ _ => rfl
    rw [putBack, ← hmap, hagain]
    exact map_snd_zip (Nat.le_of_eq hlength)

end Idl
