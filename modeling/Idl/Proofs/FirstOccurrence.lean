import Idl.Assoc
import Mathlib.Data.List.Basic
import Mathlib.Data.List.Induction

/-!
# First occurrences

Of values that come again only the first occurrence counts.  An association list keeps each key
where it first came, so that it is known from the order of its keys and from what it has for each.
-/

namespace Idl

open List

variable {α κ : Type} {entries : Assoc κ α}

theorem eraseDups_concat [BEq α] [LawfulBEq α] [DecidableEq α] (before : List α) (a : α) :
    (before ++ [a]).eraseDups =
      if a ∈ before then before.eraseDups else before.eraseDups ++ [a] := by
  rw [eraseDups_append]
  by_cases ha : a ∈ before <;> simp [List.removeAll, ha, eraseDups_cons]

theorem nodup_eraseDups [BEq α] [LawfulBEq α] [DecidableEq α] (all : List α) :
    all.eraseDups.Nodup := by
  induction all using List.reverseRecOn with
  | nil => exact nodup_nil
  | append_singleton before a ih =>
    rw [eraseDups_concat]
    split
    · exact ih
    next ha =>
      refine nodup_append.2 ⟨ih, by simp, ?_⟩
      rintro b hb _ hsingle rfl
      obtain rfl := mem_singleton.1 hsingle
      exact ha (mem_eraseDups.1 hb)

theorem eraseDups_map
    {β : Type} [BEq α] [LawfulBEq α] [DecidableEq α] [BEq β] [LawfulBEq β] [DecidableEq β]
    {f : α → β} (hf : Function.Injective f) (all : List α) :
    (all.map f).eraseDups = all.eraseDups.map f := by
  induction all using List.reverseRecOn with
  | nil => rfl
  | append_singleton before a ih =>
    rw [map_append, map_singleton, eraseDups_concat, eraseDups_concat, ih]
    simp only [mem_map, hf.eq_iff, exists_eq_right]
    split <;> simp

/-- Two association lists are equal if they have the same keys in the same order, and the same value
for each. -/
theorem Assoc.eq_of_lookup_eq
    [BEq κ] [LawfulBEq κ] {entries' : Assoc κ α} (hkeys : (entries.map (·.1)).Nodup)
    (heq : entries.map (·.1) = entries'.map (·.1))
    (hlookup : ∀ key, entries.lookup key = entries'.lookup key) : entries = entries' := by
  induction entries generalizing entries' with
  | nil => exact (map_eq_nil_iff.1 heq.symm).symm
  | cons entry entries ih =>
    cases entries' with
    | nil => cases heq
    | cons entry' entries' =>
      obtain ⟨key, value⟩ := entry
      obtain ⟨key', value'⟩ := entry'
      simp only [map_cons, List.cons.injEq] at heq
      obtain ⟨rfl, heq⟩ := heq
      obtain ⟨hnew, hkeys⟩ := nodup_cons.1 hkeys
      have hfirst : value = value' := by simpa using hlookup key
      have hnone : ∀ {rest : Assoc κ α}, key ∉ rest.map (·.1) → rest.lookup key = none := by
        intro rest hrest
        refine lookup_eq_none_iff.2 fun entry hentry => bne_iff_ne.2 ?_
        rintro rfl
        exact hrest (mem_map_of_mem hentry)
      have hmore : entries = entries' := by
        refine ih hkeys heq fun k => ?_
        by_cases hk : k = key
        · rw [hk, hnone hnew, hnone (heq ▸ hnew)]
        · simpa [lookup_cons, beq_false_of_ne hk] using hlookup k
      rw [hfirst, hmore]

theorem Assoc.map_fst_put
    [BEq κ] [LawfulBEq κ] {key : κ} (h : key ∈ entries.map (·.1)) (value : α) :
    (entries.put key value).map (·.1) = entries.map (·.1) := by
  induction entries with
  | nil => cases h
  | cons entry entries ih =>
    rw [Assoc.put]
    split
    · rfl
    next hne =>
      have hmem : key ∈ entries.map (·.1) := by
        rcases mem_cons.1 h with rfl | hmem
        · exact absurd (beq_self_eq_true _) hne
        · exact hmem
      rw [map_cons, map_cons, ih hmem]

theorem Assoc.lookup_map_key
    [BEq κ] [LawfulBEq κ] [DecidableEq κ] (value : κ → α) (keys : List κ) (key : κ) :
    (keys.map fun k => (k, value k)).lookup key =
      if key ∈ keys then some (value key) else none := by
  induction keys with
  | nil => rfl
  | cons first keys ih =>
    rw [map_cons, lookup_cons, ih]
    by_cases hkey : key = first
    · simp [hkey]
    · simp [hkey, beq_false_of_ne hkey]

end Idl
