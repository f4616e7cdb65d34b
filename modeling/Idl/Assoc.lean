/-!
# Association lists

Keys with their values, in the order in which the keys first came.
-/

namespace Idl

abbrev Assoc (κ α : Type) := List (κ × α)

namespace Assoc

variable {κ α : Type} [BEq κ]

/-- Gives a key a value: a key that is there keeps its place, a new one goes to the end. -/
def put (key : κ) (value : α) : Assoc κ α → Assoc κ α
  | [] => [(key, value)]
  | (k, v) :: entries =>
    if k == key then (k, value) :: entries else (k, v) :: put key value entries

/-- The association list with the given entries; of several for one key the last counts. -/
def ofEntries (entries : List (κ × α)) : Assoc κ α :=
  entries.foldl (fun table (key, value) => put key value table) []

theorem put_eq_append_of_lookup_eq_none [LawfulBEq κ] {key : κ} {entries : Assoc κ α}
    (h : entries.lookup key = none) (value : α) :
    entries.put key value = entries ++ [(key, value)] := by
  induction entries with
  | nil => rfl
  | cons entry entries ih =>
    obtain ⟨k, v⟩ := entry
    rw [List.lookup_cons] at h
    have hne : (key == k) = false := by
      cases hk : key == k with
      | false => rfl
      | true => simp [hk] at h
    simp only [hne] at h
    have hne' : (k == key) = false := by rw [BEq.comm, hne]
    simp [put, hne', ih h]

theorem ofEntries_eq_self [LawfulBEq κ] {entries : List (κ × α)}
    (hkeys : (entries.map (·.1)).Nodup) : ofEntries entries = entries := by
  suffices h : ∀ before : Assoc κ α, ((before ++ entries).map (·.1)).Nodup →
      entries.foldl (fun table entry => put entry.1 entry.2 table) before = before ++ entries by
    simpa [ofEntries] using h [] (by simpa using hkeys)
  clear hkeys
  induction entries with
  | nil => simp
  | cons entry entries ih =>
    intro before hkeys
    have hnew : before.lookup entry.1 = none := by
      rw [List.lookup_eq_none_iff]
      intro other hother
      rw [List.map_append, List.nodup_append] at hkeys
      have hne := hkeys.2.2 _ (List.mem_map_of_mem hother) entry.1 (by simp)
      exact bne_iff_ne.2 hne.symm
    rw [List.foldl_cons, put_eq_append_of_lookup_eq_none hnew, ih _ (by simpa using hkeys)]
    simp

theorem lookup_put [LawfulBEq κ] (key k : κ) (value : α) (entries : Assoc κ α) :
    (entries.put key value).lookup k = if k == key then some value else entries.lookup k := by
  induction entries with
  | nil => cases h : k == key <;> simp [put, List.lookup_cons, h]
  | cons entry entries ih =>
    obtain ⟨first, v⟩ := entry
    rw [put]
    split
    next heq =>
      obtain rfl := eq_of_beq heq
      cases h : k == first <;> simp [List.lookup_cons, h]
    next hne =>
      cases h : k == first with
      | false => simp [List.lookup_cons, h, ih]
      | true =>
        obtain rfl := eq_of_beq h
        simp [hne]

theorem mem_of_lookup_eq_some [LawfulBEq κ] {key : κ} {value : α} {entries : Assoc κ α}
    (h : entries.lookup key = some value) : (key, value) ∈ entries := by
  obtain ⟨before, behind, rfl, -⟩ := List.lookup_eq_some_iff.1 h
  simp

theorem mem_or_eq_of_mem_put {key : κ} {value : α} {entries : Assoc κ α} {entry : κ × α}
    (h : entry ∈ entries.put key value) : entry ∈ entries ∨ entry.2 = value := by
  induction entries with
  | nil =>
    obtain rfl := List.mem_singleton.1 h
    exact .inr rfl
  | cons first entries ih =>
    rw [put] at h
    split at h
    · rcases List.mem_cons.1 h with rfl | h
      · exact .inr rfl
      · exact .inl (List.mem_cons_of_mem _ h)
    · rcases List.mem_cons.1 h with rfl | h
      · exact .inl List.mem_cons_self
      · exact (ih h).imp_left (List.mem_cons_of_mem _)

/-- Where every key has one entry, looking a key up finds that entry. -/
theorem lookup_eq_some_iff_mem [LawfulBEq κ] {entries : Assoc κ α}
    (hkeys : (entries.map (·.1)).Nodup) {key : κ} {value : α} :
    entries.lookup key = some value ↔ (key, value) ∈ entries := by
  refine ⟨mem_of_lookup_eq_some, fun hmem => ?_⟩
  obtain ⟨before, behind, rfl⟩ := List.append_of_mem hmem
  refine List.lookup_eq_some_iff.2 ⟨before, behind, rfl, fun entry hentry => ?_⟩
  simp only [List.map_append, List.map_cons, List.nodup_append] at hkeys
  have hne : entry.1 ≠ key := hkeys.2.2 _ (List.mem_map_of_mem hentry) _ (by simp)
  exact bne_iff_ne.2 hne.symm

theorem not_mem_keys_of_lookup_eq_none [LawfulBEq κ] {key : κ} {entries : Assoc κ α}
    (h : entries.lookup key = none) : key ∉ entries.map (·.1) := by
  intro hmem
  obtain ⟨entry, hentry, rfl⟩ := List.mem_map.1 hmem
  have hne := List.lookup_eq_none_iff.1 h entry hentry
  simp at hne

theorem lookup_put_eq_some_iff [LawfulBEq κ] {key k : κ} {value v : α} {entries : Assoc κ α}
    (h : entries.lookup key = none) :
    (entries.put key value).lookup k = some v ↔
      entries.lookup k = some v ∨ (k = key ∧ v = value) := by
  rw [put_eq_append_of_lookup_eq_none h, List.lookup_append, Option.or_eq_some_iff]
  constructor
  · rintro (hold | ⟨-, hnew⟩)
    · exact .inl hold
    · rw [List.lookup_cons] at hnew
      cases hk : k == key with
      | false => simp [hk] at hnew
      | true =>
        simp only [hk, Option.some.injEq] at hnew
        exact .inr ⟨eq_of_beq hk, hnew.symm⟩
  · rintro (hold | ⟨rfl, rfl⟩)
    · exact .inl hold
    · exact .inr ⟨h, List.lookup_cons_self⟩

theorem nodup_keys_put [LawfulBEq κ] {key : κ} {entries : Assoc κ α}
    (hkeys : (entries.map (·.1)).Nodup) (h : entries.lookup key = none) (value : α) :
    ((entries.put key value).map (·.1)).Nodup := by
  rw [put_eq_append_of_lookup_eq_none h, List.map_append, List.nodup_append]
  refine ⟨hkeys, by simp, ?_⟩
  rintro k hk _ hkey rfl
  obtain rfl : k = key := by simpa using hkey
  exact not_mem_keys_of_lookup_eq_none h hk

theorem lookup_filter_eq_some_iff [LawfulBEq κ] {entries : Assoc κ α}
    (hkeys : (entries.map (·.1)).Nodup) (keep : κ × α → Bool) {key : κ} {value : α} :
    (entries.filter keep).lookup key = some value ↔
      entries.lookup key = some value ∧ keep (key, value) = true := by
  have hsublist : ((entries.filter keep).map (·.1)).Nodup :=
    hkeys.sublist (List.filter_sublist.map _)
  rw [lookup_eq_some_iff_mem hsublist, List.mem_filter, lookup_eq_some_iff_mem hkeys]

section MapValues

variable {β : Type} (f : α → β)

theorem lookup_map_values (entries : Assoc κ α) (key : κ) :
    (entries.map fun entry => (entry.1, f entry.2)).lookup key = (entries.lookup key).map f := by
  induction entries with
  | nil => rfl
  | cons entry entries ih =>
    obtain ⟨k, v⟩ := entry
    simp only [List.map_cons, List.lookup_cons, ih]
    cases key == k <;> rfl

end MapValues

end Assoc

end Idl
