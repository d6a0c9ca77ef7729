import GrammarKit.Table

/-!
This module contains the correspondence between the entries of a table and the values it gives for
names.
-/

namespace GrammarKit

namespace Table

variable {α β : Type}

theorem mem_entries_iff {t : Table α} {name : String} {value : α}
    : (name, value) ∈ t.entries ↔ t.get? name = some value := by
  obtain ⟨entries, sorted⟩ := t
  unfold get?
  induction entries with
  | nil => simp
  | cons entry rest ih =>
    obtain ⟨key, old⟩ := entry
    rw [List.pairwise_cons] at sorted
    simp only [List.mem_cons, Prod.mk.injEq, lookup_cons, ih sorted.2]
    by_cases h : name = key
    · subst h
      simp only [true_and, ↓reduceIte, Option.some.injEq]
      constructor
      · rintro (rfl | hlookup)
        · rfl
        · exact absurd (sorted.1 _ ((ih sorted.2).mpr hlookup)) (String.lt_irrefl name)
      · rintro rfl
        exact .inl rfl
    · simp [h]

theorem mem_names_iff {t : Table α} {name : String}
    : name ∈ t.names ↔ ∃ value, t.get? name = some value := by
  simp only [names, List.mem_map, ← mem_entries_iff]
  constructor
  · rintro ⟨entry, hentry, rfl⟩
    exact ⟨entry.2, hentry⟩
  · rintro ⟨value, hvalue⟩
    exact ⟨_, hvalue, rfl⟩

theorem contains_of_eq_some {t : Table α} {name : String} {value : α} (h : t.get? name = some value)
    : t.contains name = true :=
  Option.isSome_iff_exists.mpr ⟨value, h⟩

theorem contains_eq_false_iff {t : Table α} {name : String}
    : t.contains name = false ↔ t.get? name = none := by
  simp [contains]

theorem insert_eq_ok {t t' : Table α} {name : String} {value : α}
    : t.insert name value = .ok t' ↔ t.get? name = none ∧ t.set name value = t' := by
  unfold insert
  cases h : t.contains name with
  | true =>
    obtain ⟨old, hold⟩ := Option.isSome_iff_exists.mp h
    simp [hold]
  | false => simp [contains_eq_false_iff.mp h]

theorem names_nodup (t : Table α) : t.names.Nodup := by
  unfold names List.Nodup
  rw [List.pairwise_map]
  apply t.sorted.imp
  intro a b hlt heq
  rw [heq] at hlt
  exact String.lt_irrefl b.1 hlt

theorem get?_map (f : α → β) (t : Table α) (name : String)
    : (t.map f).get? name = (t.get? name).map f := by
  unfold get? map
  simp only
  induction t.entries with
  | nil => rfl
  | cons entry rest ih =>
    rw [List.map_cons, lookup_cons, lookup_cons, ih]
    split <;> rfl

theorem mem_names_filter_iff {p : α → Bool} {t : Table α} {name : String}
    : name ∈ (t.filter p).names ↔ ∃ value, t.get? name = some value ∧ p value = true := by
  simp only [mem_names_iff, ← mem_entries_iff, filter, List.mem_filter]

theorem entries_nodup (t : Table α) : t.entries.Nodup := by
  apply t.sorted.imp
  rintro a b hlt rfl
  exact String.lt_irrefl a.1 hlt

/-- Tables that give the same values are the same, as the order of entries is that of the names. -/
theorem eq_of_get? {s t : Table α} (h : ∀ name value, s.get? name = some value ↔
    t.get? name = some value)
    : s = t := by
  have hperm : s.entries.Perm t.entries := by
    rw [List.perm_ext_iff_of_nodup s.entries_nodup t.entries_nodup]
    rintro ⟨name, value⟩
    rw [mem_entries_iff, mem_entries_iff, h]
  apply ext
  refine hperm.eq_of_pairwise (fun a b _ _ hab hba => ?_) s.sorted t.sorted
  exact absurd (String.lt_trans hab hba) (String.lt_irrefl a.1)

theorem get?_foldl_set {entries : List (String × α)} (hnodup : (entries.map Prod.fst).Nodup)
    (base : Table α) {name : String} {value : α}
    : (entries.foldl (fun t entry => t.set entry.1 entry.2) base).get? name = some value ↔
        (name, value) ∈ entries ∨ (name ∉ entries.map Prod.fst ∧ base.get? name = some value) := by
  induction entries generalizing base with
  | nil => simp
  | cons entry entries ih =>
    obtain ⟨first, old⟩ := entry
    rw [List.map_cons, List.nodup_cons] at hnodup
    rw [List.foldl_cons, ih hnodup.2, get?_set, List.map_cons, List.mem_cons, List.mem_cons,
      Prod.mk.injEq]
    by_cases h : name = first
    · subst h
      have hnot : (name, value) ∉ entries := fun hmem => hnodup.1 (List.mem_map.mpr ⟨_, hmem, rfl⟩)
      simp [hnot, hnodup.1, eq_comm]
    · simp [h]

theorem get?_ofList {entries : List (String × α)} (hnodup : (entries.map Prod.fst).Nodup)
    {name : String} {value : α}
    : (ofList entries).get? name = some value ↔ (name, value) ∈ entries := by
  rw [ofList, get?_foldl_set hnodup]
  simp

end Table

end GrammarKit
