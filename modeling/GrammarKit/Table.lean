import GrammarKit.Failure

/-!
This module contains `Table`, values under distinct names. Entries are kept in the order of their
names, so that a table is determined by what it holds and not by how it was filled.
-/

namespace GrammarKit

/--
Entries in strictly ascending order of their names.
-/
structure Table (α : Type) where
  entries : List (String × α)
  sorted : entries.Pairwise fun a b => a.1 < b.1

namespace Table

variable {α β : Type}

def empty : Table α := ⟨[], .nil⟩

instance : EmptyCollection (Table α) := ⟨empty⟩

def get? (t : Table α) (name : String) : Option α :=
  t.entries.lookup name

def contains (t : Table α) (name : String) : Bool :=
  (t.get? name).isSome

def names (t : Table α) : List String :=
  t.entries.map Prod.fst

def size (t : Table α) : Nat :=
  t.entries.length

def isEmpty (t : Table α) : Bool :=
  t.entries.isEmpty

/--
Put an entry where the order of names wants it, in place of an entry of the same name.
-/
def place (name : String) (value : α) : List (String × α) → List (String × α)
  | [] => [(name, value)]
  | (key, old) :: rest =>
    if key < name then
      (key, old) :: place name value rest
    else if key = name then
      (name, value) :: rest
    else
      (name, value) :: (key, old) :: rest

theorem mem_place {name : String} {value : α} {entries : List (String × α)} {entry : String × α}
    (h : entry ∈ place name value entries) : entry = (name, value) ∨ entry ∈ entries := by
  induction entries with
  | nil => simpa [place] using h
  | cons head rest ih =>
    simp only [place] at h
    grind

theorem place_sorted {name : String} {value : α} {entries : List (String × α)}
    (h : entries.Pairwise fun a b => a.1 < b.1) :
    (place name value entries).Pairwise fun a b => a.1 < b.1 := by
  induction entries with
  | nil => simp [place]
  | cons head rest ih =>
    obtain ⟨key, old⟩ := head
    rw [List.pairwise_cons] at h
    simp only [place]
    split
    · next hlt =>
      refine List.pairwise_cons.mpr ⟨fun entry hmem => ?_, ih h.2⟩
      rcases mem_place hmem with rfl | hrest
      · exact hlt
      · exact h.1 entry hrest
    · next hnot =>
      split
      · next heq => exact List.pairwise_cons.mpr ⟨fun entry hmem => heq ▸ h.1 entry hmem, h.2⟩
      · next hne =>
        have hlt : name < key :=
          String.not_le.mp fun hle => hne (String.le_antisymm hle (String.not_lt.mp hnot))
        refine List.pairwise_cons.mpr ⟨fun entry hmem => ?_, List.pairwise_cons.mpr h⟩
        rcases List.mem_cons.mp hmem with rfl | hrest
        · exact hlt
        · exact String.lt_trans hlt (h.1 entry hrest)

def set (t : Table α) (name : String) (value : α) : Table α :=
  ⟨place name value t.entries, place_sorted t.sorted⟩

def map (f : α → β) (t : Table α) : Table β :=
  ⟨t.entries.map fun entry => (entry.1, f entry.2), by
    rw [List.pairwise_map]
    exact t.sorted⟩

def filter (p : α → Bool) (t : Table α) : Table α :=
  ⟨t.entries.filter fun entry => p entry.2, t.sorted.filter _⟩

def duplicate (name : String) : Failure :=
  ⟨"duplicate rule '" ++ name ++ "'", none⟩

def insert (t : Table α) (name : String) (value : α) : Except Failure (Table α) :=
  if t.contains name then .error (duplicate name) else .ok (t.set name value)

/--
Collect entries; later ones replace earlier ones of the same name.
-/
def ofList (entries : List (String × α)) : Table α :=
  entries.foldl (fun t entry => t.set entry.1 entry.2) empty

def ofDistinct (entries : List (String × α)) : Except Failure (Table α) :=
  entries.foldlM (fun t entry => t.insert entry.1 entry.2) empty

theorem lookup_cons (key name : String) (value : α) (rest : List (String × α)) :
    List.lookup key ((name, value) :: rest) =
      if key = name then some value else rest.lookup key := by
  by_cases h : key = name
  · simp [h]
  · simp [List.lookup_cons, h, beq_false_of_ne h]

theorem lookup_place (name key : String) (value : α) (entries : List (String × α)) :
    (place name value entries).lookup key =
      if key = name then some value else entries.lookup key := by
  induction entries with
  | nil => simp [place, lookup_cons]
  | cons head rest ih =>
    obtain ⟨k, old⟩ := head
    simp only [place]
    split
    · next hlt =>
      have hne : k ≠ name := fun h => String.lt_irrefl name (h ▸ hlt)
      simp only [lookup_cons, ih]
      grind
    · split
      · next heq =>
        subst heq
        simp only [lookup_cons]
        grind
      · simp only [lookup_cons]

@[simp]
theorem get?_empty (key : String) : (empty : Table α).get? key = none := rfl

theorem get?_set (t : Table α) (name key : String) (value : α) :
    (t.set name value).get? key = if key = name then some value else t.get? key :=
  lookup_place name key value t.entries

@[simp]
theorem get?_set_self (t : Table α) (name : String) (value : α) :
    (t.set name value).get? name = some value := by
  simp [get?_set]

theorem get?_set_of_ne (t : Table α) {name key : String} (value : α) (h : key ≠ name) :
    (t.set name value).get? key = t.get? key := by
  simp [get?_set, h]

@[ext]
theorem ext {s t : Table α} (h : s.entries = t.entries) : s = t := by
  cases s; cases t; simp_all

end Table

end GrammarKit
