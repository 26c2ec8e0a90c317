import Mathlib.Data.List.AList

/-!
# A map with the insertion rule of a hash table

`find?`, `insert` and `erase` of an unordered associative container. `insert`
follows the container convention: on a key that is already there it changes
nothing. The entries are an association list without duplicate keys; their
order carries no meaning, and the lemmas below only speak of `find?` and `keys`.
-/

/-- An associative container with one entry for each key. -/
structure UnorderedMap (κ ν : Type*) where
  entries : AList (fun _ : κ => ν)

namespace UnorderedMap

variable {κ ν : Type*} [DecidableEq κ]

def empty : UnorderedMap κ ν := ⟨∅⟩

def find? (m : UnorderedMap κ ν) (k : κ) : Option ν := m.entries.lookup k

def keys (m : UnorderedMap κ ν) : List κ := m.entries.keys

/-- An entry for a new key; nothing for a key that has one. -/
def insert (m : UnorderedMap κ ν) (k : κ) (v : ν) : UnorderedMap κ ν :=
  if m.find? k = none then ⟨m.entries.insert k v⟩ else m

def erase (m : UnorderedMap κ ν) (k : κ) : UnorderedMap κ ν := ⟨m.entries.erase k⟩

def modify (m : UnorderedMap κ ν) (k : κ) (f : ν → ν) : UnorderedMap κ ν :=
  match m.find? k with
  | none => m
  | some v => ⟨m.entries.insert k (f v)⟩

@[simp] theorem find?_empty (k : κ) : (empty : UnorderedMap κ ν).find? k = none := by
  simp [empty, find?]

theorem find?_insert (m : UnorderedMap κ ν) (k j : κ) (v : ν) :
    (m.insert k v).find? j = (m.find? j).or (if k = j then some v else none) := by
  by_cases hk : m.find? k = none
  · rw [insert, if_pos hk]
    by_cases hjk : k = j
    · subst hjk
      rw [hk, if_pos rfl, Option.none_or]
      exact AList.lookup_insert m.entries
    · rw [if_neg hjk, Option.or_none]
      exact AList.lookup_insert_ne (fun h => hjk h.symm)
  · rw [insert, if_neg hk]
    by_cases hjk : k = j
    · subst hjk
      obtain ⟨u, hu⟩ := Option.ne_none_iff_exists'.mp hk
      rw [hu, Option.some_or]
    · rw [if_neg hjk, Option.or_none]

theorem find?_insert_self {m : UnorderedMap κ ν} {k : κ} (h : m.find? k = none) (v : ν) :
    (m.insert k v).find? k = some v := by
  rw [find?_insert, h, if_pos rfl, Option.none_or]

theorem find?_insert_of_ne {k j : κ} (h : k ≠ j) (m : UnorderedMap κ ν) (v : ν) :
    (m.insert k v).find? j = m.find? j := by
  rw [find?_insert, if_neg h, Option.or_none]

theorem find?_erase (m : UnorderedMap κ ν) (k j : κ) :
    (m.erase k).find? j = if k = j then none else m.find? j := by
  by_cases hjk : k = j
  · subst hjk
    rw [if_pos rfl]
    exact AList.lookup_erase k m.entries
  · rw [if_neg hjk]
    exact AList.lookup_erase_ne (fun h => hjk h.symm)

theorem find?_modify (m : UnorderedMap κ ν) (k j : κ) (f : ν → ν) :
    (m.modify k f).find? j = if k = j then (m.find? j).map f else m.find? j := by
  unfold modify
  cases hk : m.find? k with
  | none =>
      by_cases hjk : k = j
      · subst hjk
        simp [hk]
      · rw [if_neg hjk]
  | some v =>
      by_cases hjk : k = j
      · subst hjk
        rw [if_pos rfl, hk]
        exact AList.lookup_insert m.entries
      · rw [if_neg hjk]
        exact AList.lookup_insert_ne (fun h => hjk h.symm)

omit [DecidableEq κ] in
theorem nodup_keys (m : UnorderedMap κ ν) : m.keys.Nodup := m.entries.nodupKeys

theorem mem_keys {m : UnorderedMap κ ν} {k : κ} :
    k ∈ m.keys ↔ ∃ v, m.find? k = some v := by
  rw [← Option.isSome_iff_exists]
  exact AList.mem_keys.symm.trans AList.lookup_isSome.symm

end UnorderedMap
