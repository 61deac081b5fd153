import Mathlib.Data.List.AList

/-!
# Finite maps with unordered keys

`UnorderedMap κ ν` is a finite map from `κ` to `ν`, kept as an association list without duplicate
keys. `AList.lookup`, `AList.insert` (which overwrites), and `AList.erase` are its primitive
operations. This file adds the insertion that keeps an existing value, the merge of a whole map with
it, the removal of a list of keys, and the keys that carry a given value, each with the lookups
after it. The order of `entries` is never observable through a lookup.
-/

/-- A finite map from `κ` to `ν`. -/
abbrev UnorderedMap (κ ν : Type*) := AList fun _ : κ => ν

namespace UnorderedMap

variable {κ ν : Type*} [DecidableEq κ]

/-- Insertion that keeps the value of a key that is already there. -/
def insertNew (m : UnorderedMap κ ν) (k : κ) (v : ν) : UnorderedMap κ ν :=
  match m.lookup k with
  | some _ => m
  | none => m.insert k v

/-- Every entry of `kvs` in order, inserted unless its key is there. -/
def mergeNew (m kvs : UnorderedMap κ ν) : UnorderedMap κ ν :=
  kvs.entries.foldl (fun m kv => insertNew m kv.1 kv.2) m

/-- The map without the keys of a list. -/
def eraseAll (m : UnorderedMap κ ν) (ks : List κ) : UnorderedMap κ ν :=
  ks.foldl (fun m k => m.erase k) m

/-- The keys that carry the value `v`. -/
def keysOf [DecidableEq ν] (m : UnorderedMap κ ν) (v : ν) : List κ :=
  (m.entries.filter fun kv => kv.2 = v).map Sigma.fst

/-- An entry is what its key is mapped to. -/
theorem mem_entries_iff {m : UnorderedMap κ ν} {k : κ} {v : ν} :
    Sigma.mk k v ∈ m.entries ↔ m.lookup k = some v := by
  rw [← AList.mem_lookup_iff, Option.mem_def]

/-- A key is what the map has a value for. -/
theorem mem_keys_iff {m : UnorderedMap κ ν} {k : κ} : k ∈ m.keys ↔ (m.lookup k).isSome := by
  rw [AList.lookup_isSome, AList.mem_keys]

/-- The lookup after an overwriting insertion. -/
theorem lookup_insert_eq (m : UnorderedMap κ ν) (k k' : κ) (v : ν) :
    (m.insert k v).lookup k' = if k' = k then some v else m.lookup k' := by
  split_ifs with h
  · subst h
    exact AList.lookup_insert m
  · exact AList.lookup_insert_ne h

/-- The lookup after a removal. -/
theorem lookup_erase_eq (m : UnorderedMap κ ν) (k k' : κ) :
    (m.erase k).lookup k' = if k' = k then none else m.lookup k' := by
  split_ifs with h
  · subst h
    exact AList.lookup_erase _ m
  · exact AList.lookup_erase_ne h

/-- The lookup after an insertion that keeps old values. -/
theorem lookup_insertNew (m : UnorderedMap κ ν) (k k' : κ) (v : ν) :
    (insertNew m k v).lookup k' = (m.lookup k').or (if k' = k then some v else none) := by
  unfold insertNew
  split
  · rename_i w hw
    split_ifs with h
    · subst h
      rw [hw]
      rfl
    · simp
  · rename_i hnone
    rw [lookup_insert_eq]
    split_ifs with h
    · subst h
      rw [hnone]
      rfl
    · simp

/-- The keys after an insertion that keeps old values. -/
theorem lookup_insertNew_isSome (m : UnorderedMap κ ν) (k k' : κ) (v : ν) :
    ((insertNew m k v).lookup k').isSome ↔ (m.lookup k').isSome ∨ k' = k := by
  rw [lookup_insertNew]
  cases m.lookup k' with
  | some w => simp
  | none => by_cases h : k' = k <;> simp [h]

/-- The keys after a merge: those of both maps. -/
theorem lookup_mergeNew_isSome (m kvs : UnorderedMap κ ν) (k : κ) :
    ((mergeNew m kvs).lookup k).isSome ↔ (m.lookup k).isSome ∨ (kvs.lookup k).isSome := by
  have key : ∀ (l : List (Sigma fun _ : κ => ν)) (m : UnorderedMap κ ν),
      ((l.foldl (fun m kv => insertNew m kv.1 kv.2) m).lookup k).isSome ↔
        (m.lookup k).isSome ∨ k ∈ l.keys := by
    intro l
    induction l with
    | nil => simp
    | cons kv l ih =>
      intro m
      rw [List.foldl_cons, ih, lookup_insertNew_isSome, List.keys_cons, List.mem_cons, or_assoc]
  have hkeys : (kvs.lookup k).isSome ↔ k ∈ kvs.entries.keys := AList.lookup_isSome
  rw [mergeNew, key, hkeys]

/-- The lookup after the removal of a list of keys. -/
theorem lookup_eraseAll (m : UnorderedMap κ ν) (ks : List κ) (k : κ) :
    (eraseAll m ks).lookup k = if k ∈ ks then none else m.lookup k := by
  unfold eraseAll
  induction ks generalizing m with
  | nil => simp
  | cons k' ks ih =>
    rw [List.foldl_cons, ih, lookup_erase_eq]
    by_cases h : k = k'
    · simp [h]
    · simp [h]

/-- The keys that carry `v` are those mapped to `v`. -/
theorem mem_keysOf [DecidableEq ν] {m : UnorderedMap κ ν} {v : ν} {k : κ} :
    k ∈ keysOf m v ↔ m.lookup k = some v := by
  rw [← mem_entries_iff]
  simp [keysOf]

end UnorderedMap
