import Mathlib.Data.List.Perm.Basic

/-!
# Finite maps in the order of their keys

A map from `κ` to `ν` as the list of its entries, in the order of the keys. `insertOrAssign` is the
insertion that overwrites, and `ofEntries` inserts the entries of a list one after the other.
Entries with distinct keys come out as they are, in another order (`ofEntries_perm`), and mapping
the values commutes with the insertions.
-/

namespace OrderedMap

variable {κ ν ν' : Type*} [LT κ] [DecidableLT κ] [DecidableEq κ]

/-- The entries with one more, or with a new value for a key that is there. -/
def insertOrAssign (key : κ) (v : ν) : List (κ × ν) → List (κ × ν)
  | [] => [(key, v)]
  | (key', v') :: kvs =>
    if key < key' then (key, v) :: (key', v') :: kvs
    else if key = key' then (key, v) :: kvs
    else (key', v') :: insertOrAssign key v kvs

/-- The entries of a list inserted into `m` in order. -/
def insertAll (m : List (κ × ν)) (kvs : List (κ × ν)) : List (κ × ν) :=
  kvs.foldl (fun m kv => insertOrAssign kv.1 kv.2 m) m

/-- The map of a list of entries. -/
def ofEntries (kvs : List (κ × ν)) : List (κ × ν) := insertAll [] kvs

/-- An entry whose key is new is added somewhere. -/
theorem insertOrAssign_perm {key : κ} {v : ν} {m : List (κ × ν)} (h : key ∉ m.map Prod.fst) :
    (insertOrAssign key v m).Perm ((key, v) :: m) := by
  induction m with
  | nil => exact List.Perm.refl _
  | cons kv m ih =>
    obtain ⟨key', v'⟩ := kv
    simp only [List.map_cons, List.mem_cons, not_or] at h
    obtain ⟨hkey, hm⟩ := h
    unfold insertOrAssign
    rw [if_neg hkey]
    split_ifs
    · exact List.Perm.refl _
    · exact ((ih hm).cons _).trans (List.Perm.swap ..)

/-- New entries with distinct keys are added somewhere. -/
theorem insertAll_perm {m kvs : List (κ × ν)} (h : ((m ++ kvs).map Prod.fst).Nodup) :
    (insertAll m kvs).Perm (m ++ kvs) := by
  induction kvs generalizing m with
  | nil => simp [insertAll]
  | cons kv kvs ih =>
    obtain ⟨key, v⟩ := kv
    have hnew : key ∉ m.map Prod.fst := by
      rw [List.map_append, List.nodup_append] at h
      intro hmem
      exact h.2.2 key hmem key (by simp) rfl
    have hperm := insertOrAssign_perm (v := v) hnew
    have hall : (insertOrAssign key v m ++ kvs).Perm (m ++ (key, v) :: kvs) :=
      (hperm.append_right kvs).trans List.perm_middle.symm
    have hkeys : ((insertOrAssign key v m ++ kvs).map Prod.fst).Nodup :=
      (hall.map Prod.fst).nodup_iff.mpr h
    exact (ih hkeys).trans hall

/-- Entries with distinct keys are all there. -/
theorem ofEntries_perm {kvs : List (κ × ν)} (h : (kvs.map Prod.fst).Nodup) :
    (ofEntries kvs).Perm kvs := insertAll_perm (m := []) h

/-- An insertion is seen in front of what was there. -/
theorem lookup_insertOrAssign (key key' : κ) (v : ν) (m : List (κ × ν)) :
    (insertOrAssign key v m).lookup key' = ((key, v) :: m).lookup key' := by
  induction m with
  | nil => rfl
  | cons kv m ih =>
    obtain ⟨k, w⟩ := kv
    unfold insertOrAssign
    split_ifs with hlt heq
    · rfl
    · subst heq
      simp only [List.lookup_cons]
      cases key' == key <;> rfl
    · simp only [List.lookup_cons] at ih ⊢
      rw [ih]
      by_cases h : key' = k
      · have hkey : (key' == key) = false := beq_false_of_ne (h ▸ Ne.symm heq)
        rw [hkey]
      · rw [beq_false_of_ne h]

/-- The last entry for a key is the one that is found. -/
theorem lookup_insertAll (key : κ) (m kvs : List (κ × ν)) :
    (insertAll m kvs).lookup key = (kvs.reverse ++ m).lookup key := by
  induction kvs generalizing m with
  | nil => rfl
  | cons kv kvs ih =>
    obtain ⟨k, v⟩ := kv
    rw [List.reverse_cons, List.append_assoc, List.singleton_append]
    refine (ih _).trans ?_
    rw [List.lookup_append, List.lookup_append, lookup_insertOrAssign]

theorem lookup_ofEntries (key : κ) (kvs : List (κ × ν)) :
    (ofEntries kvs).lookup key = kvs.reverse.lookup key := by
  rw [ofEntries, lookup_insertAll, List.append_nil]

theorem map_insertOrAssign (f : ν → ν') (key : κ) (v : ν) (m : List (κ × ν)) :
    (insertOrAssign key v m).map (fun kv => (kv.1, f kv.2)) =
      insertOrAssign key (f v) (m.map fun kv => (kv.1, f kv.2)) := by
  induction m with
  | nil => rfl
  | cons kv m ih =>
    simp only [insertOrAssign, List.map_cons]
    split_ifs
    · rfl
    · rfl
    · rw [List.map_cons, ih]

theorem map_insertAll (f : ν → ν') (m kvs : List (κ × ν)) :
    (insertAll m kvs).map (fun kv => (kv.1, f kv.2)) =
      insertAll (m.map fun kv => (kv.1, f kv.2)) (kvs.map fun kv => (kv.1, f kv.2)) := by
  induction kvs generalizing m with
  | nil => rfl
  | cons kv kvs ih =>
    calc (insertAll m (kv :: kvs)).map (fun kv => (kv.1, f kv.2))
        = insertAll ((insertOrAssign kv.1 kv.2 m).map fun kv => (kv.1, f kv.2))
            (kvs.map fun kv => (kv.1, f kv.2)) := ih _
      _ = insertAll (m.map fun kv => (kv.1, f kv.2))
            ((kv :: kvs).map fun kv => (kv.1, f kv.2)) := by
        rw [map_insertOrAssign]
        rfl

/-- Values may be mapped before or after. -/
theorem map_ofEntries (f : ν → ν') (kvs : List (κ × ν)) :
    (ofEntries kvs).map (fun kv => (kv.1, f kv.2)) =
      ofEntries (kvs.map fun kv => (kv.1, f kv.2)) := map_insertAll f [] kvs

end OrderedMap
