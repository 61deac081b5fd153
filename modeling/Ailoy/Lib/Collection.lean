import Mathlib.Data.List.Nodup

/-!
# Collections that never reuse a key

A collection gives every record a key when it is inserted, and forgets it when it is removed. A key
is given once and for all: the keys that were issued stay known after their records are gone.
-/

/-- The keys issued so far, in order, and the records that are there. -/
structure Collection (κ ρ : Type*) where
  issued : List κ
  live : κ → Option ρ

namespace Collection

variable {κ ρ : Type*}

def empty : Collection κ ρ := ⟨[], fun _ => none⟩

/-- There are `n` records. -/
def HasCount (c : Collection κ ρ) (n : ℕ) : Prop :=
  ∃ ks : List κ, ks.Nodup ∧ ks.length = n ∧ ∀ k, k ∈ ks ↔ (c.live k).isSome = true

variable [DecidableEq κ] (c : Collection κ ρ)

/-- A record under a new key. -/
def insertOne (k : κ) (r : ρ) : Collection κ ρ :=
  ⟨c.issued ++ [k], fun k' => if k' = k then some r else c.live k'⟩

/-- Records under new keys, one after the other. -/
def insert (entries : List (κ × ρ)) : Collection κ ρ :=
  entries.foldl (fun c e => c.insertOne e.1 e.2) c

def remove (k : κ) : Collection κ ρ := ⟨c.issued, fun k' => if k' = k then none else c.live k'⟩

omit [DecidableEq κ] in
def clear : Collection κ ρ := ⟨c.issued, fun _ => none⟩

theorem insert_cons (e : κ × ρ) (entries : List (κ × ρ)) :
    c.insert (e :: entries) = (c.insertOne e.1 e.2).insert entries := rfl

/-- Inserting issues the keys of the entries. -/
theorem issued_insert (entries : List (κ × ρ)) :
    (c.insert entries).issued = c.issued ++ entries.map Prod.fst := by
  induction entries generalizing c with
  | nil => simp [insert]
  | cons e entries ih =>
    rw [insert_cons, ih, List.map_cons]
    simp [insertOne]

/-- A record is one of the entries, or it was there before. -/
theorem live_insert {entries : List (κ × ρ)} {k : κ} {r : ρ}
    (h : (c.insert entries).live k = some r) : (k, r) ∈ entries ∨ c.live k = some r := by
  induction entries generalizing c with
  | nil => exact .inr h
  | cons e entries ih =>
    rw [insert_cons] at h
    rcases ih _ h with hmem | hlive
    · exact .inl (.tail _ hmem)
    · simp only [insertOne] at hlive
      split_ifs at hlive with hk
      · obtain rfl := Option.some.inj hlive
        exact .inl (by rw [hk]; exact .head _)
      · exact .inr hlive

/-- Under other keys, everything is as before. -/
theorem live_insert_of_not_mem {entries : List (κ × ρ)} {k : κ} (h : k ∉ entries.map Prod.fst) :
    (c.insert entries).live k = c.live k := by
  induction entries generalizing c with
  | nil => rfl
  | cons e entries ih =>
    rw [List.map_cons, List.mem_cons, not_or] at h
    rw [insert_cons, ih _ h.2]
    exact if_neg h.1

/-- When no key has been issued twice, the keys of the last entries are new and differ. -/
theorem fresh_of_nodup {entries : List (κ × ρ)} (h : (c.insert entries).issued.Nodup) :
    (entries.map Prod.fst).Nodup ∧ ∀ k ∈ entries.map Prod.fst, k ∉ c.issued := by
  rw [issued_insert, List.nodup_append] at h
  exact ⟨h.2.1, fun k hk hold => h.2.2 k hold k hk rfl⟩

end Collection
