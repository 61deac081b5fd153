import Mathlib.Data.List.Basic

/-!
# Loops that stop at an element

A loop over a list goes on behind good elements and stops at the first one that is not good. When
what it does there depends on the element, `StopsAt good bad` says that it is a bad one.
-/

namespace List

variable {α : Type*} {good bad : α → Prop}

/-- The first element that is not good is bad. -/
def StopsAt (good bad : α → Prop) (as : List α) : Prop :=
  ∃ front a back, as = front ++ a :: back ∧ (∀ x ∈ front, good x) ∧ bad a

theorem stopsAt_nil : ¬ StopsAt good bad [] := by
  rintro ⟨front, a, back, h, -⟩
  exact absurd h.symm (by simp)

/-- The first element decides, unless the loop goes on behind it. -/
theorem stopsAt_cons {a : α} {as : List α} :
    StopsAt good bad (a :: as) ↔ bad a ∨ good a ∧ StopsAt good bad as := by
  constructor
  · rintro ⟨front, b, back, h, hfront, hbad⟩
    cases front with
    | nil =>
      obtain ⟨rfl, rfl⟩ := List.cons.inj h
      exact .inl hbad
    | cons c front =>
      obtain ⟨rfl, rfl⟩ := List.cons.inj h
      obtain ⟨hgood, hrest⟩ := List.forall_mem_cons.mp hfront
      exact .inr ⟨hgood, front, b, back, rfl, hrest, hbad⟩
  · rintro (hbad | ⟨hgood, front, b, back, rfl, hfront, hbad⟩)
    · exact ⟨[], a, as, rfl, by simp, hbad⟩
    · exact ⟨a :: front, b, back, rfl, List.forall_mem_cons.mpr ⟨hgood, hfront⟩, hbad⟩

end List
