import Ailoy.Lib.Except
import Mathlib.Data.List.Forall2

/-!
# Computations that fail at their first fault

The faults of an input can be listed in the order in which a computation comes upon them. The
computation `FailsAt` that list when it returns what it should for an input without faults, and fails
at the first fault otherwise, with an error of its kind. A chain of such computations fails at the
lists of its links, one behind the other, so the list of a whole run is put together along its code.
-/

namespace Except

universe u v

variable {ε κ : Type u} {α β : Type v} {kind : ε → κ}

/-- Without faults the computation returns a result that satisfies `P`, and else it fails with an
error of the kind of the first one. -/
def FailsAt (kind : ε → κ) (faults : List κ) (x : Except ε α) (P : α → Prop) : Prop :=
  (faults = [] ∧ ∃ a, x = .ok a ∧ P a) ∨
  ∃ fault rest e, faults = fault :: rest ∧ x = .error e ∧ kind e = fault

variable (kind) in
theorem FailsAt.ok {P : α → Prop} {a : α} (h : P a) : FailsAt kind [] (.ok a) P :=
  .inl ⟨rfl, a, rfl, h⟩

variable (kind) in
theorem FailsAt.error {P : α → Prop} (e : ε) (rest : List κ) :
    FailsAt kind (kind e :: rest) (.error e : Except ε α) P :=
  .inr ⟨kind e, rest, e, rfl, rfl, rfl⟩

theorem FailsAt.imp {faults : List κ} {x : Except ε α} {P Q : α → Prop}
    (h : FailsAt kind faults x P) (himp : ∀ a, P a → Q a) : FailsAt kind faults x Q := by
  rcases h with ⟨hnil, a, hx, ha⟩ | hfault
  · exact .inl ⟨hnil, a, hx, himp a ha⟩
  · exact .inr hfault

/-- One computation behind another. -/
theorem FailsAt.bind {faults faults' : List κ} {x : Except ε α} {f : α → Except ε β}
    {P : α → Prop} {Q : β → Prop} (h : FailsAt kind faults x P)
    (h' : ∀ a, P a → FailsAt kind faults' (f a) Q) :
    FailsAt kind (faults ++ faults') (x >>= f) Q := by
  rcases h with ⟨rfl, a, rfl, ha⟩ | ⟨fault, rest, e, rfl, rfl, hkind⟩
  · exact h' a ha
  · exact .inr ⟨fault, rest ++ faults', e, rfl, rfl, hkind⟩

/-- A computation with one more step, which cannot fail. -/
theorem FailsAt.map {faults : List κ} {x : Except ε α} {f : α → β} {P : α → Prop} {Q : β → Prop}
    (h : FailsAt kind faults x P) (hf : ∀ a, P a → Q (f a)) :
    FailsAt kind faults (x >>= fun a => .ok (f a)) Q := by
  have hbind := h.bind fun a ha => FailsAt.ok kind (hf a ha)
  rwa [List.append_nil] at hbind

/-- A computation for each element of a list, in order. -/
theorem FailsAt.mapM {γ : Type v} {faults : γ → List κ} {f : γ → Except ε β} {P : γ → β → Prop}
    {as : List γ} (h : ∀ a ∈ as, FailsAt kind (faults a) (f a) (P a)) :
    FailsAt kind (as.flatMap faults) (as.mapM f) (List.Forall₂ P as) := by
  induction as with
  | nil => exact .ok kind .nil
  | cons a as ih =>
    obtain ⟨ha, has⟩ := List.forall_mem_cons.mp h
    rw [List.flatMap_cons, List.mapM_cons]
    exact ha.bind fun b hb => (ih has).map fun bs hbs => .cons hb hbs

/-- What is known of the first fault. -/
theorem FailsAt.head?_eq_some_iff {faults : List κ} {x : Except ε α} {P : α → Prop} {fault : κ}
    (h : FailsAt kind faults x P) :
    faults.head? = some fault ↔ ∃ e, x = .error e ∧ kind e = fault := by
  rcases h with ⟨rfl, a, rfl, -⟩ | ⟨fault', rest, e, rfl, rfl, hkind⟩
  · simp
  · simp [hkind, eq_comm]

end Except

/-! ## Lists in step -/

namespace List.Forall₂

variable {α β γ δ : Type*} {R : α → β → Prop} {as : List α} {bs : List β}

/-- What is collected from two lists in step. -/
theorem flatMap_eq {f : α → List δ} {g : β → List δ} (h : Forall₂ R as bs)
    (hfg : ∀ a b, R a b → f a = g b) : as.flatMap f = bs.flatMap g := by
  induction h with
  | nil => rfl
  | cons hab _ ih => rw [flatMap_cons, flatMap_cons, hfg _ _ hab, ih]

/-- A step behind a step. -/
theorem comp {S : β → γ → Prop} {T : α → γ → Prop} {cs : List γ} (h : Forall₂ R as bs)
    (h' : Forall₂ S bs cs) (hT : ∀ a b c, R a b → S b c → T a c) : Forall₂ T as cs := by
  induction h generalizing cs with
  | nil =>
    cases h'
    exact .nil
  | cons hab _ ih =>
    cases h' with
    | cons hbc hrest => exact .cons (hT _ _ _ hab hbc) (ih hrest)

/-- What holds of all elements of one list when it does of those of the other. -/
theorem forall_iff {P : α → Prop} {Q : β → Prop} (h : Forall₂ R as bs)
    (hPQ : ∀ a b, R a b → (P a ↔ Q b)) : (∀ a ∈ as, P a) ↔ ∀ b ∈ bs, Q b := by
  induction h with
  | nil => simp
  | cons hab _ ih => rw [forall_mem_cons, forall_mem_cons, hPQ _ _ hab, ih]

end List.Forall₂
