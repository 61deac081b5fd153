import Mathlib.Logic.Basic

/-!
# Programs that change a state and can stop

A program has a result or stops with a reason, and leaves a state in both cases. `Yields` says that it
has a result, and is decided along the program by one rule for `>>=`. `Keeps` says that it leaves the
states it is started in with a property that they have, whether it stops or not.
-/

universe u

/-- Programs over a state, which stop for a reason. -/
abbrev Effects (σ ε α : Type u) := ExceptT ε (StateM σ) α

namespace Effects

variable {σ ε α β : Type u}

/-- The state that a program leaves. -/
def after (x : Effects σ ε α) (s : σ) : σ := (x s).2

/-- The program has a result. -/
def Yields (x : Effects σ ε α) (s : σ) (a : α) (s' : σ) : Prop := x s = (.ok a, s')

/-- The program keeps a property of the state. -/
def Keeps (P : σ → Prop) (x : Effects σ ε α) : Prop := ∀ s, P s → P (after x s)

theorem Yields.after_eq {x : Effects σ ε α} {s s' : σ} {a : α} (h : Yields x s a s') :
    after x s = s' := congrArg Prod.snd h

/-! ## Results -/

theorem yields_pure_iff {s s' : σ} {a a' : α} :
    Yields (pure a : Effects σ ε α) s a' s' ↔ a = a' ∧ s = s' := by
  show (Except.ok a, s) = (Except.ok a', s') ↔ _
  rw [Prod.mk.injEq, Except.ok.injEq]

theorem not_yields_throw {s s' : σ} {e : ε} {a : α} :
    ¬ Yields (throw e : Effects σ ε α) s a s' := by
  intro h
  cases congrArg Prod.fst h

theorem yields_get_iff {s s' a : σ} : Yields (get : Effects σ ε σ) s a s' ↔ s = a ∧ s = s' := by
  show (Except.ok s, s) = (Except.ok a, s') ↔ _
  rw [Prod.mk.injEq, Except.ok.injEq]

theorem yields_set_iff {s s' s'' : σ} {a : PUnit} :
    Yields (set s' : Effects σ ε PUnit) s a s'' ↔ s' = s'' := by
  show (Except.ok PUnit.unit, s') = (Except.ok a, s'') ↔ _
  simp

theorem yields_liftM_iff {x : Except ε α} {s s' : σ} {a : α} :
    Yields (liftM x : Effects σ ε α) s a s' ↔ x = .ok a ∧ s = s' := by
  show (x, s) = (Except.ok a, s') ↔ _
  rw [Prod.mk.injEq]

/-- What a chain does is what its links do, one behind the other. -/
theorem bind_apply (x : Effects σ ε α) (f : α → Effects σ ε β) (s : σ) :
    (x >>= f) s = match x s with
      | (.ok a, s') => f a s'
      | (.error e, s') => (.error e, s') := by
  show ExceptT.bind x f s = _
  simp only [ExceptT.bind, ExceptT.mk, bind, StateT.bind, ExceptT.bindCont]
  cases h : x s with
  | mk r s' => cases r <;> rfl

theorem yields_bind_iff {x : Effects σ ε α} {f : α → Effects σ ε β} {s s'' : σ} {b : β} :
    Yields (x >>= f) s b s'' ↔ ∃ a s', Yields x s a s' ∧ Yields (f a) s' b s'' := by
  unfold Yields
  rw [bind_apply]
  cases h : x s with
  | mk r s₁ =>
    cases r with
    | ok a =>
      constructor
      · exact fun hf => ⟨a, s₁, rfl, hf⟩
      · rintro ⟨a', s', heq, hf⟩
        obtain ⟨ha, rfl⟩ := Prod.mk.inj heq
        obtain rfl := Except.ok.inj ha
        exact hf
    | error e =>
      constructor
      · intro heq
        cases congrArg Prod.fst heq
      · rintro ⟨a', s', heq, -⟩
        cases congrArg Prod.fst heq

/-- What is caught goes on from the state in which the program stopped. -/
theorem tryCatch_apply (x : Effects σ ε α) (f : ε → Effects σ ε α) (s : σ) :
    tryCatch x f s = match x s with
      | (.ok a, s') => (.ok a, s')
      | (.error e, s') => f e s' := by
  show ExceptT.tryCatch x f s = _
  simp only [ExceptT.tryCatch, ExceptT.mk, bind, StateT.bind]
  cases h : x s with
  | mk r s' => cases r <;> rfl

/-! ## States -/

/-- The state behind a chain, when its first link stops and when it has a result. -/
theorem after_bind {x : Effects σ ε α} {f : α → Effects σ ε β} {s : σ} {P : σ → Prop}
    (hstop : ∀ e, (x s).1 = .error e → P (after x s))
    (hgo : ∀ a s', Yields x s a s' → P (after (f a) s')) : P (after (x >>= f) s) := by
  unfold after at hstop ⊢
  rw [bind_apply]
  cases h : x s with
  | mk r s' =>
    cases r with
    | ok a => exact hgo a s' h
    | error e =>
      rw [h] at hstop
      exact hstop e rfl

theorem keeps_pure {P : σ → Prop} (a : α) : Keeps P (pure a : Effects σ ε α) := fun _ h => h

theorem keeps_throw {P : σ → Prop} (e : ε) : Keeps P (throw e : Effects σ ε α) := fun _ h => h

theorem Keeps.bind {P : σ → Prop} {x : Effects σ ε α} {f : α → Effects σ ε β} (hx : Keeps P x)
    (hf : ∀ a, Keeps P (f a)) : Keeps P (x >>= f) := fun s hs =>
  after_bind (fun _ _ => hx s hs) fun a s' h => hf a s' (h.after_eq ▸ hx s hs)

end Effects
