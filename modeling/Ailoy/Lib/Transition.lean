import Mathlib.Data.List.Basic
import Mathlib.Order.RelClasses

/-!
# Runs of a partial transition function

A machine is a function `step : S → A → Option S`: `step s a` is the state after action `a`, or
`none` when `a` cannot be taken in `s`. `run` takes a list of actions in order, and `ReachVia` is
the set of states that some run reaches whose steps all meet a condition `ok` on the state they
start from. `ReachVia.invariant` is the one induction that every statement about reachable states
goes through, `Along` states a property of every state of one run, and `ReachVia.simulate` carries
reachability from one machine to another.
-/

namespace Transition

variable {S A T B : Type*}

/-- The state after the actions of a list, taken in order. -/
def run (step : S → A → Option S) : S → List A → Option S
  | s, [] => some s
  | s, a :: as => (step s a).bind (run step · as)

/-- A state reached from `s₀` by steps that each meet `ok` in the state they start from. -/
inductive ReachVia (step : S → A → Option S) (ok : S → A → Prop) (s₀ : S) : S → Prop
  | init : ReachVia step ok s₀ s₀
  | step {s s' : S} {a : A} : ReachVia step ok s₀ s → ok s a → step s a = some s' →
      ReachVia step ok s₀ s'

/-- A state reached from `s₀` by any steps. -/
abbrev Reach (step : S → A → Option S) (s₀ : S) : S → Prop :=
  ReachVia step (fun _ _ => True) s₀

/-- Every step of a run meets `ok` in the state it starts from. -/
def Meets (step : S → A → Option S) (ok : S → A → Prop) : S → List A → Prop
  | _, [] => True
  | s, a :: as => ok s a ∧ ∀ s', step s a = some s' → Meets step ok s' as

/-- Every state of a run, its first and last included, has the property `P`. -/
def Along (step : S → A → Option S) (P : S → Prop) : S → List A → Prop
  | s, [] => P s
  | s, a :: as => P s ∧ ∀ s', step s a = some s' → Along step P s' as

variable {step : S → A → Option S} {ok ok' : S → A → Prop} {s₀ s s' : S}

@[simp] theorem run_nil : run step s [] = some s := rfl

@[simp] theorem run_cons (a : A) (as : List A) :
    run step s (a :: as) = (step s a).bind (run step · as) := rfl

/-- A run of two lists in a row is a run of the first and then of the second. -/
theorem run_append (as bs : List A) :
    run step s (as ++ bs) = (run step s as).bind (run step · bs) := by
  induction as generalizing s with
  | nil => rfl
  | cons a as ih =>
    cases h : step s a with
    | none => simp [h]
    | some s' => simp [h, ih]

/-- The invariant rule: what holds in the first state, and is preserved by every step from a
reachable state, holds in every reachable state. -/
theorem ReachVia.invariant {P : S → Prop} (h₀ : P s₀)
    (hstep : ∀ s a s', ReachVia step ok s₀ s → P s → ok s a → step s a = some s' → P s')
    (h : ReachVia step ok s₀ s) : P s := by
  induction h with
  | init => exact h₀
  | step hr hok hs ih => exact hstep _ _ _ hr ih hok hs

/-- A weaker condition on the steps reaches at least the same states. -/
theorem ReachVia.mono (hok : ∀ s a, ok s a → ok' s a) (h : ReachVia step ok s₀ s) :
    ReachVia step ok' s₀ s := by
  induction h with
  | init => exact .init
  | step _ ha hs ih => exact .step ih (hok _ _ ha) hs

/-- Where each step makes a number smaller, a run comes to a state that has no step. -/
theorem exists_reach_stuck (step : S → A → Option S) (s₀ : S) {μ : S → ℕ}
    (hdec : ∀ s a s', Reach step s₀ s → step s a = some s' → μ s' < μ s) :
    ∃ s, Reach step s₀ s ∧ ∀ a, step s a = none := by
  suffices hfrom : ∀ n s, μ s = n → Reach step s₀ s → ∃ s', Reach step s₀ s' ∧ ∀ a, step s' a = none
    from hfrom (μ s₀) s₀ rfl .init
  intro n
  induction n using Nat.strongRecOn with
  | ind n ih =>
    intro s hn hr
    by_cases hstuck : ∀ a, step s a = none
    · exact ⟨s, hr, hstuck⟩
    · obtain ⟨a, ha⟩ := not_forall.mp hstuck
      obtain ⟨s', hs'⟩ := Option.ne_none_iff_exists'.mp ha
      have hlt := hdec s a s' hr hs'
      exact ih (μ s') (hn ▸ hlt) s' rfl (hr.step trivial hs')

/-- Runs compose: what is reached from a reached state is reached. -/
theorem ReachVia.trans (h : ReachVia step ok s₀ s) (h' : ReachVia step ok s s') :
    ReachVia step ok s₀ s' := by
  induction h' with
  | init => exact h
  | step _ ha hs ih => exact .step ih ha hs

/-- A run that meets the condition ends in a state reached under it. -/
theorem ReachVia.of_run {as : List A} (h : ReachVia step ok s₀ s) (hm : Meets step ok s as)
    (hr : run step s as = some s') : ReachVia step ok s₀ s' := by
  induction as generalizing s with
  | nil =>
    obtain rfl : s = s' := by simpa using hr
    exact h
  | cons a as ih =>
    obtain ⟨hok, hrest⟩ := hm
    cases hs : step s a with
    | none => simp [hs] at hr
    | some s₁ =>
      rw [run_cons, hs] at hr
      exact ih (.step h hok hs) (hrest _ hs) hr

/-- A run meets a condition when each of its steps does, in the state that the actions before it
lead to. -/
theorem meets_iff {as : List A} : Meets step ok s as ↔
    ∀ pre a post s', as = pre ++ a :: post → run step s pre = some s' → ok s' a := by
  induction as generalizing s with
  | nil => simp [Meets]
  | cons b bs ih =>
    constructor
    · rintro ⟨hb, hbs⟩ pre a post s' has hpre
      cases pre with
      | nil =>
        obtain ⟨rfl, -⟩ : b = a ∧ bs = post := by simpa using has
        obtain rfl : s = s' := by simpa using hpre
        exact hb
      | cons c pre =>
        obtain ⟨rfl, rfl⟩ : b = c ∧ bs = pre ++ a :: post := by simpa using has
        obtain ⟨s₁, h₁, hpre⟩ := Option.bind_eq_some_iff.mp hpre
        exact ih.mp (hbs s₁ h₁) pre a post s' rfl hpre
    · intro h
      refine ⟨h [] b bs s rfl rfl, fun s₁ h₁ => ih.mpr fun pre a post s' has hpre => ?_⟩
      refine h (b :: pre) a post s' (by rw [has]; rfl) ?_
      rw [run_cons, h₁]
      exact hpre

/-- Conditions that agree on the allowed steps from a state with the invariant are met by the same
runs. -/
theorem Meets.congr {Inv : S → Prop} {p q : S → A → Prop} {as : List A}
    (h : Meets step ok s as) (hinv : ∀ s a s', Inv s → ok s a → step s a = some s' → Inv s')
    (hpq : ∀ s a, Inv s → ok s a → (p s a ↔ q s a)) (hs : Inv s) :
    Meets step p s as ↔ Meets step q s as := by
  induction as generalizing s with
  | nil => exact Iff.rfl
  | cons a as ih =>
    obtain ⟨hok, hrest⟩ := h
    have htail : (∀ s', step s a = some s' → Meets step p s' as) ↔
        ∀ s', step s a = some s' → Meets step q s' as :=
      forall_congr' fun s' => imp_congr_right fun hs' =>
        ih (hrest s' hs') (hinv s a s' hs hok hs')
    exact and_congr (hpq s a hs hok) htail

/-- Whether a run meets a decidable condition is found by running it. -/
instance Meets.decidable [∀ s a, Decidable (ok s a)] :
    (s : S) → (as : List A) → Decidable (Meets step ok s as)
  | _, [] => .isTrue trivial
  | s, a :: as =>
    have : Decidable (∀ s', step s a = some s' → Meets step ok s' as) :=
      match h : step s a with
      | none => .isTrue fun _ hs => by simp at hs
      | some s₁ => @decidable_of_iff _ (Meets step ok s₁ as) (by simp) (Meets.decidable s₁ as)
    inferInstanceAs (Decidable (_ ∧ _))

/-- A run of actions that always meet a condition meets it. -/
theorem meets_of_forall {as : List A} (h : ∀ a ∈ as, ∀ s, ok s a) : Meets step ok s as := by
  induction as generalizing s with
  | nil => trivial
  | cons a as ih =>
    exact ⟨h a (List.mem_cons_self ..) s, fun _ _ => ih fun b hb => h b (List.mem_cons_of_mem a hb)⟩

/-- A run that meets two conditions meets both at once. -/
theorem Meets.and {as : List A} (h : Meets step ok s as) (h' : Meets step ok' s as) :
    Meets step (fun s a => ok s a ∧ ok' s a) s as := by
  induction as generalizing s with
  | nil => trivial
  | cons a as ih => exact ⟨⟨h.1, h'.1⟩, fun s' hs => ih (h.2 s' hs) (h'.2 s' hs)⟩

/-- Any run meets the trivial condition. -/
theorem meets_true (as : List A) : Meets step (fun _ _ => True) s as :=
  meets_of_forall fun _ _ _ => trivial

/-- The end of a run is reachable. -/
theorem reach_of_run {as : List A} (hr : run step s₀ as = some s) : Reach step s₀ s :=
  ReachVia.init.of_run (meets_true as) hr

/-- A property of every state reached under `ok` holds along every run that meets `ok`. -/
theorem Meets.along {P : S → Prop} {as : List A} (hP : ∀ s, ReachVia step ok s₀ s → P s)
    (h : ReachVia step ok s₀ s) (hm : Meets step ok s as) : Along step P s as := by
  induction as generalizing s with
  | nil => exact hP s h
  | cons a as ih =>
    obtain ⟨hok, hrest⟩ := hm
    exact ⟨hP s h, fun s' hs => ih (.step h hok hs) (hrest s' hs)⟩

/-- The first state of a run has the property. -/
theorem Along.head {P : S → Prop} {as : List A} (h : Along step P s as) : P s := by
  cases as with
  | nil => exact h
  | cons a as => exact h.1

/-- A state that a run passes has the property. -/
theorem Along.of_run {P : S → Prop} {as bs : List A} (h : Along step P s (as ++ bs))
    (hr : run step s as = some s') : P s' := by
  induction as generalizing s with
  | nil =>
    obtain rfl : s = s' := by simpa using hr
    exact h.head
  | cons a as ih =>
    obtain ⟨s₁, h₁, hr⟩ := Option.bind_eq_some_iff.mp hr
    exact ih (h.2 s₁ h₁) hr

/-- What holds in every state holds along every run. -/
theorem along_of_forall {P : S → Prop} (h : ∀ s, P s) (as : List A) : Along step P s as := by
  induction as generalizing s with
  | nil => exact h s
  | cons a as ih => exact ⟨h s, fun _ _ => ih⟩

/-- The converse of `Meets.along`, for a run that does not get stuck: when a step from a state with
`P` that leads to a state with `P` meets `ok`, a run along which `P` holds meets `ok`. -/
theorem Along.meets {P : S → Prop} {as : List A}
    (hback : ∀ s a s', P s → step s a = some s' → P s' → ok s a)
    (hrun : run step s as ≠ none) (h : Along step P s as) : Meets step ok s as := by
  induction as generalizing s with
  | nil => trivial
  | cons a as ih =>
    obtain ⟨hs, hrest⟩ := h
    cases hstep : step s a with
    | none => simp [hstep] at hrun
    | some s₁ =>
      have hs₁ : P s₁ := (hrest s₁ hstep).head
      refine ⟨hback s a s₁ hs hstep hs₁, fun s' hs' => ?_⟩
      obtain rfl : s₁ = s' := Option.some.inj (hstep.symm.trans hs')
      exact ih (by simpa [hstep] using hrun) (hrest s₁ hstep)

/-- The exact condition of a property of runs whose steps meet the assumption `ok'`: `ok` keeps `P`
from a state with the invariant, only steps that meet `ok` keep it, and what cannot be taken meets
`ok`. -/
theorem Meets.iff_along {Inv P : S → Prop} {as : List A} (hm : Meets step ok' s as)
    (hinv : ∀ s a s', Inv s → ok' s a → step s a = some s' → Inv s')
    (hkeep : ∀ s a s', Inv s → P s → ok' s a → ok s a → step s a = some s' → P s')
    (hback : ∀ s a s', Inv s → P s → ok' s a → step s a = some s' → P s' → ok s a)
    (hstuck : ∀ s a, step s a = none → ok s a) (hs : Inv s) (hP : P s) :
    Meets step ok s as ↔ Along step P s as := by
  induction as generalizing s with
  | nil => exact iff_of_true trivial hP
  | cons a as ih =>
    obtain ⟨ha, hrest'⟩ := hm
    cases hstep : step s a with
    | none =>
      refine iff_of_true ⟨hstuck s a hstep, fun s' hs' => ?_⟩ ⟨hP, fun s' hs' => ?_⟩
      · rw [hstep] at hs'
        cases hs'
      · rw [hstep] at hs'
        cases hs'
    | some s₁ =>
      have hs₁ := hinv s a s₁ hs ha hstep
      have hm₁ := hrest' s₁ hstep
      constructor
      · rintro ⟨hok, hrest⟩
        refine ⟨hP, fun s' hs' => ?_⟩
        obtain rfl : s₁ = s' := Option.some.inj (hstep.symm.trans hs')
        exact (ih hm₁ hs₁ (hkeep s a s₁ hs hP ha hok hstep)).mp (hrest s₁ hstep)
      · rintro ⟨-, hrest⟩
        have hP₁ : P s₁ := (hrest s₁ hstep).head
        refine ⟨hback s a s₁ hs hP ha hstep hP₁, fun s' hs' => ?_⟩
        obtain rfl : s₁ = s' := Option.some.inj (hstep.symm.trans hs')
        exact (ih hm₁ hs₁ hP₁).mpr (hrest s₁ hstep)

/-- The exact condition of a property of all runs. -/
theorem meets_iff_along {Inv P : S → Prop}
    (hinv : ∀ s a s', Inv s → step s a = some s' → Inv s')
    (hkeep : ∀ s a s', Inv s → P s → ok s a → step s a = some s' → P s')
    (hback : ∀ s a s', Inv s → step s a = some s' → P s' → ok s a)
    (hstuck : ∀ s a, step s a = none → ok s a) {as : List A} (hs : Inv s) (hP : P s) :
    Meets step ok s as ↔ Along step P s as :=
  (meets_true as).iff_along (fun s a s' h _ => hinv s a s' h)
    (fun s a s' h hP _ => hkeep s a s' h hP) (fun s a s' h _ _ => hback s a s' h) hstuck hs hP

/-- Reachability carries over along a simulation: when `f` maps every allowed step of the first
machine to a run of the second, it maps reachable states to reachable states. -/
theorem ReachVia.simulate {step' : T → B → Option T} {okT : T → B → Prop} (f : S → T)
    (hsim : ∀ s a s', ReachVia step ok s₀ s → ok s a → step s a = some s' →
      ReachVia step' okT (f s) (f s'))
    (h : ReachVia step ok s₀ s) : ReachVia step' okT (f s₀) (f s) := by
  induction h with
  | init => exact .init
  | step hr ha hs ih => exact ih.trans (hsim _ _ _ hr ha hs)

/-! ## Coming to rest -/

/-- No step that meets `ok` can be taken. -/
def Stuck (step : S → A → Option S) (ok : S → A → Prop) (s : S) : Prop :=
  ∀ a, ok s a → step s a = none

/-- Every run from `s` whose steps meet `ok` comes to an end. -/
def Halts (step : S → A → Option S) (ok : S → A → Prop) : S → Prop :=
  Acc fun s' s => ∃ a, ok s a ∧ step s a = some s'

/-- The variant rule: where each step lowers a rank, in an order without infinite descent, every run
comes to an end. A state may have more than one rank. -/
theorem halts_of_rank {R : Type*} [LT R] [WellFoundedLT R] {Ranked : S → R → Prop} {n : R}
    (hdec : ∀ s a s' n, ReachVia step ok s₀ s → Ranked s n → ok s a → step s a = some s' →
      ∃ n', n' < n ∧ Ranked s' n')
    (h₀ : Ranked s₀ n) : Halts step ok s₀ := by
  suffices hfrom : ∀ n s, ReachVia step ok s₀ s → Ranked s n → Halts step ok s from
    hfrom n s₀ .init h₀
  intro n
  induction n using WellFoundedLT.induction with
  | ind n ih =>
    intro s hr hn
    refine Acc.intro s ?_
    rintro s' ⟨a, hok, hs⟩
    obtain ⟨n', hlt, hn'⟩ := hdec s a s' n hr hn hok hs
    exact ih n' hlt s' (.step hr hok hs) hn'

/-- Where every run comes to an end, some state without a step is reached. -/
theorem Halts.exists_stuck (h : Halts step ok s) : ∃ s', ReachVia step ok s s' ∧ Stuck step ok s' := by
  induction h with
  | intro s _ ih =>
    by_cases hstuck : Stuck step ok s
    · exact ⟨s, .init, hstuck⟩
    · simp only [Stuck, not_forall] at hstuck
      obtain ⟨a, hok, ha⟩ := hstuck
      obtain ⟨s₁, hs⟩ := Option.ne_none_iff_exists'.mp ha
      obtain ⟨s', hr, hstuck'⟩ := ih s₁ ⟨a, hok, hs⟩
      exact ⟨s', (ReachVia.init.step hok hs).trans hr, hstuck'⟩

end Transition
