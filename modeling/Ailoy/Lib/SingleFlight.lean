import Mathlib.Data.Finset.Basic
import Mathlib.Logic.Function.Basic

/-!
# One job at a time, for any number of tasks

A task that wants news enters: it starts a job when the lock is free, and waits for the event in the
lock otherwise. The task that has started a job keeps its result, fires the event and frees the lock.
A job is named by its event. `Flying` holds whatever happens to tasks and jobs. `Sound`, that the
lock is never left behind and no result is lost, is kept by everything but two things: a task that
gives up while it works at its job (`Sound.not_give_up`), and a job that fails
(`Sound.not_jobRaises`).
-/

/-- Where a task is, seen from the lock. -/
inductive Station
  /-- Not at the lock. -/
  | elsewhere
  /-- It waits until an event is fired. -/
  | waiting (e : ℕ)
  /-- It waits for its job. -/
  | working (e : ℕ)
  deriving DecidableEq

/-- A job that has been started, and whose task has not seen its end. -/
inductive Job (β : Type*)
  | running
  | returned (b : β)
  | raised

/-- The lock with its events and jobs, and the tasks `τ`. -/
structure Flight (τ β : Type*) where
  lock : Option ℕ
  /-- The events that are fired. -/
  fired : Finset ℕ
  /-- The next event. -/
  next : ℕ
  jobs : ℕ → Option (Job β)
  station : τ → Station
  /-- The jobs that have returned a result. -/
  returned : Finset ℕ
  /-- The jobs whose result was kept. -/
  kept : Finset ℕ

namespace Flight

variable {τ β : Type*}

/-- A free lock without tasks. -/
def free : Flight τ β := ⟨none, ∅, 0, fun _ => none, fun _ => .elsewhere, ∅, ∅⟩

/-- A job that runs returns. -/
def jobReturns (f : Flight τ β) (e : ℕ) (b : β) : Flight τ β :=
  { f with jobs := Function.update f.jobs e (some (.returned b)), returned := insert e f.returned }

/-- A job that runs fails. -/
def jobRaises (f : Flight τ β) (e : ℕ) : Flight τ β :=
  { f with jobs := Function.update f.jobs e (some .raised) }

section Tasks

variable [DecidableEq τ]

/-- A task goes to another station. -/
def move (f : Flight τ β) (t : τ) (p : Station) : Flight τ β :=
  { f with station := Function.update f.station t p }

/-- A task takes the lock and starts a job. -/
def start (f : Flight τ β) (t : τ) : Flight τ β where
  lock := some f.next
  fired := f.fired
  next := f.next + 1
  jobs := Function.update f.jobs f.next (some .running)
  station := Function.update f.station t (.working f.next)
  returned := f.returned
  kept := f.kept

/-- A task comes to the lock. An event that is fired already does not stop it. -/
def enter (f : Flight τ β) (t : τ) : Flight τ β :=
  match f.lock with
  | none => f.start t
  | some e => if e ∈ f.fired then f.move t .elsewhere else f.move t (.waiting e)

/-- The task of a job keeps its result, fires the event in the lock, and frees the lock. -/
def finish (f : Flight τ β) (t : τ) (e : ℕ) : Flight τ β where
  lock := none
  fired := match f.lock with
    | some e' => insert e' f.fired
    | none => f.fired
  next := f.next
  jobs := Function.update f.jobs e none
  station := Function.update f.station t .elsewhere
  returned := f.returned
  kept := insert e f.kept

/-- The task of a job that has failed fails too. -/
def abandon (f : Flight τ β) (t : τ) (e : ℕ) : Flight τ β :=
  { f.move t .elsewhere with jobs := Function.update f.jobs e none }

end Tasks

/-- Every job is that of the event in the lock, and one task at most is at it. -/
structure Flying (f : Flight τ β) : Prop where
  working : ∀ t e, f.station t = .working e → f.lock = some e
  unique : ∀ t t' e e', f.station t = .working e → f.station t' = .working e' → t = t'
  jobs : ∀ e, f.jobs e ≠ none → f.lock = some e

/-- Nothing is left behind. -/
structure Sound (f : Flight τ β) : Prop where
  /-- The lock is free, or some task is at a job that has not failed, and will free it. -/
  lock : ∀ e, f.lock = some e → ∃ t j, f.station t = .working e ∧ f.jobs e = some j ∧ j ≠ .raised
  /-- A result is kept, or a task is about to. -/
  kept : ∀ e ∈ f.returned, e ∈ f.kept ∨
    ∃ t b, f.station t = .working e ∧ f.jobs e = some (.returned b)
  /-- A task waits for an event that is fired, or that is in the lock. -/
  waiting : ∀ t e, f.station t = .waiting e → e ∈ f.fired ∨ f.lock = some e

variable {f : Flight τ β} {t t' : τ} {e e' : ℕ} {p : Station} {b : β}

theorem flying_free : Flying (free : Flight τ β) :=
  ⟨nofun, nofun, fun _ h => absurd rfl h⟩

theorem sound_free : Sound (free : Flight τ β) :=
  ⟨nofun, nofun, nofun⟩

/-! ## Jobs -/

/-- With a free lock, no task is at a job. -/
theorem Flying.not_working (h : Flying f) (hlock : f.lock = none) : f.station t ≠ .working e := by
  intro ht
  rw [h.working t e ht] at hlock
  cases hlock

/-- With a free lock, there is no job. -/
theorem Flying.jobs_eq_none (h : Flying f) (hlock : f.lock = none) : f.jobs e = none := by
  by_contra hne
  rw [h.jobs e hne] at hlock
  cases hlock

/-- A job that is there may change. -/
theorem Flying.setJob (h : Flying f) (hj : f.jobs e ≠ none) {f' : Flight τ β} {j : Job β}
    (hlock : f'.lock = f.lock) (hstation : f'.station = f.station)
    (hjobs : f'.jobs = Function.update f.jobs e (some j)) : Flying f' := by
  refine ⟨?_, ?_, fun e' he' => ?_⟩
  · rw [hstation, hlock]
    exact h.working
  · rw [hstation]
    exact h.unique
  · rw [hjobs] at he'
    rw [hlock]
    by_cases heq : e' = e
    · rw [heq]
      exact h.jobs e hj
    · rw [Function.update_of_ne heq] at he'
      exact h.jobs e' he'

/-- A job may return, to the task that is at it. -/
theorem Sound.jobReturns (h : Sound f) (hf : Flying f) (hj : f.jobs e ≠ none) :
    Sound (f.jobReturns e b) := by
  have hlock := hf.jobs e hj
  obtain ⟨t, j, ht, -⟩ := h.lock e hlock
  refine ⟨fun e' he' => ?_, fun e' he' => ?_, h.waiting⟩
  · obtain rfl : e = e' := Option.some.inj (hlock.symm.trans he')
    exact ⟨t, .returned b, ht, Function.update_self .., nofun⟩
  · by_cases heq : e' = e
    · subst heq
      exact .inr ⟨t, b, ht, Function.update_self ..⟩
    · rcases h.kept e' (Finset.mem_of_mem_insert_of_ne he' heq) with hkept | ⟨t', b', ht', hb⟩
      · exact .inl hkept
      · exact .inr ⟨t', b', ht', (Function.update_of_ne heq ..).trans hb⟩

/-- In a sound flight no job has failed. -/
theorem Sound.jobs_ne_raised (h : Sound f) (hf : Flying f) : f.jobs e ≠ some .raised := by
  intro hj
  obtain ⟨t, j, -, hj', hne⟩ := h.lock e (hf.jobs e (by rw [hj]; nofun))
  exact hne (Option.some.inj (hj'.symm.trans hj))

/-- When a job fails, the lock is left behind. -/
theorem Sound.not_jobRaises (hf : Flying f) (hj : f.jobs e ≠ none) : ¬ Sound (f.jobRaises e) := by
  intro h
  obtain ⟨t, j, -, hj', hne⟩ := h.lock e (hf.jobs e hj)
  change Function.update f.jobs e (some .raised) e = some j at hj'
  rw [Function.update_self] at hj'
  exact hne (Option.some.inj hj').symm

/-! ## Tasks -/

variable [DecidableEq τ]

theorem station_move_of_ne (h : t' ≠ t) : (f.move t p).station t' = f.station t' :=
  Function.update_of_ne h ..

theorem station_finish_of_ne (h : t' ≠ t) : (f.finish t e).station t' = f.station t' :=
  Function.update_of_ne h ..

/-- A task that comes to the lock fires no event. -/
theorem fired_enter : (f.enter t).fired = f.fired := by
  unfold Flight.enter
  split
  · rfl
  · split_ifs
    · rfl
    · rfl

/-- A task that comes to the lock leaves the others where they are. -/
theorem station_enter_of_ne (h : t' ≠ t) : (f.enter t).station t' = f.station t' := by
  unfold Flight.enter
  split
  · exact Function.update_of_ne h ..
  · split_ifs
    · exact station_move_of_ne h
    · exact station_move_of_ne h

/-- A station that is not the new one of the task was there before. -/
theorem station_move (h : Function.update f.station t p t' = .working e) (hp : p ≠ .working e) :
    t' ≠ t ∧ f.station t' = .working e := by
  by_cases ht : t' = t
  · subst ht
    rw [Function.update_self] at h
    exact absurd h hp
  · rw [Function.update_of_ne ht] at h
    exact ⟨ht, h⟩

/-- A task may leave its job, or go to wait. -/
theorem Flying.move (h : Flying f) (hp : ∀ e, p ≠ .working e) : Flying (f.move t p) :=
  ⟨fun _ e ht' => h.working _ e (station_move ht' (hp e)).2,
    fun _ _ _ _ ht₁ ht₂ => h.unique _ _ _ _ (station_move ht₁ (hp _)).2 (station_move ht₂ (hp _)).2,
    h.jobs⟩

/-- The task that starts a job is the only one at a job. -/
theorem Flying.start (h : Flying f) (hlock : f.lock = none) : Flying (f.start t) := by
  have honly : ∀ t' e, (f.start t).station t' = .working e → t' = t ∧ e = f.next := by
    intro t' e ht'
    change Function.update f.station t (.working f.next) t' = .working e at ht'
    by_cases heq : t' = t
    · subst heq
      rw [Function.update_self] at ht'
      exact ⟨rfl, (Station.working.inj ht').symm⟩
    · rw [Function.update_of_ne heq] at ht'
      exact absurd ht' (h.not_working hlock)
  refine ⟨fun t' e ht' => ?_, fun t₁ t₂ e₁ e₂ h₁ h₂ => ?_, fun e he => ?_⟩
  · rw [(honly t' e ht').2]
    rfl
  · rw [(honly t₁ e₁ h₁).1, (honly t₂ e₂ h₂).1]
  · change Function.update f.jobs f.next (some .running) e ≠ none at he
    by_cases heq : e = f.next
    · rw [heq]
      rfl
    · rw [Function.update_of_ne heq] at he
      exact absurd (h.jobs_eq_none hlock) he

/-- A task may come to the lock. -/
theorem Flying.enter (h : Flying f) : Flying (f.enter t) := by
  unfold Flight.enter
  split
  · rename_i hlock
    exact h.start hlock
  · split_ifs
    · exact h.move nofun
    · exact h.move nofun

/-- A task that ends its job frees the lock for all. -/
theorem Flying.finish (h : Flying f) (ht : f.station t = .working e) : Flying (f.finish t e) := by
  have hnone : ∀ t' e', (f.finish t e).station t' ≠ .working e' := by
    intro t' e' ht'
    obtain ⟨hne, hold⟩ := station_move ht' nofun
    exact hne (h.unique t' t e' e hold ht)
  refine ⟨fun t' e' ht' => absurd ht' (hnone t' e'), fun t' _ e' _ ht' _ => absurd ht' (hnone t' e'),
    fun e' he' => ?_⟩
  change Function.update f.jobs e none e' ≠ none at he'
  by_cases heq : e' = e
  · rw [heq, Function.update_self] at he'
    exact absurd rfl he'
  · rw [Function.update_of_ne heq] at he'
    have hlock := (h.working t e ht).symm.trans (h.jobs e' he')
    exact absurd (Option.some.inj hlock).symm heq

/-- A task may fail with its job. -/
theorem Flying.abandon (h : Flying f) : Flying (f.abandon t e) := by
  have hmove : Flying (f.move t .elsewhere) := h.move nofun
  refine ⟨hmove.working, hmove.unique, fun e' he' => ?_⟩
  change Function.update f.jobs e none e' ≠ none at he'
  by_cases heq : e' = e
  · rw [heq, Function.update_self] at he'
    exact absurd rfl he'
  · rw [Function.update_of_ne heq] at he'
    exact h.jobs e' he'

/-- A task that is not at a job may leave, or wait for an event that is fired or in the lock. -/
theorem Sound.move (h : Sound f) (ht : ∀ e, f.station t ≠ .working e)
    (hp : ∀ e, p = .waiting e → e ∈ f.fired ∨ f.lock = some e) :
    Sound (f.move t p) := by
  -- The tasks at a job are other ones, and stay where they are.
  have hstay : ∀ t' e, f.station t' = .working e → (f.move t p).station t' = .working e := by
    intro t' e ht'
    have hne : t' ≠ t := by
      rintro rfl
      exact ht e ht'
    exact (Function.update_of_ne hne ..).trans ht'
  refine ⟨fun e he => ?_, fun e he => ?_, fun t' e ht' => ?_⟩
  · obtain ⟨t', j, ht', hj⟩ := h.lock e he
    exact ⟨t', j, hstay t' e ht', hj⟩
  · refine (h.kept e he).imp_right ?_
    rintro ⟨t', b, ht', hb⟩
    exact ⟨t', b, hstay t' e ht', hb⟩
  · change Function.update f.station t p t' = .waiting e at ht'
    by_cases heq : t' = t
    · subst heq
      rw [Function.update_self] at ht'
      exact hp e ht'
    · rw [Function.update_of_ne heq] at ht'
      exact h.waiting t' e ht'

/-- A task that starts a job will free the lock. -/
theorem Sound.start (h : Sound f) (hf : Flying f) (hlock : f.lock = none) : Sound (f.start t) := by
  refine ⟨fun e he => ?_, fun e he => ?_, fun t' e ht' => ?_⟩
  · obtain rfl := Option.some.inj he
    exact ⟨t, .running, Function.update_self .., Function.update_self .., nofun⟩
  · rcases h.kept e he with hkept | ⟨t', b, ht', -⟩
    · exact .inl hkept
    · exact absurd ht' (hf.not_working hlock)
  · change Function.update f.station t (.working f.next) t' = .waiting e at ht'
    by_cases heq : t' = t
    · subst heq
      rw [Function.update_self] at ht'
      cases ht'
    · rw [Function.update_of_ne heq] at ht'
      -- The lock was free, so the event that the task waits for is fired.
      rcases h.waiting t' e ht' with hfired | hin
      · exact .inl hfired
      · rw [hlock] at hin
        cases hin

/-- A task may come to the lock. -/
theorem Sound.enter (h : Sound f) (hf : Flying f) (ht : ∀ e, f.station t ≠ .working e) :
    Sound (f.enter t) := by
  unfold Flight.enter
  split
  · rename_i hlock
    exact h.start hf hlock
  · rename_i e hlock
    split_ifs
    · exact h.move ht nofun
    · refine h.move ht fun e' he' => ?_
      rw [← Station.waiting.inj he']
      exact .inr hlock

/-- A task that ends its job wakes the tasks that wait for it. -/
theorem Sound.finish (h : Sound f) (hf : Flying f) (ht : f.station t = .working e) :
    Sound (f.finish t e) := by
  have hlock := hf.working t e ht
  have hfired : (f.finish t e).fired = insert e f.fired := by
    simp only [Flight.finish, hlock]
  refine ⟨nofun, fun e' he' => ?_, fun t' e' ht' => ?_⟩
  · rcases h.kept e' he' with hkept | ⟨t', b, ht', -⟩
    · exact .inl (Finset.mem_insert_of_mem hkept)
    · obtain rfl : e = e' := Option.some.inj (hlock.symm.trans (hf.working t' e' ht'))
      exact .inl (Finset.mem_insert_self ..)
  · rw [hfired]
    change Function.update f.station t .elsewhere t' = .waiting e' at ht'
    by_cases heq : t' = t
    · subst heq
      rw [Function.update_self] at ht'
      cases ht'
    · rw [Function.update_of_ne heq] at ht'
      rcases h.waiting t' e' ht' with hold | hin
      · exact .inl (Finset.mem_insert_of_mem hold)
      · obtain rfl : e = e' := Option.some.inj (hlock.symm.trans hin)
        exact .inl (Finset.mem_insert_self ..)

/-- When a task leaves its job, the lock is left behind. -/
theorem Sound.not_give_up (hf : Flying f) (ht : f.station t = .working e) (hp : ∀ e, p ≠ .working e) :
    ¬ Sound (f.move t p) := by
  intro h
  obtain ⟨t', -, ht', -⟩ := h.lock e (hf.working t e ht)
  obtain ⟨hne, hold⟩ := station_move ht' (hp e)
  exact hne (hf.unique t' t e e hold ht)

end Flight
