import Ailoy.Lib.Transition

/-!
# Runs with their history

`record step emits` is the machine `step` that also keeps the list of the events so far, the newest
last. `Each Q` states a property of every event of a history together with the events before it,
which is the form of the statements about what must have happened earlier.
-/

namespace Transition

variable {S A E : Type*}

/-- A state with the events that led to it. -/
structure Recorded (S E : Type*) where
  state : S
  history : List E

/-- The machine that appends the events of each step to the history. -/
def record (step : S → A → Option S) (emits : S → A → List E) (r : Recorded S E) (a : A) :
    Option (Recorded S E) :=
  (step r.state a).map fun s => ⟨s, r.history ++ emits r.state a⟩

variable {step : S → A → Option S} {emits : S → A → List E}

/-- A recorded step is a step of the machine, with its events at the end of the history. -/
theorem record_eq_some_iff {r r' : Recorded S E} {a : A} : record step emits r a = some r' ↔
    step r.state a = some r'.state ∧ r'.history = r.history ++ emits r.state a := by
  obtain ⟨s', h'⟩ := r'
  simp only [record, Option.map_eq_some_iff, Recorded.mk.injEq]
  constructor
  · rintro ⟨s, hs, rfl, rfl⟩
    exact ⟨hs, rfl⟩
  · rintro ⟨hs, rfl⟩
    exact ⟨s', hs, rfl, rfl⟩

/-- Without the history, what is reached is reached by the machine. -/
theorem ReachVia.state {ok : Recorded S E → A → Prop} {ok' : S → A → Prop} {r₀ r : Recorded S E}
    (hok : ∀ r a, ok r a → ok' r.state a) (h : ReachVia (record step emits) ok r₀ r) :
    ReachVia step ok' r₀.state r.state :=
  h.simulate Recorded.state fun r a _ _ ha hs =>
    .step .init (hok r a ha) (record_eq_some_iff.mp hs).1

/-- A run goes on with the history that it has. -/
theorem ReachVia.history_prefix {ok : Recorded S E → A → Prop} {r₀ r : Recorded S E}
    (h : ReachVia (record step emits) ok r₀ r) : r₀.history <+: r.history := by
  induction h with
  | init => exact List.prefix_rfl
  | step _ _ hs ih =>
    rw [(record_eq_some_iff.mp hs).2]
    exact ih.trans (List.prefix_append _ _)

/-- Every event of a history is emitted by a step of the run, from a state whose history is what
came before the step, and the run goes on from there. -/
theorem ReachVia.step_of_mem {ok : Recorded S E → A → Prop} {r₀ r : Recorded S E}
    (h : ReachVia (record step emits) ok r₀ r) (h₀ : r₀.history = []) {pre post : List E} {e : E}
    (he : r.history = pre ++ e :: post) :
    ∃ r₁ a r₂ es₁ es₂, ReachVia (record step emits) ok r₀ r₁ ∧ ok r₁ a ∧
      record step emits r₁ a = some r₂ ∧ emits r₁.state a = es₁ ++ e :: es₂ ∧
      pre = r₁.history ++ es₁ ∧ ReachVia (record step emits) ok r₂ r := by
  induction h generalizing post with
  | init =>
    rw [h₀] at he
    simp at he
  | @step r r' a hr hok hs ih =>
    obtain ⟨-, hhist⟩ := record_eq_some_iff.mp hs
    -- The event is one of this step, or of an earlier one.
    rw [hhist] at he
    rcases List.append_eq_append_iff.mp he with ⟨es₁, hpre, hes⟩ | ⟨mid, hold, hnew⟩
    · exact ⟨r, a, r', es₁, post, hr, hok, hs, hes, hpre, .init⟩
    · cases mid with
      | nil =>
        refine ⟨r, a, r', [], post, hr, hok, hs, hnew.symm, ?_, .init⟩
        rw [List.append_nil, ← List.append_nil pre]
        exact hold.symm
      | cons e' mid =>
        obtain ⟨rfl, -⟩ := List.cons.inj hnew
        obtain ⟨r₁, b, r₂, es₁, es₂, hr₁, hok₁, hs₁, hes, hpre, hr₂⟩ := ih hold
        exact ⟨r₁, b, r₂, es₁, es₂, hr₁, hok₁, hs₁, hes, hpre, .step hr₂ hok hs⟩

/-- Every event of the history, with the events before it, satisfies `Q`. -/
def Each (Q : List E → E → Prop) (h : List E) : Prop :=
  ∀ pre e post, h = pre ++ e :: post → Q pre e

variable {Q : List E → E → Prop} {h : List E} {e : E}

theorem each_nil : Each Q [] := by
  rintro pre e post heq
  simp at heq

/-- A history with one more event: the events before it are as they were. -/
theorem each_concat : Each Q (h ++ [e]) ↔ Each Q h ∧ Q h e := by
  constructor
  · intro hall
    refine ⟨fun pre e' post heq => hall pre e' (post ++ [e]) ?_, hall h e [] rfl⟩
    rw [heq, List.append_assoc, List.cons_append]
  · rintro ⟨hall, hlast⟩ pre e' post heq
    rcases List.eq_nil_or_concat post with rfl | ⟨post, e'', rfl⟩
    · obtain ⟨rfl, rfl⟩ : h = pre ∧ e = e' := by simpa using heq
      exact hlast
    · have hsplit : h ++ [e] = (pre ++ e' :: post) ++ [e''] := by simpa using heq
      exact hall pre e' post (List.append_inj_left' hsplit rfl)

end Transition
