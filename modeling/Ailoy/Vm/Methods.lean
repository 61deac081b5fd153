import Ailoy.Vm.Service

/-!
# Method operators

`instant_method_operator_t` of `vm/include/module.hpp`: an operator over a function of the objects of
its component and of the input. The components of one VM have objects of different types. `Embedding`
says how the objects of one of them are among the states of the VM's operators, and
`OperatorCode.lift` runs the code of a component there; it answers as before (`answers_lift`).
-/

namespace Ailoy

/-- The state of a component's objects, and `in_` of the operator that is called. -/
structure MethodState (α : Type) where
  objs : α
  input : Option Value

/-- `instant_method_operator_t`, over a function that may change the objects. -/
def instantMethodOperator {α : Type}
    (f : α → Option Value → Except Fault (Except ErrorOutput Value × α)) :
    OperatorCode (MethodState α) where
  init input s := .ok (none, { s with input := some input })
  step s := do
    let (output, objs) ← f s.objs s.input
    match output with
    | .ok v => return (.ok v true, ⟨objs, none⟩)
    | .error e => return (.error e, ⟨objs, none⟩)

/-- The output of an operator that has one. -/
def Output.ofResult : Except ErrorOutput Value → Output
  | .ok v => .ok v true
  | .error e => .error e

section Instant

variable {α : Type} {f : α → Option Value → Except Fault (Except ErrorOutput Value × α)}
  {s : MethodState α} {input : Value}

/-- An instant method that returns answers with its single output. -/
theorem answers_instantMethodOperator {output : Except ErrorOutput Value} {objs : α}
    (h : f s.objs (some input) = .ok (output, objs)) :
    (instantMethodOperator f).Answers s input [.ofResult output] (.ok ⟨objs, none⟩) := by
  refine .run rfl ?_
  cases output with
  | ok v => exact .finish (by simp [instantMethodOperator, h]; rfl)
  | error e => exact .fail (by simp [instantMethodOperator, h]; rfl)

/-- What an instant method answers is what its function returns. -/
theorem of_answers_instantMethodOperator {outs : List Output} {s' : MethodState α}
    (h : (instantMethodOperator f).Answers s input outs (.ok s')) :
    ∃ output, f s.objs (some input) = .ok (output, s'.objs) ∧ s'.input = none ∧
      outs = [.ofResult output] := by
  cases hf : f s.objs (some input) with
  | error fault =>
    have hthrow : (instantMethodOperator f).Answers s input [] (.error fault) :=
      .run rfl (.throw (by simp [instantMethodOperator, hf]))
    obtain ⟨-, hr⟩ := h.unique hthrow
    cases hr
  | ok res =>
    obtain ⟨output, objs⟩ := res
    obtain ⟨rfl, hr⟩ := h.unique (answers_instantMethodOperator hf)
    obtain rfl := Except.ok.inj hr
    exact ⟨output, rfl, rfl, rfl⟩

end Instant

/-- How the states of one kind of objects are among all states. -/
structure Embedding (τ σ : Type) where
  put : τ → σ
  get : σ → Option τ
  get_put : ∀ x, get (put x) = some x

namespace OperatorCode

variable {τ σ : Type} (e : Embedding τ σ) {code : OperatorCode τ}

/-- The code over all states: a cast to the type of the objects, which may fail, and the code. -/
def lift (code : OperatorCode τ) : OperatorCode σ where
  init input s :=
    match e.get s with
    | none => .error .nullDereference
    | some x => (code.init input x).map fun (err, x) => (err, e.put x)
  step s :=
    match e.get s with
    | none => .error .nullDereference
    | some x => (code.step x).map fun (out, x) => (out, e.put x)

theorem init_lift (input : Value) (x : τ) : (code.lift e).init input (e.put x) =
    (code.init input x).map fun (err, x) => (err, e.put x) := by
  simp only [lift, e.get_put]

theorem step_lift (x : τ) : (code.lift e).step (e.put x) =
    (code.step x).map fun (out, x) => (out, e.put x) := by
  simp only [lift, e.get_put]

/-- The outputs are the same, and so is the state, among all states. -/
theorem Yields.lift {x : τ} {outs : List Output} {r : Except Fault τ} (h : code.Yields x outs r) :
    (code.lift e).Yields (e.put x) outs (r.map e.put) := by
  induction h with
  | finish hs => exact .finish (by rw [step_lift, hs]; rfl)
  | fail hs => exact .fail (by rw [step_lift, hs]; rfl)
  | throw hs => exact .throw (by rw [step_lift, hs]; rfl)
  | next hs _ ih => exact .next (by rw [step_lift, hs]; rfl) ih

theorem Answers.lift {x : τ} {input : Value} {outs : List Output} {r : Except Fault τ}
    (h : code.Answers x input outs r) :
    (code.lift e).Answers (e.put x) input outs (r.map e.put) := by
  cases h with
  | throw hinit => exact .throw (by rw [init_lift, hinit]; rfl)
  | refuse hinit => exact .refuse (by rw [init_lift, hinit]; rfl)
  | run hinit hyields => exact .run (by rw [init_lift, hinit]; rfl) (hyields.lift e)

/-- An output sequence of the lifted code is one of the code. -/
theorem yields_of_lift {s : σ} {outs : List Output} {r : Except Fault σ}
    (h : (code.lift e).Yields s outs r) {x : τ} (hs : s = e.put x) :
    ∃ r', code.Yields x outs r' ∧ r = r'.map e.put := by
  induction h generalizing x with
  | @finish s s' val hstep =>
    subst hs
    rw [step_lift] at hstep
    obtain ⟨⟨out, y⟩, hy, heq⟩ := Except.map_eq_ok_iff.mp hstep
    obtain ⟨rfl, rfl⟩ := Prod.mk.inj heq
    exact ⟨.ok y, .finish hy, rfl⟩
  | @fail s s' err hstep =>
    subst hs
    rw [step_lift] at hstep
    obtain ⟨⟨out, y⟩, hy, heq⟩ := Except.map_eq_ok_iff.mp hstep
    obtain ⟨rfl, rfl⟩ := Prod.mk.inj heq
    exact ⟨.ok y, .fail hy, rfl⟩
  | @throw s f hstep =>
    subst hs
    rw [step_lift] at hstep
    cases hy : code.step x with
    | error f' =>
      rw [hy] at hstep
      obtain rfl := Except.error.inj hstep
      exact ⟨.error f', .throw hy, rfl⟩
    | ok res =>
      rw [hy] at hstep
      cases hstep
  | @next s s' val outs r hstep _ ih =>
    subst hs
    rw [step_lift] at hstep
    obtain ⟨⟨out, y⟩, hy, heq⟩ := Except.map_eq_ok_iff.mp hstep
    obtain ⟨rfl, rfl⟩ := Prod.mk.inj heq
    obtain ⟨r', hyields, rfl⟩ := ih rfl
    exact ⟨r', .next hy hyields, rfl⟩

/-- The lifted code answers as the code does. -/
theorem answers_lift {x : τ} {input : Value} {outs : List Output} {s : σ} :
    (code.lift e).Answers (e.put x) input outs (.ok s) ↔
      ∃ y, code.Answers x input outs (.ok y) ∧ s = e.put y := by
  constructor
  · intro h
    cases h with
    | refuse hinit =>
      rw [init_lift] at hinit
      obtain ⟨⟨err, y⟩, hy, heq⟩ := Except.map_eq_ok_iff.mp hinit
      obtain ⟨rfl, rfl⟩ := Prod.mk.inj heq
      exact ⟨y, .refuse hy, rfl⟩
    | run hinit hyields =>
      rw [init_lift] at hinit
      obtain ⟨⟨err, y⟩, hy, heq⟩ := Except.map_eq_ok_iff.mp hinit
      obtain ⟨rfl, rfl⟩ := Prod.mk.inj heq
      obtain ⟨r', hyields', hr⟩ := yields_of_lift e hyields rfl
      obtain ⟨z, rfl, rfl⟩ := Except.map_eq_ok_iff.mp hr.symm
      exact ⟨z, .run hy hyields', rfl⟩
  · rintro ⟨y, h, rfl⟩
    exact h.lift e

end OperatorCode

end Ailoy
