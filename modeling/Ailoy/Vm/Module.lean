import Ailoy.Core.Value
import Ailoy.Lib.Except
import Ailoy.Lib.UnorderedMap

/-!
# Modules, operators, and components

The objects of `vm/include/module.hpp`. The code of an operator is whatever its module provides, and
here it is any pair of functions over a state: `initialize` and `step` may return, or end in a
fault, which stands for an exception that they throw. The methods of a component share the state of
the component's objects, to which they are bound. A factory may also use an environment outside the
VM, such as files and devices, so two calls with one input need not agree.

`Answers` is the sequence of outputs that an operator produces for an input, up to the one that ends
it.
-/

namespace Ailoy

/-- `error_output_t`. -/
structure ErrorOutput where
  reason : String

/-- `output_t`. -/
inductive Output
  /-- `ok_output_t`. -/
  | ok (val : Value) (finish : Bool)
  /-- `error_output_t`. -/
  | error (e : ErrorOutput)

/-- The virtual functions of an `operator_t`, `initialize` and `step`, over the state of the objects
it uses. -/
structure OperatorCode (σ : Type) where
  init : Value → σ → Except Fault (Option ErrorOutput × σ)
  step : σ → Except Fault (Output × σ)

/-- `operator_t`. -/
structure Operator (σ : Type) where
  code : OperatorCode σ
  state : σ

/-- `component_t`: its operators, and the state of its objects, which they share. -/
structure Component (σ : Type) where
  ops : UnorderedMap String (OperatorCode σ)
  objs : σ

/-- `component_factory_t`, with the environment that it uses. -/
abbrev ComponentFactory (σ ω : Type) :=
  Value → ω → Except Fault (Except ErrorOutput (Component σ) × ω)

/-- `module_t`. -/
structure Module (σ ω : Type) where
  ops : UnorderedMap String (Operator σ)
  factories : UnorderedMap String (ComponentFactory σ ω)

namespace OperatorCode

variable {σ : Type} {code : OperatorCode σ}

/-- The outputs of an operator from a state up to its last one, and how it ends: in a state after a
finishing output or an error, or in a fault. -/
inductive Yields (code : OperatorCode σ) : σ → List Output → Except Fault σ → Prop
  | finish {s s' : σ} {val : Value} : code.step s = .ok (.ok val true, s') →
      Yields code s [.ok val true] (.ok s')
  | fail {s s' : σ} {e : ErrorOutput} : code.step s = .ok (.error e, s') →
      Yields code s [.error e] (.ok s')
  | throw {s : σ} {f : Fault} : code.step s = .error f → Yields code s [] (.error f)
  | next {s s' : σ} {val : Value} {outs : List Output} {r : Except Fault σ} :
      code.step s = .ok (.ok val false, s') → Yields code s' outs r →
      Yields code s (.ok val false :: outs) r

/-- Every output is a result without the finish flag, but for the last one of an operator that does
not throw. -/
theorem Yields.outputs {s : σ} {outs : List Output} {r : Except Fault σ}
    (h : Yields code s outs r) : ∃ vals : List Value,
      (∃ s' last, r = .ok s' ∧ ((∃ val, last = .ok val true) ∨ ∃ e, last = .error e) ∧
        outs = vals.map (.ok · false) ++ [last]) ∨
      ∃ f, r = .error f ∧ outs = vals.map (.ok · false) := by
  induction h with
  | @finish s s' val hs => exact ⟨[], .inl ⟨s', _, rfl, .inl ⟨val, rfl⟩, rfl⟩⟩
  | @fail s s' e hs => exact ⟨[], .inl ⟨s', _, rfl, .inr ⟨e, rfl⟩, rfl⟩⟩
  | @throw s f hs => exact ⟨[], .inr ⟨f, rfl, rfl⟩⟩
  | @next s s' val outs r hs _ ih =>
    obtain ⟨vals, ⟨s'', last, hr, hlast, houts⟩ | ⟨f, hr, houts⟩⟩ := ih
    · exact ⟨val :: vals, .inl ⟨s'', last, hr, hlast, by rw [houts]; rfl⟩⟩
    · exact ⟨val :: vals, .inr ⟨f, hr, by rw [houts]; rfl⟩⟩

/-- All outputs of an operator for an input, and how it ends. An error of `initialize` is its only
output. -/
inductive Answers (code : OperatorCode σ) (s : σ) (input : Value) :
    List Output → Except Fault σ → Prop
  | throw {f : Fault} : code.init input s = .error f → Answers code s input [] (.error f)
  | refuse {e : ErrorOutput} {s' : σ} : code.init input s = .ok (some e, s') →
      Answers code s input [.error e] (.ok s')
  | run {s' : σ} {outs : List Output} {r : Except Fault σ} :
      code.init input s = .ok (none, s') → Yields code s' outs r → Answers code s input outs r

/-- The outputs of an operator that does not throw are results without the finish flag, and behind
them one that ends the call. -/
theorem Answers.outputs {s s' : σ} {input : Value} {outs : List Output}
    (h : code.Answers s input outs (.ok s')) : ∃ vals : List Value, ∃ last,
      ((∃ val, last = .ok val true) ∨ ∃ e, last = .error e) ∧
        outs = vals.map (.ok · false) ++ [last] := by
  cases h with
  | @refuse e _ hinit => exact ⟨[], .error e, .inr ⟨e, rfl⟩, rfl⟩
  | run hinit hyields =>
    obtain ⟨vals, ⟨_, last, -, hlast, houts⟩ | ⟨f, hr, -⟩⟩ := hyields.outputs
    · exact ⟨vals, last, hlast, houts⟩
    · cases hr

/-- An operator throws on an input: out of `initialize`, or out of a later `step`. -/
def Throws (code : OperatorCode σ) (s : σ) (input : Value) : Prop :=
  ∃ outs f, code.Answers s input outs (.error f)

/-- An operator comes to an end on an input, in whatever way. -/
def Ends (code : OperatorCode σ) (s : σ) (input : Value) : Prop :=
  ∃ outs r, code.Answers s input outs r

end OperatorCode

/-! ## Operators made of functions -/

/-- The state of an `instant_operator_t` or an `iterative_operator_t`: `in_`, and `state_`. -/
structure OperatorState where
  input : Option Value
  state : Option Value

/-- `instant_operator_t`, over a function of the input. -/
def instantOperator (f : Option Value → Except Fault (Except ErrorOutput Value)) :
    OperatorCode OperatorState where
  init input s := .ok (none, { s with input := some input })
  step s := do
    let output ← f s.input
    match output with
    | .ok v => return (.ok v true, { s with input := none })
    | .error e => return (.error e, { s with input := none })

/-- `iterative_operator_t`, over the functions that make a state and that take a step from it. -/
def iterativeOperator (finit : Value → Except Fault (Except ErrorOutput Value))
    (fstep : Option Value → Except Fault (Output × Option Value)) :
    OperatorCode OperatorState where
  init input s := do
    let stateOrError ← finit input
    match stateOrError with
    | .ok state => return (none, ⟨some input, some state⟩)
    | .error e => return (some e, { s with input := some input })
  step s := do
    let (output, state) ← fstep s.state
    match output with
    | .ok _ true => return (output, ⟨none, none⟩)
    | _ => return (output, { s with state })

/-- An instant operator has a single output, if its function returns. -/
theorem answers_instantOperator {f : Option Value → Except Fault (Except ErrorOutput Value)}
    {s : OperatorState} {input : Value} {output : Except ErrorOutput Value}
    (h : f (some input) = .ok output) :
    (instantOperator f).Answers s input
      [match output with | .ok v => .ok v true | .error e => .error e]
      (.ok { s with input := none }) := by
  refine .run rfl ?_
  cases output with
  | ok v => exact .finish (by simp [instantOperator, h]; rfl)
  | error e => exact .fail (by simp [instantOperator, h]; rfl)

/-- An instant operator throws what its function throws. -/
theorem throws_instantOperator {f : Option Value → Except Fault (Except ErrorOutput Value)}
    {s : OperatorState} {input : Value} {fault : Fault} (h : f (some input) = .error fault) :
    (instantOperator f).Throws s input :=
  ⟨[], fault, .run rfl (.throw (by simp [instantOperator, h]))⟩

end Ailoy
