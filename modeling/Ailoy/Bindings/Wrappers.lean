import Ailoy.Lib.Transition
import Mathlib.Data.Finset.Basic
import Mathlib.Logic.Function.Basic

/-!
# The components of the wrappers

`define` and `delete` of `Agent` and `VectorStore` in the two bindings (`bindings/python/ailoy`,
`bindings/js-node/src`). A wrapper keeps a flag `valid`, and the VM keeps the components.
`meets_careful_iff_agree` says when the two agree after every call: `delete` of the JavaScript `Agent`
never comes while it is valid, as it deletes only where the runtime is not alive, and no call of a
`VectorStore` fails between its two calls of the runtime.

The VM defines a component whether or not it has one of this name, and deletes one that it has. Either
call of the runtime may fail, which then raises or throws and changes nothing in the VM.
-/

namespace Ailoy

open Transition

/-- The classes of wrappers. -/
inductive WrapperKind
  | pythonAgent
  | jsAgent
  | pythonVectorStore
  | jsVectorStore
  deriving DecidableEq

/-- The components of a wrapper. An agent has one of them. -/
inductive Part
  /-- `component_state.name` of an agent, `embedding_model_name` of a vector store. -/
  | model
  /-- `vector_store_name`. -/
  | store
  deriving DecidableEq

/-- The components that a wrapper names. -/
def WrapperKind.parts : WrapperKind → List Part
  | .pythonAgent | .jsAgent => [.model]
  | .pythonVectorStore | .jsVectorStore => [.model, .store]

/-- The classes with one component. -/
def WrapperKind.isAgent : WrapperKind → Bool
  | .pythonAgent | .jsAgent => true
  | .pythonVectorStore | .jsVectorStore => false

theorem parts_of_isAgent {k : WrapperKind} (h : k.isAgent = true) : k.parts = [.model] := by
  cases k with
  | pythonAgent => rfl
  | jsAgent => rfl
  | pythonVectorStore => cases h
  | jsVectorStore => cases h

theorem ne_pythonVectorStore_of_isAgent {k : WrapperKind} (h : k.isAgent = true) :
    k ≠ .pythonVectorStore := by
  rintro rfl
  cases h

theorem ne_jsAgent_of_isAgent {k : WrapperKind} (h : k.isAgent = false) : k ≠ .jsAgent := by
  rintro rfl
  cases h

theorem model_mem_parts (k : WrapperKind) : Part.model ∈ k.parts := by
  cases k <;> simp [WrapperKind.parts]

/-- `vector_store_name` of `define`. -/
inductive StoreName
  | faiss
  | chromadb
  /-- Any other name. -/
  | unsupported
  deriving DecidableEq

/-- Where a wrapper is. -/
inductive WrapperPlace
  /-- Not in a call. -/
  | idle
  /-- In `define`, before its second call of the runtime. -/
  | defining
  /-- In `delete`, before its second call of the runtime. -/
  | deleting
  deriving DecidableEq

/-- A wrapper's own state. -/
structure Wrapper where
  valid : Bool
  place : WrapperPlace

/-- A runtime with the components of its VM that the wrappers `ι` have named, and the wrappers.
`generate_uuid` gives no name twice, so a name is its wrapper and the part that it names. -/
structure Wrappers (ι : Type*) where
  alive : Bool
  held : Finset (ι × Part)
  wrappers : ι → Wrapper

/-- A step of a wrapper. `succeeds` is whether the VM does what the call of the runtime says. -/
inductive WrapperAct (ι : Type*)
  /-- `define` is called, and runs to its end or to its second call of the runtime. `known` is whether
  the model's name is in the table. -/
  | define (w : ι) (known : Bool) (store : StoreName) (succeeds : Bool)
  /-- `delete` is called, and runs to its end or to its second call of the runtime. -/
  | delete (w : ι) (succeeds : Bool)
  /-- The second call of the runtime ends, and the call of the wrapper with it. -/
  | resume (w : ι) (succeeds : Bool)

namespace Wrappers

variable {ι : Type*} [DecidableEq ι]

/-- Wrappers that have defined nothing, on a runtime that is alive. -/
def initial : Wrappers ι := ⟨true, ∅, fun _ => ⟨false, .idle⟩⟩

/-- `runtime.define`. It raises where there is no next state. -/
def runtimeDefine (s : Wrappers ι) (name : ι × Part) (succeeds : Bool) : Option (Wrappers ι) :=
  if succeeds then some { s with held := insert name s.held } else none

/-- `runtime.delete`. It raises where there is no next state. -/
def runtimeDelete (s : Wrappers ι) (name : ι × Part) (succeeds : Bool) : Option (Wrappers ι) :=
  if succeeds ∧ name ∈ s.held then some { s with held := s.held.erase name } else none

/-- A wrapper goes to another place, with this flag. -/
def set (s : Wrappers ι) (w : ι) (valid : Bool) (place : WrapperPlace) : Wrappers ι :=
  { s with wrappers := Function.update s.wrappers w ⟨valid, place⟩ }

/-- `Agent.define`. -/
def agentDefine (s : Wrappers ι) (w : ι) (known succeeds : Bool) : Wrappers ι :=
  if (s.wrappers w).valid then s
  -- Both are raised before the runtime is called.
  else if !s.alive || !known then s
  else match s.runtimeDefine (w, .model) succeeds with
    | some s => s.set w true .idle
    | none => s

/-- `Agent.delete` in Python. -/
def pythonAgentDelete (s : Wrappers ι) (w : ι) (succeeds : Bool) : Wrappers ι :=
  if !(s.wrappers w).valid then s
  else if s.alive then
    match s.runtimeDelete (w, .model) succeeds with
    | some s => s.set w false .idle
    | none => s
  else s.set w false .idle

/-- `Agent.delete` in JavaScript. -/
def jsAgentDelete (s : Wrappers ι) (w : ι) (succeeds : Bool) : Wrappers ι :=
  if !(s.wrappers w).valid then s
  -- `if (!this.runtime.is_alive())`, where Python has `if self._runtime.is_alive()`
  else if !s.alive then
    match s.runtimeDelete (w, .model) succeeds with
    | some s => s.set w false .idle
    | none => s
  else s.set w false .idle

/-- `VectorStore.define` in Python. -/
def pythonVectorStoreDefine (s : Wrappers ι) (w : ι) (known : Bool) (store : StoreName)
    (succeeds : Bool) : Wrappers ι :=
  if (s.wrappers w).valid then s
  else if !known then s
  else match s.runtimeDefine (w, .model) succeeds with
    | some s =>
      match store with
      | .faiss | .chromadb => s.set w false .defining
      -- `NotImplementedError`
      | .unsupported => s
    | none => s

/-- `VectorStore.define` in JavaScript. A name that is not supported has no component type, with which
the second call of the runtime fails. -/
def jsVectorStoreDefine (s : Wrappers ι) (w : ι) (known succeeds : Bool) : Wrappers ι :=
  if (s.wrappers w).valid then s
  else if !known then s
  else match s.runtimeDefine (w, .model) succeeds with
    | some s => s.set w false .defining
    | none => s

/-- `VectorStore.delete`. -/
def vectorStoreDelete (s : Wrappers ι) (w : ι) (succeeds : Bool) : Wrappers ι :=
  if !(s.wrappers w).valid then s
  else match s.runtimeDelete (w, .model) succeeds with
    | some s => s.set w true .deleting
    | none => s

/-- The rest of `VectorStore.define`. -/
def vectorStoreDefined (s : Wrappers ι) (w : ι) (succeeds : Bool) : Wrappers ι :=
  match s.runtimeDefine (w, .store) succeeds with
  | some s => s.set w true .idle
  -- Nothing deletes the model again.
  | none => s.set w false .idle

/-- The rest of `VectorStore.delete`. -/
def vectorStoreDeleted (s : Wrappers ι) (w : ι) (succeeds : Bool) : Wrappers ι :=
  match s.runtimeDelete (w, .store) succeeds with
  | some s => s.set w false .idle
  | none => s.set w true .idle

/-- A step. The calls of one wrapper come one after the other. -/
def step (kind : ι → WrapperKind) (s : Wrappers ι) : WrapperAct ι → Option (Wrappers ι)
  | .define w known store succeeds =>
    if (s.wrappers w).place = .idle then
      some (match kind w with
        | .pythonAgent | .jsAgent => s.agentDefine w known succeeds
        | .pythonVectorStore => s.pythonVectorStoreDefine w known store succeeds
        | .jsVectorStore => s.jsVectorStoreDefine w known succeeds)
    else none
  | .delete w succeeds =>
    if (s.wrappers w).place = .idle then
      some (match kind w with
        | .pythonAgent => s.pythonAgentDelete w succeeds
        | .jsAgent => s.jsAgentDelete w succeeds
        | .pythonVectorStore | .jsVectorStore => s.vectorStoreDelete w succeeds)
    else none
  | .resume w succeeds =>
    match (s.wrappers w).place with
    | .idle => none
    | .defining => some (s.vectorStoreDefined w succeeds)
    | .deleting => some (s.vectorStoreDeleted w succeeds)

/-- The condition on the steps. -/
def Careful (kind : ι → WrapperKind) (s : Wrappers ι) : WrapperAct ι → Prop
  /- A Python vector store does not name an unsupported store, once the model is defined. -/
  | .define w known store succeeds => kind w = .pythonVectorStore → (s.wrappers w).place = .idle →
    (s.wrappers w).valid = false → known = true → succeeds = true → store ≠ .unsupported
  /- A JavaScript agent is not deleted while it is valid. -/
  | .delete w _ => kind w = .jsAgent → (s.wrappers w).place = .idle → (s.wrappers w).valid = false
  /- The second call of the runtime does not fail. -/
  | .resume w succeeds => (s.wrappers w).place ≠ .idle → succeeds = true

/-- Behind each call, the VM holds what the wrapper names exactly while the wrapper is valid. -/
def Agree (kind : ι → WrapperKind) (s : Wrappers ι) : Prop :=
  ∀ w, (s.wrappers w).place = .idle → ∀ part ∈ (kind w).parts,
    ((w, part) ∈ s.held ↔ (s.wrappers w).valid = true)

/-! ## What a step does -/

/-- A wrapper goes on, with these components in the VM. -/
def turn (s : Wrappers ι) (w : ι) (held : Finset (ι × Part)) (valid : Bool)
    (place : WrapperPlace) : Wrappers ι :=
  { s with held, wrappers := Function.update s.wrappers w ⟨valid, place⟩ }

/-- All that a step can do on a runtime that is alive. -/
inductive Moves (kind : ι → WrapperKind) (s : Wrappers ι) : WrapperAct ι → Wrappers ι → Prop
  | stays {a : WrapperAct ι} : Careful kind s a → Moves kind s a s
  | agentDefines {w known store succeeds} : (kind w).isAgent = true → (s.wrappers w).place = .idle →
      Moves kind s (.define w known store succeeds)
        (s.turn w (insert (w, .model) s.held) true .idle)
  | pythonAgentDeletes {w succeeds} : kind w = .pythonAgent → (s.wrappers w).place = .idle →
      Moves kind s (.delete w succeeds) (s.turn w (s.held.erase (w, .model)) false .idle)
  /-- The VM keeps the component. -/
  | jsAgentForgets {w succeeds} : kind w = .jsAgent → (s.wrappers w).place = .idle →
      (s.wrappers w).valid = true → Moves kind s (.delete w succeeds) (s.turn w s.held false .idle)
  | storeBegins {w known store succeeds} : (kind w).isAgent = false →
      (kind w = .pythonVectorStore → store ≠ .unsupported) → (s.wrappers w).place = .idle →
      (s.wrappers w).valid = false → Moves kind s (.define w known store succeeds)
        (s.turn w (insert (w, .model) s.held) false .defining)
  /-- The name of the store is not supported, and the VM keeps the model. -/
  | storeRefused {w} : kind w = .pythonVectorStore → (s.wrappers w).place = .idle →
      (s.wrappers w).valid = false → Moves kind s (.define w true .unsupported true)
        (s.turn w (insert (w, .model) s.held) false .idle)
  | storeDefined {w} : (s.wrappers w).place = .defining →
      Moves kind s (.resume w true) (s.turn w (insert (w, .store) s.held) true .idle)
  /-- The VM keeps the model. -/
  | storeFails {w} : (s.wrappers w).place = .defining →
      Moves kind s (.resume w false) (s.turn w s.held false .idle)
  | storeDeletes {w succeeds} : (kind w).isAgent = false → (s.wrappers w).place = .idle →
      (s.wrappers w).valid = true → (w, .model) ∈ s.held →
      Moves kind s (.delete w succeeds) (s.turn w (s.held.erase (w, .model)) true .deleting)
  | storeDeleted {w} : (s.wrappers w).place = .deleting → (w, .store) ∈ s.held →
      Moves kind s (.resume w true) (s.turn w (s.held.erase (w, .store)) false .idle)
  /-- The VM keeps the store without its model. -/
  | storeRemains {w succeeds} : (s.wrappers w).place = .deleting →
      (succeeds = true → (w, .store) ∉ s.held) →
      Moves kind s (.resume w succeeds) (s.turn w s.held true .idle)

variable {kind : ι → WrapperKind} {s s' : Wrappers ι} {a : WrapperAct ι} {w : ι}
  {known succeeds : Bool} {store : StoreName}

/-- New components alone are a turn of a wrapper that stays as it is. -/
theorem turn_eq (held : Finset (ι × Part)) (hplace : (s.wrappers w).place = .idle)
    (hvalid : (s.wrappers w).valid = false) : s.turn w held false .idle = { s with held } := by
  have hw : s.wrappers w = ⟨false, .idle⟩ := by rw [← hvalid, ← hplace]
  unfold turn
  rw [← hw, Function.update_eq_self]

omit [DecidableEq ι] in
/-- The condition on `define` is about Python's vector stores. -/
theorem careful_define (h : kind w ≠ .pythonVectorStore) :
    Careful kind s (.define w known store succeeds) := fun hpython => absurd hpython h

omit [DecidableEq ι] in
/-- The condition on `delete` is about JavaScript's agents. -/
theorem careful_delete (h : kind w ≠ .jsAgent) : Careful kind s (.delete w succeeds) :=
  fun hjs => absurd hjs h

/-- `Agent.define` does nothing, or defines the component. -/
theorem agentDefine_moves (hkind : (kind w).isAgent = true)
    (hplace : (s.wrappers w).place = .idle) :
    Moves kind s (.define w known store succeeds) (s.agentDefine w known succeeds) := by
  have hstays : Moves kind s (.define w known store succeeds) s :=
    .stays (careful_define (ne_pythonVectorStore_of_isAgent hkind))
  unfold agentDefine runtimeDefine
  split_ifs
  · exact hstays
  · exact hstays
  · exact .agentDefines hkind hplace
  · exact hstays

/-- `Agent.delete` in Python does nothing, or deletes the component. -/
theorem pythonAgentDelete_moves (halive : s.alive = true) (hkind : kind w = .pythonAgent)
    (hplace : (s.wrappers w).place = .idle) :
    Moves kind s (.delete w succeeds) (s.pythonAgentDelete w succeeds) := by
  have hstays : Moves kind s (.delete w succeeds) s := .stays (careful_delete (by rw [hkind]; nofun))
  unfold pythonAgentDelete runtimeDelete
  rw [if_pos halive]
  by_cases hvm : succeeds = true ∧ (w, Part.model) ∈ s.held
  · rw [if_pos hvm]
    split_ifs
    · exact hstays
    · exact .pythonAgentDeletes hkind hplace
  · rw [if_neg hvm]
    split_ifs
    · exact hstays
    · exact hstays

/-- `Agent.delete` in JavaScript never calls a runtime that is alive. -/
theorem jsAgentDelete_moves (halive : s.alive = true) (hkind : kind w = .jsAgent)
    (hplace : (s.wrappers w).place = .idle) :
    Moves kind s (.delete w succeeds) (s.jsAgentDelete w succeeds) := by
  unfold jsAgentDelete
  rw [halive]
  cases hvalid : (s.wrappers w).valid with
  | false => exact .stays fun _ _ => hvalid
  | true => exact .jsAgentForgets hkind hplace hvalid

/-- `VectorStore.define` in Python, up to its second call of the runtime. -/
theorem pythonVectorStoreDefine_moves (hkind : kind w = .pythonVectorStore)
    (hplace : (s.wrappers w).place = .idle) :
    Moves kind s (.define w known store succeeds)
      (s.pythonVectorStoreDefine w known store succeeds) := by
  unfold pythonVectorStoreDefine runtimeDefine
  cases hvalid : (s.wrappers w).valid with
  | true => exact .stays fun _ _ h => by simp [hvalid] at h
  | false =>
    cases known with
    | false => exact .stays fun _ _ _ h => by cases h
    | true =>
      cases succeeds with
      | false => exact .stays fun _ _ _ _ h => by cases h
      | true =>
        have hbegins : store ≠ .unsupported → Moves kind s (.define w true store true)
            (s.turn w (insert (w, .model) s.held) false .defining) :=
          fun h => .storeBegins (by rw [hkind]; rfl) (fun _ => h) hplace hvalid
        cases store with
        | faiss => exact hbegins nofun
        | chromadb => exact hbegins nofun
        | unsupported =>
          have h := Moves.storeRefused hkind hplace hvalid
          rw [turn_eq _ hplace hvalid] at h
          exact h

/-- `VectorStore.define` in JavaScript, up to its second call of the runtime. -/
theorem jsVectorStoreDefine_moves (hkind : kind w = .jsVectorStore)
    (hplace : (s.wrappers w).place = .idle) :
    Moves kind s (.define w known store succeeds) (s.jsVectorStoreDefine w known succeeds) := by
  have hkind' : kind w ≠ .pythonVectorStore := by
    rw [hkind]
    nofun
  have hstays : Moves kind s (.define w known store succeeds) s := .stays (careful_define hkind')
  unfold jsVectorStoreDefine runtimeDefine
  split_ifs with hvalid
  · exact hstays
  · exact hstays
  · exact .storeBegins (by rw [hkind]; rfl) (fun h => absurd h hkind') hplace (by simpa using hvalid)
  · exact hstays

/-- `VectorStore.delete`, up to its second call of the runtime. -/
theorem vectorStoreDelete_moves (hkind : (kind w).isAgent = false)
    (hplace : (s.wrappers w).place = .idle) :
    Moves kind s (.delete w succeeds) (s.vectorStoreDelete w succeeds) := by
  have hstays : Moves kind s (.delete w succeeds) s :=
    .stays (careful_delete (ne_jsAgent_of_isAgent hkind))
  unfold vectorStoreDelete runtimeDelete
  cases hvalid : (s.wrappers w).valid with
  | false => exact hstays
  | true =>
    by_cases hvm : succeeds = true ∧ (w, Part.model) ∈ s.held
    · rw [if_pos hvm]
      exact .storeDeletes hkind hplace hvalid hvm.2
    · rw [if_neg hvm]
      exact hstays

/-- The rest of `VectorStore.define`. -/
theorem vectorStoreDefined_moves (hplace : (s.wrappers w).place = .defining) :
    Moves kind s (.resume w succeeds) (s.vectorStoreDefined w succeeds) := by
  cases succeeds with
  | true => exact .storeDefined hplace
  | false => exact .storeFails hplace

/-- The rest of `VectorStore.delete`. -/
theorem vectorStoreDeleted_moves (hplace : (s.wrappers w).place = .deleting) :
    Moves kind s (.resume w succeeds) (s.vectorStoreDeleted w succeeds) := by
  unfold vectorStoreDeleted runtimeDelete
  by_cases hvm : succeeds = true ∧ (w, Part.store) ∈ s.held
  · obtain ⟨rfl, hstore⟩ := hvm
    rw [if_pos ⟨rfl, hstore⟩]
    exact .storeDeleted hplace hstore
  · rw [if_neg hvm]
    exact .storeRemains hplace fun h hstore => hvm ⟨h, hstore⟩

/-- `Moves` misses no step. -/
theorem moves_of_step (halive : s.alive = true) (hstep : step kind s a = some s') :
    Moves kind s a s' := by
  cases a with
  | define w known store succeeds =>
    obtain ⟨hplace, hs'⟩ := Option.ite_none_right_eq_some.mp hstep
    obtain rfl := Option.some.inj hs'
    cases hkind : kind w with
    | pythonAgent => exact agentDefine_moves (by rw [hkind]; rfl) hplace
    | jsAgent => exact agentDefine_moves (by rw [hkind]; rfl) hplace
    | pythonVectorStore => exact pythonVectorStoreDefine_moves hkind hplace
    | jsVectorStore => exact jsVectorStoreDefine_moves hkind hplace
  | delete w succeeds =>
    obtain ⟨hplace, hs'⟩ := Option.ite_none_right_eq_some.mp hstep
    obtain rfl := Option.some.inj hs'
    cases hkind : kind w with
    | pythonAgent => exact pythonAgentDelete_moves halive hkind hplace
    | jsAgent => exact jsAgentDelete_moves halive hkind hplace
    | pythonVectorStore => exact vectorStoreDelete_moves (by rw [hkind]; rfl) hplace
    | jsVectorStore => exact vectorStoreDelete_moves (by rw [hkind]; rfl) hplace
  | resume w succeeds =>
    unfold step at hstep
    cases hplace : (s.wrappers w).place with
    | idle => simp [hplace] at hstep
    | defining =>
      obtain rfl : s.vectorStoreDefined w succeeds = s' := by simpa [hplace] using hstep
      exact vectorStoreDefined_moves hplace
    | deleting =>
      obtain rfl : s.vectorStoreDeleted w succeeds = s' := by simpa [hplace] using hstep
      exact vectorStoreDeleted_moves hplace

/-! ## What holds in every run -/

/-- What every run keeps of a wrapper. -/
structure Tracked (kind : ι → WrapperKind) (s : Wrappers ι) (w : ι) : Prop where
  agent : (kind w).isAgent = true → (s.wrappers w).valid = true → (w, .model) ∈ s.held
  defining : (s.wrappers w).place = .defining → (w, .model) ∈ s.held
  deleting : (s.wrappers w).place = .deleting →
    (kind w).isAgent = false ∧ (w, .model) ∉ s.held ∧ (w, .store) ∈ s.held
  /-- A model that a valid vector store still has comes with its store. -/
  store : (kind w).isAgent = false → (s.wrappers w).place = .idle →
    (s.wrappers w).valid = true → (w, .model) ∈ s.held → (w, .store) ∈ s.held

/-- The runtime is alive, and the wrappers are tracked. -/
def Inv (kind : ι → WrapperKind) (s : Wrappers ι) : Prop :=
  s.alive = true ∧ ∀ w, Tracked kind s w

@[simp] theorem turn_wrappers_self (held : Finset (ι × Part)) (valid : Bool)
    (place : WrapperPlace) : (s.turn w held valid place).wrappers w = ⟨valid, place⟩ :=
  Function.update_self ..

/-- A turn is not about the other wrappers. -/
theorem turn_wrappers_of_ne {v : ι} (hv : v ≠ w) (held : Finset (ι × Part)) (valid : Bool)
    (place : WrapperPlace) : (s.turn w held valid place).wrappers v = s.wrappers v :=
  Function.update_of_ne hv ..

/-- The components of the other wrappers are the same. -/
def Spares (w : ι) (held held' : Finset (ι × Part)) : Prop :=
  ∀ v part, v ≠ w → ((v, part) ∈ held' ↔ (v, part) ∈ held)

omit [DecidableEq ι] in
theorem Spares.refl (held : Finset (ι × Part)) : Spares w held held := fun _ _ _ => Iff.rfl

theorem Spares.insert (part : Part) (held : Finset (ι × Part)) :
    Spares w held (insert (w, part) held) := by
  intro v part' hv
  simp [hv]

theorem Spares.erase (part : Part) (held : Finset (ι × Part)) :
    Spares w held (held.erase (w, part)) := by
  intro v part' hv
  simp [hv]

omit [DecidableEq ι] in
/-- What is kept of a wrapper is about it and its components alone. -/
theorem Tracked.congr {v : ι} (h : Tracked kind s v) (hwrapper : s'.wrappers v = s.wrappers v)
    (hheld : ∀ part, (v, part) ∈ s'.held ↔ (v, part) ∈ s.held) : Tracked kind s' v where
  agent := by
    rw [hwrapper, hheld]
    exact h.agent
  defining := by
    rw [hwrapper, hheld]
    exact h.defining
  deleting := by
    rw [hwrapper, hheld, hheld]
    exact h.deleting
  store := by
    rw [hwrapper, hheld, hheld]
    exact h.store

/-- After a turn, only its wrapper is to be looked at. -/
theorem Inv.turn {held : Finset (ι × Part)} {valid : Bool} {place : WrapperPlace}
    (h : Inv kind s) (hspares : Spares w s.held held)
    (hw : Tracked kind (s.turn w held valid place) w) : Inv kind (s.turn w held valid place) := by
  refine ⟨h.1, fun v => ?_⟩
  by_cases hv : v = w
  · rw [hv]
    exact hw
  · exact (h.2 v).congr (turn_wrappers_of_ne hv ..) fun part => hspares v part hv

/-- After a turn, only its wrapper is to be looked at. -/
theorem Agree.turn {held : Finset (ι × Part)} {valid : Bool} {place : WrapperPlace}
    (h : Agree kind s) (hspares : Spares w s.held held)
    (hw : place = .idle → ∀ part ∈ (kind w).parts, ((w, part) ∈ held ↔ valid = true)) :
    Agree kind (s.turn w held valid place) := by
  intro v hplace part hpart
  by_cases hv : v = w
  · rw [hv, turn_wrappers_self] at hplace
    rw [hv] at hpart
    rw [hv, turn_wrappers_self]
    exact hw hplace part hpart
  · rw [turn_wrappers_of_ne hv] at hplace ⊢
    exact (hspares v part hv).trans (h v hplace part hpart)

omit [DecidableEq ι] in
theorem inv_initial : Inv kind (initial : Wrappers ι) :=
  ⟨rfl, fun _ => ⟨nofun, nofun, nofun, nofun⟩⟩

omit [DecidableEq ι] in
/-- An agent is no vector store. -/
theorem isAgent_false_of (h : (kind w).isAgent = true) : (kind w).isAgent ≠ false := by
  rw [h]
  nofun

/-- Every step keeps what is tracked. -/
theorem inv_of_moves (h : Inv kind s) (hmoves : Moves kind s a s') : Inv kind s' := by
  cases hmoves with
  | stays _ => exact h
  | @agentDefines w _ _ _ hkind hplace =>
    exact h.turn (.insert _ _) ⟨fun _ _ => Finset.mem_insert_self .., by simp, by simp,
      fun hstore => absurd hstore (isAgent_false_of hkind)⟩
  | pythonAgentDeletes hkind hplace =>
    exact h.turn (.erase _ _) ⟨by simp, by simp, by simp, by simp⟩
  | jsAgentForgets hkind hplace hvalid =>
    exact h.turn (.refl _) ⟨by simp, by simp, by simp, by simp⟩
  | storeBegins hkind hstore hplace hvalid =>
    exact h.turn (.insert _ _) ⟨by simp, fun _ => Finset.mem_insert_self .., by simp, by simp⟩
  | storeRefused hkind hplace hvalid =>
    exact h.turn (.insert _ _) ⟨by simp, by simp, by simp, by simp⟩
  | @storeDefined w hplace =>
    have hmodel := (h.2 w).defining hplace
    exact h.turn (.insert _ _) ⟨fun _ _ => Finset.mem_insert_of_mem hmodel, by simp, by simp,
      fun _ _ _ _ => Finset.mem_insert_self ..⟩
  | storeFails hplace => exact h.turn (.refl _) ⟨by simp, by simp, by simp, by simp⟩
  | @storeDeletes w _ hkind hplace hvalid hmodel =>
    have hstore := (h.2 w).store hkind hplace hvalid hmodel
    refine h.turn (.erase _ _) ⟨fun hagent => absurd hkind (isAgent_false_of hagent), by simp,
      fun _ => ⟨hkind, Finset.notMem_erase _ _, Finset.mem_erase_of_ne_of_mem (by simp) hstore⟩,
      by simp⟩
  | storeDeleted hplace hstore => exact h.turn (.erase _ _) ⟨by simp, by simp, by simp, by simp⟩
  | @storeRemains w _ hplace hstore =>
    obtain ⟨hkind, hmodel, -⟩ := (h.2 w).deleting hplace
    exact h.turn (.refl _) ⟨fun hagent => absurd hkind (isAgent_false_of hagent), by simp, by simp,
      fun _ _ _ hheld => absurd hheld hmodel⟩

/-- A careful step keeps the wrappers and the VM in agreement. -/
theorem agree_of_moves (h : Inv kind s) (hagree : Agree kind s) (hok : Careful kind s a)
    (hmoves : Moves kind s a s') : Agree kind s' := by
  cases hmoves with
  | stays _ => exact hagree
  | @agentDefines w _ _ _ hkind hplace =>
    refine hagree.turn (.insert _ _) fun _ part hpart => ?_
    rw [parts_of_isAgent hkind, List.mem_singleton] at hpart
    simp [hpart]
  | @pythonAgentDeletes w _ hkind hplace =>
    refine hagree.turn (.erase _ _) fun _ part hpart => ?_
    rw [hkind] at hpart
    obtain rfl := List.mem_singleton.mp hpart
    simp
  | jsAgentForgets hkind hplace hvalid =>
    rw [hok hkind hplace] at hvalid
    cases hvalid
  | storeBegins hkind hstore hplace hvalid => exact hagree.turn (.insert _ _) nofun
  | storeRefused hkind hplace hvalid => exact absurd rfl (hok hkind hplace hvalid rfl rfl)
  | @storeDefined w hplace =>
    have hmodel := (h.2 w).defining hplace
    refine hagree.turn (.insert _ _) fun _ part _ => ?_
    cases part with
    | model => simp [hmodel]
    | store => simp
  | storeFails hplace =>
    have hsucceeds := hok (by rw [hplace]; nofun)
    cases hsucceeds
  | storeDeletes hkind hplace hvalid hmodel => exact hagree.turn (.erase _ _) nofun
  | @storeDeleted w hplace hstore =>
    obtain ⟨-, hmodel, -⟩ := (h.2 w).deleting hplace
    refine hagree.turn (.erase _ _) fun _ part _ => ?_
    cases part with
    | model => simp [hmodel]
    | store => simp
  | @storeRemains w _ hplace hstore =>
    obtain ⟨-, -, hheld⟩ := (h.2 w).deleting hplace
    exact absurd hheld (hstore (hok (by rw [hplace]; nofun)))

/-- Only a careful step leaves the wrappers and the VM in agreement. -/
theorem careful_of_moves (h : Inv kind s) (hmoves : Moves kind s a s') (hagree : Agree kind s') :
    Careful kind s a := by
  -- Where the step is not careful, the model tells its wrapper from the VM.
  have htells : ∀ w held valid, s' = s.turn w held valid .idle →
      ((w, Part.model) ∈ held ↔ valid = true) := by
    rintro w held valid rfl
    have hw := hagree w (by simp) .model (model_mem_parts _)
    rw [turn_wrappers_self] at hw
    exact hw
  cases hmoves with
  | stays hok => exact hok
  -- These are not what the condition is about.
  | agentDefines hkind hplace => exact careful_define (ne_pythonVectorStore_of_isAgent hkind)
  | pythonAgentDeletes hkind hplace => exact careful_delete (by rw [hkind]; nofun)
  | @jsAgentForgets w _ hkind hplace hvalid =>
    have hmodel := (h.2 w).agent (by rw [hkind]; rfl) hvalid
    cases (htells w _ _ rfl).mp hmodel
  | storeBegins hkind hstore hplace hvalid => exact fun hpython _ _ _ _ => hstore hpython
  | @storeRefused w hkind hplace hvalid => cases (htells w _ _ rfl).mp (Finset.mem_insert_self ..)
  | storeDefined hplace => exact fun _ => rfl
  | @storeFails w hplace => cases (htells w _ _ rfl).mp ((h.2 w).defining hplace)
  | storeDeletes hkind hplace hvalid hmodel => exact careful_delete (ne_jsAgent_of_isAgent hkind)
  | storeDeleted hplace hstore => exact fun _ => rfl
  | @storeRemains w _ hplace hstore =>
    obtain ⟨-, hmodel, -⟩ := (h.2 w).deleting hplace
    exact absurd ((htells w _ _ rfl).mpr rfl) hmodel

/-- What cannot be done now is careful. -/
theorem careful_of_step_eq_none (hstep : step kind s a = none) : Careful kind s a := by
  cases a with
  | define w known store succeeds =>
    have hplace : (s.wrappers w).place ≠ .idle := fun h => by simp [step, h] at hstep
    exact fun _ h => absurd h hplace
  | delete w succeeds =>
    have hplace : (s.wrappers w).place ≠ .idle := fun h => by simp [step, h] at hstep
    exact fun _ h => absurd h hplace
  | resume w succeeds =>
    intro hplace
    unfold step at hstep
    cases h : (s.wrappers w).place with
    | idle => exact absurd h hplace
    | defining => simp [h] at hstep
    | deleting => simp [h] at hstep

/-- In every run of calls, whichever fail, the VM holds what a wrapper names exactly while the
wrapper is valid, behind each call, if and only if the steps are careful. -/
theorem meets_careful_iff_agree (kind : ι → WrapperKind) (as : List (WrapperAct ι)) :
    Meets (step kind) (Careful kind) initial as ↔ Along (step kind) (Agree kind) initial as := by
  have hinv : ∀ s a s', Inv kind s → step kind s a = some s' → Inv kind s' :=
    fun s a s' h hstep => inv_of_moves h (moves_of_step h.1 hstep)
  refine meets_iff_along hinv ?_ ?_ ?_ inv_initial (by simp [Agree, initial])
  · exact fun s a s' h hagree hok hstep => agree_of_moves h hagree hok (moves_of_step h.1 hstep)
  · exact fun s a s' h hstep => careful_of_moves h (moves_of_step h.1 hstep)
  · exact fun s a => careful_of_step_eq_none

/-- An agent is defined and deleted. -/
def deletedRun : List (WrapperAct Unit) := [.define () true .faiss true, .delete () true]

/-- The store of a vector store is not defined, as its `url` may be wrong. -/
def halfDefinedRun : List (WrapperAct Unit) := [.define () true .chromadb true, .resume () false]

/-- The VM keeps the component of the deleted agent, and the model of the vector store that is not
defined. -/
theorem keptRuns_not_agree :
    ¬ Along (step fun _ => .jsAgent) (Agree fun _ => .jsAgent) initial deletedRun ∧
      ¬ Along (step fun _ => .pythonVectorStore) (Agree fun _ => .pythonVectorStore) initial
        halfDefinedRun := by
  constructor
  · intro h
    have hagree := (h.2 _ rfl).2 _ rfl
    cases (hagree () rfl .model (by decide)).mp (by decide)
  · intro h
    have hagree := (h.2 _ rfl).2 _ rfl
    cases (hagree () rfl .model (by decide)).mp (by decide)

end Wrappers

end Ailoy
