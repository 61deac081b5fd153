import Ailoy.Lib.Transition
import Mathlib.Data.Finset.Basic
import Mathlib.Data.Set.Function

/-!
# Starting and stopping VMs in one process

The two statics that the runs of `vm_start` share: the table `vm_states`, and the counter `retry` of
the loop that collects the remaining responses. A run is a call of `vm_start` in a thread of its
own, and runs may overlap. Only `raise_exception` removes the entry of a run, and nothing resets the
counter at the start of a loop. `repeatable` states when start and stop cycles repeat all the same:
when every registered run ends through `raise_exception`, and a run is stopped only when no other
run collects responses and the last collection was not given up.
-/

namespace Ailoy

open Transition

/-- Where a run of `vm_start` is. -/
inductive Stage
  /-- It has passed the test of `vm_states` and connects. -/
  | connecting
  /-- Its entry is in `vm_states`, and it starts up or is in its event loop. -/
  | serving
  /-- It collects `expected` responses, and has `timeouts` waits in a row behind it that timed
  out. -/
  | draining (expected timeouts : ℕ)
  /-- It sends its `disconnect` packet. -/
  | disconnecting
  deriving DecidableEq

/-- A run of `vm_start`, with its arguments. -/
structure VmRun where
  url : String
  name : String
  stage : Stage
  deriving DecidableEq

/-- `vm_id` of `vm_start`. -/
def vmId (vm : String × String) : String := vm.1 ++ ":" ++ vm.2

/-- The statics of `vm.cpp`, with the runs that have not ended. -/
structure Process where
  vmStates : Finset String
  retry : ℕ
  runs : ℕ → Option VmRun

/-- What a thread does. -/
inductive ProcessAct
  /-- `vm_start` is called. -/
  | start (thread : ℕ) (url name : String)
  /-- The client is connected, and the entry is made. -/
  | register (thread : ℕ)
  /-- The run ends through `raise_exception`. -/
  | raise (thread : ℕ)
  /-- The run ends through another exception: of the connection, of a handler, or of a packet that
  cannot be read. -/
  | throw (thread : ℕ)
  /-- The stop signal has arrived, and `expected` responses are outstanding. -/
  | stop (thread expected : ℕ)
  /-- A wait for a signal times out. -/
  | timeout (thread : ℕ)
  /-- A signal arrives, with an expected response or with something else. -/
  | signal (thread : ℕ) (response : Bool)
  /-- The collection ends. -/
  | leave (thread : ℕ)
  /-- `vm_start` returns. -/
  | finish (thread : ℕ)

namespace VmRun

/-- The url and the name of a run. -/
def vm (r : VmRun) : String × String := (r.url, r.name)

/-- The run has made its entry. -/
def Registered (r : VmRun) : Prop := r.stage ≠ .connecting

/-- The run is in the loop that collects responses. -/
def Draining (r : VmRun) : Prop := ∃ expected timeouts, r.stage = .draining expected timeouts

end VmRun

namespace Process

/-- A process that has not started a VM. -/
def empty : Process := ⟨∅, 0, fun _ => none⟩

/-- The process with another run in a thread. -/
def setRun (s : Process) (thread : ℕ) (r : Option VmRun) : Process :=
  { s with runs := Function.update s.runs thread r }

/-- One step of a thread. -/
def step (s : Process) : ProcessAct → Option Process
  | .start thread url name =>
    match s.runs thread with
    | some _ => none
    | none =>
      -- An id that is in the table is refused as already occupied.
      if vmId (url, name) ∈ s.vmStates then some s
      else some (s.setRun thread (some ⟨url, name, .connecting⟩))
  | .register thread =>
    match s.runs thread with
    | some ⟨url, name, .connecting⟩ =>
      some { s.setRun thread (some ⟨url, name, .serving⟩) with
        vmStates := insert (vmId (url, name)) s.vmStates }
    | _ => none
  | .raise thread =>
    match s.runs thread with
    | some ⟨url, name, .serving⟩ | some ⟨url, name, .disconnecting⟩ =>
      some { s.setRun thread none with vmStates := s.vmStates.erase (vmId (url, name)) }
    | _ => none
  | .throw thread =>
    match s.runs thread with
    | some ⟨_, _, .connecting⟩ | some ⟨_, _, .serving⟩ | some ⟨_, _, .draining _ _⟩ =>
      some (s.setRun thread none)
    | _ => none
  | .stop thread expected =>
    match s.runs thread with
    | some ⟨url, name, .serving⟩ => some (s.setRun thread (some ⟨url, name, .draining expected 0⟩))
    | _ => none
  | .timeout thread =>
    match s.runs thread with
    | some ⟨url, name, .draining (expected + 1) timeouts⟩ =>
      if s.retry ≥ 3 then none
      else some { s.setRun thread
        (some ⟨url, name, .draining (expected + 1) (timeouts + 1)⟩) with retry := s.retry + 1 }
    | _ => none
  | .signal thread response =>
    match s.runs thread with
    | some ⟨url, name, .draining (expected + 1) _⟩ =>
      if s.retry ≥ 3 then none
      else some { s.setRun thread (some ⟨url, name,
        .draining (if response then expected else expected + 1) 0⟩) with retry := 0 }
    | _ => none
  | .leave thread =>
    match s.runs thread with
    | some ⟨url, name, .draining expected _⟩ =>
      if expected = 0 ∨ s.retry ≥ 3 then some (s.setRun thread (some ⟨url, name, .disconnecting⟩))
      else none
    | _ => none
  | .finish thread =>
    match s.runs thread with
    | some ⟨_, _, .disconnecting⟩ => some (s.setRun thread none)
    | _ => none

/-- A VM runs: a run of it has been registered and has not ended. -/
def Running (s : Process) (vm : String × String) : Prop :=
  ∃ thread r, s.runs thread = some r ∧ r.vm = vm ∧ r.Registered

/-- What start and stop cycles rest on: the table has the ids of the VMs that run, so a VM that does
not run can be started, and a run gives its responses up after three timeouts of its own. -/
structure Repeatable (s : Process) (vms : Set (String × String)) : Prop where
  table : ∀ vm ∈ vms, vmId vm ∈ s.vmStates ↔ s.Running vm
  startable : ∀ vm ∈ vms, ¬ s.Running vm → ∀ thread, s.runs thread = none →
    s.step (.start thread vm.1 vm.2) = some (s.setRun thread (some ⟨vm.1, vm.2, .connecting⟩))
  budget : ∀ thread r expected timeouts, s.runs thread = some r →
    r.stage = .draining expected timeouts → s.retry = timeouts

/-- The condition on the steps. A VM of `vms` is started while no other start of it is in progress;
a registered run ends through `raise_exception`; and a run is stopped while no run collects
responses and the last collection was not given up. -/
def Careful (vms : Set (String × String)) (s : Process) : ProcessAct → Prop
  | .start _ url name => (url, name) ∈ vms ∧
      ∀ thread r, s.runs thread = some r → r.vm = (url, name) → r.Registered
  | .throw thread => ∀ r, s.runs thread = some r → ¬ r.Registered
  | .finish _ => False
  | .stop _ _ => s.retry = 0 ∧ ∀ thread r, s.runs thread = some r → ¬ r.Draining
  | _ => True

/-! ## The table -/

/-- The runs are of VMs of `vms`, and no two runs are of one VM. -/
structure Distinct (s : Process) (vms : Set (String × String)) : Prop where
  known : ∀ thread r, s.runs thread = some r → r.vm ∈ vms
  unique : ∀ thread thread' r r', s.runs thread = some r → s.runs thread' = some r' →
    r.vm = r'.vm → thread = thread'

/-- The table has the ids of the registered runs. -/
def Booked (s : Process) : Prop :=
  ∀ id, id ∈ s.vmStates ↔ ∃ thread r, s.runs thread = some r ∧ vmId r.vm = id ∧ r.Registered

section Runs

variable {s s' : Process} {vms : Set (String × String)} {thread : ℕ} {r r' : VmRun}
  {o : Option VmRun}

/-- A thread's run in an updated process is the new one, or the old one of another thread. -/
theorem runs_update_cases {th : ℕ} (h : Function.update s.runs thread o th = some r) :
    (th = thread ∧ o = some r) ∨ (th ≠ thread ∧ s.runs th = some r) := by
  by_cases hth : th = thread
  · subst hth
    rw [Function.update_self] at h
    exact .inl ⟨rfl, h⟩
  · rw [Function.update_of_ne hth] at h
    exact .inr ⟨hth, h⟩

/-- A new run in a thread is of a VM of `vms` that no other thread has a run of. -/
theorem Distinct.update (h : Distinct s vms) (hruns : s'.runs = Function.update s.runs thread o)
    (hknown : ∀ q, o = some q → q.vm ∈ vms)
    (hfree : ∀ q, o = some q → ∀ th q', th ≠ thread → s.runs th = some q' → q'.vm ≠ q.vm) :
    Distinct s' vms := by
  constructor
  · intro th q hq
    rw [hruns] at hq
    rcases runs_update_cases hq with ⟨-, hnew⟩ | ⟨-, hold⟩
    · exact hknown q hnew
    · exact h.known th q hold
  · intro th th' q q' hq hq' heq
    rw [hruns] at hq hq'
    rcases runs_update_cases hq with ⟨rfl, hnew⟩ | ⟨hth, hold⟩
    · rcases runs_update_cases hq' with ⟨rfl, -⟩ | ⟨hth', hold'⟩
      · rfl
      · exact absurd heq.symm (hfree q hnew th' q' hth' hold')
    · rcases runs_update_cases hq' with ⟨rfl, hnew'⟩ | ⟨-, hold'⟩
      · exact absurd heq (hfree q' hnew' th q hth hold)
      · exact h.unique th th' q q' hold hold' heq

/-- A run that goes on under its name. -/
theorem Distinct.restage (h : Distinct s vms) (hr : s.runs thread = some r) (hvm : r'.vm = r.vm)
    (hruns : s'.runs = Function.update s.runs thread (some r')) : Distinct s' vms := by
  refine h.update hruns ?_ ?_
  · rintro q ⟨⟩
    rw [hvm]
    exact h.known thread r hr
  · rintro q ⟨⟩ th q' hth hq' heq
    exact hth (h.unique th thread q' r hq' hr (heq.trans hvm))

/-- A run that ends. -/
theorem Distinct.remove (h : Distinct s vms)
    (hruns : s'.runs = Function.update s.runs thread none) : Distinct s' vms :=
  h.update hruns (by rintro _ ⟨⟩) (by rintro _ ⟨⟩)

/-- A run of another thread is in the updated process too. -/
theorem runs_update_of_ne {th : ℕ} (hruns : s'.runs = Function.update s.runs thread o)
    (hth : th ≠ thread) : s'.runs th = s.runs th := by
  rw [hruns, Function.update_of_ne hth]

/-- A registered run that goes on registered. -/
theorem Booked.restage (h : Booked s) (hr : s.runs thread = some r) (hvm : r'.vm = r.vm)
    (hreg : r.Registered) (hreg' : r'.Registered) (hs : s'.vmStates = s.vmStates)
    (hruns : s'.runs = Function.update s.runs thread (some r')) : Booked s' := by
  intro id
  rw [hs, h]
  constructor
  · rintro ⟨th, q, hq, hid, hqreg⟩
    by_cases hth : th = thread
    · subst hth
      obtain rfl := Option.some.inj (hr.symm.trans hq)
      exact ⟨th, r', by rw [hruns, Function.update_self], hvm ▸ hid, hreg'⟩
    · exact ⟨th, q, (runs_update_of_ne hruns hth).trans hq, hid, hqreg⟩
  · rintro ⟨th, q, hq, hid, hqreg⟩
    rw [hruns] at hq
    rcases runs_update_cases hq with ⟨rfl, hnew⟩ | ⟨-, hold⟩
    · obtain rfl := Option.some.inj hnew
      exact ⟨th, r, hr, hvm ▸ hid, hreg⟩
    · exact ⟨th, q, hold, hid, hqreg⟩

/-- A new run, which is not registered yet. -/
theorem Booked.begin (h : Booked s) (hidle : s.runs thread = none) (hreg : ¬ r'.Registered)
    (hs : s'.vmStates = s.vmStates)
    (hruns : s'.runs = Function.update s.runs thread (some r')) : Booked s' := by
  intro id
  rw [hs, h]
  constructor
  · rintro ⟨th, q, hq, hid, hqreg⟩
    have hth : th ≠ thread := by
      rintro rfl
      rw [hidle] at hq
      cases hq
    exact ⟨th, q, (runs_update_of_ne hruns hth).trans hq, hid, hqreg⟩
  · rintro ⟨th, q, hq, hid, hqreg⟩
    rw [hruns] at hq
    rcases runs_update_cases hq with ⟨rfl, hnew⟩ | ⟨-, hold⟩
    · obtain rfl := Option.some.inj hnew
      exact absurd hqreg hreg
    · exact ⟨th, q, hold, hid, hqreg⟩

/-- A run makes its entry. -/
theorem Booked.register (h : Booked s) (hr : s.runs thread = some r) (hvm : r'.vm = r.vm)
    (hold : ¬ r.Registered) (hnew : r'.Registered)
    (hs : s'.vmStates = insert (vmId r.vm) s.vmStates)
    (hruns : s'.runs = Function.update s.runs thread (some r')) : Booked s' := by
  intro id
  rw [hs, Finset.mem_insert, h]
  constructor
  · rintro (rfl | ⟨th, q, hq, hid, hqreg⟩)
    · exact ⟨thread, r', by rw [hruns, Function.update_self], by rw [hvm], hnew⟩
    · have hth : th ≠ thread := by
        rintro rfl
        obtain rfl := Option.some.inj (hr.symm.trans hq)
        exact hold hqreg
      exact ⟨th, q, (runs_update_of_ne hruns hth).trans hq, hid, hqreg⟩
  · rintro ⟨th, q, hq, hid, hqreg⟩
    rw [hruns] at hq
    rcases runs_update_cases hq with ⟨rfl, hthis⟩ | ⟨-, hother⟩
    · obtain rfl := Option.some.inj hthis
      exact .inl (by rw [← hid, hvm])
    · exact .inr ⟨th, q, hother, hid, hqreg⟩

/-- A run ends, and its entry is removed if it has made one. -/
theorem Booked.remove (hinj : Set.InjOn vmId vms) (hd : Distinct s vms) (h : Booked s)
    (hr : s.runs thread = some r)
    (hs : ∀ id, id ∈ s'.vmStates ↔ id ∈ s.vmStates ∧ (id = vmId r.vm → ¬ r.Registered))
    (hruns : s'.runs = Function.update s.runs thread none) : Booked s' := by
  intro id
  rw [hs, h]
  constructor
  · rintro ⟨⟨th, q, hq, hid, hqreg⟩, hother⟩
    have hth : th ≠ thread := by
      rintro rfl
      obtain rfl := Option.some.inj (hr.symm.trans hq)
      exact hother hid.symm hqreg
    exact ⟨th, q, (runs_update_of_ne hruns hth).trans hq, hid, hqreg⟩
  · rintro ⟨th, q, hq, hid, hqreg⟩
    rw [hruns] at hq
    rcases runs_update_cases hq with ⟨-, hnew⟩ | ⟨hth, hold⟩
    · cases hnew
    · refine ⟨⟨th, q, hold, hid, hqreg⟩, fun heq => ?_⟩
      -- A run with the id of the one that ends is of the same VM, so it is that run.
      have hvm : q.vm = r.vm :=
        hinj (hd.known th q hold) (hd.known thread r hr) (hid.trans heq)
      exact absurd (hd.unique th thread q r hold hr hvm) hth

end Runs

/-! ## The counter -/

/-- At most one run collects responses, and the counter is the number of its timeouts in a row. -/
structure Paced (s : Process) : Prop where
  budget : ∀ thread r expected timeouts, s.runs thread = some r →
    r.stage = .draining expected timeouts → s.retry = timeouts
  single : ∀ thread thread' r r', s.runs thread = some r → s.runs thread' = some r' →
    r.Draining → r'.Draining → thread = thread'

section Counter

variable {s s' : Process} {thread : ℕ} {r r' : VmRun} {o : Option VmRun}

/-- A run that does not collect responses afterwards leaves the counter alone. -/
theorem Paced.other (h : Paced s) (ho : ∀ q, o = some q → ¬ q.Draining) (hs : s'.retry = s.retry)
    (hruns : s'.runs = Function.update s.runs thread o) : Paced s' := by
  constructor
  · intro th q e k hq hstage
    rw [hruns] at hq
    rcases runs_update_cases hq with ⟨-, hnew⟩ | ⟨-, hold⟩
    · exact absurd ⟨e, k, hstage⟩ (ho q hnew)
    · rw [hs]
      exact h.budget th q e k hold hstage
  · intro th th' q q' hq hq' hd hd'
    rw [hruns] at hq hq'
    rcases runs_update_cases hq with ⟨-, hnew⟩ | ⟨-, hold⟩
    · exact absurd hd (ho q hnew)
    · rcases runs_update_cases hq' with ⟨-, hnew'⟩ | ⟨-, hold'⟩
      · exact absurd hd' (ho q' hnew')
      · exact h.single th th' q q' hold hold' hd hd'

/-- The run that collects responses sets the counter to its own timeouts. -/
theorem Paced.drain {url name : String} {e k : ℕ}
    (hothers : ∀ th q, th ≠ thread → s.runs th = some q → ¬ q.Draining) (hs : s'.retry = k)
    (hruns : s'.runs = Function.update s.runs thread (some ⟨url, name, .draining e k⟩)) :
    Paced s' := by
  have hthis : ∀ th q, s'.runs th = some q → q.Draining →
      th = thread ∧ q = ⟨url, name, .draining e k⟩ := by
    intro th q hq hd
    rw [hruns] at hq
    rcases runs_update_cases hq with ⟨rfl, hnew⟩ | ⟨hth, hold⟩
    · exact ⟨rfl, (Option.some.inj hnew).symm⟩
    · exact absurd hd (hothers th q hth hold)
  constructor
  · intro th q e' k' hq hstage
    obtain ⟨-, rfl⟩ := hthis th q hq ⟨e', k', hstage⟩
    cases hstage
    exact hs
  · intro th th' q q' hq hq' hd hd'
    rw [(hthis th q hq hd).1, (hthis th' q' hq' hd').1]

/-- While a run collects responses, no other one does. -/
theorem Paced.others (h : Paced s) (hr : s.runs thread = some r) (hd : r.Draining) :
    ∀ th q, th ≠ thread → s.runs th = some q → ¬ q.Draining := fun th q hth hq hqd =>
  hth (h.single th thread q r hq hr hqd hd)

end Counter

/-! ## Runs of the process -/

/-- The invariant of careful processes. -/
structure Orderly (s : Process) (vms : Set (String × String)) : Prop where
  distinct : Distinct s vms
  booked : Booked s
  paced : Paced s

/-- The start of a process. -/
theorem orderly_empty (vms : Set (String × String)) : Orderly .empty vms := by
  refine ⟨⟨?_, ?_⟩, fun id => ?_, ⟨?_, ?_⟩⟩
  · rintro _ _ ⟨⟩
  · rintro _ _ _ _ ⟨⟩
  · constructor
    · intro h
      simp [empty] at h
    · rintro ⟨_, _, ⟨⟩, -⟩
  · rintro _ _ _ _ ⟨⟩
  · rintro _ _ _ _ ⟨⟩

variable {s s' : Process} {vms : Set (String × String)}

/-- A registered run goes on in another stage. -/
theorem Orderly.restage (h : Orderly s vms) {thread : ℕ} {url name : String} {stage stage' : Stage}
    (hr : s.runs thread = some ⟨url, name, stage⟩)
    (hruns : s'.runs = Function.update s.runs thread (some ⟨url, name, stage'⟩))
    (hs : s'.vmStates = s.vmStates) (hreg : stage ≠ .connecting) (hreg' : stage' ≠ .connecting)
    (hp : Paced s') : Orderly s' vms := by
  have hvm : VmRun.vm ⟨url, name, stage'⟩ = VmRun.vm ⟨url, name, stage⟩ := rfl
  exact ⟨h.distinct.restage hr hvm hruns, h.booked.restage hr hvm hreg hreg' hs hruns, hp⟩

/-- A careful step keeps the process orderly. -/
theorem Orderly.step (hinj : Set.InjOn vmId vms) (h : Orderly s vms) {a : ProcessAct}
    (ha : Careful vms s a) (hs : s.step a = some s') : Orderly s' vms := by
  cases a with
  | start thread url name =>
    obtain ⟨hvm, hothers⟩ := ha
    cases hidle : s.runs thread with
    | some r => simp [Process.step, hidle] at hs
    | none =>
      simp only [Process.step, hidle] at hs
      split_ifs at hs with hid
      · obtain rfl := Option.some.inj hs
        exact h
      · obtain rfl := Option.some.inj hs
        have hreg : ¬ VmRun.Registered ⟨url, name, .connecting⟩ := fun hr => hr rfl
        refine ⟨h.distinct.update rfl ?_ ?_, h.booked.begin hidle hreg rfl rfl,
          h.paced.other ?_ rfl rfl⟩
        · rintro q ⟨⟩
          exact hvm
        · -- A run of the same VM is registered, so the test would have found its id.
          rintro q ⟨⟩ th q' - hq' heq
          refine hid ((h.booked _).mpr ⟨th, q', hq', ?_, hothers th q' hq' heq⟩)
          rw [heq]
          rfl
        · rintro q ⟨⟩ ⟨_, _, ⟨⟩⟩
  | register thread =>
    simp only [Process.step] at hs
    split at hs
    · rename_i url name hr
      obtain rfl := Option.some.inj hs
      have hreg : VmRun.Registered ⟨url, name, .serving⟩ := by rintro ⟨⟩
      have hvm : VmRun.vm ⟨url, name, .serving⟩ = VmRun.vm ⟨url, name, .connecting⟩ := rfl
      exact ⟨h.distinct.restage hr hvm rfl,
        h.booked.register hr hvm (fun hconn => hconn rfl) hreg rfl rfl,
        h.paced.other (by rintro _ ⟨⟩ ⟨_, _, ⟨⟩⟩) rfl rfl⟩
    · cases hs
  | raise thread =>
    have hend : ∀ r, s.runs thread = some r → r.Registered →
        s' = { s.setRun thread none with vmStates := s.vmStates.erase (vmId r.vm) } →
        Orderly s' vms := by
      rintro r hr hreg rfl
      refine ⟨h.distinct.remove rfl, h.booked.remove hinj h.distinct hr (fun id => ?_) rfl,
        h.paced.other (by rintro _ ⟨⟩) rfl rfl⟩
      rw [Finset.mem_erase, and_comm]
      simp [hreg]
    simp only [Process.step] at hs
    split at hs
    · rename_i url name hr
      exact hend _ hr (by rintro ⟨⟩) (Option.some.inj hs).symm
    · rename_i url name hr
      exact hend _ hr (by rintro ⟨⟩) (Option.some.inj hs).symm
    · cases hs
  | throw thread =>
    cases hr : s.runs thread with
    | none => simp [Process.step, hr] at hs
    | some r =>
      have hreg : ¬ r.Registered := ha r hr
      have hs' : s' = s.setRun thread none := by
        simp only [Process.step, hr] at hs
        split at hs <;> first | exact (Option.some.inj hs).symm | cases hs
      subst hs'
      refine ⟨h.distinct.remove rfl, h.booked.remove hinj h.distinct hr (fun id => ?_) rfl,
        h.paced.other (by rintro _ ⟨⟩) rfl rfl⟩
      exact ⟨fun hid => ⟨hid, fun _ => hreg⟩, And.left⟩
  | stop thread expected =>
    obtain ⟨hzero, hnone⟩ := ha
    simp only [Process.step] at hs
    split at hs
    · rename_i url name hr
      obtain rfl := Option.some.inj hs
      exact h.restage hr rfl rfl (by rintro ⟨⟩) (by rintro ⟨⟩)
        (.drain (fun th q _ hq => hnone th q hq) hzero rfl)
    · cases hs
  | timeout thread =>
    simp only [Process.step] at hs
    split at hs
    · rename_i url name e k hr
      split_ifs at hs
      obtain rfl := Option.some.inj hs
      have hcount : s.retry + 1 = k + 1 := by rw [h.paced.budget thread _ _ _ hr rfl]
      exact h.restage hr rfl rfl (by rintro ⟨⟩) (by rintro ⟨⟩)
        (.drain (h.paced.others hr ⟨_, _, rfl⟩) hcount rfl)
    · cases hs
  | signal thread response =>
    simp only [Process.step] at hs
    split at hs
    · rename_i url name e k hr
      split_ifs at hs
      all_goals
        obtain rfl := Option.some.inj hs
        exact h.restage hr rfl rfl (by rintro ⟨⟩) (by rintro ⟨⟩)
          (.drain (h.paced.others hr ⟨_, _, rfl⟩) rfl rfl)
    · cases hs
  | leave thread =>
    simp only [Process.step] at hs
    split at hs
    · rename_i url name e k hr
      split_ifs at hs
      obtain rfl := Option.some.inj hs
      exact h.restage hr rfl rfl (by rintro ⟨⟩) (by rintro ⟨⟩)
        (h.paced.other (by rintro _ ⟨⟩ ⟨_, _, ⟨⟩⟩) rfl rfl)
    · cases hs
  | finish thread => exact absurd ha id

/-- An orderly process can repeat its starts and stops. -/
theorem Orderly.repeats (hinj : Set.InjOn vmId vms) (h : Orderly s vms) : Repeatable s vms := by
  have htable : ∀ vm ∈ vms, vmId vm ∈ s.vmStates ↔ s.Running vm := by
    intro vm hvm
    rw [h.booked]
    constructor
    · rintro ⟨thread, r, hr, hid, hreg⟩
      exact ⟨thread, r, hr, hinj (h.distinct.known thread r hr) hvm hid, hreg⟩
    · rintro ⟨thread, r, hr, rfl, hreg⟩
      exact ⟨thread, r, hr, rfl, hreg⟩
  refine ⟨htable, fun vm hvm hno thread hidle => ?_, h.paced.budget⟩
  have hid : vmId (vm.1, vm.2) ∉ s.vmStates := fun hid => hno ((htable vm hvm).mp hid)
  simp only [Process.step, hidle, if_neg hid]

/-- In every run of the process whose steps are careful, over VMs with distinct ids: an id is in the
table exactly while its VM runs, a VM that does not run can be started, and a run that collects
responses has counted its own timeouts only. -/
theorem repeatable (vms : Set (String × String)) (hinj : Set.InjOn vmId vms) (s : Process)
    (h : ReachVia step (Careful vms) .empty s) : Repeatable s vms := by
  have hinv : Orderly s vms :=
    h.invariant (P := fun s => Orderly s vms) (orderly_empty vms)
      fun _ _ _ _ ho ha hs => ho.step hinj ha hs
  exact hinv.repeats hinj

/-- The thread of an act. -/
def thread : ProcessAct → ℕ
  | .start thread _ _ | .register thread | .raise thread | .throw thread | .stop thread _
  | .timeout thread | .signal thread _ | .leave thread | .finish thread => thread

/-- A step leaves the runs of the other threads alone. -/
theorem runs_step_of_ne {a : ProcessAct} {th : ℕ} (hs : s.step a = some s') (hth : th ≠ thread a) :
    s'.runs th = s.runs th := by
  have hset : ∀ o : Option VmRun, (s.setRun (thread a) o).runs th = s.runs th := by
    intro o
    rw [setRun]
    exact Function.update_of_ne hth ..
  cases a with
  | start t url name =>
    simp only [Process.step] at hs
    split at hs
    · cases hs
    · split_ifs at hs <;> obtain rfl := Option.some.inj hs
      · rfl
      · exact hset _
  | signal t response =>
    simp only [Process.step] at hs
    split at hs
    · split_ifs at hs <;> obtain rfl := Option.some.inj hs <;> exact hset _
    · cases hs
  | timeout t | leave t =>
    simp only [Process.step] at hs
    split at hs
    · split_ifs at hs
      obtain rfl := Option.some.inj hs
      exact hset _
    · cases hs
  | register t | raise t | throw t | stop t expected | finish t =>
    simp only [Process.step] at hs
    split at hs
    all_goals first | (obtain rfl := Option.some.inj hs; exact hset _) | cases hs

/-- In a run of one thread, no other thread has a run. -/
theorem runs_of_run {as : List ProcessAct} {th : ℕ} (hr : run step s as = some s')
    (has : ∀ a ∈ as, th ≠ thread a) : s'.runs th = s.runs th := by
  induction as generalizing s with
  | nil =>
    obtain rfl : s = s' := by simpa using hr
    rfl
  | cons a as ih =>
    rw [run_cons] at hr
    obtain ⟨s₁, h₁, hr⟩ := Option.bind_eq_some_iff.mp hr
    rw [ih hr fun b hb => has b (List.mem_cons_of_mem a hb)]
    exact runs_step_of_ne h₁ (has a (List.mem_cons_self ..))

/-- A VM is stopped with one response outstanding, and ends through `raise_exception`. -/
def raisedRun : List ProcessAct :=
  [.start 0 "u" "vm", .register 0, .stop 0 1, .timeout 0, .signal 0 true, .leave 0, .raise 0]

theorem repeatable_raisedRun : ∃ s, run step .empty raisedRun = some s ∧
    Repeatable s {("u", "vm")} := by
  have hmeets : Meets step (Careful {("u", "vm")}) .empty raisedRun := by
    refine ⟨⟨rfl, by rintro _ _ ⟨⟩⟩, fun s₁ h₁ => ⟨trivial, fun s₂ h₂ => ⟨?_, fun _ _ =>
      ⟨trivial, fun _ _ => ⟨trivial, fun _ _ => ⟨trivial, fun _ _ => ⟨trivial, fun _ _ =>
        trivial⟩⟩⟩⟩⟩⟩⟩
    -- Before the stop, the only run is the one that is stopped.
    obtain rfl := Option.some.inj h₁
    obtain rfl := Option.some.inj h₂
    refine ⟨rfl, fun th r hr => ?_⟩
    rintro ⟨e, k, hstage⟩
    rcases runs_update_cases hr with ⟨-, hnew⟩ | ⟨hth, hold⟩
    · obtain rfl := Option.some.inj hnew
      cases hstage
    · rcases runs_update_cases hold with ⟨rfl, -⟩ | ⟨-, hold⟩
      · exact hth rfl
      · cases hold
  cases hrun : run step .empty raisedRun with
  | none =>
    have hsome : (run step .empty raisedRun).isSome = true := by decide
    simp [hrun] at hsome
  | some s =>
    have hinj : Set.InjOn vmId {("u", "vm")} := Set.injOn_singleton ..
    exact ⟨s, rfl, repeatable _ hinj s (ReachVia.init.of_run hmeets hrun)⟩

/-- A VM is stopped, gives one response up, and returns. -/
def staleRun : List ProcessAct :=
  [.start 0 "u" "vm", .register 0, .stop 0 1, .timeout 0, .timeout 0, .timeout 0, .leave 0,
    .finish 0]

/-- After `staleRun` no thread has a run, but the id is still in the table, so a new start is
refused, and no timeout is left for the next collection. -/
theorem staleRun_not_repeatable : ∃ s, Reach step .empty s ∧ (∀ th, s.runs th = none) ∧
    s.step (.start 0 "u" "vm") = some s ∧ s.retry = 3 ∧ ¬ Repeatable s {("u", "vm")} := by
  have hend : (run step .empty staleRun).map (fun s =>
      (decide (vmId ("u", "vm") ∈ s.vmStates), s.retry, s.runs 0)) = some (true, 3, none) := by
    decide
  obtain ⟨s, hs, hend⟩ := Option.map_eq_some_iff.mp hend
  simp only [Prod.mk.injEq, decide_eq_true_eq] at hend
  obtain ⟨hid, hretry, hzero⟩ := hend
  have hnone : ∀ th, s.runs th = none := by
    intro th
    by_cases hth : th = 0
    · rw [hth, hzero]
    · have hother : ∀ a ∈ staleRun, th ≠ thread a := by
        intro a ha
        have hall : ∀ a ∈ staleRun, thread a = 0 := by decide
        rw [hall a ha]
        exact hth
      rw [runs_of_run hs hother]
      rfl
  refine ⟨s, reach_of_run hs, hnone, ?_, hretry, fun hrep => ?_⟩
  · simp only [Process.step, hzero, if_pos hid]
  · obtain ⟨th, r, hr, -⟩ := (hrep.table ("u", "vm") rfl).mp hid
    rw [hnone th] at hr
    cases hr

end Process

end Ailoy
