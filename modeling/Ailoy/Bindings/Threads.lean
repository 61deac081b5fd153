import Ailoy.Vm.Process

/-!
# The threads of several runtimes in one process

`start_threads` and `stop_threads` of the two bindings (`bindings/python/csrc/binding.cpp`,
`bindings/js-node/csrc/binding.cpp`). Each of them has one slot for the thread of a broker and one
for that of a VM, whatever the number of urls. Assigning a thread to a slot whose thread is not
joined ends the process, as an exception does that leaves a thread, and `vm_states` keeps the id of a
VM that has returned. `calls_fine_iff` says that a call does what it should exactly when each url is
started while nothing runs, and only once.

A thread that is started is taken to have got into its loop when `start_threads` returns.
-/

namespace Ailoy

open Transition

/-- A `std::optional<std::thread>`. -/
inductive Slot
  | empty
  /-- It holds the thread of a url, which no `join` has returned for. -/
  | joinable (url : String)
  /-- It holds a thread that is joined. -/
  | joined
  deriving DecidableEq

/-- The statics of a binding with those of `vm.cpp`, and the urls whose threads run. -/
structure Threads where
  brokerSlot : Slot
  vmSlot : Slot
  /-- The urls with a thread in the loop of `broker_start`. -/
  brokers : Finset String
  /-- The urls with a thread in the loop of `vm_start`. -/
  vms : Finset String
  vmStates : Finset String
  deriving DecidableEq

/-- How a call ends, with the statics when there is a next call. -/
inductive Called
  | returned (s : Threads)
  /-- `join` throws, as its thread is not joinable. -/
  | raised (s : Threads)
  /-- `join` waits for a thread that nobody has told to stop. -/
  | blocked
  /-- `std::terminate` is called. -/
  | terminated
  deriving DecidableEq

/-- A call goes on where it has not ended. -/
def Called.next : Called → (Threads → Called) → Called
  | .returned s, f => f s
  | c, _ => c

@[simp] theorem Called.next_returned (s : Threads) (f : Threads → Called) :
    (Called.returned s).next f = f s := rfl

@[simp] theorem Called.next_terminated (f : Threads → Called) :
    Called.terminated.next f = .terminated := rfl

/-- The `name` that the bindings leave to its default in `vm_start` and `vm_stop`. -/
def defaultVm (url : String) : String × String := (url, "default_vm")

namespace Threads

/-- A process that has started no thread. -/
def initial : Threads := ⟨.empty, .empty, ∅, ∅, ∅⟩

/-- `broker_start` in a thread of its own: its acceptor throws when the url has one. -/
def brokerStart (s : Threads) (url : String) : Called :=
  if url ∈ s.brokers then .terminated else .returned { s with brokers := insert url s.brokers }

/-- `vm_start` in a thread of its own: it throws when its id is occupied, and when there is no broker
to connect to. -/
def vmStart (s : Threads) (url : String) : Called :=
  if vmId (defaultVm url) ∈ s.vmStates then .terminated
  else if url ∉ s.brokers then .terminated
  else .returned { s with
    vms := insert url s.vms
    vmStates := insert (vmId (defaultVm url)) s.vmStates }

/-- The thread of a url is assigned to a slot, which gives the statics `s`. -/
def assign (slot : Slot) (s : Threads) : Called :=
  match slot with
  | .joinable _ => .terminated
  | .empty | .joined => .returned s

/-- `broker_stop`: a broker that runs ends. -/
def brokerStop (s : Threads) (url : String) : Threads :=
  { s with brokers := s.brokers.erase url }

/-- `vm_stop`: a VM that runs ends. Its id stays in `vm_states`. -/
def vmStop (s : Threads) (url : String) : Threads :=
  if vmId (defaultVm url) ∈ s.vmStates then { s with vms := s.vms.erase url } else s

/-- `join` of the thread in a slot, which gives the statics `after`. `live` are the urls whose threads
run. -/
def join (slot : Slot) (live : Finset String) (s after : Threads) : Called :=
  match slot with
  | .joinable url => if url ∈ live then .blocked else .returned after
  | .empty | .joined => .raised s

/-- The body of `start_threads`. -/
def startThreads (s : Threads) (url : String) : Called :=
  (s.brokerStart url).next fun s =>
  (assign s.brokerSlot { s with brokerSlot := .joinable url }).next fun s =>
  (s.vmStart url).next fun s =>
  assign s.vmSlot { s with vmSlot := .joinable url }

/-- The first half of `stop_threads`. -/
def stopVm (s : Threads) (url : String) : Called :=
  match s.vmSlot with
  | .empty => .returned s
  | slot =>
    let s := s.vmStop url
    join slot s.vms s { s with vmSlot := .joined }

/-- The second half of `stop_threads`. -/
def stopBroker (s : Threads) (url : String) : Called :=
  match s.brokerSlot with
  | .empty => .returned s
  | slot =>
    let s := s.brokerStop url
    join slot s.brokers s { s with brokerSlot := .joined }

/-- The body of `stop_threads`. -/
def stopThreads (s : Threads) (url : String) : Called :=
  (s.stopVm url).next fun s => s.stopBroker url

end Threads

/-- The two bindings. -/
inductive Binding
  | python
  | jsNode

/-- `start_threads` of a binding. That of `js-node` is called with the url as its argument. -/
def Binding.startThreads : Binding → Threads → String → Called
  | .python, s, url => s.startThreads url
  | .jsNode, s, url => s.startThreads url

/-- `stop_threads` of a binding. -/
def Binding.stopThreads : Binding → Threads → String → Called
  | .python, s, url => s.stopThreads url
  | .jsNode, s, url => s.stopThreads url

/-- A call of a binding. -/
inductive ThreadsAct
  | start (url : String)
  | stop (url : String)

namespace Threads

/-- A url is started while it does not run, and stopped while it does. -/
def Allows (s : Threads) : ThreadsAct → Prop
  | .start url => url ∉ s.brokers ∧ url ∉ s.vms
  | .stop url => url ∈ s.brokers ∧ url ∈ s.vms

/-- A url is started while nothing runs, and only once in a process. -/
def Suits (s : Threads) : ThreadsAct → Prop
  | .start url => s.brokers = ∅ ∧ s.vms = ∅ ∧ vmId (defaultVm url) ∉ s.vmStates
  | .stop _ => True

instance (s : Threads) (a : ThreadsAct) : Decidable (s.Allows a) :=
  match a with
  | .start _ | .stop _ => inferInstanceAs (Decidable (_ ∧ _))

instance (s : Threads) (a : ThreadsAct) : Decidable (s.Suits a) :=
  match a with
  | .start _ => inferInstanceAs (Decidable (_ ∧ _ ∧ _))
  | .stop _ => .isTrue trivial

end Threads

/-- What a call of a binding does. -/
def Binding.call (b : Binding) (s : Threads) : ThreadsAct → Called
  | .start url => b.startThreads s url
  | .stop url => b.stopThreads s url

namespace Called

/-- The statics with which the next call begins. -/
def statics : Called → Option Threads
  | .returned s | .raised s => some s
  | .blocked | .terminated => none

/-- The next call of the process. -/
def step (b : Binding) (c : Called) (a : ThreadsAct) : Option Called :=
  c.statics.map fun s => b.call s a

/-- The calls that a process may make. -/
def Allowed (c : Called) (a : ThreadsAct) : Prop := ∀ s ∈ c.statics, s.Allows a

/-- The condition. -/
def Alone (c : Called) (a : ThreadsAct) : Prop := ∀ s ∈ c.statics, s.Suits a

instance (c : Called) (a : ThreadsAct) : Decidable (Allowed c a) :=
  inferInstanceAs (Decidable (∀ s ∈ c.statics, s.Allows a))

instance (c : Called) (a : ThreadsAct) : Decidable (Alone c a) :=
  inferInstanceAs (Decidable (∀ s ∈ c.statics, s.Suits a))

/-- `start_threads` starts the threads of the url and leaves those of the others. -/
structure Starts (s : Threads) (url : String) (s' : Threads) : Prop where
  brokers : s'.brokers = insert url s.brokers
  vms : s'.vms = insert url s.vms

/-- `stop_threads` ends and joins the threads of the url and leaves those of the others. -/
structure Stops (s : Threads) (url : String) (s' : Threads) : Prop where
  joinsBroker : s.brokerSlot = .joinable url ∧ s'.brokerSlot = .joined
  joinsVm : s.vmSlot = .joinable url ∧ s'.vmSlot = .joined
  brokers : s'.brokers = s.brokers.erase url
  vms : s'.vms = s.vms.erase url

/-- A call returns and does what it should. -/
def Fine (b : Binding) (c : Called) (a : ThreadsAct) : Prop :=
  ∀ s ∈ c.statics, ∃ s', step b c a = some (.returned s') ∧
    match a with
    | .start url => Starts s url s'
    | .stop url => Stops s url s'

end Called

/-! ## One call -/

@[simp] theorem Binding.startThreads_eq (b : Binding) (s : Threads) (url : String) :
    b.startThreads s url = s.startThreads url := by
  cases b <;> rfl

@[simp] theorem Binding.stopThreads_eq (b : Binding) (s : Threads) (url : String) :
    b.stopThreads s url = s.stopThreads url := by
  cases b <;> rfl

namespace Threads

/-- Nothing runs, and no slot has a thread that is to be joined. -/
structure Quiet (s : Threads) : Prop where
  brokers : s.brokers = ∅
  vms : s.vms = ∅
  brokerSlot : ∀ url, s.brokerSlot ≠ .joinable url
  vmSlot : ∀ url, s.vmSlot ≠ .joinable url

/-- One url runs, and its threads are those in the slots. -/
structure Single (s : Threads) (url : String) : Prop where
  brokers : s.brokers = {url}
  vms : s.vms = {url}
  brokerSlot : s.brokerSlot = .joinable url
  vmSlot : s.vmSlot = .joinable url
  vmStates : vmId (defaultVm url) ∈ s.vmStates

theorem quiet_initial : Quiet initial := ⟨rfl, rfl, nofun, nofun⟩

/-- A slot without a thread that is to be joined takes any thread. -/
theorem assign_returned {slot : Slot} (h : ∀ url, slot ≠ .joinable url) (s : Threads) :
    assign slot s = .returned s := by
  cases slot with
  | joinable url => exact absurd rfl (h url)
  | empty => rfl
  | joined => rfl

variable {s : Threads} {url other : String}

/-- The statics behind the start of the only url. -/
def started (s : Threads) (url : String) : Threads :=
  ⟨.joinable url, .joinable url, insert url s.brokers, insert url s.vms,
    insert (vmId (defaultVm url)) s.vmStates⟩

/-- The statics behind the stop of the only url. -/
def stopped (s : Threads) (url : String) : Threads :=
  ⟨.joined, .joined, s.brokers.erase url, s.vms.erase url, s.vmStates⟩

/-- A url that is new to the process is started while nothing runs. -/
theorem Quiet.startThreads (h : Quiet s) (hid : vmId (defaultVm url) ∉ s.vmStates) :
    s.startThreads url = .returned (s.started url) := by
  have hb : url ∉ s.brokers := by rw [h.brokers]; exact Finset.notMem_empty url
  unfold Threads.startThreads
  rw [brokerStart, if_neg hb, Called.next_returned, assign_returned h.brokerSlot,
    Called.next_returned, vmStart, if_neg hid, if_neg (by simp), Called.next_returned,
    assign_returned h.vmSlot]
  rfl

/-- A url that was started before cannot be started again: its VM finds its own id. -/
theorem Quiet.startThreads_again (h : Quiet s) (hid : vmId (defaultVm url) ∈ s.vmStates) :
    s.startThreads url = .terminated := by
  have hb : url ∉ s.brokers := by rw [h.brokers]; exact Finset.notMem_empty url
  unfold Threads.startThreads
  rw [brokerStart, if_neg hb, Called.next_returned, assign_returned h.brokerSlot,
    Called.next_returned, vmStart, if_pos hid, Called.next_terminated]

/-- While a url runs, another cannot be started: the slot of its broker is taken. -/
theorem Single.startThreads_other (h : Single s url) (hother : other ∉ s.brokers) :
    s.startThreads other = .terminated := by
  unfold Threads.startThreads
  rw [brokerStart, if_neg hother, Called.next_returned]
  show (assign s.brokerSlot _).next _ = _
  rw [h.brokerSlot, assign, Called.next_terminated]

/-- The url that runs is stopped. -/
theorem Single.stopThreads (h : Single s url) :
    s.stopThreads url = .returned (s.stopped url) := by
  have hvm : s.stopVm url = .returned { s with vmSlot := .joined, vms := s.vms.erase url } := by
    rw [stopVm, h.vmSlot]
    dsimp only
    rw [vmStop, if_pos h.vmStates, join, if_neg (Finset.notMem_erase url s.vms)]
  rw [Threads.stopThreads, hvm, Called.next_returned, stopBroker]
  dsimp only
  rw [h.brokerSlot]
  dsimp only
  rw [brokerStop, join, if_neg (Finset.notMem_erase url s.brokers)]
  rfl

/-- Behind its start, a url runs alone. -/
theorem Quiet.single_started (h : Quiet s) : Single (s.started url) url := by
  refine ⟨?_, ?_, rfl, rfl, Finset.mem_insert_self ..⟩
  · rw [started, h.brokers]
    rfl
  · rw [started, h.vms]
    rfl

/-- Behind the stop of the only url, nothing runs. -/
theorem Single.quiet_stopped (h : Single s url) : Quiet (s.stopped url) := by
  refine ⟨?_, ?_, nofun, nofun⟩
  · simp [stopped, h.brokers]
  · simp [stopped, h.vms]

end Threads

/-! ## Runs of a process -/

namespace Called

open Threads

/-- In a process whose calls are allowed, at most one url runs. -/
def Settled (c : Called) : Prop := ∀ s ∈ c.statics, Quiet s ∨ ∃ url, Single s url

variable {b : Binding} {c c' : Called} {a : ThreadsAct}

theorem settled_initial : Settled (.returned initial) := by
  rintro s ⟨⟩
  exact .inl quiet_initial

/-- What an allowed call does. -/
theorem Settled.step_cases (h : Settled c) {s : Threads} (hc : c.statics = some s)
    (ha : Allowed c a) :
    (∃ url, a = .start url ∧ Quiet s ∧ vmId (defaultVm url) ∉ s.vmStates ∧
      step b c a = some (.returned (s.started url))) ∨
    (∃ url, a = .start url ∧ ¬ (Quiet s ∧ vmId (defaultVm url) ∉ s.vmStates) ∧
      step b c a = some .terminated) ∨
    (∃ url, a = .stop url ∧ Single s url ∧ step b c a = some (.returned (s.stopped url))) := by
  have hok := ha s hc
  cases a with
  | start url =>
    have hstep : step b c (.start url) = some (s.startThreads url) := by
      rw [step, hc, Option.map_some, Binding.call, Binding.startThreads_eq]
    rw [hstep]
    rcases h s hc with hq | ⟨other, hs⟩
    · by_cases hid : vmId (defaultVm url) ∈ s.vmStates
      · rw [hq.startThreads_again hid]
        exact .inr (.inl ⟨url, rfl, fun h => h.2 hid, rfl⟩)
      · rw [hq.startThreads hid]
        exact .inl ⟨url, rfl, hq, hid, rfl⟩
    · rw [hs.startThreads_other hok.1]
      exact .inr (.inl ⟨url, rfl, fun h => h.1.brokerSlot other hs.brokerSlot, rfl⟩)
  | stop url =>
    have hstep : step b c (.stop url) = some (s.stopThreads url) := by
      rw [step, hc, Option.map_some, Binding.call, Binding.stopThreads_eq]
    rw [hstep]
    rcases h s hc with hq | ⟨other, hs⟩
    · have hmem := hok.1
      rw [hq.brokers] at hmem
      exact absurd hmem (Finset.notMem_empty url)
    · obtain rfl : url = other := by
        have hmem := hok.1
        rw [hs.brokers] at hmem
        exact Finset.mem_singleton.mp hmem
      rw [hs.stopThreads]
      exact .inr (.inr ⟨url, rfl, hs, rfl⟩)

/-- An allowed call leaves at most one url running. -/
theorem Settled.step (h : Settled c) (ha : Allowed c a) (hs : step b c a = some c') :
    Settled c' := by
  cases hc : c.statics with
  | none =>
    rw [Called.step, hc] at hs
    cases hs
  | some s =>
    rcases h.step_cases (b := b) hc ha with
      ⟨url, -, hq, -, hstep⟩ | ⟨url, -, -, hstep⟩ | ⟨url, -, hsingle, hstep⟩
    · obtain rfl := Option.some.inj (hstep.symm.trans hs)
      rintro _ ⟨⟩
      exact .inr ⟨url, hq.single_started⟩
    · obtain rfl := Option.some.inj (hstep.symm.trans hs)
      rintro _ ⟨⟩
    · obtain rfl := Option.some.inj (hstep.symm.trans hs)
      rintro _ ⟨⟩
      exact .inl hsingle.quiet_stopped

/-- An allowed call does what it should exactly under the condition. -/
theorem Settled.alone_iff (h : Settled c) (ha : Allowed c a) : Alone c a ↔ Fine b c a := by
  constructor
  · intro halone s hc
    have hok := halone s hc
    rcases h.step_cases (b := b) hc ha with
      ⟨url, rfl, -, -, hstep⟩ | ⟨url, rfl, hno, -⟩ | ⟨url, rfl, hs, hstep⟩
    · exact ⟨_, hstep, rfl, rfl⟩
    · rcases h s hc with hq | ⟨other, hs⟩
      · exact absurd ⟨hq, hok.2.2⟩ hno
      · have hempty := hok.1
        rw [hs.brokers] at hempty
        exact absurd hempty (Finset.singleton_ne_empty other)
    · exact ⟨_, hstep, ⟨hs.brokerSlot, rfl⟩, ⟨hs.vmSlot, rfl⟩, rfl, rfl⟩
  · intro hfine s hc
    obtain ⟨s', hs', -⟩ := hfine s hc
    rcases h.step_cases (b := b) hc ha with
      ⟨url, rfl, hq, hid, -⟩ | ⟨url, rfl, -, hstep⟩ | ⟨url, rfl, -, -⟩
    · exact ⟨hq.brokers, hq.vms, hid⟩
    · rw [hstep] at hs'
      cases hs'
    · trivial

/-- In a process in which each url is started only while it does not run and stopped only while it
does, every call returns and does what it should exactly when each url is started while nothing runs,
and only once. -/
theorem calls_fine_iff (b : Binding) (as : List ThreadsAct)
    (h : Meets (step b) Allowed (.returned initial) as) :
    Meets (step b) Alone (.returned initial) as ↔
      Meets (step b) (Fine b) (.returned initial) as :=
  h.congr (fun _ _ _ hc ha hs => Settled.step hc ha hs)
    (fun _ _ hc ha => hc.alone_iff ha) settled_initial

/-- Two urls run one after the other. -/
theorem calls_fine_inTurn : Meets (step .python) (Fine .python) (.returned initial)
    [.start "inproc://a", .stop "inproc://a", .start "inproc://b", .stop "inproc://b"] :=
  (calls_fine_iff .python _ (by decide)).mp (by decide)

/-- A run with a call that ends the process is not fine. -/
theorem not_fine {pre post : List ThreadsAct} (hrun : run (step b) (.returned initial) pre = some c)
    (hstep : step b c a = some .terminated) :
    ¬ Meets (step b) (Fine b) (.returned initial) (pre ++ a :: post) := by
  intro hfine
  obtain ⟨s, hs, -⟩ := Option.map_eq_some_iff.mp hstep
  obtain ⟨s', hs', -⟩ := meets_iff.mp hfine pre a post c rfl hrun s hs
  cases hstep.symm.trans hs'

/-- A second url is started while the first runs. -/
def overlap : List ThreadsAct := [.start "inproc://a"] ++ [.start "inproc://b"]

/-- A url is started again behind its stop. -/
def restart : List ThreadsAct :=
  [.start "inproc://a", .stop "inproc://a"] ++ [.start "inproc://a"]

/-- Two allowed runs that end the process. -/
theorem overlap_restart_not_fine :
    (Meets (step .python) Allowed (.returned initial) overlap ∧
      ¬ Meets (step .python) (Fine .python) (.returned initial) overlap) ∧
    (Meets (step .jsNode) Allowed (.returned initial) restart ∧
      ¬ Meets (step .jsNode) (Fine .jsNode) (.returned initial) restart) := by
  have hoverlap : ¬ Meets (step .python) (Fine .python) (.returned initial) overlap :=
    not_fine (c := .returned (initial.started "inproc://a")) (by decide) (by decide)
  have hrestart : ¬ Meets (step .jsNode) (Fine .jsNode) (.returned initial) restart :=
    not_fine (c := .returned ((initial.started "inproc://a").stopped "inproc://a"))
      (by decide) (by decide)
  exact ⟨⟨by decide, hoverlap⟩, ⟨by decide, hrestart⟩⟩

end Called

end Ailoy
