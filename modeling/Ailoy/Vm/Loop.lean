import Ailoy.Lib.Transition
import Ailoy.Vm.Handlers

/-!
# The VM's event loop

`vm_start` of `vm/src/vm.cpp` after its connection, as a machine: it imports its modules, takes one
packet after the other, and after a stop takes only responses until it disconnects. The loop of a
call takes one step for each `op->step()`, during which no packet is taken. A fault anywhere leaves
`vm_start`. A step returns the packets that it sends; whether they arrive is the concern of the
sockets.
-/

namespace Ailoy

/-- Where `vm_start` is. -/
inductive Activity (σ : Type)
  /-- It imports modules. -/
  | importing
  /-- It waits for the next signal in its event loop. -/
  | listening
  /-- It is in the loop of a call. -/
  | calling (c : Call σ)
  /-- It collects the remaining responses after a stop. -/
  | draining
  /-- It has returned. -/
  | returned
  /-- It has ended in a fault. -/
  | left (f : Fault)

/-- The state of `vm_start`. -/
structure Loop (σ ω : Type) where
  vm : Vm σ ω
  activity : Activity σ

/-- What makes `vm_start` go on. -/
inductive LoopAct (σ ω : Type)
  /-- The next module is imported. -/
  | importModule (mod : Module σ ω)
  /-- All modules are imported. -/
  | enter
  /-- A packet has arrived. -/
  | recv (pkt : Packet)
  /-- The operator of the call takes a step. -/
  | advance
  /-- The stop signal has arrived. -/
  | stop
  /-- The responses are collected, or given up. -/
  | disconnect (txId : TxId)

namespace Loop

variable {σ ω : Type}

/-- The state before the first module is imported. -/
def start (env : ω) : Loop σ ω := ⟨.empty env, .importing⟩

/-- The `recv` branch of the event loop. -/
def recv (uuid : ℕ → TxId) (l : Loop σ ω) (pkt : Packet) : Loop σ ω × List Packet :=
  match l.vm.onRecv uuid pkt with
  | .error f => ({ l with activity := .left f }, [])
  | .ok (vm, pkts, none) => (⟨vm, .listening⟩, pkts)
  | .ok (vm, pkts, some c) => (⟨vm, .calling c⟩, pkts)

/-- One iteration of the loop of a call. -/
def advance (l : Loop σ ω) (c : Call σ) : Loop σ ω × List Packet :=
  match c.code.step c.state with
  | .error f => ({ l with activity := .left f }, [])
  | .ok (.ok val finish, state) =>
    (if finish then ⟨l.vm.store c.code state c.site, .listening⟩
      else { l with activity := .calling { c with sequence := c.sequence + 1, state } },
      [.respondExecute c.txId c.sequence finish val])
  | .ok (.error e, state) =>
    (⟨l.vm.store c.code state c.site, .listening⟩,
      [.respondExecuteError c.txId c.sequence e.reason])

/-- The collection of the remaining responses: other packets are passed over. -/
def drain (l : Loop σ ω) (pkt : Packet) : Loop σ ω :=
  match (do let _ ← pkt.describe; pkt.getTxId) with
  | .error f => { l with activity := .left f }
  | .ok txId =>
    if pkt.ptype = .respond then
      { l with
        vm := { l.vm with expectedResponses := l.vm.expectedResponses.erase txId } }
    else l

/-- A step of `vm_start`, with the packets that it sends. -/
def step (uuid : ℕ → TxId) (l : Loop σ ω) (a : LoopAct σ ω) : Option (Loop σ ω × List Packet) :=
  match l.activity, a with
  | .importing, .importModule mod =>
    let (vm, pkts) := l.vm.onImportModule uuid mod
    some (⟨vm, .importing⟩, pkts)
  | .importing, .enter => some ({ l with activity := .listening }, [])
  | .listening, .recv pkt => some (l.recv uuid pkt)
  | .listening, .stop =>
    let (vm, pkts) := l.vm.onStop uuid
    some (⟨vm, .draining⟩, pkts)
  | .calling c, .advance => some (l.advance c)
  | .draining, .recv pkt => some (l.drain pkt, [])
  | .draining, .disconnect txId => some ({ l with activity := .returned }, [.disconnect txId])
  | _, _ => none

/-- A step without the packets. -/
def next (uuid : ℕ → TxId) (l : Loop σ ω) (a : LoopAct σ ω) : Option (Loop σ ω) :=
  (l.step uuid a).map Prod.fst

/-- The run of the loop of a call, with the packets that it sends, up to where it ends. -/
inductive Runs : Loop σ ω → List Packet → Loop σ ω → Prop
  | done {l : Loop σ ω} : (∀ c, l.activity ≠ .calling c) → Runs l [] l
  | advance {l l' : Loop σ ω} {c : Call σ} {pkts : List Packet} : l.activity = .calling c →
      Runs (l.advance c).1 pkts l' → Runs l ((l.advance c).2 ++ pkts) l'

/-- The VM takes a packet, and runs until no call is in its loop any more. -/
def Serves (uuid : ℕ → TxId) (l : Loop σ ω) (pkt : Packet) (pkts : List Packet) (l' : Loop σ ω) :
    Prop :=
  ∃ pkts', Runs (l.recv uuid pkt).1 pkts' l' ∧ pkts = (l.recv uuid pkt).2 ++ pkts'

/-- A run is determined by the state it starts from. -/
theorem Runs.unique {l l₁ l₂ : Loop σ ω} {pkts₁ pkts₂ : List Packet} (h₁ : Runs l pkts₁ l₁)
    (h₂ : Runs l pkts₂ l₂) : pkts₁ = pkts₂ ∧ l₁ = l₂ := by
  induction h₁ generalizing pkts₂ with
  | done hdone =>
    cases h₂ with
    | done => exact ⟨rfl, rfl⟩
    | advance hc => exact absurd hc (hdone _)
  | advance hc _ ih =>
    cases h₂ with
    | done hdone => exact absurd hc (hdone _)
    | advance hc' hruns =>
      obtain rfl := Activity.calling.inj (hc.symm.trans hc')
      obtain ⟨rfl, rfl⟩ := ih hruns
      exact ⟨rfl, rfl⟩

/-- What the VM does with a packet is determined by its state and the packet. -/
theorem Serves.unique {uuid : ℕ → TxId} {l l₁ l₂ : Loop σ ω} {pkt : Packet}
    {pkts₁ pkts₂ : List Packet} (h₁ : Serves uuid l pkt pkts₁ l₁)
    (h₂ : Serves uuid l pkt pkts₂ l₂) : pkts₁ = pkts₂ ∧ l₁ = l₂ := by
  obtain ⟨_, hr₁, rfl⟩ := h₁
  obtain ⟨_, hr₂, rfl⟩ := h₂
  obtain ⟨rfl, rfl⟩ := hr₁.unique hr₂
  exact ⟨rfl, rfl⟩

end Loop

end Ailoy
