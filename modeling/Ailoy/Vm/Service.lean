import Ailoy.Lib.SequentialObject
import Ailoy.Vm.Moves

/-!
# The VM as a sequential object

What the VM is for: a table of operators and components that serves one request after the other.
`Tables` is what requests read and change, and `Serves` says what a request is answered with and
which tables it leaves. The loop of `vm_start` does not serve a call at once. `recv_served` says
what it does when a request arrives, and `Pending` what it owes in the loop of a call: whatever the
operator still yields completes the answer.
-/

namespace Ailoy

open SequentialObject

/-- A request with the input filled in has the same packet. -/
theorem Packet.execute_filled (t : TxId) (r : Request) :
    Packet.execute t r.filled = .execute t r := by
  cases r <;> rfl

/-- What the broker sends to the VM is a response, or the packet of a request. -/
theorem Packet.ForVm.execute_of_ne {pkt : Packet} (h : pkt.ForVm) (hpt : pkt.ptype ≠ .respond) :
    ∃ t r, pkt = .execute t r ∧ pkt.request? = some r := by
  cases h with
  | execute t r => exact ⟨t, r.filled, (execute_filled t r).symm, request?_execute t r⟩
  | respond | respondError => exact absurd rfl hpt

/-- What requests read and change of the VM: its tables, and the environment of the factories. -/
structure Tables (σ ω : Type) where
  factories : UnorderedMap String (ComponentFactory σ ω)
  components : UnorderedMap String (Component σ)
  operators : UnorderedMap String (Operator σ)
  env : ω

namespace OperatorCode

variable {σ : Type} {code : OperatorCode σ}

/-- An operator yields one sequence of outputs from a state. -/
theorem Yields.unique {s : σ} {outs outs' : List Output} {r r' : Except Fault σ}
    (h : code.Yields s outs r) (h' : code.Yields s outs' r') : outs = outs' ∧ r = r' := by
  induction h generalizing outs' r' with
  | finish hs =>
    cases h' with
    | finish hs' =>
      cases hs.symm.trans hs'
      exact ⟨rfl, rfl⟩
    | fail hs' | throw hs' | next hs' => cases hs.symm.trans hs'
  | fail hs =>
    cases h' with
    | fail hs' =>
      cases hs.symm.trans hs'
      exact ⟨rfl, rfl⟩
    | finish hs' | throw hs' | next hs' => cases hs.symm.trans hs'
  | throw hs =>
    cases h' with
    | throw hs' =>
      cases hs.symm.trans hs'
      exact ⟨rfl, rfl⟩
    | finish hs' | fail hs' | next hs' => cases hs.symm.trans hs'
  | next hs _ ih =>
    cases h' with
    | next hs' hyields' =>
      cases hs.symm.trans hs'
      obtain ⟨rfl, rfl⟩ := ih hyields'
      exact ⟨rfl, rfl⟩
    | finish hs' | fail hs' | throw hs' => cases hs.symm.trans hs'

/-- An operator answers an input in one way. -/
theorem Answers.unique {s : σ} {input : Value} {outs outs' : List Output} {r r' : Except Fault σ}
    (h : code.Answers s input outs r) (h' : code.Answers s input outs' r') :
    outs = outs' ∧ r = r' := by
  cases h with
  | throw hinit =>
    cases h' with
    | throw hinit' =>
      cases hinit.symm.trans hinit'
      exact ⟨rfl, rfl⟩
    | refuse hinit' | run hinit' => cases hinit.symm.trans hinit'
  | refuse hinit =>
    cases h' with
    | refuse hinit' =>
      cases hinit.symm.trans hinit'
      exact ⟨rfl, rfl⟩
    | throw hinit' | run hinit' => cases hinit.symm.trans hinit'
  | run hinit hyields =>
    cases h' with
    | run hinit' hyields' =>
      cases hinit.symm.trans hinit'
      exact hyields.unique hyields'
    | throw hinit' | refuse hinit' => cases hinit.symm.trans hinit'

/-- When `initialize` succeeds, the answer is what the operator yields. -/
theorem Answers.yields {s s' : σ} {input : Value} {outs : List Output} {r : Except Fault σ}
    (h : code.Answers s input outs r) (hinit : code.init input s = .ok (none, s')) :
    code.Yields s' outs r := by
  cases h with
  | throw hinit' | refuse hinit' => cases hinit.symm.trans hinit'
  | run hinit' hyields =>
    cases hinit.symm.trans hinit'
    exact hyields

/-- The `initialize` of an operator that answers returns. -/
theorem Answers.returned {s s' : σ} {input : Value} {outs : List Output}
    (h : code.Answers s input outs (.ok s')) : Vm.returned (code.init input s) = true := by
  cases h with
  | refuse hinit | run hinit =>
    rw [hinit]
    rfl

end OperatorCode

namespace Tables

variable {σ ω : Type}

def empty (env : ω) : Tables σ ω := ⟨∅, ∅, ∅, env⟩

/-- The tables with a module: what they have already stays. -/
def importModule (b : Tables σ ω) (mod : Module σ ω) : Tables σ ω :=
  { b with
    operators := UnorderedMap.mergeNew b.operators mod.ops
    factories := UnorderedMap.mergeNew b.factories mod.factories }

/-- The tables after the imports of a VM. -/
def imported (env : ω) (mods : List (Module σ ω)) : Tables σ ω :=
  mods.foldl importModule (empty env)

@[simp] theorem components_imported (env : ω) (mods : List (Module σ ω)) :
    (imported env mods).components = ∅ := by
  unfold imported
  induction mods using List.reverseRecOn with
  | nil => rfl
  | append_singleton mods mod ih =>
    rw [List.foldl_append]
    exact ih

/-- What a request is answered with, and the tables behind it. -/
def Serves (b : Tables σ ω) : Request → List Output → Tables σ ω → Prop
  | .callFunction opname input, outs, b' =>
    match b.operators.lookup opname with
    | none => outs = [.error ⟨"Unknown operator: " ++ opname⟩] ∧ b' = b
    | some op =>
      ∃ s, op.code.Answers op.state (input.getD .null) outs (.ok s) ∧
        b' = { b with operators := b.operators.insert opname ⟨op.code, s⟩ }
  | .defineComponent comptype compname input, outs, b' =>
    match b.factories.lookup comptype, b.factories.lookup compname with
    | none, _ => outs = [.error ⟨"Unknown operator: " ++ comptype⟩] ∧ b' = b
    | some _, some _ => outs = [.error ⟨"Component already exists: " ++ compname⟩] ∧ b' = b
    | some factory, none =>
      match factory (input.getD .null) b.env with
      | .error _ => False
      | .ok (.error e, env) => outs = [.error e] ∧ b' = { b with env }
      | .ok (.ok comp, env) =>
        outs = [.ok (.map []) true] ∧
          b' = { b with env, components := b.components.insert compname comp }
  | .deleteComponent compname, outs, b' =>
    match b.components.lookup compname with
    | none => outs = [.error ⟨"Component not exists: " ++ compname⟩] ∧ b' = b
    | some _ =>
      outs = [.ok (.map []) true] ∧ b' = { b with components := b.components.erase compname }
  | .callMethod compname opname input, outs, b' =>
    match b.components.lookup compname with
    | none => outs = [.error ⟨"Component not exists: " ++ compname⟩] ∧ b' = b
    | some comp =>
      match comp.ops.lookup opname with
      | none =>
        outs = [.error ⟨"Method not exists: " ++ compname ++ "." ++ opname⟩] ∧ b' = b
      | some code =>
        ∃ s, code.Answers comp.objs (input.getD .null) outs (.ok s) ∧
          b' = { b with components := b.components.insert compname { comp with objs := s } }

end Tables

namespace Vm

variable {σ ω : Type}

def tables (vm : Vm σ ω) : Tables σ ω := ⟨vm.factories, vm.components, vm.operators, vm.env⟩

@[simp] theorem tables_sendEach (uuid : ℕ → TxId) (vm : Vm σ ω) (pkt : TxId → Instruction → Packet)
    (is : List Instruction) : (sendEach uuid vm pkt is).1.tables = vm.tables := rfl

@[simp] theorem tables_onImportModule (uuid : ℕ → TxId) (vm : Vm σ ω) (mod : Module σ ω) :
    (vm.onImportModule uuid mod).1.tables = vm.tables.importModule mod := rfl

/-- The outputs of a request that is served are those that the VM answers it with. -/
theorem outputs_of_serves {vm : Vm σ ω} {r : Request} {outs : List Output} {b' : Tables σ ω}
    (h : vm.tables.Serves r outs b') : vm.Outputs r outs := by
  cases r with
  | callFunction opname input =>
    simp only [Tables.Serves, tables] at h
    simp only [Outputs]
    cases hop : vm.operators.lookup opname with
    | none =>
      simp only [hop] at h
      exact h.1
    | some op =>
      simp only [hop] at h
      obtain ⟨s, hanswers, -⟩ := h
      exact ⟨s, hanswers⟩
  | defineComponent comptype compname input =>
    simp only [Tables.Serves, tables] at h
    simp only [Outputs]
    cases hfac : vm.factories.lookup comptype with
    | none =>
      simp only [hfac] at h
      exact h.1
    | some factory =>
      cases hname : vm.factories.lookup compname with
      | some other =>
        simp only [hfac, hname] at h
        exact h.1
      | none =>
        simp only [hfac, hname] at h
        dsimp only
        cases hmake : factory (input.getD .null) vm.env with
        | error f =>
          simp only [hmake] at h
        | ok made =>
          obtain ⟨compOpt, env⟩ := made
          cases compOpt with
          | error e =>
            simp only [hmake] at h
            exact h.1
          | ok comp =>
            simp only [hmake] at h
            exact h.1
  | deleteComponent compname =>
    simp only [Tables.Serves, tables] at h
    simp only [Outputs]
    cases hcomp : vm.components.lookup compname with
    | none =>
      simp only [hcomp] at h
      exact h.1
    | some comp =>
      simp only [hcomp] at h
      exact h.1
  | callMethod compname opname input =>
    simp only [Tables.Serves, tables] at h
    simp only [Outputs]
    cases hcomp : vm.components.lookup compname with
    | none =>
      simp only [hcomp] at h
      exact h.1
    | some comp =>
      simp only [hcomp] at h
      dsimp only
      cases hop : comp.ops.lookup opname with
      | none =>
        simp only [hop] at h
        exact h.1
      | some code =>
        simp only [hop] at h
        obtain ⟨s, hanswers, -⟩ := h
        exact ⟨s, hanswers⟩

/-- A request has one answer in a state of the VM. -/
theorem Outputs.unique {vm : Vm σ ω} {r : Request} {outs outs' : List Output}
    (h : vm.Outputs r outs) (h' : vm.Outputs r outs') : outs = outs' := by
  by_cases hr : r.IsCall = false
  · obtain ⟨o, -, hone⟩ := vm.outputs_single hr
    rw [hone outs h, hone outs' h']
  · cases r with
    | callFunction opname input =>
      simp only [Outputs] at h h'
      cases hop : vm.operators.lookup opname with
      | none =>
        simp only [hop] at h h'
        rw [h, h']
      | some op =>
        simp only [hop] at h h'
        obtain ⟨s, hanswers⟩ := h
        obtain ⟨s', hanswers'⟩ := h'
        exact (hanswers.unique hanswers').1
    | callMethod compname opname input =>
      simp only [Outputs] at h h'
      cases hcomp : vm.components.lookup compname with
      | none =>
        simp only [hcomp] at h h'
        rw [h, h']
      | some comp =>
        simp only [hcomp] at h h'
        cases hop : comp.ops.lookup opname with
        | none =>
          simp only [hop] at h h'
          rw [h, h']
        | some code =>
          simp only [hop] at h h'
          obtain ⟨s, hanswers⟩ := h
          obtain ⟨s', hanswers'⟩ := h'
          exact (hanswers.unique hanswers').1
    | defineComponent | deleteComponent => exact absurd rfl hr

/-- The code of a request that the VM answers returns. -/
theorem Outputs.returns {vm : Vm σ ω} {r : Request} {outs : List Output} (h : vm.Outputs r outs) :
    vm.Returns r = true := by
  cases r with
  | defineComponent | deleteComponent => exact returns_of_outputs rfl h
  | callFunction opname input =>
    simp only [Outputs] at h
    simp only [Returns]
    cases hop : vm.operators.lookup opname with
    | none => rfl
    | some op =>
      simp only [hop] at h
      obtain ⟨s, hanswers⟩ := h
      exact hanswers.returned
  | callMethod compname opname input =>
    simp only [Outputs] at h
    simp only [Returns]
    cases hcomp : vm.components.lookup compname with
    | none => rfl
    | some comp =>
      simp only [hcomp] at h
      dsimp only
      cases hop : comp.ops.lookup opname with
      | none => rfl
      | some code =>
        simp only [hop] at h
        obtain ⟨s, hanswers⟩ := h
        exact hanswers.returned

/-- What is still owed in the loop of a call: after the outputs `outs` that it has made, whatever
its operator yields completes the answer, and leaves the tables with the operator's state stored. -/
def Pending (vm : Vm σ ω) (r : Request) (c : Call σ) (outs : List Output) : Prop :=
  ∀ rest s, c.code.Yields c.state rest (.ok s) →
    vm.tables.Serves r (outs ++ rest) (vm.store c.code s c.site).tables

theorem Pending.next {vm : Vm σ ω} {r : Request} {c : Call σ} {outs : List Output} {val : Value}
    {s : σ} (h : vm.Pending r c outs) (hs : c.code.step c.state = .ok (.ok val false, s)) :
    vm.Pending r { c with sequence := c.sequence + 1, state := s } (outs ++ [.ok val false]) := by
  intro rest s' hyields
  rw [List.append_assoc]
  exact h _ s' (.next hs hyields)

theorem Pending.finish {vm : Vm σ ω} {r : Request} {c : Call σ} {outs : List Output} {out : Output}
    {s : σ} (h : vm.Pending r c outs) (hs : c.code.step c.state = .ok (out, s))
    (hfin : out.final = true) :
    vm.tables.Serves r (outs ++ [out]) (vm.store c.code s c.site).tables := by
  cases out with
  | error e => exact h _ s (.fail hs)
  | ok val fin =>
    obtain rfl : fin = true := hfin
    exact h _ s (.finish hs)

end Vm

namespace Loop

variable {σ ω : Type}

/-- What the loop has done with a request: it has served it, it is in the loop of its call, or it
has left `vm_start`. -/
inductive Takes (l : Loop σ ω) (t : TxId) (r : Request) : Loop σ ω → Prop
  | serve {vm : Vm σ ω} (outs : List Output) : l.vm.tables.Serves r outs vm.tables →
      Takes l t r ⟨vm, .listening⟩
  | call {c : Call σ} : c.txId = t → l.vm.Pending r c [] →
      (∀ outs, l.vm.Outputs r outs → ∃ s, c.code.Yields c.state outs (.ok s)) →
      Takes l t r ⟨l.vm, .calling c⟩
  | leave (f : Fault) : l.vm.Returns r = false → Takes l t r { l with activity := .left f }

variable {uuid : ℕ → TxId} {l : Loop σ ω}

/-- A call whose operator answers the request is taken. -/
theorem takes_startCall {t : TxId} {r : Request} {code : OperatorCode σ} {s : σ} {site : Site σ}
    {input : Value} (hrecv : l.vm.onRecv uuid (.execute t r) = l.vm.startCall t code s site input)
    (hserves : ∀ outs s', code.Answers s input outs (.ok s') →
      l.vm.tables.Serves r outs (l.vm.store code s' site).tables)
    (houts : ∀ outs, l.vm.Outputs r outs → ∃ s', code.Answers s input outs (.ok s'))
    (hret : l.vm.Returns r = Vm.returned (code.init input s)) :
    l.Takes t r (l.recv uuid (.execute t r)).1 := by
  unfold Vm.startCall at hrecv
  cases hinit : code.init input s with
  | error f =>
    rw [hinit, Except.error_bind] at hrecv
    rw [hinit] at hret
    simp only [recv, hrecv]
    exact .leave f hret
  | ok res =>
    obtain ⟨e, s'⟩ := res
    rw [hinit, Except.ok_bind] at hrecv
    cases e with
    | some e =>
      have hrecv' : l.vm.onRecv uuid (.execute t r) =
        .ok (l.vm.store code s' site, [.respondExecuteError t 0 e.reason], none) := hrecv
      simp only [recv, hrecv']
      exact .serve _ (hserves _ _ (.refuse hinit))
    | none =>
      have hrecv' : l.vm.onRecv uuid (.execute t r) =
        .ok (l.vm, [], some ⟨t, 0, code, s', site⟩) := hrecv
      simp only [recv, hrecv']
      refine .call rfl (fun outs s'' hy => hserves outs s'' (.run hinit hy)) fun outs h => ?_
      obtain ⟨s'', hanswers⟩ := houts outs h
      exact ⟨s'', hanswers.yields hinit⟩

/-- A request that is refused without running any code is served. -/
theorem takes_refused {t : TxId} {r : Request} {reason : String}
    (hrecv : l.vm.onRecv uuid (.execute t r) =
      .ok (l.vm, [.respondExecuteError t 0 reason], none))
    (hserves : l.vm.tables.Serves r [.error ⟨reason⟩] l.vm.tables) :
    l.Takes t r (l.recv uuid (.execute t r)).1 := by
  simp only [recv, hrecv]
  exact .serve _ hserves

/-- The loop takes every request. -/
theorem recv_served (t : TxId) (r : Request) : l.Takes t r (l.recv uuid (.execute t r)).1 := by
  cases r with
  | callFunction opname input =>
    have hspec := Vm.onRecv_callFunction uuid l.vm t [("in", input.getD .null)] opname
    cases hop : l.vm.operators.lookup opname with
    | none =>
      rw [hop] at hspec
      exact takes_refused hspec (by simp only [Tables.Serves, Vm.tables, hop, and_self])
    | some op =>
      rw [hop] at hspec
      refine takes_startCall hspec (fun outs s' h => ?_) (fun outs h => ?_) ?_
      · simp only [Tables.Serves, Vm.tables, hop]
        exact ⟨s', h, rfl⟩
      · simpa only [Vm.Outputs, hop] using h
      · simp only [Vm.Returns, hop]
  | callMethod compname opname input =>
    have hspec := Vm.onRecv_callMethod uuid l.vm t [("in", input.getD .null)] compname opname
    cases hcomp : l.vm.components.lookup compname with
    | none =>
      rw [hcomp] at hspec
      exact takes_refused hspec (by simp only [Tables.Serves, Vm.tables, hcomp, and_self])
    | some comp =>
      rw [hcomp] at hspec
      cases hop : comp.ops.lookup opname with
      | none =>
        simp only [hop] at hspec
        exact takes_refused hspec (by simp only [Tables.Serves, Vm.tables, hcomp, hop, and_self])
      | some code =>
        simp only [hop] at hspec
        refine takes_startCall hspec (fun outs s' h => ?_) (fun outs h => ?_) ?_
        · simp only [Tables.Serves, Vm.tables, hcomp, hop]
          exact ⟨s', h, rfl⟩
        · simpa only [Vm.Outputs, hcomp, hop] using h
        · simp only [Vm.Returns, hcomp, hop]
  | defineComponent comptype compname input =>
    have hspec := Vm.onRecv_defineComponent uuid l.vm t comptype compname input
    cases hfac : l.vm.factories.lookup comptype with
    | none =>
      rw [hfac] at hspec
      exact takes_refused hspec (by simp only [Tables.Serves, Vm.tables, hfac, and_self])
    | some factory =>
      cases hname : l.vm.factories.lookup compname with
      | some other =>
        simp only [hfac, hname] at hspec
        exact takes_refused hspec (by simp only [Tables.Serves, Vm.tables, hfac, hname, and_self])
      | none =>
        simp only [hfac, hname] at hspec
        cases hmake : factory (input.getD .null) l.vm.env with
        | error f =>
          rw [hmake, Except.error_bind] at hspec
          have hret : l.vm.Returns (.defineComponent comptype compname input) = false := by
            simp only [Vm.Returns, hfac, hname, hmake, Vm.returned]
          simp only [recv, hspec]
          exact .leave f hret
        | ok made =>
          obtain ⟨compOpt, env⟩ := made
          rw [hmake, Except.ok_bind] at hspec
          cases compOpt with
          | error e =>
            have hspec' : l.vm.onRecv uuid (.execute t (.defineComponent comptype compname input)) =
              .ok ({ l.vm with env }, [.respondExecuteError t 0 e.reason], none) := hspec
            simp only [recv, hspec']
            refine .serve [.error e] ?_
            simp only [Tables.Serves, Vm.tables, hfac, hname, hmake, and_self]
          | ok comp =>
            simp only [recv, hspec]
            refine .serve [.ok (.map []) true] ?_
            simp only [Tables.Serves, Vm.tables, hfac, hname, hmake]
            exact ⟨trivial, rfl⟩
  | deleteComponent compname =>
    have hspec := Vm.onRecv_deleteComponent uuid l.vm t compname
    cases hcomp : l.vm.components.lookup compname with
    | none =>
      rw [hcomp] at hspec
      exact takes_refused hspec (by simp only [Tables.Serves, Vm.tables, hcomp, and_self])
    | some comp =>
      rw [hcomp] at hspec
      simp only [recv, hspec]
      refine .serve [.ok (.map []) true] ?_
      simp only [Tables.Serves, Vm.tables, hcomp]
      exact ⟨trivial, rfl⟩

/-- The loop is in no call, or in one whose operator yields `n` more outputs and then ends. -/
inductive Owes (l : Loop σ ω) : ℕ → Prop
  | importing : l.activity = .importing → Owes l 0
  | listening : l.activity = .listening → Owes l 0
  | calling {c : Call σ} {outs : List Output} {s : σ} : l.activity = .calling c →
      c.code.Yields c.state outs (.ok s) → Owes l outs.length

/-- A response makes no packets and starts no call. -/
theorem recv_respond {pkt : Packet} (hfor : pkt.ForVm) (hpt : pkt.ptype = .respond) :
    ∃ vm, l.recv uuid pkt = (⟨vm, .listening⟩, []) := by
  obtain ⟨ids, hkeep⟩ := @onRecv_respond σ ω uuid l.vm pkt hfor hpt
  simp only [recv, hkeep]
  exact ⟨_, rfl⟩

/-- After a request that the VM answers, the loop owes some outputs. -/
theorem owes_recv {t : TxId} {r : Request} {outs : List Output} (h : l.vm.Outputs r outs) :
    (l.recv uuid (.execute t r)).1.activity ≠ .importing ∧
      ∃ n, (l.recv uuid (.execute t r)).1.Owes n := by
  have htakes : l.Takes t r (l.recv uuid (.execute t r)).1 := recv_served t r
  generalize (l.recv uuid (.execute t r)).1 = l' at htakes ⊢
  cases htakes with
  | serve => exact ⟨by rintro ⟨⟩, 0, .listening rfl⟩
  | call htx hpend hyields =>
    obtain ⟨s, hs⟩ := hyields outs h
    exact ⟨by rintro ⟨⟩, outs.length, .calling rfl hs⟩
  | leave f hret =>
    rw [h.returns] at hret
    cases hret

/-- Each iteration of the loop of a call makes one of its outputs. -/
theorem Owes.advance {n : ℕ} (h : l.Owes n) {c : Call σ} (hact : l.activity = .calling c) :
    (l.advance c).1.activity ≠ .importing ∧ ∃ n', n' < n ∧ (l.advance c).1.Owes n' := by
  cases h with
  | importing hact' | listening hact' => cases hact.symm.trans hact'
  | calling hact' hyields =>
    cases hact.symm.trans hact'
    cases hyields with
    | finish hs | fail hs =>
      simp only [Loop.advance, hs]
      exact ⟨by rintro ⟨⟩, 0, Nat.zero_lt_one, .listening rfl⟩
    | @next s' _ val outs _ hs hrest =>
      simp only [Loop.advance, hs]
      exact ⟨by rintro ⟨⟩, outs.length, Nat.lt_succ_self _,
        .calling rfl hrest⟩

/-- What a loop owes is determined by its state. -/
theorem Owes.unique {m n : ℕ} (h : l.Owes m) (h' : l.Owes n) : m = n := by
  cases h with
  | importing hact | listening hact =>
    cases h' with
    | importing hact' | listening hact' => rfl
    | calling hact' => cases hact.symm.trans hact'
  | calling hact hyields =>
    cases h' with
    | importing hact' | listening hact' => cases hact.symm.trans hact'
    | calling hact' hyields' =>
      cases hact.symm.trans hact'
      rw [(hyields.unique hyields').1]

/-- The next step of a call that the operator brings to an end returns. -/
theorem Owes.returned {n : ℕ} (h : l.Owes n) {c : Call σ} (hact : l.activity = .calling c) :
    Vm.returned (c.code.step c.state) = true := by
  cases h with
  | importing hact' | listening hact' => cases hact.symm.trans hact'
  | calling hact' hyields =>
    cases hact.symm.trans hact'
    cases hyields with
    | finish hs | fail hs | next hs =>
      rw [hs]
      rfl

end Loop

/-! ## One component -/

/-- The request defines or deletes the component of a name. -/
def Request.Replaces (compname : String) : Request → Prop
  | .defineComponent _ compname' _ => compname' = compname
  | .deleteComponent compname' => compname' = compname
  | .callFunction _ _ | .callMethod _ _ _ => False

instance (compname : String) : (r : Request) → Decidable (r.Replaces compname)
  | .defineComponent .. | .deleteComponent _ => inferInstanceAs (Decidable (_ = _))
  | .callFunction _ _ | .callMethod _ _ _ => inferInstanceAs (Decidable False)

/-- What a call of a method is answered with by a component alone, and the objects behind it. -/
def Component.Serves {σ : Type} (compname : String) (ops : UnorderedMap String (OperatorCode σ))
    (objs : σ) (call : String × Value) (outs : List Output) (objs' : σ) : Prop :=
  match ops.lookup call.1 with
  | none =>
    outs = [.error ⟨"Method not exists: " ++ compname ++ "." ++ call.1⟩] ∧ objs' = objs
  | some code => code.Answers objs call.2 outs (.ok objs')

/-- A call of a method of the component, with its answer. -/
def callOn (compname : String) :
    Request × List Output → Option ((String × Value) × List Output)
  | (.callMethod compname' opname input, outs) =>
    if compname' = compname then some ((opname, input.getD .null), outs) else none
  | _ => none

namespace Tables

variable {σ ω : Type} {b b' : Tables σ ω}

/-- A call of a component is answered by the component alone. -/
theorem Serves.component {compname : String} {ops : UnorderedMap String (OperatorCode σ)} {objs : σ}
    {x : Request × List Output} {y : (String × Value) × List Output} (h : b.Serves x.1 x.2 b')
    (hcomp : b.components.lookup compname = some ⟨ops, objs⟩) (hcall : callOn compname x = some y) :
    ∃ objs', Component.Serves compname ops objs y.1 y.2 objs' ∧
      b'.components.lookup compname = some ⟨ops, objs'⟩ := by
  obtain ⟨r, outs⟩ := x
  cases r with
  | callMethod compname' opname input =>
    simp only [callOn, Option.ite_none_right_eq_some, Option.some.injEq] at hcall
    obtain ⟨rfl, rfl⟩ := hcall
    simp only [Serves, hcomp] at h
    unfold Component.Serves
    cases hop : ops.lookup opname with
    | none =>
      simp only [hop] at h
      refine ⟨objs, ⟨h.1, rfl⟩, ?_⟩
      rw [h.2]
      exact hcomp
    | some code =>
      simp only [hop] at h
      obtain ⟨s, hanswers, rfl⟩ := h
      exact ⟨s, hanswers, AList.lookup_insert _⟩
  | callFunction | defineComponent | deleteComponent => cases hcall

/-- A request that does not call, define, or delete a component leaves it alone. -/
theorem Serves.other {compname : String} {x : Request × List Output} (h : b.Serves x.1 x.2 b')
    (hkeep : ¬ x.1.Replaces compname) (hcall : callOn compname x = none) :
    b'.components.lookup compname = b.components.lookup compname := by
  obtain ⟨r, outs⟩ := x
  cases r with
  | callFunction opname input =>
    simp only [Serves] at h
    cases hop : b.operators.lookup opname with
    | none =>
      simp only [hop] at h
      rw [h.2]
    | some op =>
      simp only [hop] at h
      obtain ⟨s, -, rfl⟩ := h
      rfl
  | defineComponent comptype compname' input =>
    have hne : compname ≠ compname' := fun heq => hkeep heq.symm
    simp only [Serves] at h
    split at h
    · rw [h.2]
    · rw [h.2]
    · split at h
      · exact h.elim
      · rw [h.2]
      · rw [h.2]
        exact AList.lookup_insert_ne hne
  | deleteComponent compname' =>
    have hne : compname ≠ compname' := fun heq => hkeep heq.symm
    simp only [Serves] at h
    split at h
    · rw [h.2]
    · rw [h.2]
      exact AList.lookup_erase_ne hne
  | callMethod compname' opname input =>
    have hne : compname ≠ compname' := by
      rintro rfl
      simp [callOn] at hcall
    simp only [Serves] at h
    cases hcomp' : b.components.lookup compname' with
    | none =>
      simp only [hcomp'] at h
      rw [h.2]
    | some comp' =>
      simp only [hcomp'] at h
      cases hop : comp'.ops.lookup opname with
      | none =>
        simp only [hop] at h
        rw [h.2]
      | some code =>
        simp only [hop] at h
        obtain ⟨s, -, rfl⟩ := h
        exact AList.lookup_insert_ne hne

/-- Without a component of the name, its calls are refused. -/
theorem Serves.absent {compname : String} {x : Request × List Output}
    {y : (String × Value) × List Output} (h : b.Serves x.1 x.2 b')
    (hcomp : b.components.lookup compname = none) (hcall : callOn compname x = some y) :
    y.2 = [.error ⟨"Component not exists: " ++ compname⟩] ∧
      b'.components.lookup compname = none := by
  obtain ⟨r, outs⟩ := x
  cases r with
  | callMethod compname' opname input =>
    simp only [callOn, Option.ite_none_right_eq_some, Option.some.injEq] at hcall
    obtain ⟨rfl, rfl⟩ := hcall
    simp only [Serves, hcomp] at h
    rw [h.2]
    exact ⟨h.1, hcomp⟩
  | callFunction | defineComponent | deleteComponent => cases hcall

/-- Requests leave the factories alone. -/
theorem Serves.factories {r : Request} {outs : List Output} (h : b.Serves r outs b') :
    b'.factories = b.factories := by
  cases r <;> simp only [Serves] at h <;> (repeat' split at h) <;>
    first
    | exact h.elim
    | rw [h.2]
    | (obtain ⟨s, -, rfl⟩ := h; rfl)

theorem factories_of_legal {l : List (Request × List Output)} (h : Legal Serves b l b') :
    b'.factories = b.factories := by
  induction h with
  | nil => rfl
  | cons hserves _ ih => rw [ih, hserves.factories]

/-- A definition that is answered with a result has made the component. -/
theorem Serves.made {comptype compname : String} {input : Option Value}
    (h : b.Serves (.defineComponent comptype compname input) [.ok (.map []) true] b') :
    ∃ factory comp env, b.factories.lookup comptype = some factory ∧
      factory (input.getD .null) b.env = .ok (.ok comp, env) ∧
      b'.components.lookup compname = some comp := by
  simp only [Serves] at h
  split at h
  · simp at h
  · simp at h
  · rename_i factory hfac hname
    split at h
    · exact h.elim
    · simp at h
    · rename_i comp env hmake
      refine ⟨factory, comp, env, hfac, hmake, ?_⟩
      rw [h.2]
      exact AList.lookup_insert _

variable {I : Type} {before : I → I → Prop} {ops' : List (I × Request × List Output)}

/-- Operations that do not define or delete a component linearize its calls by themselves. -/
theorem component_linearizes {compname : String} {ops : UnorderedMap String (OperatorCode σ)}
    {objs : σ} (h : Linearizes Serves before b ops' b')
    (hcomp : b.components.lookup compname = some ⟨ops, objs⟩)
    (hkeep : ∀ x ∈ ops', ¬ x.2.1.Replaces compname) :
    ∃ objs', Linearizes (Component.Serves compname ops) before objs (viewed (callOn compname) ops')
        objs' ∧
      b'.components.lookup compname = some ⟨ops, objs'⟩ := by
  have href : Refines (Serves (σ := σ) (ω := ω)) (Component.Serves compname ops) (callOn compname)
      (fun b objs => b.components.lookup compname = some ⟨ops, objs⟩) (ops'.map Prod.snd) := by
    refine ⟨fun x hx hcall s a s' hrep hserves => ?_,
      fun x hx y hcall s a s' hrep hserves => hserves.component hrep hcall⟩
    obtain ⟨z, hz, rfl⟩ := List.mem_map.mp hx
    exact (hserves.other (hkeep z hz) hcall).trans hrep
  exact h.refine href hcomp

/-- As long as no component of the name is defined, its calls are refused. -/
theorem absent_of_legal {compname : String} {l : List (Request × List Output)}
    (h : Legal Serves b l b') (hcomp : b.components.lookup compname = none)
    (hkeep : ∀ x ∈ l, ¬ x.1.Replaces compname) :
    ∀ y ∈ l.filterMap (callOn compname), y.2 = [.error ⟨"Component not exists: " ++ compname⟩] := by
  have href : Refines (Serves (σ := σ) (ω := ω))
      (fun (_ : Unit) (_ : String × Value) outs (_ : Unit) =>
        outs = [.error ⟨"Component not exists: " ++ compname⟩])
      (callOn compname) (fun b _ => b.components.lookup compname = none) l :=
    ⟨fun x hx hcall s a s' hrep hserves => (hserves.other (hkeep x hx) hcall).trans hrep,
      fun x hx y hcall s a s' hrep hserves => ⟨(), hserves.absent hrep hcall⟩⟩
  obtain ⟨_, hlegal, -⟩ := h.refine href (a := ()) hcomp
  exact hlegal.forall fun _ _ _ _ hnext => hnext

end Tables

end Ailoy
