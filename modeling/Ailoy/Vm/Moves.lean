import Ailoy.Vm.Calls

/-!
# What a step of the VM can do

Among the broker's peers, the VM receives `execute` packets of the templates and responses to its
own packets. `Moves` lists what a step of `vm_start` on such a packet can do, with what each case
says about the tables: a request is refused with an error, enters the loop of a call, defines or
deletes a component, or ends in a fault. `Outputs` says what a request is answered with in a state
of the VM, and `Alike` that two states have the same names in their tables.
-/

namespace Ailoy

/-- The output is the last one of its call: it has the finish flag, or is an error. -/
def Output.final : Output → Bool
  | .ok _ finish => finish
  | .error _ => true

/-- The packet of an output carries the finish flag when the output is the last one. -/
@[simp] theorem Output.boolHeader_packet (t : TxId) (i : ℕ) (out : Output) :
    (out.packet t i).boolHeader 2 = .ok out.final := by
  cases out <;> rfl

/-- Outputs of a call that has come to its end: the last one alone is final. -/
def Complete (outs : List Output) : Prop :=
  ∃ vals last, outs = vals ++ [last] ∧ (∀ o ∈ vals, o.final = false) ∧ last.final = true

/-- A packet that the broker sends to the VM. -/
inductive Packet.ForVm : Packet → Prop
  | execute (t : TxId) (r : Request) : ForVm (.execute t r)
  | respond (t : TxId) : ForVm (.respond t)
  | respondError (t : TxId) (reason : String) : ForVm (.respondError t reason)

/-- A packet that the VM sends. -/
inductive Packet.OfVm : Packet → Prop
  | subscribe (t : TxId) (i : Instruction) : OfVm (.subscribe t i)
  | unsubscribe (t : TxId) (i : Instruction) : OfVm (.unsubscribe t i)
  | output (t : TxId) (i : ℕ) (out : Output) : OfVm (out.packet t i)
  | disconnect (t : TxId) : OfVm (.disconnect t)

/-- The request of an `execute` packet that a template has built, with the input as it was filled
in. -/
def Packet.request? (p : Packet) : Option Request :=
  match p.ptype, p.itype, p.headers, p.body with
  | .execute, some .callFunction, some [_, .string opname], some [("in", v)] =>
    some (.callFunction opname (some v))
  | .execute, some .defineComponent, some [_, .string comptype],
      some [("name", .string compname), ("in", v)] =>
    some (.defineComponent comptype compname (some v))
  | .execute, some .deleteComponent, some [_, .string compname], some [] =>
    some (.deleteComponent compname)
  | .execute, some .callMethod, some [_, .string compname, .string opname], some [("in", v)] =>
    some (.callMethod compname opname (some v))
  | _, _, _, _ => none

/-- A request with the input that the template fills in. -/
def Request.filled : Request → Request
  | .callFunction opname input => .callFunction opname (some (input.getD .null))
  | .defineComponent comptype compname input =>
    .defineComponent comptype compname (some (input.getD .null))
  | .deleteComponent compname => .deleteComponent compname
  | .callMethod compname opname input => .callMethod compname opname (some (input.getD .null))

@[simp] theorem Packet.request?_execute (t : TxId) (r : Request) :
    (Packet.execute t r).request? = some r.filled := by
  cases r <;> rfl

/-- The request is the call of a function or a method. -/
def Request.IsCall : Request → Bool
  | .callFunction _ _ | .callMethod _ _ _ => true
  | .defineComponent _ _ _ | .deleteComponent _ => false

/-- Two requests with the same packet differ at most in an input left out. -/
theorem Request.filled_eq {t t' : TxId} {r r' : Request}
    (h : Packet.execute t r = .execute t' r') : r.filled = r'.filled := by
  have hreq := congrArg Packet.request? h
  rwa [Packet.request?_execute, Packet.request?_execute, Option.some.injEq] at hreq

namespace Vm

variable {σ ω : Type}

/-- The outputs that a request is answered with, when the code that it addresses returns. -/
def Outputs (vm : Vm σ ω) : Request → List Output → Prop
  | .callFunction opname input, outs =>
    match vm.operators.lookup opname with
    | none => outs = [.error ⟨"Unknown operator: " ++ opname⟩]
    | some op => ∃ s, op.code.Answers op.state (input.getD .null) outs (.ok s)
  | .defineComponent comptype compname input, outs =>
    match vm.factories.lookup comptype, vm.factories.lookup compname with
    | none, _ => outs = [.error ⟨"Unknown operator: " ++ comptype⟩]
    | some _, some _ => outs = [.error ⟨"Component already exists: " ++ compname⟩]
    | some factory, none =>
      match factory (input.getD .null) vm.env with
      | .error _ => False
      | .ok (.error e, _) => outs = [.error e]
      | .ok (.ok _, _) => outs = [.ok (.map []) true]
  | .deleteComponent compname, outs =>
    match vm.components.lookup compname with
    | none => outs = [.error ⟨"Component not exists: " ++ compname⟩]
    | some _ => outs = [.ok (.map []) true]
  | .callMethod compname opname input, outs =>
    match vm.components.lookup compname with
    | none => outs = [.error ⟨"Component not exists: " ++ compname⟩]
    | some comp =>
      match comp.ops.lookup opname with
      | none => outs = [.error ⟨"Method not exists: " ++ compname ++ "." ++ opname⟩]
      | some code => ∃ s, code.Answers comp.objs (input.getD .null) outs (.ok s)

/-- The definition makes the component `comp`, and leaves the environment `env`. -/
def Makes (vm : Vm σ ω) (comptype compname : String) (input : Option Value) (comp : Component σ)
    (env : ω) : Prop :=
  vm.factories.lookup compname = none ∧ ∃ factory, vm.factories.lookup comptype = some factory ∧
    factory (input.getD .null) vm.env = .ok (.ok comp, env)

/-- A definition that makes a component is answered with a result. -/
theorem Makes.outputs {vm : Vm σ ω} {comptype compname : String} {input : Option Value}
    {comp : Component σ} {env : ω} (h : vm.Makes comptype compname input comp env) :
    vm.Outputs (.defineComponent comptype compname input) [.ok (.map []) true] := by
  obtain ⟨hname, factory, hfac, hmake⟩ := h
  simp only [Outputs, hfac, hname, hmake]

/-- The deletion of a component is answered with a result. -/
theorem outputs_delete {vm : Vm σ ω} {compname : String} {comp : Component σ}
    (h : vm.components.lookup compname = some comp) :
    vm.Outputs (.deleteComponent compname) [.ok (.map []) true] := by
  simp only [Outputs, h]

/-- A computation returns. -/
def returned {α : Type} : Except Fault α → Bool
  | .ok _ => true
  | .error _ => false

/-- The code that the handler of a request runs before the loop of a call returns: `initialize` of
the operator, or the factory. -/
def Returns (vm : Vm σ ω) : Request → Bool
  | .callFunction opname input =>
    match vm.operators.lookup opname with
    | none => true
    | some op => returned (op.code.init (input.getD .null) op.state)
  | .defineComponent comptype compname input =>
    match vm.factories.lookup comptype, vm.factories.lookup compname with
    | some factory, none => returned (factory (input.getD .null) vm.env)
    | _, _ => true
  | .deleteComponent _ => true
  | .callMethod compname opname input =>
    match vm.components.lookup compname with
    | none => true
    | some comp =>
      match comp.ops.lookup opname with
      | none => true
      | some code => returned (code.init (input.getD .null) comp.objs)

/-- The request is the call of an operator that is in the tables. -/
def Finds (vm : Vm σ ω) : Request → Bool
  | .callFunction opname _ => (vm.operators.lookup opname).isSome
  | .callMethod compname opname _ =>
    match vm.components.lookup compname with
    | none => false
    | some comp => (comp.ops.lookup opname).isSome
  | .defineComponent _ _ _ | .deleteComponent _ => false

/-- Only calls find an operator. -/
theorem isCall_of_finds {vm : Vm σ ω} {r : Request} (h : vm.Finds r = true) : r.IsCall = true := by
  cases r with
  | callFunction | callMethod => rfl
  | defineComponent | deleteComponent => cases h

/-- Requests with the same packet find the same operator. -/
theorem finds_congr (vm : Vm σ ω) {t t' : TxId} {r r' : Request}
    (h : Packet.execute t r = .execute t' r') : vm.Finds r = vm.Finds r' := by
  have hfilled : ∀ q : Request, vm.Finds q.filled = vm.Finds q := by
    intro q
    cases q <;> rfl
  rw [← hfilled r, Request.filled_eq h, hfilled]

/-- An input left out is a null input. -/
theorem outputs_filled (vm : Vm σ ω) (r : Request) (outs : List Output) :
    vm.Outputs r.filled outs ↔ vm.Outputs r outs := by
  cases r <;> exact Iff.rfl

/-- Requests with the same packet have the same outputs. -/
theorem outputs_congr (vm : Vm σ ω) {t t' : TxId} {r r' : Request} {outs : List Output}
    (h : Packet.execute t r = .execute t' r') : vm.Outputs r outs ↔ vm.Outputs r' outs := by
  rw [← outputs_filled vm r, Request.filled_eq h, outputs_filled]

theorem returns_filled (vm : Vm σ ω) (r : Request) : vm.Returns r.filled = vm.Returns r := by
  cases r <;> rfl

/-- A request that is no call has at most one answer, an empty result or an error. -/
theorem outputs_single (vm : Vm σ ω) {r : Request} (hr : r.IsCall = false) :
    ∃ o, (o = .ok (.map []) true ∨ ∃ e, o = .error e) ∧ ∀ outs, vm.Outputs r outs → outs = [o] := by
  cases r with
  | callFunction | callMethod => cases hr
  | defineComponent comptype compname input =>
    simp only [Outputs]
    split
    · exact ⟨_, .inr ⟨_, rfl⟩, fun _ h => h⟩
    · exact ⟨_, .inr ⟨_, rfl⟩, fun _ h => h⟩
    · split
      · exact ⟨_, .inl rfl, fun _ h => h.elim⟩
      · exact ⟨_, .inr ⟨_, rfl⟩, fun _ h => h⟩
      · exact ⟨_, .inl rfl, fun _ h => h⟩
  | deleteComponent compname =>
    simp only [Outputs]
    split
    · exact ⟨_, .inr ⟨_, rfl⟩, fun _ h => h⟩
    · exact ⟨_, .inl rfl, fun _ h => h⟩

/-- The code of a request that has outputs returns. -/
theorem returns_of_outputs {vm : Vm σ ω} {r : Request} {outs : List Output}
    (hr : r.IsCall = false) (h : vm.Outputs r outs) : vm.Returns r = true := by
  cases r with
  | callFunction | callMethod => cases hr
  | defineComponent comptype compname input =>
    simp only [Outputs] at h
    simp only [Returns]
    split
    · rename_i factory hfac hname
      cases hmake : factory (input.getD .null) vm.env with
      | error f => simp only [hfac, hname, hmake] at h
      | ok made => rfl
    · rfl
  | deleteComponent => rfl

/-- The two states have the same names in their tables. -/
structure Alike (vm vm' : Vm σ ω) : Prop where
  factories : vm'.factories = vm.factories
  operators : ∀ opname,
    (vm'.operators.lookup opname).isSome = (vm.operators.lookup opname).isSome
  components : ∀ compname, (vm'.components.lookup compname).map Component.ops =
    (vm.components.lookup compname).map Component.ops

/-- The operator of a call is in the tables, at its site. -/
def Has (vm : Vm σ ω) : Site σ → Prop
  | .function opname => (vm.operators.lookup opname).isSome = true
  | .method compname comp => (vm.components.lookup compname).map Component.ops = some comp.ops

theorem Alike.refl (vm : Vm σ ω) : vm.Alike vm := ⟨rfl, fun _ => rfl, fun _ => rfl⟩

/-- A component is in one of the states when it is in the other. -/
theorem Alike.component {vm vm' : Vm σ ω} (h : vm.Alike vm') (compname : String) :
    vm'.components.lookup compname = none ↔ vm.components.lookup compname = none := by
  have hops := h.components compname
  rw [← Option.map_eq_none_iff, hops, Option.map_eq_none_iff]

/-- The state of an operator is stored under the names that are there. -/
theorem alike_store {vm : Vm σ ω} {site : Site σ} (h : vm.Has site) (code : OperatorCode σ)
    (s : σ) : vm.Alike (vm.store code s site) := by
  cases site with
  | function opname =>
    refine ⟨rfl, fun opname' => ?_, fun _ => rfl⟩
    have hlookup := UnorderedMap.lookup_insert_eq vm.operators opname opname' ⟨code, s⟩
    simp only [store, hlookup]
    split_ifs with heq
    · rw [heq]
      exact h.symm
    · rfl
  | method compname comp =>
    refine ⟨rfl, fun _ => rfl, fun compname' => ?_⟩
    have hlookup := UnorderedMap.lookup_insert_eq vm.components compname compname'
      { comp with objs := s }
    simp only [store, hlookup]
    split_ifs with heq
    · rw [heq]
      exact h.symm
    · rfl

/-- The packets that announce channels, one for each instruction. -/
theorem mem_sendEach {uuid : ℕ → TxId} {vm : Vm σ ω} {pkt : TxId → Instruction → Packet}
    {is : List Instruction} {p : Packet} (h : p ∈ (sendEach uuid vm pkt is).2) :
    ∃ t, ∃ i ∈ is, p = pkt t i := by
  obtain ⟨k, hk, rfl⟩ := List.getElem_of_mem h
  simp only [sendEach, List.getElem_zipWith]
  exact ⟨_, _, List.getElem_mem _, rfl⟩

end Vm

namespace Loop

variable {σ ω : Type}

/-- What a step can do, with the packets that it makes. -/
inductive Moves (uuid : ℕ → TxId) (l : Loop σ ω) : LoopAct σ ω → Loop σ ω → List Packet → Prop
  | importModule (mod : Module σ ω) : l.activity = .importing →
      Moves uuid l (.importModule mod) ⟨(l.vm.onImportModule uuid mod).1, .importing⟩
        (l.vm.onImportModule uuid mod).2
  | enter : l.activity = .importing → Moves uuid l .enter ⟨l.vm, .listening⟩ []
  | respond {pkt : Packet} (ids : Finset TxId) : l.activity = .listening →
      pkt.ptype = .respond →
      Moves uuid l (.recv pkt) ⟨{ l.vm with expectedResponses := ids }, .listening⟩ []
  | refuse {t : TxId} {r : Request} {e : ErrorOutput} {vm : Vm σ ω} : l.activity = .listening →
      l.vm.Outputs r [.error e] → l.vm.Alike vm →
      Moves uuid l (.recv (.execute t r)) ⟨vm, .listening⟩ [.respondExecuteError t 0 e.reason]
  | call {t : TxId} {r : Request} {c : Call σ} : l.activity = .listening → l.vm.Finds r = true →
      c.txId = t → c.sequence = 0 → l.vm.Has c.site →
      (∀ outs s, c.code.Yields c.state outs (.ok s) → l.vm.Outputs r outs) →
      Moves uuid l (.recv (.execute t r)) ⟨l.vm, .calling c⟩ []
  | define {t : TxId} {comptype compname : String} {input : Option Value} {comp : Component σ}
      {env : ω} : l.activity = .listening → l.vm.Makes comptype compname input comp env →
      Moves uuid l (.recv (.execute t (.defineComponent comptype compname input)))
        ⟨{ (Vm.sendEach uuid { l.vm with env } .subscribe (Vm.channelsOf compname comp)).1 with
            components := l.vm.components.insert compname comp }, .listening⟩
        ((Vm.sendEach uuid { l.vm with env } .subscribe (Vm.channelsOf compname comp)).2 ++
          [.respondExecute t 0 true (.map [])])
  | delete {t : TxId} {compname : String} {comp : Component σ} : l.activity = .listening →
      l.vm.components.lookup compname = some comp →
      Moves uuid l (.recv (.execute t (.deleteComponent compname)))
        ⟨(Vm.sendEach uuid { l.vm with components := l.vm.components.erase compname }
            .unsubscribe (comp.ops.keys.map (.callMethod compname) ++
              [.deleteComponent compname])).1, .listening⟩
        ((Vm.sendEach uuid { l.vm with components := l.vm.components.erase compname }
            .unsubscribe (comp.ops.keys.map (.callMethod compname) ++
              [.deleteComponent compname])).2 ++ [.respondExecute t 0 true (.map [])])
  | throwRequest {t : TxId} {r : Request} (f : Fault) : l.activity = .listening →
      l.vm.Returns r = false →
      Moves uuid l (.recv (.execute t r)) { l with activity := .left f } []
  | next {c : Call σ} {val : Value} {s : σ} : l.activity = .calling c →
      c.code.step c.state = .ok (.ok val false, s) →
      Moves uuid l .advance
        ⟨l.vm, .calling { c with sequence := c.sequence + 1, state := s }⟩
        [.respondExecute c.txId c.sequence false val]
  | finish {c : Call σ} {out : Output} {s : σ} : l.activity = .calling c →
      c.code.step c.state = .ok (out, s) → out.final = true →
      Moves uuid l .advance ⟨l.vm.store c.code s c.site, .listening⟩
        [out.packet c.txId c.sequence]
  | throwCall {c : Call σ} {f : Fault} : l.activity = .calling c →
      c.code.step c.state = .error f →
      Moves uuid l .advance { l with activity := .left f } []
  | stop : l.activity = .listening →
      Moves uuid l .stop ⟨(l.vm.onStop uuid).1, .draining⟩ (l.vm.onStop uuid).2
  | drain {pkt : Packet} (ids : Finset TxId) : l.activity = .draining →
      Moves uuid l (.recv pkt) ⟨{ l.vm with expectedResponses := ids }, .draining⟩ []
  | disconnect (t : TxId) : l.activity = .draining →
      Moves uuid l (.disconnect t) ⟨l.vm, .returned⟩ [.disconnect t]

variable {uuid : ℕ → TxId} {l : Loop σ ω}

/-- The start of a call enters its loop, is an error of `initialize`, or throws. -/
theorem moves_of_startCall {t : TxId} {r : Request} {code : OperatorCode σ} {s : σ}
    {site : Site σ} {input : Value} (hlisten : l.activity = .listening) (hfinds : l.vm.Finds r = true)
    (hsite : l.vm.Has site)
    (hrecv : l.vm.onRecv uuid (.execute t r) = l.vm.startCall t code s site input)
    (houts : ∀ outs s', code.Answers s input outs (.ok s') → l.vm.Outputs r outs)
    (hret : l.vm.Returns r = Vm.returned (code.init input s)) :
    Moves uuid l (.recv (.execute t r)) (l.recv uuid (.execute t r)).1
      (l.recv uuid (.execute t r)).2 := by
  unfold Vm.startCall at hrecv
  cases hinit : code.init input s with
  | error f =>
    rw [hinit, Except.error_bind] at hrecv
    rw [hinit] at hret
    simp only [recv, hrecv]
    exact .throwRequest f hlisten hret
  | ok res =>
    obtain ⟨e, s'⟩ := res
    rw [hinit, Except.ok_bind] at hrecv
    cases e with
    | some e =>
      have hrecv' : l.vm.onRecv uuid (.execute t r) =
        .ok (l.vm.store code s' site, [.respondExecuteError t 0 e.reason], none) := hrecv
      simp only [recv, hrecv']
      exact .refuse hlisten (houts _ _ (.refuse hinit)) (Vm.alike_store hsite code s')
    | none =>
      have hrecv' : l.vm.onRecv uuid (.execute t r) =
        .ok (l.vm, [], some ⟨t, 0, code, s', site⟩) := hrecv
      simp only [recv, hrecv']
      exact .call hlisten hfinds rfl rfl hsite fun outs s'' hy => houts outs s'' (.run hinit hy)

/-- A request that the handler refuses without running any code. -/
theorem moves_of_refused {t : TxId} {r : Request} {reason : String}
    (hlisten : l.activity = .listening)
    (hrecv : l.vm.onRecv uuid (.execute t r) =
      .ok (l.vm, [.respondExecuteError t 0 reason], none))
    (houts : l.vm.Outputs r [.error ⟨reason⟩]) :
    Moves uuid l (.recv (.execute t r)) (l.recv uuid (.execute t r)).1
      (l.recv uuid (.execute t r)).2 := by
  simp only [recv, hrecv]
  exact .refuse (e := ⟨reason⟩) hlisten houts (.refl l.vm)

/-- The handling of a request is one of the moves. -/
theorem moves_of_execute (t : TxId) (r : Request) (hlisten : l.activity = .listening) :
    Moves uuid l (.recv (.execute t r)) (l.recv uuid (.execute t r)).1
      (l.recv uuid (.execute t r)).2 := by
  cases r with
  | callFunction opname input =>
    have hspec := Vm.onRecv_callFunction uuid l.vm t [("in", input.getD .null)] opname
    cases hop : l.vm.operators.lookup opname with
    | none =>
      rw [hop] at hspec
      exact moves_of_refused hlisten hspec (by simp only [Vm.Outputs, hop])
    | some op =>
      rw [hop] at hspec
      have hsite : l.vm.Has (.function opname) := by simp [Vm.Has, hop]
      have hfinds : l.vm.Finds (.callFunction opname input) = true := by simp [Vm.Finds, hop]
      refine moves_of_startCall hlisten hfinds hsite hspec (fun outs s' h => ?_) ?_
      · simp only [Vm.Outputs, hop]
        exact ⟨s', h⟩
      · simp only [Vm.Returns, hop]
  | callMethod compname opname input =>
    have hspec := Vm.onRecv_callMethod uuid l.vm t [("in", input.getD .null)] compname opname
    cases hcomp : l.vm.components.lookup compname with
    | none =>
      rw [hcomp] at hspec
      exact moves_of_refused hlisten hspec (by simp only [Vm.Outputs, hcomp])
    | some comp =>
      rw [hcomp] at hspec
      cases hop : comp.ops.lookup opname with
      | none =>
        simp only [hop] at hspec
        exact moves_of_refused hlisten hspec (by simp only [Vm.Outputs, hcomp, hop])
      | some code =>
        simp only [hop] at hspec
        have hsite : l.vm.Has (.method compname comp) := by simp [Vm.Has, hcomp]
        have hfinds : l.vm.Finds (.callMethod compname opname input) = true := by
          simp [Vm.Finds, hcomp, hop]
        refine moves_of_startCall hlisten hfinds hsite hspec (fun outs s' h => ?_) ?_
        · simp only [Vm.Outputs, hcomp, hop]
          exact ⟨s', h⟩
        · simp only [Vm.Returns, hcomp, hop]
  | defineComponent comptype compname input =>
    have hspec := Vm.onRecv_defineComponent uuid l.vm t comptype compname input
    cases hfac : l.vm.factories.lookup comptype with
    | none =>
      rw [hfac] at hspec
      exact moves_of_refused hlisten hspec (by simp only [Vm.Outputs, hfac])
    | some factory =>
      cases hname : l.vm.factories.lookup compname with
      | some other =>
        simp only [hfac, hname] at hspec
        exact moves_of_refused hlisten hspec (by simp only [Vm.Outputs, hfac, hname])
      | none =>
        simp only [hfac, hname] at hspec
        cases hmake : factory (input.getD .null) l.vm.env with
        | error f =>
          rw [hmake, Except.error_bind] at hspec
          have hret : l.vm.Returns (.defineComponent comptype compname input) = false := by
            simp only [Vm.Returns, hfac, hname, hmake, Vm.returned]
          simp only [recv, hspec]
          exact .throwRequest f hlisten hret
        | ok made =>
          obtain ⟨compOpt, env⟩ := made
          rw [hmake, Except.ok_bind] at hspec
          cases compOpt with
          | error e =>
            have hspec' : l.vm.onRecv uuid (.execute t (.defineComponent comptype compname input)) =
              .ok ({ l.vm with env }, [.respondExecuteError t 0 e.reason], none) := hspec
            simp only [recv, hspec']
            refine .refuse (e := e) hlisten ?_ ⟨rfl, fun _ => rfl, fun _ => rfl⟩
            simp only [Vm.Outputs, hfac, hname, hmake]
          | ok comp =>
            have hmakes : l.vm.Makes comptype compname input comp env :=
              ⟨hname, factory, hfac, hmake⟩
            simp only [recv, hspec]
            exact .define hlisten hmakes
  | deleteComponent compname =>
    have hspec := Vm.onRecv_deleteComponent uuid l.vm t compname
    cases hcomp : l.vm.components.lookup compname with
    | none =>
      rw [hcomp] at hspec
      exact moves_of_refused hlisten hspec (by simp only [Vm.Outputs, hcomp])
    | some comp =>
      rw [hcomp] at hspec
      simp only [recv, hspec]
      exact .delete hlisten hcomp

/-- A response only changes the expected responses. -/
theorem onRecv_respond {vm : Vm σ ω} {pkt : Packet} (h : pkt.ForVm) (hp : pkt.ptype = .respond) :
    ∃ ids, vm.onRecv uuid pkt = .ok ({ vm with expectedResponses := ids }, [], none) := by
  cases h with
  | execute => cases hp
  | respond t => exact ⟨_, rfl⟩
  | respondError t reason => exact ⟨_, rfl⟩

/-- After a stop, a packet at most changes the expected responses. -/
theorem drain_forVm {pkt : Packet} (h : pkt.ForVm) (hdrain : l.activity = .draining) :
    ∃ ids, l.drain pkt = ⟨{ l.vm with expectedResponses := ids }, .draining⟩ := by
  obtain ⟨vm, activity⟩ := l
  obtain rfl : activity = .draining := hdrain
  cases h with
  | execute t r => exact ⟨vm.expectedResponses, by cases r <;> rfl⟩
  | respond t => exact ⟨_, rfl⟩
  | respondError t reason => exact ⟨_, rfl⟩

/-- A step of a call is one of the moves. -/
theorem moves_of_advance {c : Call σ} (hc : l.activity = .calling c) :
    Moves uuid l .advance (l.advance c).1 (l.advance c).2 := by
  cases hs : c.code.step c.state with
  | error f =>
    simp only [advance, hs]
    exact .throwCall hc hs
  | ok res =>
    obtain ⟨out, s⟩ := res
    cases out with
    | error e =>
      simp only [advance, hs]
      have hfin : (Output.error e).final = true := rfl
      exact .finish hc hs hfin
    | ok val fin =>
      cases fin with
      | true =>
        simp only [advance, hs]
        have hfin : (Output.ok val true).final = true := rfl
        exact .finish hc hs hfin
      | false =>
        simp only [advance, hs]
        exact .next hc hs

/-- Every step of the VM, on the packets that the broker sends it, is one of the moves. -/
theorem moves_of_step {a : LoopAct σ ω} {l' : Loop σ ω} {pkts : List Packet}
    (hfor : ∀ pkt, a = .recv pkt → pkt.ForVm) (h : l.step uuid a = some (l', pkts)) :
    Moves uuid l a l' pkts := by
  unfold step at h
  split at h
  · rename_i mod hact
    cases h
    exact .importModule mod hact
  · rename_i hact
    cases h
    exact .enter hact
  · rename_i pkt hact
    obtain ⟨hl, hp⟩ := Prod.mk.inj (Option.some.inj h)
    subst hl hp
    have hpkt : pkt.ForVm := hfor pkt rfl
    cases hpt : pkt.ptype with
    | respond =>
      obtain ⟨ids, hrecv⟩ : ∃ ids, l.vm.onRecv uuid pkt =
          .ok ({ l.vm with expectedResponses := ids }, [], none) := onRecv_respond hpkt hpt
      simp only [hrecv]
      exact .respond ids hact hpt
    | _ =>
      cases hpkt with
      | execute t r => exact moves_of_execute t r hact
      | respond t => cases hpt
      | respondError t reason => cases hpt
  · rename_i hact
    cases h
    exact .stop hact
  · rename_i c hact
    obtain ⟨hl, hp⟩ := Prod.mk.inj (Option.some.inj h)
    subst hl hp
    exact moves_of_advance hact
  · rename_i pkt hact
    obtain ⟨ids, hdrain⟩ := drain_forVm (hfor pkt rfl) hact
    cases h
    rw [hdrain]
    exact .drain ids hact
  · rename_i t hact
    cases h
    exact .disconnect t hact
  · cases h

/-- The packets that a step makes are packets of the VM. -/
theorem Moves.ofVm {a : LoopAct σ ω} {l' : Loop σ ω} {pkts : List Packet}
    (h : Moves uuid l a l' pkts) : ∀ p ∈ pkts, p.OfVm := by
  have hsub : ∀ {vm : Vm σ ω} {is : List Instruction},
      ∀ p ∈ (Vm.sendEach uuid vm .subscribe is).2, p.OfVm := by
    intro vm is p hp
    obtain ⟨t, i, -, rfl⟩ := Vm.mem_sendEach hp
    exact .subscribe t i
  have hunsub : ∀ {vm : Vm σ ω} {is : List Instruction},
      ∀ p ∈ (Vm.sendEach uuid vm .unsubscribe is).2, p.OfVm := by
    intro vm is p hp
    obtain ⟨t, i, -, rfl⟩ := Vm.mem_sendEach hp
    exact .unsubscribe t i
  have hok : ∀ t i fin out, (Packet.respondExecute t i fin out).OfVm := fun t i fin out =>
    .output t i (.ok out fin)
  intro p hp
  cases h with
  | importModule mod => exact hsub p hp
  | stop => exact hunsub p hp
  | define =>
    rcases List.mem_append.mp hp with hp | hp
    · exact hsub p hp
    · rw [List.mem_singleton.mp hp]
      exact hok _ _ _ _
  | delete =>
    rcases List.mem_append.mp hp with hp | hp
    · exact hunsub p hp
    · rw [List.mem_singleton.mp hp]
      exact hok _ _ _ _
  | @refuse t r e vm =>
    rw [List.mem_singleton.mp hp]
    exact .output t 0 (.error e)
  | next =>
    rw [List.mem_singleton.mp hp]
    exact hok _ _ _ _
  | finish =>
    rw [List.mem_singleton.mp hp]
    exact .output _ _ _
  | disconnect t =>
    rw [List.mem_singleton.mp hp]
    exact .disconnect t
  | _ => simp at hp

end Loop

end Ailoy
