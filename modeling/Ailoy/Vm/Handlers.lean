import Ailoy.Core.Packet
import Ailoy.Vm.Module
import Mathlib.Data.Finset.Basic

/-!
# The VM's state and its packet handlers

`vm_state_t` and the handlers of `vm/src/vm.cpp`. A handler returns the new state, the packets that
it sends in order, and the call whose loop of steps it enters, if it enters one. The two handlers
that call an operator share that loop, so a call names the operator's place in the tables, where
its state is stored back. Transaction ids of the VM's own packets come from a supply `uuid`, which
stands for `generate_uuid`.
-/

namespace Ailoy

/-- `vm_state_t` with `expected_responses` of `vm_start`, the environment of the factories, and the
number of ids taken from the supply. -/
structure Vm (σ ω : Type) where
  factories : UnorderedMap String (ComponentFactory σ ω)
  components : UnorderedMap String (Component σ)
  operators : UnorderedMap String (Operator σ)
  expectedResponses : Finset TxId
  env : ω
  uuids : ℕ

/-- Where the operator of a call is: in the table of operators, or among the methods of a
component. -/
inductive Site (σ : Type)
  | function (opname : String)
  | method (compname : String) (comp : Component σ)

/-- A call in its loop of steps, with the sequence number of the next output. -/
structure Call (σ : Type) where
  txId : TxId
  sequence : ℕ
  code : OperatorCode σ
  state : σ
  site : Site σ

/-- What a handler does: the new state, the packets sent, and the call entered. -/
abbrev Handled (σ ω : Type) := Vm σ ω × List Packet × Option (Call σ)

namespace Vm

variable {σ ω : Type}

/-- The VM before it imports a module. -/
def empty (env : ω) : Vm σ ω := ⟨∅, ∅, ∅, ∅, env, 0⟩

/-- The state after an operator has run: its objects are the ones in the tables. -/
def store (vm : Vm σ ω) (code : OperatorCode σ) (state : σ) : Site σ → Vm σ ω
  | .function opname => { vm with operators := vm.operators.insert opname ⟨code, state⟩ }
  | .method compname comp =>
    { vm with components := vm.components.insert compname { comp with objs := state } }

/-- One packet for each instruction, under a fresh id whose response is expected. -/
def sendEach (uuid : ℕ → TxId) (vm : Vm σ ω) (pkt : TxId → Instruction → Packet)
    (is : List Instruction) : Vm σ ω × List Packet :=
  let ids := (List.range is.length).map fun i => uuid (vm.uuids + i)
  ({ vm with
      expectedResponses := vm.expectedResponses ∪ ids.toFinset
      uuids := vm.uuids + is.length },
    List.zipWith pkt ids is)

/-- The channels of a component: its deletion, and its methods. -/
def channelsOf (compname : String) (comp : Component σ) : List Instruction :=
  .deleteComponent compname :: comp.ops.keys.map (.callMethod compname)

/-- `vm_state_t::on_import_module`, with the packets sent. -/
def onImportModule (uuid : ℕ → TxId) (vm : Vm σ ω) (mod : Module σ ω) : Vm σ ω × List Packet :=
  sendEach uuid
    { vm with
      operators := UnorderedMap.mergeNew vm.operators mod.ops
      factories := UnorderedMap.mergeNew vm.factories mod.factories }
    .subscribe (mod.ops.keys.map .callFunction ++ mod.factories.keys.map .defineComponent)

/-- `vm_state_t::on_stop`, with the packets sent. -/
def onStop (uuid : ℕ → TxId) (vm : Vm σ ω) : Vm σ ω × List Packet :=
  sendEach uuid vm .unsubscribe
    (vm.operators.keys.map .callFunction ++ (vm.factories.keys.map .defineComponent ++
      vm.components.entries.flatMap fun c => channelsOf c.1 c.2))

/-- The start of a call: `initialize`, and its error if it returns one. -/
def startCall (vm : Vm σ ω) (txId : TxId) (code : OperatorCode σ) (state : σ) (site : Site σ)
    (input : Value) : Except Fault (Handled σ ω) := do
  let (initResult, state) ← code.init input state
  match initResult with
  | some e => return (vm.store code state site, [.respondExecuteError txId 0 e.reason], none)
  | none => return (vm, [], some ⟨txId, 0, code, state, site⟩)

/-- `handle_call_function`, up to its loop. -/
def handleCallFunction (vm : Vm σ ω) (pkt : Packet) : Except Fault (Handled σ ω) :=
  match pkt.headers with
  | none => .error .nullDereference
  | some headers =>
    if headers.length ≠ 2 then
      return (vm, [], none)
    else do
      let txId ← pkt.stringHeader 0
      let opname ← pkt.stringHeader 1
      match pkt.body with
      | none => return (vm, [.respondExecuteError txId 0 "Invalid body"], none)
      | some body =>
        match vm.operators.lookup opname with
        | none =>
          return (vm, [.respondExecuteError txId 0 ("Unknown operator: " ++ opname)], none)
        | some op => do
          let input ← Value.mapAt body "in"
          vm.startCall txId op.code op.state (.function opname) input

/-- `handle_define_component`. The test for an existing component looks its name up among the
factories. -/
def handleDefineComponent (uuid : ℕ → TxId) (vm : Vm σ ω) (pkt : Packet) :
    Except Fault (Handled σ ω) :=
  match pkt.headers with
  | none => .error .nullDereference
  | some headers =>
    if headers.length ≠ 2 then
      return (vm, [], none)
    else do
      let txId ← pkt.stringHeader 0
      let comptype ← pkt.stringHeader 1
      match vm.factories.lookup comptype with
      | none =>
        return (vm, [.respondExecuteError txId 0 ("Unknown operator: " ++ comptype)], none)
      | some factory =>
        match pkt.body with
        | none => return (vm, [.respondExecuteError txId 0 "Invalid body"], none)
        | some body => do
          let compname ← Value.mapAt body "name" >>= Value.asString
          match vm.factories.lookup compname with
          | some _ =>
            return (vm,
              [.respondExecuteError txId 0 ("Component already exists: " ++ compname)], none)
          | none => do
            let input ← Value.mapAt body "in"
            let (compOpt, env) ← factory input vm.env
            match compOpt with
            | .error e =>
              return ({ vm with env }, [.respondExecuteError txId 0 e.reason], none)
            | .ok comp =>
              let (vm, pkts) :=
                sendEach uuid { vm with env } .subscribe (channelsOf compname comp)
              return ({ vm with components := vm.components.insert compname comp },
                pkts ++ [.respondExecute txId 0 true (.map [])], none)

/-- `handle_delete_component`. -/
def handleDeleteComponent (uuid : ℕ → TxId) (vm : Vm σ ω) (pkt : Packet) :
    Except Fault (Handled σ ω) :=
  match pkt.headers with
  | none => .error .nullDereference
  | some headers =>
    if headers.length ≠ 2 then
      return (vm, [], none)
    else do
      let txId ← pkt.stringHeader 0
      let compname ← pkt.stringHeader 1
      match vm.components.lookup compname with
      | none =>
        return (vm, [.respondExecuteError txId 0 ("Component not exists: " ++ compname)], none)
      | some comp =>
        let (vm, pkts) := sendEach uuid
          { vm with components := vm.components.erase compname } .unsubscribe
          (comp.ops.keys.map (.callMethod compname) ++ [.deleteComponent compname])
        return (vm, pkts ++ [.respondExecute txId 0 true (.map [])], none)

/-- `handle_call_method`, up to its loop. -/
def handleCallMethod (vm : Vm σ ω) (pkt : Packet) : Except Fault (Handled σ ω) :=
  match pkt.headers with
  | none => .error .nullDereference
  | some headers =>
    if headers.length ≠ 3 then
      return (vm, [], none)
    else do
      let txId ← pkt.stringHeader 0
      let compname ← pkt.stringHeader 1
      let opname ← pkt.stringHeader 2
      match pkt.body with
      | none => return (vm, [.respondExecuteError txId 0 "Invalid body"], none)
      | some body =>
        match vm.components.lookup compname with
        | none =>
          return (vm,
            [.respondExecuteError txId 0 ("Component not exists: " ++ compname)], none)
        | some comp =>
          match comp.ops.lookup opname with
          | none =>
            return (vm,
              [.respondExecuteError txId 0 ("Method not exists: " ++ compname ++ "." ++ opname)],
              none)
          | some code => do
            let input ← Value.mapAt body "in"
            vm.startCall txId code comp.objs (.method compname comp) input

/-- The `respond` branch of the event loop: the response is expected no longer, and the reason of a
failure is read for the log. -/
def onRespond (vm : Vm σ ω) (pkt : Packet) : Except Fault (Handled σ ω) := do
  let txId ← pkt.getTxId
  match pkt.body with
  | none => .error .nullDereference
  | some body => do
    let status ← Value.mapAt body "status" >>= Value.asBool
    if !status then do
      let _ ← Value.mapAt body "reason" >>= Value.asString
    return ({ vm with expectedResponses := vm.expectedResponses.erase txId }, [], none)

/-- The `recv` branch of the event loop, up to the loop of a call. -/
def onRecv (uuid : ℕ → TxId) (vm : Vm σ ω) (pkt : Packet) : Except Fault (Handled σ ω) := do
  let _ ← pkt.describe
  match pkt.ptype with
  | .respond => vm.onRespond pkt
  | .execute =>
    match pkt.itype with
    | none => .error (.exception "bad optional access")
    | some .callFunction => vm.handleCallFunction pkt
    | some .defineComponent => vm.handleDefineComponent uuid pkt
    | some .deleteComponent => vm.handleDeleteComponent uuid pkt
    | some .callMethod => vm.handleCallMethod pkt
    | some (.unknown _) => return (vm, [], none)
  | _ => return (vm, [], none)

/-! ## The handlers on well-formed headers -/

section Specs

variable (uuid : ℕ → TxId) (vm : Vm σ ω) (txId : TxId) (body : List (String × Value))

/-- A call of a function is answered with an error, or started. -/
theorem onRecv_callFunction (opname : String) :
    vm.onRecv uuid
        ⟨.execute, some .callFunction, some [.string txId, .string opname], some body⟩ =
      match vm.operators.lookup opname with
      | none => .ok (vm, [.respondExecuteError txId 0 ("Unknown operator: " ++ opname)], none)
      | some op =>
        Value.mapAt body "in" >>= vm.startCall txId op.code op.state (.function opname) := rfl

/-- A call of a method is answered with an error, or started. -/
theorem onRecv_callMethod (compname opname : String) :
    vm.onRecv uuid
        ⟨.execute, some .callMethod, some [.string txId, .string compname, .string opname],
          some body⟩ =
      match vm.components.lookup compname with
      | none => .ok (vm, [.respondExecuteError txId 0 ("Component not exists: " ++ compname)], none)
      | some comp =>
        match comp.ops.lookup opname with
        | none =>
          .ok (vm, [.respondExecuteError txId 0
            ("Method not exists: " ++ compname ++ "." ++ opname)], none)
        | some code =>
          Value.mapAt body "in" >>= vm.startCall txId code comp.objs (.method compname comp) := rfl

/-- A definition of a component, from the template, with its possible answers in the order of the
checks. -/
theorem onRecv_defineComponent (comptype compname : String) (input : Option Value) :
    vm.onRecv uuid (.execute txId (.defineComponent comptype compname input)) =
      match vm.factories.lookup comptype with
      | none => .ok (vm, [.respondExecuteError txId 0 ("Unknown operator: " ++ comptype)], none)
      | some factory =>
        match vm.factories.lookup compname with
        | some _ =>
          .ok (vm, [.respondExecuteError txId 0 ("Component already exists: " ++ compname)], none)
        | none => do
          let (compOpt, env) ← factory (input.getD .null) vm.env
          match compOpt with
          | .error e => return ({ vm with env }, [.respondExecuteError txId 0 e.reason], none)
          | .ok comp =>
            let (vm, pkts) := sendEach uuid { vm with env } .subscribe (channelsOf compname comp)
            return ({ vm with components := vm.components.insert compname comp },
              pkts ++ [.respondExecute txId 0 true (.map [])], none) := rfl

/-- A deletion of a component, from the template. -/
theorem onRecv_deleteComponent (compname : String) :
    vm.onRecv uuid (.execute txId (.deleteComponent compname)) =
      match vm.components.lookup compname with
      | none => .ok (vm, [.respondExecuteError txId 0 ("Component not exists: " ++ compname)], none)
      | some comp =>
        let (vm, pkts) := sendEach uuid
          { vm with components := vm.components.erase compname } .unsubscribe
          (comp.ops.keys.map (.callMethod compname) ++ [.deleteComponent compname])
        .ok (vm, pkts ++ [.respondExecute txId 0 true (.map [])], none) := rfl

end Specs

end Vm

end Ailoy
