import Ailoy.Vm.Calls

/-!
# Which requests are answered once

`vm_start` catches nothing, so an exception out of the code that a request addresses ends the VM
without an answer. `answeredOnce_iff` is the exact statement: a request whose code comes to an end
is answered by one finishing response, with the VM back in its event loop and the other components
as they were, if and only if that code does not throw.
-/

namespace Ailoy

open Transition

namespace Vm

variable {σ ω : Type}

/-- The code that a request addresses comes to an end. -/
def Ends (vm : Vm σ ω) : Request → Prop
  | .callFunction opname input =>
    ∀ op, vm.operators.lookup opname = some op → op.code.Ends op.state (input.getD .null)
  | .callMethod compname opname input =>
    ∀ comp code, vm.components.lookup compname = some comp → comp.ops.lookup opname = some code →
      code.Ends comp.objs (input.getD .null)
  | .defineComponent _ _ _ | .deleteComponent _ => True

/-- The code that a request addresses throws: the operator that is found under its name, or the
factory, which is not called for a name that is a factory's. -/
def Throws (vm : Vm σ ω) : Request → Prop
  | .callFunction opname input =>
    ∃ op, vm.operators.lookup opname = some op ∧ op.code.Throws op.state (input.getD .null)
  | .callMethod compname opname input =>
    ∃ comp code, vm.components.lookup compname = some comp ∧ comp.ops.lookup opname = some code ∧
      code.Throws comp.objs (input.getD .null)
  | .defineComponent comptype compname input =>
    ∃ factory f, vm.factories.lookup comptype = some factory ∧
      vm.factories.lookup compname = none ∧ factory (input.getD .null) vm.env = .error f
  | .deleteComponent _ => False

end Vm

namespace Loop

variable {σ ω : Type} {uuid : ℕ → TxId} {l : Loop σ ω} {t : TxId}

/-- A request is answered by exactly one finishing response, and the VM is back in its event loop
with every component that the request does not name as it was. -/
def AnsweredOnce (uuid : ℕ → TxId) (l : Loop σ ω) (t : TxId) (r : Request) : Prop :=
  ∃ pkts l', Serves uuid l (.execute t r) pkts l' ∧
    (pkts.countP fun p => decide (p.Finishes t)) = 1 ∧ l'.activity = .listening ∧
    ∀ c, r.compname? ≠ some c → l'.vm.components.lookup c = l.vm.components.lookup c

/-- A packet that is handled without a call is served by its handler alone. -/
theorem serves_of_onRecv {pkt : Packet} {vm : Vm σ ω} {pkts : List Packet}
    (h : l.vm.onRecv uuid pkt = .ok (vm, pkts, none)) :
    Serves uuid l pkt pkts ⟨vm, .listening⟩ := by
  have hl : l.recv uuid pkt = (⟨vm, .listening⟩, pkts) := by simp only [recv, h]
  exact ⟨[], by rw [hl]; exact .done (by rintro _ ⟨⟩), by rw [hl, List.append_nil]⟩

/-- A packet whose handler throws is served by leaving `vm_start`. -/
theorem serves_of_onRecv_error {pkt : Packet} {f : Fault} (h : l.vm.onRecv uuid pkt = .error f) :
    Serves uuid l pkt [] { l with activity := .left f } := by
  have hl : l.recv uuid pkt = ({ l with activity := .left f }, []) := by simp only [recv, h]
  exact ⟨[], by rw [hl]; exact .done (by rintro _ ⟨⟩), by rw [hl]; rfl⟩

/-- An error response is a finishing one. -/
theorem finishes_error (t : TxId) (i : ℕ) (reason : String) :
    (Packet.respondExecuteError t i reason).Finishes t := ⟨⟨rfl, rfl⟩, rfl⟩

/-- A result is a finishing response when it has the flag. -/
theorem finishes_result_iff (t : TxId) (i : ℕ) (fin : Bool) (out : Value) :
    (Packet.respondExecute t i fin out).Finishes t ↔ fin = true := by
  constructor
  · rintro ⟨-, hfin⟩
    exact Except.ok.inj hfin
  · rintro rfl
    exact ⟨⟨rfl, rfl⟩, rfl⟩

/-- A request that is refused with an error response and no change of the components is answered
once. -/
theorem answeredOnce_of_refused {r : Request} {vm : Vm σ ω} {reason : String}
    (h : l.vm.onRecv uuid (.execute t r) =
      .ok (vm, [.respondExecuteError t 0 reason], none))
    (hcomp : vm.components = l.vm.components) : AnsweredOnce uuid l t r := by
  refine ⟨_, _, serves_of_onRecv h, ?_, rfl, fun c _ => by rw [hcomp]⟩
  rw [List.countP_singleton, if_pos (decide_eq_true (finishes_error t 0 reason))]

/-- Among the packets of a call that does not throw, the last one alone finishes. -/
theorem countP_outputPackets (vals : List Value) (last : Output) (i : ℕ)
    (hlast : (∃ val, last = .ok val true) ∨ ∃ e, last = .error e) :
    ((outputPackets t i (vals.map (.ok · false) ++ [last])).countP
      fun p => decide (p.Finishes t)) = 1 := by
  induction vals generalizing i with
  | nil =>
    have hfin : (last.packet t i).Finishes t := by
      rcases hlast with ⟨val, rfl⟩ | ⟨e, rfl⟩
      · exact (finishes_result_iff t i true val).mpr rfl
      · exact finishes_error t i e.reason
    simp [outputPackets, hfin]
  | cons val vals ih =>
    have hfin : ¬ ((Output.ok val false).packet t i).Finishes t := fun h =>
      Bool.false_ne_true ((finishes_result_iff t i false val).mp h)
    have hrest := ih (i + 1)
    simp only [List.map_cons, List.cons_append, outputPackets]
    rw [List.countP_cons, decide_eq_false hfin, hrest]
    rfl

/-- The components after a call are those before, but for the one whose method was called. -/
theorem components_store {vm : Vm σ ω} {code : OperatorCode σ} {s : σ} {site : Site σ} {c : String}
    (h : ∀ compname comp, site = .method compname comp → c ≠ compname) :
    (vm.store code s site).components.lookup c = vm.components.lookup c := by
  cases site with
  | function opname => rfl
  | method compname comp =>
    have hne : c ≠ compname := h compname comp rfl
    exact AList.lookup_insert_ne hne

/-- A call whose operator does not throw is answered once. -/
theorem answeredOnce_of_answers {r : Request} {code : OperatorCode σ} {s s' : σ} {site : Site σ}
    {input : Value} {outs : List Output}
    (hpkt : l.vm.CallsOperator (.execute t r) t code s site input)
    (hsite : ∀ compname comp, site = .method compname comp → r.compname? = some compname)
    (h : code.Answers s input outs (.ok s')) : AnsweredOnce uuid l t r := by
  refine ⟨_, _, serves_of_answers hpkt h, ?_, rfl, fun c hc => ?_⟩
  · obtain ⟨vals, last, hlast, rfl⟩ := h.outputs
    exact countP_outputPackets vals last 0 hlast
  · exact components_store fun compname comp hs hcc => hc (by rw [hsite compname comp hs, hcc])

/-- What is answered once does not leave `vm_start`. -/
theorem not_answeredOnce_of_left {r : Request} {pkts : List Packet} {l' : Loop σ ω} {f : Fault}
    (h : Serves uuid l (.execute t r) pkts l') (hleft : l'.activity = .left f) :
    ¬ AnsweredOnce uuid l t r := by
  rintro ⟨_, _, hserves, -, hlisten, -⟩
  obtain ⟨-, rfl⟩ := hserves.unique h
  rw [hleft] at hlisten
  cases hlisten

/-- A call of an operator is answered once exactly when the operator does not throw. -/
theorem answeredOnce_call_iff {r : Request} {code : OperatorCode σ} {s : σ} {site : Site σ}
    {input : Value} (hpkt : l.vm.CallsOperator (.execute t r) t code s site input)
    (hsite : ∀ compname comp, site = .method compname comp → r.compname? = some compname)
    (hends : code.Ends s input) : AnsweredOnce uuid l t r ↔ ¬ code.Throws s input := by
  constructor
  · rintro honce ⟨outs, f, hthrow⟩
    exact not_answeredOnce_of_left (serves_of_answers hpkt hthrow) rfl honce
  · intro hno
    obtain ⟨outs, end_, hans⟩ := hends
    cases end_ with
    | ok s' => exact answeredOnce_of_answers hpkt hsite hans
    | error f => exact absurd ⟨outs, f, hans⟩ hno

/-- Packets that announce channels finish no call, so the response behind them is the only one. -/
theorem countP_sendEach (vm : Vm σ ω) (pkt : TxId → Instruction → Packet) (is : List Instruction)
    (out : Value) (hpkt : ∀ id i, (pkt id i).ptype ≠ .respondExecute) :
    (((Vm.sendEach uuid vm pkt is).2 ++ [Packet.respondExecute t 0 true out]).countP
      fun p => decide (p.Finishes t)) = 1 := by
  have hzero : ((Vm.sendEach uuid vm pkt is).2.countP fun p => decide (p.Finishes t)) = 0 := by
    rw [List.countP_eq_zero]
    intro p hp
    obtain ⟨i, hi, rfl⟩ := List.getElem_of_mem hp
    simp only [Vm.sendEach, List.getElem_zipWith, decide_eq_true_eq]
    exact fun hfin => hpkt _ _ hfin.1.1
  have hone : (Packet.respondExecute t 0 true out).Finishes t :=
    (finishes_result_iff t 0 true out).mpr rfl
  rw [List.countP_append, hzero, List.countP_singleton, if_pos (decide_eq_true hone)]

section Requests

variable (uuid l t)

theorem answeredOnce_callFunction_iff (opname : String) (input : Option Value)
    (hends : l.vm.Ends (.callFunction opname input)) :
    AnsweredOnce uuid l t (.callFunction opname input) ↔
      ¬ l.vm.Throws (.callFunction opname input) := by
  cases hop : l.vm.operators.lookup opname with
  | none =>
    have hrecv : l.vm.onRecv uuid (.execute t (.callFunction opname input)) =
        .ok (l.vm, [.respondExecuteError t 0 ("Unknown operator: " ++ opname)], none) :=
      (Vm.onRecv_callFunction uuid l.vm t _ opname).trans (by rw [hop])
    refine ⟨fun _ => ?_, fun _ => answeredOnce_of_refused hrecv rfl⟩
    rintro ⟨op, hop', -⟩
    rw [hop] at hop'
    cases hop'
  | some op =>
    rw [answeredOnce_call_iff (Vm.callsOperator_callFunction input hop) (by rintro _ _ ⟨⟩)
      (hends op hop)]
    constructor
    · rintro hno ⟨op', hop', hthrow⟩
      obtain rfl := Option.some.inj (hop.symm.trans hop')
      exact hno hthrow
    · exact fun hno hthrow => hno ⟨op, hop, hthrow⟩

theorem answeredOnce_callMethod_iff (compname opname : String) (input : Option Value)
    (hends : l.vm.Ends (.callMethod compname opname input)) :
    AnsweredOnce uuid l t (.callMethod compname opname input) ↔
      ¬ l.vm.Throws (.callMethod compname opname input) := by
  have hspec := Vm.onRecv_callMethod uuid l.vm t [("in", input.getD .null)] compname opname
  cases hcomp : l.vm.components.lookup compname with
  | none =>
    have hrecv : l.vm.onRecv uuid (.execute t (.callMethod compname opname input)) =
        .ok (l.vm, [.respondExecuteError t 0 ("Component not exists: " ++ compname)], none) :=
      hspec.trans (by rw [hcomp])
    refine ⟨fun _ => ?_, fun _ => answeredOnce_of_refused hrecv rfl⟩
    rintro ⟨comp, code, hcomp', -⟩
    rw [hcomp] at hcomp'
    cases hcomp'
  | some comp =>
    cases hop : comp.ops.lookup opname with
    | none =>
      have hrecv : l.vm.onRecv uuid (.execute t (.callMethod compname opname input)) =
          .ok (l.vm, [.respondExecuteError t 0
            ("Method not exists: " ++ compname ++ "." ++ opname)], none) :=
        hspec.trans (by simp only [hcomp, hop])
      refine ⟨fun _ => ?_, fun _ => answeredOnce_of_refused hrecv rfl⟩
      rintro ⟨comp', code, hcomp', hop', -⟩
      obtain rfl := Option.some.inj (hcomp.symm.trans hcomp')
      rw [hop] at hop'
      cases hop'
    | some code =>
      have hsite : ∀ compname' comp', Site.method compname comp = .method compname' comp' →
          (Request.callMethod compname opname input).compname? = some compname' := by
        rintro _ _ ⟨⟩
        rfl
      rw [answeredOnce_call_iff (Vm.callsOperator_callMethod input hcomp hop) hsite
        (hends comp code hcomp hop)]
      constructor
      · rintro hno ⟨comp', code', hcomp', hop', hthrow⟩
        obtain rfl := Option.some.inj (hcomp.symm.trans hcomp')
        obtain rfl := Option.some.inj (hop.symm.trans hop')
        exact hno hthrow
      · exact fun hno hthrow => hno ⟨comp, code, hcomp, hop, hthrow⟩

theorem answeredOnce_defineComponent_iff (comptype compname : String) (input : Option Value) :
    AnsweredOnce uuid l t (.defineComponent comptype compname input) ↔
      ¬ l.vm.Throws (.defineComponent comptype compname input) := by
  have hspec := Vm.onRecv_defineComponent uuid l.vm t comptype compname input
  cases hfac : l.vm.factories.lookup comptype with
  | none =>
    rw [hfac] at hspec
    refine ⟨fun _ => ?_, fun _ => answeredOnce_of_refused hspec rfl⟩
    rintro ⟨factory, f, hfac', -⟩
    rw [hfac] at hfac'
    cases hfac'
  | some factory =>
    cases hname : l.vm.factories.lookup compname with
    | some other =>
      simp only [hfac, hname] at hspec
      refine ⟨fun _ => ?_, fun _ => answeredOnce_of_refused hspec rfl⟩
      rintro ⟨factory', f, -, hname', -⟩
      rw [hname] at hname'
      cases hname'
    | none =>
      simp only [hfac, hname] at hspec
      cases hmake : factory (input.getD .null) l.vm.env with
      | error f =>
        rw [hmake, Except.error_bind] at hspec
        have hno : ¬ AnsweredOnce uuid l t (.defineComponent comptype compname input) :=
          not_answeredOnce_of_left (serves_of_onRecv_error hspec) rfl
        exact ⟨fun honce => absurd honce hno, fun h => absurd ⟨factory, f, hfac, hname, hmake⟩ h⟩
      | ok made =>
        obtain ⟨compOpt, env⟩ := made
        rw [hmake, Except.ok_bind] at hspec
        have hthrow : ¬ l.vm.Throws (.defineComponent comptype compname input) := by
          rintro ⟨factory', f, hfac', -, hmake'⟩
          obtain rfl := Option.some.inj (hfac.symm.trans hfac')
          rw [hmake] at hmake'
          cases hmake'
        refine ⟨fun _ => hthrow, fun _ => ?_⟩
        cases compOpt with
        | error e => exact answeredOnce_of_refused hspec rfl
        | ok comp =>
          refine ⟨_, _, serves_of_onRecv hspec, ?_, rfl, fun c hc => ?_⟩
          · exact countP_sendEach _ .subscribe _ _ (fun _ _ => by rintro ⟨⟩)
          · have hne : c ≠ compname := fun h => hc (by rw [h]; rfl)
            exact AList.lookup_insert_ne hne

theorem answeredOnce_deleteComponent (compname : String) :
    AnsweredOnce uuid l t (.deleteComponent compname) := by
  have hspec := Vm.onRecv_deleteComponent uuid l.vm t compname
  cases hcomp : l.vm.components.lookup compname with
  | none =>
    rw [hcomp] at hspec
    exact answeredOnce_of_refused hspec rfl
  | some comp =>
    rw [hcomp] at hspec
    refine ⟨_, _, serves_of_onRecv hspec, ?_, rfl, fun c hc => ?_⟩
    · exact countP_sendEach _ .unsubscribe _ _ (fun _ _ => by rintro ⟨⟩)
    · have hne : c ≠ compname := fun h => hc (by rw [h]; rfl)
      exact AList.lookup_erase_ne hne

end Requests

/-- For every VM state, every request that a template can build, and every behaviour of the code
that it addresses: the request is answered by exactly one finishing response, with the VM back in
its event loop and the other components unchanged, if and only if the code does not throw. -/
theorem answeredOnce_iff (uuid : ℕ → TxId) (l : Loop σ ω) (t : TxId) (r : Request)
    (hends : l.vm.Ends r) : AnsweredOnce uuid l t r ↔ ¬ l.vm.Throws r := by
  cases r with
  | callFunction opname input => exact answeredOnce_callFunction_iff uuid l t opname input hends
  | callMethod compname opname input =>
    exact answeredOnce_callMethod_iff uuid l t compname opname input hends
  | defineComponent comptype compname input =>
    exact answeredOnce_defineComponent_iff uuid l t comptype compname input
  | deleteComponent compname =>
    exact ⟨fun _ => id, fun _ => answeredOnce_deleteComponent uuid l t compname⟩

theorem answeredOnce_iff_countLoop :
    AnsweredOnce (fun n => toString n) countLoop "t" (.callFunction "count" none) ↔
      ¬ countLoop.vm.Throws (.callFunction "count" none) := by
  have hends : countLoop.vm.Ends (.callFunction "count" none) := by
    intro op hop
    obtain rfl : ⟨countOperator, ⟨none, none⟩⟩ = op := Option.some.inj hop
    exact ⟨_, _, .run rfl (.next rfl (.finish rfl))⟩
  exact answeredOnce_iff (fun n => toString n) countLoop "t" (.callFunction "count" none) hends

/-- A function that throws on every input. -/
def throwingFunction (_ : Option Value) : Except Fault (Except ErrorOutput Value) :=
  .error (.exception "[FAISS] invalid embedding shape: (1)")

/-- A module with an instant operator over `throwingFunction`. -/
def throwingModule : Module OperatorState Unit :=
  ⟨(∅ : UnorderedMap _ _).insert "insert" ⟨instantOperator throwingFunction, ⟨none, none⟩⟩, ∅⟩

/-- A VM that has imported `throwingModule` does not answer a call of its function. -/
theorem throwingModule_not_answeredOnce : ∃ l : Loop OperatorState Unit,
    Reach (next fun n => toString n) (start ()) l ∧ l.activity = .listening ∧
      ¬ AnsweredOnce (fun n => toString n) l "t" (.callFunction "insert" none) := by
  have hrun : (run (next fun n => toString n) (start ()) [.importModule throwingModule, .enter]) =
      some ⟨((Vm.empty () : Vm OperatorState Unit).onImportModule (fun n => toString n)
        throwingModule).1, .listening⟩ := rfl
  have hthrows : (instantOperator throwingFunction).Throws ⟨none, none⟩ .null :=
    throws_instantOperator rfl
  obtain ⟨outs, f, hans⟩ := hthrows
  refine ⟨_, reach_of_run hrun, rfl, ?_⟩
  exact not_answeredOnce_of_left
    (serves_of_answers (Vm.callsOperator_callFunction none rfl) hans) rfl

end Loop

end Ailoy
