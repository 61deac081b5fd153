import Ailoy.Vm.Loop
import Mathlib.Algebra.Group.Nat.Defs

/-!
# The packets of a call

A call of an operator sends one `respond_execute` packet for each output, in order and numbered from
zero, and the last one alone has the finish flag. `runs_of_yields` is the induction over the outputs
that the loop of `handle_call_function` and the one of `handle_call_method` share, and
`call_packets` is the statement for a whole `execute` packet. The packets are determined by the
outputs, so a function and a method with the same outputs send the same packets.
-/

namespace Ailoy

/-- The packet of the output with sequence number `i`. -/
def Output.packet (txId : TxId) (i : ℕ) : Output → Packet
  | .ok val finish => .respondExecute txId i finish val
  | .error e => .respondExecuteError txId i e.reason

/-- The packets of outputs, numbered from `i`. -/
def outputPackets (txId : TxId) : ℕ → List Output → List Packet
  | _, [] => []
  | i, out :: outs => out.packet txId i :: outputPackets txId (i + 1) outs

@[simp] theorem length_outputPackets (txId : TxId) (i : ℕ) (outs : List Output) :
    (outputPackets txId i outs).length = outs.length := by
  induction outs generalizing i with
  | nil => rfl
  | cons out outs ih => simp [outputPackets, ih]

theorem getElem_outputPackets (txId : TxId) (i k : ℕ) (outs : List Output)
    (h : k < (outputPackets txId i outs).length) (h' : k < outs.length) :
    (outputPackets txId i outs)[k] = outs[k].packet txId (i + k) := by
  induction outs generalizing i k with
  | nil => simp at h'
  | cons out outs ih =>
    cases k with
    | zero => rfl
    | succ k =>
      have hk : k < outs.length := by simpa using h'
      have hk' : k < (outputPackets txId (i + 1) outs).length := by simpa using hk
      have hnum : i + (k + 1) = i + 1 + k := by omega
      rw [hnum]
      exact ih (i + 1) k hk' hk

namespace Vm

variable {σ ω : Type} {vm : Vm σ ω}

/-- The packet is an `execute` with a well-formed header for an operator of the VM, with the code
and the state of the operator and the input of the call. -/
inductive CallsOperator (vm : Vm σ ω) :
    Packet → TxId → OperatorCode σ → σ → Site σ → Value → Prop
  | function {txId : TxId} {opname : String} {op : Operator σ} {body : List (String × Value)}
      {input : Value} : vm.operators.lookup opname = some op →
      Value.mapAt body "in" = .ok input →
      CallsOperator vm
        ⟨.execute, some .callFunction, some [.string txId, .string opname], some body⟩
        txId op.code op.state (.function opname) input
  | method {txId : TxId} {compname opname : String} {comp : Component σ}
      {code : OperatorCode σ} {body : List (String × Value)} {input : Value} :
      vm.components.lookup compname = some comp → comp.ops.lookup opname = some code →
      Value.mapAt body "in" = .ok input →
      CallsOperator vm
        ⟨.execute, some .callMethod, some [.string txId, .string compname, .string opname],
          some body⟩
        txId code comp.objs (.method compname comp) input

/-- An `execute` packet of the template is one of these for the operator that its request names. -/
theorem callsOperator_callFunction {txId : TxId} {opname : String} {op : Operator σ}
    (input : Option Value) (hop : vm.operators.lookup opname = some op) :
    vm.CallsOperator (.execute txId (.callFunction opname input)) txId op.code op.state
      (.function opname) (input.getD .null) :=
  .function hop rfl

theorem callsOperator_callMethod {txId : TxId} {compname opname : String} {comp : Component σ}
    {code : OperatorCode σ} (input : Option Value)
    (hcomp : vm.components.lookup compname = some comp) (hop : comp.ops.lookup opname = some code) :
    vm.CallsOperator (.execute txId (.callMethod compname opname input)) txId code comp.objs
      (.method compname comp) (input.getD .null) :=
  .method hcomp hop rfl

/-- Such a packet starts the call. -/
theorem onRecv_of_callsOperator {uuid : ℕ → TxId} {pkt : Packet} {txId : TxId}
    {code : OperatorCode σ} {s : σ} {site : Site σ} {input : Value}
    (h : vm.CallsOperator pkt txId code s site input) :
    vm.onRecv uuid pkt = vm.startCall txId code s site input := by
  cases h with
  | function hop hin => simp only [onRecv_callFunction, hop, hin, Except.ok_bind]
  | method hcomp hop hin => simp only [onRecv_callMethod, hcomp, hop, hin, Except.ok_bind]

end Vm

namespace Loop

variable {σ ω : Type} {l : Loop σ ω} {uuid : ℕ → TxId}

/-- Where the VM is after a call: back in its event loop with the operator's state stored, or out of
`vm_start`. -/
def afterCall (l : Loop σ ω) (code : OperatorCode σ) (site : Site σ) : Except Fault σ → Loop σ ω
  | .ok s => ⟨l.vm.store code s site, .listening⟩
  | .error f => { l with activity := .left f }

/-- One iteration in front of a run. -/
theorem Runs.of_advance {c : Call σ} {pkts pkts' : List Packet} {l₁ l₂ : Loop σ ω}
    (hadv : Loop.advance ⟨l.vm, .calling c⟩ c = (l₁, pkts)) (h : Runs l₁ pkts' l₂) :
    Runs ⟨l.vm, .calling c⟩ (pkts ++ pkts') l₂ := by
  have hfirst : Runs (Loop.advance ⟨l.vm, .calling c⟩ c).1 pkts' l₂ := by rwa [hadv]
  have hrun := Runs.advance (l := ⟨l.vm, .calling c⟩) rfl hfirst
  rwa [hadv] at hrun

/-- The loop of a call sends a packet for each output. The induction is on the outputs that are
left, with the sequence number of the next one. -/
theorem runs_of_yields {txId : TxId} {i : ℕ} {code : OperatorCode σ} {s : σ} {site : Site σ}
    {outs : List Output} {r : Except Fault σ} (h : code.Yields s outs r) :
    Runs ⟨l.vm, .calling ⟨txId, i, code, s, site⟩⟩ (outputPackets txId i outs)
      (afterCall l code site r) := by
  induction h generalizing i with
  | @finish s s' val hs =>
    have hadv : advance ⟨l.vm, .calling ⟨txId, i, code, s, site⟩⟩ ⟨txId, i, code, s, site⟩ =
        (afterCall l code site (.ok s'), [.respondExecute txId i true val]) := by
      simp [advance, hs, afterCall]
    exact .of_advance hadv (.done (by rintro _ ⟨⟩))
  | @fail s s' e hs =>
    have hadv : advance ⟨l.vm, .calling ⟨txId, i, code, s, site⟩⟩ ⟨txId, i, code, s, site⟩ =
        (afterCall l code site (.ok s'), [.respondExecuteError txId i e.reason]) := by
      simp [advance, hs, afterCall]
    exact .of_advance hadv (.done (by rintro _ ⟨⟩))
  | @throw s f hs =>
    have hadv : advance ⟨l.vm, .calling ⟨txId, i, code, s, site⟩⟩ ⟨txId, i, code, s, site⟩ =
        (afterCall l code site (.error f), []) := by
      simp [advance, hs, afterCall]
    exact .of_advance hadv (.done (by rintro _ ⟨⟩))
  | @next s s' val outs r hs _ ih =>
    have hadv : advance ⟨l.vm, .calling ⟨txId, i, code, s, site⟩⟩ ⟨txId, i, code, s, site⟩ =
        (⟨l.vm, .calling ⟨txId, i + 1, code, s', site⟩⟩,
          [.respondExecute txId i false val]) := by
      simp [advance, hs]
    exact .of_advance hadv ih

/-- The whole call: an error of `initialize`, or the run of the loop. -/
theorem serves_of_answers {pkt : Packet} {txId : TxId} {code : OperatorCode σ} {s : σ}
    {site : Site σ} {input : Value} {outs : List Output} {r : Except Fault σ}
    (hpkt : l.vm.CallsOperator pkt txId code s site input) (h : code.Answers s input outs r) :
    Serves uuid l pkt (outputPackets txId 0 outs) (afterCall l code site r) := by
  have hrecv : l.vm.onRecv uuid pkt = l.vm.startCall txId code s site input :=
    Vm.onRecv_of_callsOperator hpkt
  cases h with
  | @throw f hinit =>
    have hstart : l.vm.onRecv uuid pkt = .error f := by
      rw [hrecv, Vm.startCall, hinit, Except.error_bind]
    have hl : l.recv uuid pkt = (afterCall l code site (.error f), []) := by
      simp only [recv, hstart, afterCall]
    exact ⟨[], by rw [hl]; exact .done (by rintro _ ⟨⟩), by rw [hl]; rfl⟩
  | @refuse e s' hinit =>
    have hstart : l.vm.onRecv uuid pkt =
        .ok (l.vm.store code s' site, [.respondExecuteError txId 0 e.reason], none) := by
      rw [hrecv, Vm.startCall, hinit, Except.ok_bind]
      rfl
    have hl : l.recv uuid pkt =
        (afterCall l code site (.ok s'), [.respondExecuteError txId 0 e.reason]) := by
      simp only [recv, hstart, afterCall]
    exact ⟨[], by rw [hl]; exact .done (by rintro _ ⟨⟩), by rw [hl]; rfl⟩
  | @run s' _ _ hinit hyields =>
    have hstart : l.vm.onRecv uuid pkt = .ok (l.vm, [], some ⟨txId, 0, code, s', site⟩) := by
      rw [hrecv, Vm.startCall, hinit, Except.ok_bind]
      rfl
    have hl : l.recv uuid pkt = (⟨l.vm, .calling ⟨txId, 0, code, s', site⟩⟩, []) := by
      simp only [recv, hstart]
    exact ⟨outputPackets txId 0 outs, by rw [hl]; exact runs_of_yields hyields, by rw [hl]; rfl⟩

end Loop

/-! ## The stream of responses -/

/-- The status of a response: `true` for a result, and `false` for an error. -/
def Packet.status (p : Packet) : Except Fault Bool :=
  match p.body with
  | none => .error .nullDereference
  | some body => Value.mapAt body "status" >>= Value.asBool

/-- The packets are the responses of `t` to the outputs `outs`: as many as outputs, numbered from
zero, each with its output, the last one alone with the finish flag, and an error at most as the
last. -/
structure ResponseStream (t : TxId) (outs : List Output) (pkts : List Packet) : Prop where
  length : pkts.length = outs.length
  responds : ∀ p ∈ pkts, p.Responds t
  sequence : ∀ i, ∀ h : i < pkts.length, pkts[i].uintHeader 1 = .ok (UInt64.ofNat i)
  distinct : pkts.length ≤ 2 ^ 64 → (pkts.map (Packet.uintHeader · 1)).Nodup
  output : ∀ i, ∀ h : i < pkts.length, ∀ h' : i < outs.length, pkts[i] = outs[i].packet t i
  finish : ∀ i, ∀ h : i < pkts.length,
    pkts[i].boolHeader 2 = .ok (decide (i + 1 = pkts.length))
  error : ∀ i, ∀ h : i < pkts.length, pkts[i].status = .ok false → i + 1 = pkts.length

/-- The packet of an output carries its number. -/
theorem Output.sequence_packet (t : TxId) (i : ℕ) (out : Output) :
    (out.packet t i).uintHeader 1 = .ok (UInt64.ofNat i) := by
  cases out <;> rfl

/-- The packet of an output is a response. -/
theorem Output.responds_packet (t : TxId) (i : ℕ) (out : Output) : (out.packet t i).Responds t := by
  cases out <;> exact ⟨rfl, rfl⟩

/-- The outputs of an operator that does not throw make a stream of responses. -/
theorem responseStream_outputPackets {σ : Type} {code : OperatorCode σ} {s s' : σ} {input : Value}
    {outs : List Output} (t : TxId) (h : code.Answers s input outs (.ok s')) :
    ResponseStream t outs (outputPackets t 0 outs) := by
  have hget : ∀ i, ∀ h : i < (outputPackets t 0 outs).length, ∀ h' : i < outs.length,
      (outputPackets t 0 outs)[i] = outs[i].packet t i := by
    intro i h h'
    have hi := getElem_outputPackets t 0 i outs h h'
    rwa [Nat.zero_add] at hi
  have hlen := length_outputPackets t 0 outs
  have hseq : ∀ i, ∀ h : i < (outputPackets t 0 outs).length,
      (outputPackets t 0 outs)[i].uintHeader 1 = .ok (UInt64.ofNat i) := by
    intro i h
    rw [hget i h (hlen ▸ h)]
    exact Output.sequence_packet t i _
  obtain ⟨vals, last, hlast, rfl⟩ := h.outputs
  have hcount : (vals.map (Output.ok · false) ++ [last]).length = vals.length + 1 := by simp
  -- Which output is the last one is decided by its position behind the unfinished ones.
  have hout : ∀ i, ∀ h : i < (vals.map (Output.ok · false) ++ [last]).length,
      (i < vals.length ∧ ∃ val, (vals.map (Output.ok · false) ++ [last])[i] = .ok val false) ∨
        (i = vals.length ∧ (vals.map (Output.ok · false) ++ [last])[i] = last) := by
    intro i h
    rcases Nat.lt_or_ge i vals.length with hi | hi
    · exact .inl ⟨hi, vals[i], by simp [hi]⟩
    · have hi' : i = vals.length := by omega
      subst hi'
      exact .inr ⟨rfl, by simp⟩
  refine ⟨hlen, ?_, hseq, ?_, hget, ?_, ?_⟩
  · intro p hp
    obtain ⟨i, hi, rfl⟩ := List.getElem_of_mem hp
    rw [hget i hi (hlen ▸ hi)]
    exact Output.responds_packet t i _
  · intro hbound
    rw [List.nodup_iff_injective_getElem]
    rintro ⟨i, hi⟩ ⟨j, hj⟩ heq
    simp only [List.length_map] at hi hj
    simp only [List.getElem_map, hseq i hi, hseq j hj, Except.ok.injEq] at heq
    have hnat := congrArg UInt64.toNat heq
    rw [UInt64.toNat_ofNat', UInt64.toNat_ofNat', Nat.mod_eq_of_lt (by omega),
      Nat.mod_eq_of_lt (by omega)] at hnat
    exact Fin.ext hnat
  · intro i hi
    rcases hout i (hlen ▸ hi) with ⟨hlt, val, hval⟩ | ⟨hi', hval⟩
    · rw [hget i hi (hlen ▸ hi), hval, decide_eq_false (by omega)]
      rfl
    · rw [hget i hi (hlen ▸ hi), hval, decide_eq_true (by omega)]
      rcases hlast with ⟨val, rfl⟩ | ⟨e, rfl⟩ <;> rfl
  · intro i hi hstatus
    rcases hout i (hlen ▸ hi) with ⟨hlt, val, hval⟩ | ⟨hi', hval⟩
    · rw [hget i hi (hlen ▸ hi), hval] at hstatus
      cases hstatus
    · omega

namespace Loop

/-- For every operator of the VM's tables, every `execute` packet with a well-formed header for it,
and every sequence of outputs that the operator comes to without a fault: the VM sends the stream of
responses of these outputs and goes back to its event loop. Any other call of an operator with the
same outputs, be it of a function or of a method and in any VM, sends the same packets. -/
theorem call_packets {σ ω : Type} (uuid : ℕ → TxId) (l : Loop σ ω) {pkt : Packet} {t : TxId}
    {code : OperatorCode σ} {s s' : σ} {site : Site σ} {input : Value} {outs : List Output}
    (hpkt : l.vm.CallsOperator pkt t code s site input)
    (h : code.Answers s input outs (.ok s')) :
    ∃ pkts l', Serves uuid l pkt pkts l' ∧ l'.activity = .listening ∧
      ResponseStream t outs pkts ∧
      ∀ {σ₂ ω₂ : Type} (uuid₂ : ℕ → TxId) (l₂ : Loop σ₂ ω₂) (pkt₂ : Packet)
        (code₂ : OperatorCode σ₂) (s₂ t₂ : σ₂) (site₂ : Site σ₂) (input₂ : Value)
        (pkts₂ : List Packet) (k₂ : Loop σ₂ ω₂),
        l₂.vm.CallsOperator pkt₂ t code₂ s₂ site₂ input₂ → code₂.Answers s₂ input₂ outs (.ok t₂) →
        Serves uuid₂ l₂ pkt₂ pkts₂ k₂ → pkts₂ = pkts := by
  refine ⟨_, _, serves_of_answers hpkt h, rfl, responseStream_outputPackets t h, ?_⟩
  intro σ₂ ω₂ uuid₂ l₂ pkt₂ code₂ s₂ t₂ site₂ input₂ pkts₂ k₂ hpkt₂ h₂ hserves
  exact (hserves.unique (serves_of_answers hpkt₂ h₂)).1

/-- An operator that yields zero and then, as its last output, one. -/
def countOperator : OperatorCode OperatorState :=
  iterativeOperator (fun _ => .ok (.ok (.uint 0))) fun state =>
    match state with
    | some (.uint 0) => .ok (.ok (.uint 0) false, some (.uint 1))
    | _ => .ok (.ok (.uint 1) true, state)

/-- A VM with `countOperator` as its function `count`. -/
def countLoop : Loop OperatorState Unit :=
  ⟨{ (Vm.empty () : Vm OperatorState Unit) with
      operators := (∅ : UnorderedMap _ _).insert "count" ⟨countOperator, ⟨none, none⟩⟩ },
    .listening⟩

theorem call_packets_countLoop : ∃ pkts l',
    Serves (fun n => toString n) countLoop (.execute "t" (.callFunction "count" none)) pkts l' ∧
      l'.activity = .listening ∧
      ResponseStream "t" [.ok (.uint 0) false, .ok (.uint 1) true] pkts := by
  have hop : countLoop.vm.operators.lookup "count" = some ⟨countOperator, ⟨none, none⟩⟩ := rfl
  have hpkt : countLoop.vm.CallsOperator (.execute "t" (.callFunction "count" none)) "t"
      countOperator ⟨none, none⟩ (.function "count") .null :=
    Vm.callsOperator_callFunction none hop
  have hans : countOperator.Answers ⟨none, none⟩ .null
      [.ok (.uint 0) false, .ok (.uint 1) true] (.ok ⟨none, none⟩) :=
    .run rfl (.next rfl (.finish rfl))
  obtain ⟨pkts, l', hserves, hl', hstream, -⟩ :=
    call_packets (fun n => toString n) countLoop hpkt hans
  exact ⟨pkts, l', hserves, hl', hstream⟩

end Loop

end Ailoy
