import Ailoy.Broker.Handle
import Ailoy.Vm.Moves

/-!
# The life of one transaction

What a transaction is for: a client requests it, the broker refuses it or forwards it to the VM, the
VM answers it with a sequence of outputs, and the broker relays their packets to the client. `Tx` is
the part of the system's state that belongs to one transaction, and `Step` what can happen to it
when no packet of it is lost. Every transaction is in one of the stages of `Stage`. In each of them
the packets that the client has been handed and those still on their way are, in this order, the
packets of the outputs so far.
-/

namespace Ailoy

/-- The answer to a request that no channel can handle. -/
def refusal (t : TxId) : Packet :=
  .respondExecuteError t 0 "There is no channel can handle this request"

/-- What there is of one transaction. -/
@[ext] structure Tx (σ ω : Type) where
  /-- The requests that have been sent, with their clients. -/
  requests : List (SocketName × Request)
  /-- The `execute` packets in the mailboxes of the broker's sockets. -/
  asked : SocketName → List Packet
  /-- The `execute` packets in the VM's mailbox. -/
  delivered : List Packet
  /-- The `execute` packets that the VM has handled, with its state before. -/
  handled : List (Packet × Vm σ ω)
  /-- The call in the VM's loop. -/
  call : Option (Call σ)
  /-- The responses that the broker has not handled. -/
  pending : List Packet
  /-- The entry of the broker's table. -/
  requester : Option SocketName
  /-- The responses that have been put in the mailbox of each client. -/
  handed : SocketName → List Packet

/-- A queue for one socket, and empty ones for all others. -/
def only {α : Type} (c : SocketName) (l : List α) : SocketName → List α :=
  Function.update (fun _ => []) c l

section Only

variable {α : Type} {c c' : SocketName} {l l' : List α} {x : α}

@[simp] theorem only_self : only c l c = l := Function.update_self ..

theorem only_of_ne (h : c' ≠ c) : only c l c' = [] := Function.update_of_ne h ..

@[simp] theorem only_nil : only c ([] : List α) = fun _ => [] := Function.update_eq_self c _

@[simp] theorem update_only : Function.update (only c l) c l' = only c l' :=
  Function.update_idem ..

/-- The socket whose queue is not empty is the one. -/
theorem mem_only (h : x ∈ only c l c') : c' = c ∧ x ∈ l := by
  by_cases hc : c' = c
  · subst hc
    rw [only_self] at h
    exact ⟨rfl, h⟩
  · rw [only_of_ne hc] at h
    cases h

theorem only_eq_cons (h : only c l c' = x :: l') : c' = c ∧ l = x :: l' := by
  have hmem : x ∈ only c l c' := by
    rw [h]
    exact List.mem_cons_self
  obtain ⟨rfl, -⟩ := mem_only hmem
  rw [only_self] at h
  exact ⟨rfl, h⟩

end Only

/-! ## The packets of outputs -/

section OutputPackets

variable {t : TxId} {i : ℕ} {outs : List Output} {p : Packet}

theorem outputPackets_append (vals outs : List Output) : outputPackets t i (vals ++ outs) =
    outputPackets t i vals ++ outputPackets t (i + vals.length) outs := by
  induction vals generalizing i with
  | nil => rfl
  | cons val vals ih =>
    have hnum : i + 1 + vals.length = i + (val :: vals).length := by
      rw [List.length_cons]
      omega
    simp only [List.cons_append, outputPackets, ih, hnum]

/-- A packet of outputs is the one of an output, with its finish flag. -/
theorem boolHeader_of_mem (h : p ∈ outputPackets t i outs) :
    ∃ o ∈ outs, p.boolHeader 2 = .ok o.final := by
  obtain ⟨k, hk, rfl⟩ := List.getElem_of_mem h
  have hk' : k < outs.length := by simpa using hk
  refine ⟨outs[k], List.getElem_mem hk', ?_⟩
  rw [getElem_outputPackets t i k outs hk hk', Output.boolHeader_packet]

/-- Among the packets of complete outputs, only the last one has the finish flag. -/
theorem Complete.rest_nil {pre rest : List Packet} (h : Complete outs)
    (hsplit : outputPackets t i outs = pre ++ p :: rest) (hfin : p.boolHeader 2 = .ok true) :
    rest = [] := by
  obtain ⟨vals, last, rfl, hvals, -⟩ := h
  rcases List.eq_nil_or_concat rest with hnil | ⟨rest', q, rfl⟩
  · exact hnil
  · -- With a packet behind it, `p` is one of an output that is not final.
    rw [outputPackets_append, List.concat_eq_append] at hsplit
    have hinit : outputPackets t i vals = pre ++ p :: rest' := by
      have hshape : pre ++ p :: (rest' ++ [q]) = (pre ++ p :: rest') ++ [q] := by simp
      rw [hshape] at hsplit
      exact List.append_inj_left' hsplit rfl
    have hmem : p ∈ outputPackets t i vals := by
      rw [hinit]
      exact List.mem_append_right _ (.head _)
    obtain ⟨o, ho, hflag⟩ := boolHeader_of_mem hmem
    rw [hvals o ho] at hflag
    exact absurd (hflag.symm.trans hfin) (by simp)

end OutputPackets

namespace Tx

variable {σ ω : Type}

/-- What can happen to the transaction `t`. -/
inductive Step (t : TxId) (x : Tx σ ω) : Tx σ ω → Prop
  | request (c : SocketName) (q : Request) : x.requests = [] →
      Step t x { x with
        requests := x.requests ++ [(c, q)]
        asked := Function.update x.asked c (x.asked c ++ [.execute t q]) }
  | refuse {c : SocketName} {q : Request} {rest : List Packet} :
      x.asked c = .execute t q :: rest →
      Step t x { x with
        asked := Function.update x.asked c rest
        handed := Function.update x.handed c (x.handed c ++ [refusal t]) }
  | forward {c : SocketName} {q : Request} {rest : List Packet} :
      x.asked c = .execute t q :: rest →
      Step t x { x with
        asked := Function.update x.asked c rest
        delivered := x.delivered ++ [.execute t q]
        requester := some c }
  | relay {c : SocketName} {i : ℕ} {out : Output} {rest : List Packet} :
      x.pending = out.packet t i :: rest → x.requester = some c →
      Step t x { x with
        pending := rest
        requester := if out.final = true then none else x.requester
        handed := Function.update x.handed c (x.handed c ++ [out.packet t i]) }
  | vanish {i : ℕ} {out : Output} {rest : List Packet} :
      x.pending = out.packet t i :: rest → x.requester = none →
      Step t x { x with pending := rest }
  | answer {q : Request} {rest : List Packet} {vm : Vm σ ω} {out : Output} :
      x.delivered = .execute t q :: rest → vm.Outputs q [out] → out.final = true →
      Step t x { x with
        delivered := rest
        handled := x.handled ++ [(.execute t q, vm)]
        pending := x.pending ++ [out.packet t 0] }
  | call {q : Request} {rest : List Packet} {vm : Vm σ ω} {c : Call σ} :
      x.delivered = .execute t q :: rest → vm.Finds q = true → c.txId = t → c.sequence = 0 →
      (∀ outs s, c.code.Yields c.state outs (.ok s) → vm.Outputs q outs) →
      Step t x { x with
        delivered := rest
        handled := x.handled ++ [(.execute t q, vm)]
        call := some c }
  | next {c : Call σ} {val : Value} {s : σ} : x.call = some c →
      c.code.step c.state = .ok (.ok val false, s) →
      Step t x { x with
        call := some { c with sequence := c.sequence + 1, state := s }
        pending := x.pending ++ [.respondExecute t c.sequence false val] }
  | finish {c : Call σ} {out : Output} {s : σ} : x.call = some c →
      c.code.step c.state = .ok (out, s) → out.final = true →
      Step t x { x with
        call := none
        pending := x.pending ++ [out.packet t c.sequence] }

/-- Where a transaction is. -/
inductive Stage (t : TxId) : Tx σ ω → Prop
  /-- It has not been requested. -/
  | absent : Stage t ⟨[], fun _ => [], [], [], none, [], none, fun _ => []⟩
  /-- The client `c` has requested it. -/
  | waiting (c : SocketName) (q : Request) :
      Stage t ⟨[(c, q)], only c [.execute t q], [], [], none, [], none, fun _ => []⟩
  /-- The broker has refused it. -/
  | refused (c : SocketName) (q : Request) :
      Stage t ⟨[(c, q)], fun _ => [], [], [], none, [], none, only c [refusal t]⟩
  /-- The broker has forwarded it to the VM. -/
  | forwarded (c : SocketName) (q : Request) :
      Stage t ⟨[(c, q)], fun _ => [], [.execute t q], [], none, [], some c, fun _ => []⟩
  /-- The VM is in the loop of its call, and has made the outputs `outs`. -/
  | working (c : SocketName) (q : Request) (vm : Vm σ ω) {call : Call σ} {outs : List Output}
      {handed pending : List Packet} : vm.Finds q = true → call.txId = t →
      call.sequence = outs.length → (∀ o ∈ outs, o.final = false) →
      handed ++ pending = outputPackets t 0 outs →
      (∀ rest s, call.code.Yields call.state rest (.ok s) → vm.Outputs q (outs ++ rest)) →
      Stage t ⟨[(c, q)], fun _ => [], [], [(.execute t q, vm)], some call, pending, some c,
        only c handed⟩
  /-- The VM has answered it with the outputs `outs`. -/
  | answered (c : SocketName) (q : Request) (vm : Vm σ ω) {outs : List Output}
      {handed pending : List Packet} {requester : Option SocketName} : Complete outs →
      handed ++ pending = outputPackets t 0 outs → vm.Outputs q outs →
      (pending ≠ [] → requester = some c) →
      Stage t ⟨[(c, q)], fun _ => [], [], [(.execute t q, vm)], none, pending, requester,
        only c handed⟩

variable {t : TxId} {x y : Tx σ ω}

/-- A single final output is complete. -/
theorem complete_singleton {out : Output} (h : out.final = true) : Complete [out] :=
  ⟨[], out, rfl, fun _ ho => absurd ho List.not_mem_nil, h⟩

/-- A transaction with a response on its way is being worked on or has been answered, and goes to
its client. -/
theorem Stage.relay (h : Stage t x) {c : SocketName} {i : ℕ} {out : Output}
    {rest : List Packet} (hpend : x.pending = out.packet t i :: rest)
    (hreq : x.requester = some c) :
    Stage t { x with
      pending := rest
      requester := if out.final = true then none else x.requester
      handed := Function.update x.handed c (x.handed c ++ [out.packet t i]) } := by
  cases h with
  | @working c₀ q vm call outs handed pending hfinds htx hseq houts hpkts hyields =>
    obtain rfl : pending = out.packet t i :: rest := hpend
    obtain rfl : c₀ = c := Option.some.inj hreq
    have hmem : out.packet t i ∈ outputPackets t 0 outs := by
      rw [← hpkts]
      exact List.mem_append_right _ (.head _)
    obtain ⟨o, ho, hflag⟩ := boolHeader_of_mem hmem
    rw [Output.boolHeader_packet, houts o ho, Except.ok.injEq] at hflag
    simp only [hflag, Bool.false_eq_true, if_false, only_self, update_only]
    refine .working c₀ q vm hfinds htx hseq houts ?_ hyields
    rw [← hpkts, List.append_assoc, List.singleton_append]
  | @answered c₀ q vm outs handed pending requester hcomp hpkts hvm hopen =>
    obtain rfl : pending = out.packet t i :: rest := hpend
    obtain rfl : c₀ = c :=
      Option.some.inj ((hopen (List.cons_ne_nil _ _)).symm.trans hreq)
    simp only [only_self, update_only]
    refine .answered c₀ q vm hcomp ?_ hvm fun hrest => ?_
    · rw [← hpkts, List.append_assoc, List.singleton_append]
    · -- The finishing packet is the last one on its way.
      have hfin : out.final ≠ true := fun hfin =>
        hrest (hcomp.rest_nil hpkts.symm (by rw [Output.boolHeader_packet, hfin]))
      rw [if_neg hfin]
      exact hopen (List.cons_ne_nil _ _)
  | _ => cases hpend

/-- A response on its way does not find its transaction vanished. -/
theorem Stage.requester_ne_none (h : Stage t x) {p : Packet} {rest : List Packet}
    (hpend : x.pending = p :: rest) : x.requester ≠ none := by
  cases h with
  | working => simp
  | @answered c q vm outs handed pending requester hcomp hpkts hvm hopen =>
    obtain rfl : pending = p :: rest := hpend
    rw [hopen (List.cons_ne_nil _ _)]
    simp
  | _ => cases hpend

/-- A request on its way to the broker is one of a transaction that waits for it. -/
theorem Stage.of_asked (h : Stage t x) {c : SocketName} {p : Packet} {rest : List Packet}
    (hask : x.asked c = p :: rest) : ∃ q, p = .execute t q ∧ rest = [] ∧
      x = ⟨[(c, q)], only c [.execute t q], [], [], none, [], none, fun _ => []⟩ := by
  cases h with
  | waiting c₀ q =>
    obtain ⟨rfl, hl⟩ := only_eq_cons hask
    obtain ⟨rfl, rfl⟩ := List.cons.inj hl
    exact ⟨q, rfl, rfl, rfl⟩
  | _ => cases hask

/-- A request in the VM's mailbox is one of a transaction that has been forwarded. -/
theorem Stage.of_delivered (h : Stage t x) {p : Packet} {rest : List Packet}
    (hdel : x.delivered = p :: rest) : ∃ c q, p = .execute t q ∧ rest = [] ∧
      x = ⟨[(c, q)], fun _ => [], [.execute t q], [], none, [], some c, fun _ => []⟩ := by
  cases h with
  | forwarded c q =>
    obtain ⟨rfl, rfl⟩ := List.cons.inj hdel
    exact ⟨c, q, rfl, rfl, rfl⟩
  | _ => cases hdel

/-- Every step leads from stage to stage. -/
theorem Stage.step (h : Stage t x) (hs : Step t x y) : Stage t y := by
  cases hs with
  | request c q hnew =>
    cases h with
    | absent => exact .waiting c q
    | _ => cases hnew
  | refuse hask =>
    obtain ⟨q, -, rfl, rfl⟩ := h.of_asked hask
    simp only [update_only, only_nil, List.nil_append]
    exact .refused _ q
  | @forward c q rest hask =>
    obtain ⟨q', hq, rfl, rfl⟩ := h.of_asked hask
    simp only [update_only, only_nil, List.nil_append, hq]
    exact .forwarded c q'
  | relay hpend hreq => exact h.relay hpend hreq
  | vanish hpend hreq => exact absurd hreq (h.requester_ne_none hpend)
  | @answer q rest vm out hdel hvm hfin =>
    -- The VM answers at once, so the only output is the final one.
    obtain ⟨c, q', hq, rfl, rfl⟩ := h.of_delivered hdel
    simp only [List.nil_append, hq]
    have houts : vm.Outputs q' [out] := (vm.outputs_congr hq).mp hvm
    have hstage : Stage t ⟨[(c, q')], fun _ => [], [], [(.execute t q', vm)], none,
        [out.packet t 0], some c, only c []⟩ :=
      .answered c q' vm (complete_singleton hfin) rfl houts fun _ => rfl
    rwa [only_nil] at hstage
  | @call q rest vm call hdel hfinds htx hseq hyields =>
    -- The VM begins a call, which has yielded nothing yet.
    obtain ⟨c, q', hq, rfl, rfl⟩ := h.of_delivered hdel
    simp only [List.nil_append, hq]
    have hlen : call.sequence = ([] : List Output).length := hseq
    have houts : ∀ o ∈ ([] : List Output), o.final = false := fun _ ho =>
      absurd ho List.not_mem_nil
    have hyields' : ∀ rest s, call.code.Yields call.state rest (.ok s) →
        vm.Outputs q' ([] ++ rest) := fun rest s hy =>
      (vm.outputs_congr hq).mp (hyields rest s hy)
    have hstage : Stage t ⟨[(c, q')], fun _ => [], [], [(.execute t q', vm)], some call, [],
        some c, only c []⟩ :=
      .working c q' vm ((vm.finds_congr hq).symm.trans hfinds) htx hlen houts rfl hyields'
    rwa [only_nil] at hstage
  | @next call val s hcall hstep =>
    cases h with
    | @working c q vm call₀ outs handed pending hfinds htx hseq houts hpkts hyields =>
      obtain rfl : call₀ = call := Option.some.inj hcall
      -- The output so far that is new is the one that this step of the operator has yielded.
      have hseq' : call₀.sequence + 1 = (outs ++ [Output.ok val false]).length := by simp [hseq]
      have houts' : ∀ o ∈ outs ++ [.ok val false], o.final = false := by
        intro o ho
        rcases List.mem_append.mp ho with ho | ho
        · exact houts o ho
        · rw [List.mem_singleton.mp ho]
          rfl
      have hpkts' : handed ++ (pending ++ [.respondExecute t call₀.sequence false val]) =
          outputPackets t 0 (outs ++ [.ok val false]) := by
        rw [outputPackets_append, ← hpkts, ← List.append_assoc, hseq, Nat.zero_add]
        rfl
      have hyields' : ∀ rest s', call₀.code.Yields s rest (.ok s') →
          vm.Outputs q ((outs ++ [.ok val false]) ++ rest) := by
        intro rest s' hy
        rw [List.append_assoc]
        exact hyields _ s' (.next hstep hy)
      exact .working c q vm hfinds htx hseq' houts' hpkts' hyields'
    | _ => cases hcall
  | @finish call out s hcall hstep hfin =>
    cases h with
    | @working c q vm call₀ outs handed pending hfinds htx hseq houts hpkts hyields =>
      obtain rfl : call₀ = call := Option.some.inj hcall
      -- The final output completes the stream.
      have hlast : call₀.code.Yields call₀.state [out] (.ok s) := by
        cases out with
        | error e => exact .fail hstep
        | ok val fin =>
          obtain rfl : fin = true := hfin
          exact .finish hstep
      refine .answered c q vm ⟨outs, out, rfl, houts, hfin⟩ ?_ (hyields _ s hlast) fun _ => rfl
      rw [outputPackets_append, ← hpkts, ← List.append_assoc, hseq, Nat.zero_add]
      rfl
    | _ => cases hcall

end Tx

end Ailoy
