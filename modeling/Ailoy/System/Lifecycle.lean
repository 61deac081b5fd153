import Ailoy.System.Answered

/-!
# The life of a component as clients see it

A component is defined and deleted by requests, and its methods are called through channels that the
VM subscribes and unsubscribes. A client learns of a definition or a deletion by its response, which
the VM sends behind the announcements. So when a definition has been answered, the broker has
handled the subscriptions (`Clear`), and every call is forwarded to a VM that has the component.
After a deletion has been answered, calls are refused by the broker or by the VM, until the name is
defined again.
-/

namespace Ailoy

open Transition

/-! ## Queues with a mark -/

section Clear

variable {α : Type} {mark : α} {Banned : α → Prop} {l l' : List α} {x : α}

/-- What is behind the mark is not banned; without the mark, nothing in the queue is. -/
def Clear (mark : α) (Banned : α → Prop) (l : List α) : Prop :=
  ∃ front back, l = front ++ back ∧ (front = [] ∨ ∃ init, front = init ++ [mark]) ∧
    ∀ y ∈ back, ¬ Banned y

/-- A queue with the mark at its end is clear. -/
theorem clear_concat (l : List α) : Clear mark Banned (l ++ [mark]) :=
  ⟨l ++ [mark], [], (List.append_nil _).symm, .inr ⟨l, rfl⟩, fun _ h => absurd h List.not_mem_nil⟩

/-- The first element is taken out. -/
theorem Clear.tail (h : Clear mark Banned (x :: l)) : Clear mark Banned l := by
  obtain ⟨front, back, hl, hfront, hback⟩ := h
  rcases hfront with rfl | ⟨init, rfl⟩
  · obtain rfl : x :: l = back := hl
    exact ⟨[], l, rfl, .inl rfl, fun y hy => hback y (List.mem_cons_of_mem _ hy)⟩
  · cases init with
    | nil => exact ⟨[], back, (List.cons.inj hl).2, .inl rfl, hback⟩
    | cons y init => exact ⟨init ++ [mark], back, (List.cons.inj hl).2, .inr ⟨init, rfl⟩, hback⟩

/-- Elements that are not banned are put behind. -/
theorem Clear.append (h : Clear mark Banned l) (hl' : ∀ y ∈ l', ¬ Banned y) :
    Clear mark Banned (l ++ l') := by
  obtain ⟨front, back, rfl, hfront, hback⟩ := h
  refine ⟨front, back ++ l', List.append_assoc .., hfront, fun y hy => ?_⟩
  rcases List.mem_append.mp hy with hy | hy
  · exact hback y hy
  · exact hl' y hy

/-- When the mark has left the queue, nothing in it is banned. -/
theorem Clear.of_not_mem (h : Clear mark Banned l) (hmark : mark ∉ l) : ∀ y ∈ l, ¬ Banned y := by
  obtain ⟨front, back, rfl, rfl | ⟨init, rfl⟩, hback⟩ := h
  · exact hback
  · exact absurd (List.mem_append_left _ (List.mem_append_right _ (.head _))) hmark

end Clear

namespace Sys

variable {σ ω : Type} {v : SocketName} {uuid : ℕ → TxId} {t : TxId} {env : ω}
  {r : Recorded (Sys σ ω) (SysEvent σ ω)}

/-! ## After a definition -/

/-- A definition that the VM has handled with a result stands, and behind its answer no subscription
of a method is left, when every deletion of the component that anyone has asked for was answered
before the definition was asked for. -/
theorem defined_of_reach {r₁ : Recorded (Sys σ ω) (SysEvent σ ω)}
    (hr₁ : ReachVia (recordedStep v uuid) (Regular v) (recordedStart v env) r₁)
    (hr : ReachVia (recordedStep v uuid) (Regular v) r₁ r)
    {comptype compname : String} {input : Option Value} {vm : Vm σ ω}
    (hnone : handledOf t r₁.history = [])
    (hno : ∀ c t, .requested c t (.deleteComponent compname) ∈ r.history →
      terminals c t r₁.history ≠ 0)
    (hhandled : (.execute t (.defineComponent comptype compname input), vm) ∈
      handledOf t r.history)
    (houts : vm.Outputs (.defineComponent comptype compname input) [.ok (.map []) true]) :
    ∃ ops, (r.state.loop.vm.components.lookup compname).map Component.ops = some ops ∧
      Clear (.respondExecute t 0 true (.map []))
        (fun p => ∃ m ∈ ops, p.Subscribes (Instruction.callMethod compname m).channel)
        (r.state.unheard v) := by
  induction hr with
  | init =>
    rw [hnone] at hhandled
    cases hhandled
  | @step r r' a hreach hok hstep ih =>
    obtain ⟨hstep, hhist⟩ := record_eq_some_iff.mp hstep
    have hr := hr₁.trans hreach
    have ht : r.state.Traffic v := traffic_of_reach (hr.state fun _ _ _ => trivial)
    have hkept := hr.mono fun _ _ hok => hok.kept
    have hgo := not_stopped_of_reach (hkept.mono fun _ _ hok => hok.1)
    have hagree : r.state.Agree v := agree_of_reach (hr.state fun _ _ hok => hok.tidy)
    have hturn := (moves_of_step ht hstep).turn hok.tidy
    have hno' : ∀ c t, .requested c t (.deleteComponent compname) ∈ r.history →
        terminals c t r₁.history ≠ 0 := by
      intro c t hmem
      refine hno c t ?_
      rw [hhist]
      exact List.mem_append_left _ hmem
    rw [hhist, handledOf_append] at hhandled
    rcases List.mem_append.mp hhandled with hold | hnew
    · -- The definition was handled before: the component and its mark stay.
      obtain ⟨ops, hc, hclear⟩ := ih hno' hold
      generalize emits v uuid r.state a = es at hturn
      cases hturn with
      | other hloop hun hes => exact ⟨ops, by rw [hloop]; exact hc, by rw [hun]; exact hclear⟩
      | heard p hloop hun =>
        rw [hun] at hclear
        exact ⟨ops, by rw [hloop]; exact hc, hclear.tail⟩
      | @own la pkts _ hloop hnorecv hun =>
        have htidy : r.state.loop.Tidy la := by
          cases la with
          | recv pkt => exact absurd rfl (hnorecv pkt)
          | _ => trivial
        have hkeeps := hloop.keeps hagree.sound (fun _ => htidy) hc fun t => hnorecv _
        rw [hun]
        exact ⟨ops, hkeeps.1, hclear.append fun p hp ⟨m, hm, hs⟩ => hkeeps.2 p hp m hm hs⟩
      | @handles pkt rest pkts _ hq hloop htidy hun =>
        have hdel : ∀ t, LoopAct.recv (σ := σ) (ω := ω) pkt ≠
            .recv (.execute t (.deleteComponent compname)) := by
          intro t hpkt
          rw [LoopAct.recv.inj hpkt] at hq
          obtain ⟨c, q', hreq, hsame, hnil⟩ := requested_of_mailbox hkept hq
          have hfilled := Request.filled_eq hsame
          cases q' with
          | deleteComponent compname' =>
            obtain rfl := Request.deleteComponent.inj hfilled
            -- A deletion that has been answered is not in the mailbox any more.
            have hle := terminals_mono (c := c) (t := t) hreach.history_prefix
            have hzero : terminals c t r.history = 0 := by
              rw [terminals_eq, hnil]
              rfl
            have hpos := hno' c t hreq
            omega
          | _ => cases hfilled
        have hkeeps := hloop.keeps hagree.sound htidy hc hdel
        rw [hun]
        exact ⟨ops, hkeeps.1, hclear.append fun p hp ⟨m, hm, hs⟩ => hkeeps.2 p hp m hm hs⟩
    · -- The definition is handled in this step: its answer is the last packet.
      obtain ⟨rfl, pkts, hun, hloop⟩ := hturn.of_handled hnew
      obtain ⟨comp, announcements, hcomp, rfl⟩ :=
        hloop.defined (fun hact => hgo (.inl hact)) houts
      refine ⟨comp.ops, by rw [hcomp]; rfl, ?_⟩
      rw [hun, ← List.append_assoc]
      exact clear_concat _

/-- The VM has the component, and the broker forwards the calls of its methods to the VM. -/
def Serves (v : SocketName) (s : Sys σ ω) (compname : String) : Prop :=
  ∃ comp, s.loop.vm.components.lookup compname = some comp ∧
    ∀ opname ∈ comp.ops, ∀ c t input, ∃ b,
      s.net.broker.handle c (.execute t (.callMethod compname opname input)) =
        .ok (b, some (.forward v))

/-- A component is served when its client knows of its definition, as long as no deletion is asked
for after the definition, and those from before have been answered. -/
theorem serves_of_reach
    (hr : ReachVia (recordedStep v uuid) (Regular v) (recordedStart v env) r)
    {pre post : List (SysEvent σ ω)} {c : SocketName} {comptype compname : String}
    {input : Option Value}
    (hsplit : r.history = pre ++ .requested c t (.defineComponent comptype compname input) :: post)
    (hconf : Confirmed c t r.history)
    (hbefore : ∀ c t, .requested c t (.deleteComponent compname) ∈ pre → terminals c t pre = 1)
    (hno : ∀ c t, .requested c t (.deleteComponent compname) ∉ post) :
    r.state.Serves v compname := by
  have hkept := hr.mono fun _ _ hok => hok.kept
  have hgo := not_stopped_of_reach (hkept.mono fun _ _ hok => hok.1)
  have hagree : r.state.Agree v := agree_of_reach (hr.state fun _ _ hok => hok.tidy)
  obtain ⟨r₁, r₂, -, hr₂, hlater, -, hhist₂, hnone⟩ := sent_of_split hr hsplit
  have hreq : .requested c t (.defineComponent comptype compname input) ∈ r.history := by
    rw [hsplit]
    exact List.mem_append_right _ (.head _)
  have hold : ∀ c' t', .requested c' t' (.deleteComponent compname) ∈ r.history →
      terminals c' t' r₂.history ≠ 0 := by
    intro c' t' hdel
    rw [hsplit] at hdel
    have hpre : .requested c' t' (.deleteComponent compname) ∈ pre := by
      rcases List.mem_append.mp hdel with hpre | hpost
      · exact hpre
      · rcases List.mem_cons.mp hpost with heq | hpost
        · cases heq
        · exact absurd hpost (hno c' t')
    have hone := hbefore c' t' hpre
    have hprefix : pre <+: r₂.history := by
      rw [hhist₂]
      exact List.prefix_append _ _
    have hle := terminals_mono (c := c') (t := t') hprefix
    omega
  obtain ⟨vm, hhandled, houts, hpend⟩ := hconf.answered hkept hreq rfl
  have hmem : (Packet.execute t (.defineComponent comptype compname input), vm) ∈
      handledOf t r.history := by
    rw [hhandled]
    exact List.mem_singleton_self _
  obtain ⟨ops, hops, hclear⟩ := defined_of_reach hr₂ hlater hnone hold hmem houts
  obtain ⟨comp, hcomp, rfl⟩ := Option.map_eq_some_iff.mp hops
  refine ⟨comp, hcomp, fun opname hop c' t' input' => ?_⟩
  -- The client has taken the answer, so the broker has handled the subscriptions before it.
  have hmark : Packet.respondExecute t 0 true (.map []) ∉ r.state.unheard v := by
    intro hin
    have hresponds : (Packet.respondExecute t 0 true (.map [])).Responds t :=
      Output.responds_packet t 0 (.ok (.map []) true)
    have hresp : Packet.respondExecute t 0 true (.map []) ∈ responsesOf t (r.state.unheard v) :=
      List.mem_filter.mpr ⟨hin, decide_eq_true hresponds⟩
    rw [hpend] at hresp
    cases hresp
  have hbanned := hclear.of_not_mem hmark
  have hoffered : (Instruction.callMethod compname opname).channel ∈ r.state.loop.offered := by
    have hvm : (Instruction.callMethod compname opname).channel ∈ r.state.loop.vm.offered :=
      ⟨.callMethod compname opname, ⟨comp.ops, hops, hop⟩, rfl⟩
    unfold Loop.offered
    split
    · rename_i hact
      exact absurd (.inl hact) hgo
    · rename_i hact
      exact absurd (.inr hact) hgo
    · exact hvm
  rw [← hagree.announced] at hoffered
  have hroute : (Instruction.callMethod compname opname).channel ∈ r.state.net.broker.routes v :=
    mem_of_mem_announced hoffered fun p hp hs => hbanned p hp ⟨opname, hop, hs⟩
  have hlookup : r.state.net.broker.subscriptions.lookup
      (Request.callMethod compname opname input').instruction.channel = some v := hroute
  rw [Broker.handle_execute]
  unfold Broker.onExecute
  rw [hlookup]
  exact ⟨_, rfl⟩

/-! ## After a deletion -/

/-- The handling of a packet brings the component into the tables. -/
def Registers (compname : String) : SysEvent σ ω → Prop
  | .handled _ before after =>
    before.components.lookup compname = none ∧ after.components.lookup compname ≠ none
  | _ => False

/-- Since the VM has handled the deletion `t`, the component has not been defined again. -/
def NotRedefined (compname : String) (t : TxId) (h : List (SysEvent σ ω)) : Prop :=
  ∀ pre before after post,
    h = pre ++ .handled (.execute t (.deleteComponent compname)) before after :: post →
    ∀ e ∈ post, ¬ Registers compname e

theorem NotRedefined.of_prefix {compname : String} {h' : List (SysEvent σ ω)}
    (hnot : NotRedefined compname t h') (hp : h <+: h') : NotRedefined compname t h := by
  obtain ⟨rest, rfl⟩ := hp
  intro pre before after post hsplit e he
  refine hnot pre before after (post ++ rest) ?_ e (List.mem_append_left _ he)
  rw [hsplit, List.append_assoc, List.cons_append]

/-- After a deletion, the component does not exist until it is defined again. -/
theorem gone_of_reach
    (hr : ReachVia (recordedStep v uuid) (Regular v) (recordedStart v env) r) {compname : String}
    {before after : Vm σ ω}
    (hdel : .handled (.execute t (.deleteComponent compname)) before after ∈ r.history)
    (hnot : NotRedefined compname t r.history) :
    r.state.loop.vm.components.lookup compname = none := by
  induction hr with
  | init => cases hdel
  | @step r r' a hreach hok hstep ih =>
    obtain ⟨hstep, hhist⟩ := record_eq_some_iff.mp hstep
    have ht : r.state.Traffic v := traffic_of_reach (hreach.state fun _ _ _ => trivial)
    have hgo := not_stopped_of_reach (hreach.mono fun _ _ hok => hok.kept.1)
    have hagree : r.state.Agree v := agree_of_reach (hreach.state fun _ _ hok => hok.tidy)
    have hturn := (moves_of_step ht hstep).turn hok.tidy
    rw [hhist] at hdel hnot
    generalize emits v uuid r.state a = es at hturn hdel hnot
    rcases List.mem_append.mp hdel with hold | hnew
    · -- The deletion was handled before, so this step does not define the component.
      have hgone := ih hold (hnot.of_prefix (List.prefix_append _ _))
      cases hturn with
      | other hloop | heard p hloop =>
        rw [hloop]
        exact hgone
      | own hloop hnorecv _ => exact (hloop.components_none_iff hagree.sound hnorecv _).mpr hgone
      | @handles pkt rest pkts _ hq hloop _ _ =>
        obtain ⟨pre, post, hsplit⟩ := List.append_of_mem hold
        by_contra hback
        have hreg : Registers compname (.handled pkt r.state.loop.vm r'.state.loop.vm) :=
          ⟨hgone, hback⟩
        refine hnot pre before after
          (post ++ .handled pkt r.state.loop.vm r'.state.loop.vm :: pkts.map .produced) ?_ _
          (List.mem_append_right _ (.head _)) hreg
        rw [hsplit, List.append_assoc, List.cons_append]
    · have hmem := mem_handledOf_of_mem hnew executeId_execute
      obtain ⟨-, pkts, -, hloop⟩ := hturn.of_handled hmem
      exact hloop.deleted fun hact => hgo (.inl hact)

/-- What the VM handles of a transaction that comes after a deletion, it handles without the
component, until this is defined again. -/
theorem handled_without {r₁ : Recorded (Sys σ ω) (SysEvent σ ω)}
    (hr₁ : ReachVia (recordedStep v uuid) (Regular v) (recordedStart v env) r₁)
    (hr : ReachVia (recordedStep v uuid) (Regular v) r₁ r) {compname : String} {t₀ : TxId}
    {before after : Vm σ ω}
    (hdel : .handled (.execute t₀ (.deleteComponent compname)) before after ∈ r₁.history)
    (hnone : handledOf t r₁.history = []) (hnot : NotRedefined compname t₀ r.history) :
    ∀ x ∈ handledOf t r.history, x.2.components.lookup compname = none := by
  induction hr with
  | init =>
    rw [hnone]
    rintro x ⟨⟩
  | @step r r' a hreach hok hstep ih =>
    obtain ⟨hstep, hhist⟩ := record_eq_some_iff.mp hstep
    have hr := hr₁.trans hreach
    have ht : r.state.Traffic v := traffic_of_reach (hr.state fun _ _ _ => trivial)
    have hturn := (moves_of_step ht hstep).turn hok.tidy
    rw [hhist] at hnot
    have hnot' := hnot.of_prefix (List.prefix_append _ _)
    intro x hx
    rw [hhist, handledOf_append] at hx
    rcases List.mem_append.mp hx with hold | hnew
    · exact ih hnot' x hold
    · obtain ⟨hbefore, -⟩ := hturn.of_handled hnew
      rw [hbefore]
      exact gone_of_reach hr (hreach.history_prefix.subset hdel) hnot'

/-- The call `t` of the client `c` runs no method: the VM handles it without the component, and
answers it with an error, if the broker does not. -/
structure Unserved (compname : String) (c : SocketName) (t : TxId)
    (r : Recorded (Sys σ ω) (SysEvent σ ω)) : Prop where
  absent : ∀ pkt before after, .handled pkt before after ∈ r.history → pkt.executeId = some t →
    before.components.lookup compname = none
  idle : callOf t r.state.loop = none
  errors : ∀ p ∈ responsesOf t (tookBy c r.history), ∃ reason, p = .respondExecuteError t 0 reason
  answered : Settled t r.state →
    ∃ reason, responsesOf t (tookBy c r.history) = [.respondExecuteError t 0 reason]

/-- A call of a component that does not exist has an error as its only output. -/
theorem outputs_absent {vm : Vm σ ω} {compname opname : String} {input : Option Value}
    {outs : List Output} (hgone : vm.components.lookup compname = none)
    (houts : vm.Outputs (.callMethod compname opname input) outs) :
    outs = [.error ⟨"Component not exists: " ++ compname⟩] := by
  simpa only [Vm.Outputs, hgone] using houts

/-- A call that the VM handles without the component is unserved. -/
theorem unserved_of_handled
    (hr : ReachVia (recordedStep v uuid) (Kept v) (recordedStart v env) r) {c : SocketName}
    {compname opname : String} {input : Option Value}
    (hreq : .requested c t (.callMethod compname opname input) ∈ r.history)
    (hgone : ∀ x ∈ handledOf t r.history, x.2.components.lookup compname = none) :
    Unserved compname c t r := by
  have habsent : ∀ pkt before after, .handled pkt before after ∈ r.history →
      pkt.executeId = some t → before.components.lookup compname = none :=
    fun pkt before after he hid => hgone _ (mem_handledOf_of_mem he hid)
  have hstage := stage_of_reach hr t
  have hmem : (c, Request.callMethod compname opname input) ∈
      (tx v t r.state r.history).requests := mem_requestsOf hreq
  have htaken : ∀ p ∈ responsesOf t (tookBy c r.history),
      p ∈ (tx v t r.state r.history).handed c := by
    intro p hp
    simp only [tx, responsesOf_append]
    exact List.mem_append_left _ hp
  have hcall : callOf t r.state.loop = (tx v t r.state r.history).call := rfl
  have hhist : handledOf t r.history = (tx v t r.state r.history).handled := rfl
  have hparts : callOf t r.state.loop = none ∧ ∀ p ∈ responsesOf t (tookBy c r.history),
      ∃ reason, p = .respondExecuteError t 0 reason := by
    rw [hhist] at hgone
    rw [hcall]
    generalize tx v t r.state r.history = x at *
    cases hstage with
    | absent | waiting | forwarded =>
      refine ⟨rfl, fun p hp => ?_⟩
      cases htaken p hp
    | refused c' q' =>
      obtain ⟨rfl, rfl⟩ := Prod.mk.inj (List.mem_singleton.mp hmem)
      refine ⟨rfl, fun p hp => ?_⟩
      have hp' : p ∈ only c [refusal t] c := htaken p hp
      rw [only_self, List.mem_singleton] at hp'
      exact ⟨_, hp'⟩
    | working c' q' vm hfinds =>
      -- The VM would have found the component.
      obtain ⟨rfl, rfl⟩ := Prod.mk.inj (List.mem_singleton.mp hmem)
      have hnone := hgone _ (List.mem_singleton_self _)
      simp only [Vm.Finds, hnone] at hfinds
      cases hfinds
    | @answered c' q' vm outs handed pending requester hcomp hpkts hvm _ =>
      obtain ⟨rfl, rfl⟩ := Prod.mk.inj (List.mem_singleton.mp hmem)
      have hnone := hgone _ (List.mem_singleton_self _)
      obtain rfl := outputs_absent hnone hvm
      refine ⟨rfl, fun p hp => ?_⟩
      have hp' : p ∈ only c handed c := htaken p hp
      rw [only_self] at hp'
      have hout : p ∈ outputPackets t 0 [.error ⟨"Component not exists: " ++ compname⟩] := by
        rw [← hpkts]
        exact List.mem_append_left _ hp'
      exact ⟨_, List.mem_singleton.mp hout⟩
  refine ⟨habsent, hparts.1, hparts.2, fun hs => ?_⟩
  rcases hs.handed hr hreq with ⟨before, after, outs, he, houts, -, htook⟩ | htook
  · have hnone := habsent _ before after he executeId_execute
    rw [outputs_absent hnone houts] at htook
    exact ⟨_, htook⟩
  · exact ⟨_, htook⟩

/-- A call that is sent after its client, or another one, knows of the deletion of the component is
unserved, until the component is defined again. -/
theorem unserved_of_reach
    (hr : ReachVia (recordedStep v uuid) (Regular v) (recordedStart v env) r)
    {pre post : List (SysEvent σ ω)} {c c₀ : SocketName} {t₀ : TxId} {compname opname : String}
    {input : Option Value}
    (hsplit : r.history = pre ++ .requested c t (.callMethod compname opname input) :: post)
    (hreq₀ : .requested c₀ t₀ (.deleteComponent compname) ∈ pre) (hconf : Confirmed c₀ t₀ pre)
    (hnot : NotRedefined compname t₀ r.history) : Unserved compname c t r := by
  obtain ⟨r₁, r₂, hr₁, hr₂, hlater, rfl, hhist₂, hnone⟩ := sent_of_split hr hsplit
  -- The deletion has been handled when the call is sent.
  obtain ⟨vm, hdel, -, -⟩ := hconf.answered (hr₁.mono fun _ _ hok => hok.kept) hreq₀ rfl
  obtain ⟨after, hafter⟩ := mem_handledOf (by rw [hdel]; exact List.mem_singleton_self _)
  have hafter₂ : .handled (.execute t₀ (.deleteComponent compname)) vm after ∈ r₂.history := by
    rw [hhist₂]
    exact List.mem_append_left _ hafter
  have hgone := handled_without hr₂ hlater hafter₂ hnone hnot
  have hreq : .requested c t (.callMethod compname opname input) ∈ r.history := by
    rw [hsplit]
    exact List.mem_append_right _ (.head _)
  exact unserved_of_handled (hr.mono fun _ _ hok => hok.kept) hreq hgone

/-- The client `c` asks for the component `s` and takes the answer. -/
def definedRun : List (SysAct OperatorState Unit) :=
  [.client "c" (.execute "t1" (.defineComponent "service" "s" none)), .broker "c", .vmRecv,
    .vmSend, .vmSend, .vmSend, .broker "vm", .broker "vm", .broker "vm", .take "c"]

/-- The client `c` calls a method while `d` deletes the component. -/
def deletedRun : List (SysAct OperatorState Unit) :=
  [.accept "d", .client "c" (.execute "t2" (.callMethod "s" "get" none)),
    .client "d" (.execute "t3" (.deleteComponent "s")), .broker "d", .broker "c", .vmRecv, .vmRecv,
    .vmRecv, .vmSend, .vmSend, .vmSend, .vmRecv, .vmSend, .broker "vm", .broker "vm", .broker "vm",
    .broker "vm", .take "c", .take "d"]

/-- The client `c` calls the method once more, and takes the answer. -/
def refusedRun : List (SysAct OperatorState Unit) :=
  [.client "c" (.execute "t4" (.callMethod "s" "get" none)), .broker "c", .take "c"]

/-- An event of a list, with the events before it and behind it. -/
theorem eq_take_cons_drop {α : Type} {l : List α} {n : ℕ} {x : α} (h : l[n]? = some x) :
    l = l.take n ++ x :: l.drop (n + 1) := by
  obtain ⟨hn, rfl⟩ := List.getElem?_eq_some_iff.mp h
  rw [← List.drop_eq_getElem_cons hn, List.take_append_drop]

/-- Nobody asks for a deletion of the component. -/
def undeleted (compname : String) (h : List (SysEvent σ ω)) : Bool :=
  h.all fun
    | .requested _ _ (.deleteComponent compname') => compname' ≠ compname
    | _ => true

theorem not_mem_of_undeleted {compname : String} {h : List (SysEvent σ ω)}
    (hall : undeleted compname h = true) (c : SocketName) (t : TxId) :
    .requested c t (.deleteComponent compname) ∉ h := by
  intro he
  have hne := List.all_eq_true.mp hall _ he
  simp at hne

instance (compname : String) : (e : SysEvent σ ω) → Decidable (Registers compname e)
  | .handled _ _ _ => inferInstanceAs (Decidable (_ = none ∧ ¬ _ = none))
  | .requested _ _ _ | .took _ _ | .produced _ => .isFalse id

/-- From before the deletion on, the component is not defined. -/
theorem notRedefined_of_append {compname : String} {h₁ h₂ : List (SysEvent σ ω)}
    (hnone : handledOf t h₁ = []) (hall : ∀ e ∈ h₂, ¬ Registers compname e) :
    NotRedefined compname t (h₁ ++ h₂) := by
  intro pre before after post hsplit e he
  have hdel : .handled (.execute t (.deleteComponent compname)) before after ∉ h₁ := by
    intro hmem
    have hhandled := mem_handledOf_of_mem hmem executeId_execute
    rw [hnone] at hhandled
    cases hhandled
  refine hall e ?_
  rcases List.append_eq_append_iff.mp hsplit with ⟨mid, -, hh₂⟩ | ⟨mid, hh₁, hpost⟩
  · rw [hh₂]
    exact List.mem_append_right _ (List.mem_cons_of_mem _ he)
  · cases mid with
    | nil =>
      rw [List.nil_append] at hpost
      rw [← hpost]
      exact List.mem_cons_of_mem _ he
    | cons e' mid =>
      obtain ⟨rfl, -⟩ := List.cons.inj hpost
      refine absurd ?_ hdel
      rw [hh₁]
      exact List.mem_append_right _ (.head _)

/-- After `definedRun`, the component is deleted, defined again, and called. -/
def redefinedRun : List (SysAct OperatorState Unit) :=
  [.client "c" (.execute "t3" (.deleteComponent "s")), .broker "c", .vmRecv, .vmRecv, .vmRecv,
    .vmSend, .vmSend, .vmSend, .broker "vm", .broker "vm", .broker "vm", .take "c",
    .client "c" (.execute "t5" (.defineComponent "service" "s" none)), .broker "c", .vmRecv,
    .vmRecv, .vmRecv, .vmSend, .vmSend, .vmSend, .broker "vm", .broker "vm", .broker "vm",
    .take "c", .client "c" (.execute "t6" (.callMethod "s" "get" none)), .broker "c", .vmRecv,
    .vmRecv, .vmRecv, .vm .advance, .vmSend, .broker "vm", .take "c"]

/-- After `definedRun`, the VM is stopped, and the method is called. -/
def stoppedRun : List (SysAct OperatorState Unit) :=
  [.vm .stop, .vmSend, .vmSend, .vmSend, .vmSend, .broker "vm", .broker "vm", .broker "vm",
    .broker "vm", .client "c" (.execute "t6" (.callMethod "s" "get" none)), .broker "c", .take "c"]

/-- A component type whose components have the methods `c` and `b/c`. -/
def pathFactory : ComponentFactory OperatorState Unit := fun _ env =>
  .ok (.ok ⟨((∅ : UnorderedMap _ _).insert "c" Loop.countOperator).insert "b/c"
    Loop.countOperator, ⟨none, none⟩⟩, env)

/-- A module with this component type. -/
def pathModule : Module OperatorState Unit :=
  ⟨∅, (∅ : UnorderedMap _ _).insert "path" pathFactory⟩

/-- The components `a` and `a/b` are defined, so the method `b/c` of the one and the method `c` of
the other have the same channel. The component `a/b` is deleted, and the method of `a` is called. -/
def pathRun : List (SysAct OperatorState Unit) :=
  [.vm (.importModule pathModule), .vmSend, .vm .enter, .broker "vm", .vmRecv, .accept "c",
    .client "c" (.execute "t1" (.defineComponent "path" "a" none)), .broker "c", .vmRecv,
    .vmSend, .vmSend, .vmSend, .vmSend, .broker "vm", .broker "vm", .broker "vm", .broker "vm",
    .take "c", .client "c" (.execute "t2" (.defineComponent "path" "a/b" none)), .broker "c",
    .vmRecv, .vmRecv, .vmRecv, .vmRecv, .vmSend, .vmSend, .vmSend, .vmSend, .broker "vm",
    .broker "vm", .broker "vm", .broker "vm", .client "c" (.execute "t3" (.deleteComponent "a/b")),
    .broker "c", .vmRecv, .vmRecv, .vmRecv, .vmRecv, .vmSend, .vmSend, .vmSend, .vmSend,
    .broker "vm", .broker "vm", .broker "vm", .broker "vm", .take "c", .take "c",
    .client "c" (.execute "t4" (.callMethod "a" "b/c" none)), .broker "c", .take "c"]

/-- The client `c` knows of the definition `t₀` of the component, and nobody has asked for its
deletion, but the broker has refused the later call `t`. -/
def RefusedCall (t₀ t : TxId) (comptype compname opname : String)
    (h : List (SysEvent σ ω)) : Prop :=
  ∃ pre post, h = pre ++ .requested "c" t (.callMethod compname opname none) :: post ∧
    .requested "c" t₀ (.defineComponent comptype compname none) ∈ pre ∧ Confirmed "c" t₀ pre ∧
    (∀ c t, .requested c t (.deleteComponent compname) ∉ h) ∧
    responsesOf t (tookBy "c" h) = [refusal t]

/-- Such a call, found in the events of a run: the definition is the event `m`, and the call the
later event `n`. -/
theorem refusedCall_of_run (as : List (SysAct OperatorState Unit)) {t₀ t : TxId}
    {comptype compname opname : String} {m n : ℕ} (hmn : m < n)
    (hmeets : Meets (recordedStep "vm" fun n => toString n) (Calm "vm") (recordedStart "vm" ()) as)
    (hevents : (run (recordedStep "vm" fun n => toString n) (recordedStart "vm" ()) as).map (fun r =>
        (r.history[m]?, r.history[n]?, responsesOf t (tookBy "c" r.history))) =
      some (some (.requested "c" t₀ (.defineComponent comptype compname none)),
        some (.requested "c" t (.callMethod compname opname none)), [refusal t]))
    (hfacts : (run (recordedStep "vm" fun n => toString n) (recordedStart "vm" ()) as).map (fun r =>
        (decide (Confirmed "c" t₀ (r.history.take n)), undeleted compname r.history)) =
      some (true, true)) :
    ∃ r : Recorded (Sys OperatorState Unit) _,
      ReachVia (recordedStep "vm" fun n => toString n) (Calm "vm") (recordedStart "vm" ()) r ∧
        RefusedCall t₀ t comptype compname opname r.history := by
  cases hrun : run (recordedStep "vm" fun n => toString n) (recordedStart "vm" ()) as with
  | none =>
    rw [hrun] at hevents
    cases hevents
  | some r =>
    rw [hrun] at hevents hfacts
    obtain ⟨hdef, hevents⟩ := Prod.mk.inj (Option.some.inj hevents)
    obtain ⟨hcall, hrefused⟩ := Prod.mk.inj hevents
    obtain ⟨hconf, hno⟩ := Prod.mk.inj (Option.some.inj hfacts)
    refine ⟨r, ReachVia.init.of_run hmeets hrun, r.history.take n, r.history.drop (n + 1),
      eq_take_cons_drop hcall, ?_, of_decide_eq_true hconf, not_mem_of_undeleted hno, hrefused⟩
    refine List.mem_of_getElem? (i := m) ?_
    rw [List.getElem?_take, if_pos hmn]
    exact hdef

end Sys

end Ailoy
