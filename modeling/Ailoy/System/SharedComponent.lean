import Ailoy.System.Lifecycle
import Ailoy.System.Linearizable

/-!
# A component that clients share

A component that is defined once is, from then on, a sequential object of its own, whoever calls it
(`shared_component`). Its calls, from all clients, are served one after the other by its methods,
from the objects that the factory has made, and what clients do to other components, operators, and
channels does not show. A call that was requested when the definition had been answered is one of
these, unless the broker refuses it.
-/

namespace Ailoy

open SequentialObject Transition

/-- Whether a request defines or deletes a component does not depend on its input. -/
theorem Request.replaces_filled {compname : String} (q : Request) :
    q.filled.Replaces compname ↔ q.Replaces compname := by
  cases q <;> rfl

/-- A call of a component, from the request that a client has made. -/
theorem of_callOn_filled {compname : String} {q : Request} {outs : List Output}
    {y : (String × Value) × List Output} (h : callOn compname (q.filled, outs) = some y) :
    ∃ input, q = .callMethod compname y.1.1 input ∧ input.getD .null = y.1.2 := by
  cases q with
  | callMethod compname' opname input =>
    simp only [Request.filled, callOn, Option.ite_none_right_eq_some, Option.some.injEq] at h
    obtain ⟨rfl, rfl⟩ := h
    exact ⟨input, rfl, rfl⟩
  | callFunction | defineComponent | deleteComponent => cases h

namespace Sys

variable {σ ω : Type} {v : SocketName} {uuid : ℕ → TxId} {t : TxId} {h : List (SysEvent σ ω)}
  {env : ω} {r : Recorded (Sys σ ω) (SysEvent σ ω)}

/-- The transactions that clients have requested to define or delete the component of a name. -/
def replacersOf (compname : String) (h : List (SysEvent σ ω)) : List TxId :=
  h.filterMap fun
    | .requested _ t q => if q.Replaces compname then some t else none
    | _ => none

/-- The client `c` has defined a component, taken the result, and nothing else defines or deletes a
component of its name. -/
structure DefinedOnce (comptype compname : String) (input : Option Value) (c : SocketName) (t : TxId)
    (h : List (SysEvent σ ω)) : Prop where
  requested : .requested c t (.defineComponent comptype compname input) ∈ h
  confirmed : Confirmed c t h
  once : replacersOf compname h = [t]

/-- The clients' calls of a component are the operations of a sequential object, since its definition
`t₀` from its objects `objs` on. -/
structure SharedBy (compname : String) (comp : Component σ) (t₀ : TxId)
    (r : Recorded (Sys σ ω) (SysEvent σ ω)) (ops : List (TxId × (String × Value) × List Output))
    (objs : σ) : Prop where
  linearizes : Linearizes (Component.Serves compname comp.ops) (Earlier r.history) comp.objs ops objs
  stored : r.state.loop.vm.components.lookup compname = some ⟨comp.ops, objs⟩
  called : ∀ t call outs, (t, call, outs) ∈ ops → ∃ c input,
    .requested c t (.callMethod compname call.1 input) ∈ r.history ∧ input.getD .null = call.2 ∧
      ¬ Earlier r.history t t₀
  answers : ∀ c t opname input, .requested c t (.callMethod compname opname input) ∈ r.history →
    Finished c t r.history →
      (∃ outs, (t, (opname, input.getD .null), outs) ∈ ops ∧
        responsesOf t (tookBy c r.history) = outputPackets t 0 outs) ∨
      responsesOf t (tookBy c r.history) = [refusal t] ∨
      ¬ Earlier r.history t₀ t ∧ responsesOf t (tookBy c r.history) =
        [.respondExecuteError t 0 ("Component not exists: " ++ compname)]

/-- A transaction is requested once. -/
theorem requested_unique {c c' : SocketName} {q q' : Request}
    (hr : ReachVia (recordedStep v uuid) (Kept v) (recordedStart v env) r)
    (hreq : .requested c t q ∈ r.history) (hreq' : .requested c' t q' ∈ r.history) :
    c = c' ∧ q = q' := by
  have hmem := mem_requestsOf hreq
  have hmem' := mem_requestsOf hreq'
  have hstage := stage_of_reach hr t
  have hreqs : requestsOf t r.history = (tx v t r.state r.history).requests := rfl
  rw [hreqs] at hmem hmem'
  generalize tx v t r.state r.history = x at *
  cases hstage with
  | absent => cases hmem
  | waiting | refused | forwarded | working | answered =>
    have heq := (List.mem_singleton.mp hmem).trans (List.mem_singleton.mp hmem').symm
    exact Prod.mk.inj heq

/-- A client that has taken the response to a definition or a deletion has taken the last one. -/
theorem Confirmed.finished {c : SocketName} {q : Request} (hconf : Confirmed c t r.history)
    (hr : ReachVia (recordedStep v uuid) (Kept v) (recordedStart v env) r)
    (hreq : .requested c t q ∈ r.history) (hq : q.IsCall = false) : Finished c t r.history := by
  obtain ⟨vm, hhandled, -, -⟩ := hconf.answered hr hreq hq
  obtain ⟨p, hp, hresp, -⟩ := hconf
  refine ⟨p, hp, hresp, ?_⟩
  have htaken : p ∈ (tx v t r.state r.history).handed c := by
    simp only [tx, responsesOf_append]
    exact List.mem_append_left _ (List.mem_filter.mpr ⟨hp, by simpa using hresp⟩)
  have hmem := mem_requestsOf hreq
  have hstage := stage_of_reach hr t
  have hreqs : requestsOf t r.history = (tx v t r.state r.history).requests := rfl
  have hhist : handledOf t r.history = (tx v t r.state r.history).handled := rfl
  rw [hreqs] at hmem
  rw [hhist] at hhandled
  generalize tx v t r.state r.history = x at *
  cases hstage with
  | absent | waiting | refused | forwarded => cases hhandled
  | working c' q' vm' hfinds =>
    obtain ⟨rfl, rfl⟩ := Prod.mk.inj (List.mem_singleton.mp hmem)
    rw [Vm.isCall_of_finds hfinds] at hq
    cases hq
  | @answered c' q' vm' outs handed pending _ _ hpkts hvm _ =>
    obtain ⟨rfl, rfl⟩ := Prod.mk.inj (List.mem_singleton.mp hmem)
    -- The only output is final.
    obtain ⟨o, ho, hone⟩ := vm'.outputs_single hq
    have htaken' : p ∈ only c handed c := htaken
    rw [only_self] at htaken'
    have hall : p ∈ outputPackets t 0 outs := by
      rw [← hpkts]
      exact List.mem_append_left _ htaken'
    obtain ⟨o', ho', hflag⟩ := boolHeader_of_mem hall
    rw [hone outs hvm, List.mem_singleton] at ho'
    rw [hflag, ho']
    rcases ho with rfl | ⟨e, rfl⟩ <;> rfl

theorem mem_replacersOf {compname : String} {c : SocketName} {q : Request}
    (hreq : .requested c t q ∈ h) (hq : q.Replaces compname) : t ∈ replacersOf compname h :=
  List.mem_filterMap.mpr ⟨_, hreq, by simp [hq]⟩

/-- The operation of a definition that its client has got a result for. -/
theorem Confirmed.operation {c : SocketName} {comptype compname : String} {input : Option Value}
    {b : Tables σ ω} {ops : Operations} (hconf : Confirmed c t r.history)
    (hr : ReachVia (recordedStep v uuid) (Kept v) (recordedStart v env) r)
    (hs : HasServed b r.state r.history ops) (hexp : Explains b ops r)
    (hreq : .requested c t (.defineComponent comptype compname input) ∈ r.history) :
    (t, (Request.defineComponent comptype compname input).filled, [.ok (.map []) true]) ∈ ops := by
  obtain ⟨vm, hhandled, houts, -⟩ := hconf.answered hr hreq rfl
  rcases hexp.answers c t (hconf.finished hr hreq rfl) with ⟨hrefused, -⟩ | ⟨q, outs, hop, -⟩
  · obtain ⟨p, hp, hresp, hstatus⟩ := hconf
    have hmem : p ∈ responsesOf t (tookBy c r.history) :=
      List.mem_filter.mpr ⟨hp, by simpa using hresp⟩
    rw [hrefused, List.mem_singleton] at hmem
    rw [hmem] at hstatus
    cases hstatus
  · obtain ⟨c', q', hreq', rfl⟩ := hexp.requested t q outs hop
    obtain ⟨-, rfl⟩ := requested_unique hr hreq hreq'
    obtain ⟨pkt, vm', hin, houts'⟩ := hs.answered _ _ _ hop
    rw [hhandled] at hin
    obtain ⟨-, rfl⟩ := Prod.mk.inj (List.mem_singleton.mp hin)
    obtain rfl := Vm.Outputs.unique houts' ((vm'.outputs_filled _ _).mpr houts)
    exact hop

/-- Operations around the definition of a component: before it its calls are refused, and after it
they linearize by themselves. -/
theorem Explains.around {compname : String} {b : Tables σ ω} {ops pre post : Operations}
    {q : Request} {outs : List Output} (hexp : Explains b ops r)
    (hsplit : ops = pre ++ (t, q, outs) :: post) (honce : replacersOf compname r.history = [t]) :
    (∀ x ∈ pre, ¬ x.2.1.Replaces compname) ∧ (∀ x ∈ post, ¬ x.2.1.Replaces compname) ∧
      (∀ x ∈ pre, x.1 ≠ t ∧ ¬ Earlier r.history t x.1) ∧
      (∀ x ∈ post, x.1 ≠ t ∧ ¬ Earlier r.history x.1 t) := by
  have hnd := hexp.linearizes.nodup
  have hord := hexp.linearizes.ordered
  have hids : ops.map Prod.fst = pre.map Prod.fst ++ t :: post.map Prod.fst := by
    rw [hsplit, List.map_append, List.map_cons]
  rw [hids] at hnd hord
  have hpre : ∀ x ∈ pre, x.1 ≠ t := fun x hx heq =>
    (List.nodup_append.mp hnd).2.2 x.1 (List.mem_map_of_mem hx) t (.head _) heq
  have hpost : ∀ x ∈ post, x.1 ≠ t := fun x hx heq =>
    (List.nodup_cons.mp (List.nodup_append.mp hnd).2.1).1 (heq ▸ List.mem_map_of_mem hx)
  have hkeep : ∀ x ∈ ops, x.1 ≠ t → ¬ x.2.1.Replaces compname := by
    intro x hx hne hrep
    obtain ⟨c', q', hreq, hq⟩ := hexp.requested x.1 x.2.1 x.2.2 hx
    rw [← hq, Request.replaces_filled] at hrep
    have hmem := mem_replacersOf hreq hrep
    rw [honce, List.mem_singleton] at hmem
    exact hne hmem
  refine ⟨fun x hx => hkeep x (hsplit ▸ List.mem_append_left _ hx) (hpre x hx),
    fun x hx => hkeep x (hsplit ▸ List.mem_append_right _ (.tail _ hx)) (hpost x hx),
    fun x hx => ⟨hpre x hx, fun hearlier => ?_⟩, fun x hx => ⟨hpost x hx, fun hearlier => ?_⟩⟩
  · have hx' : x.1 ∈ pre.map Prod.fst := List.mem_map_of_mem hx
    have hbehind := (hord t x.1 hearlier (List.mem_append_right _ (.head _))
      (List.mem_append_left _ hx')).mem_right hnd
    exact (List.nodup_append.mp hnd).2.2 x.1 hx' x.1 (.tail _ hbehind) rfl
  · have hx' : x.1 ∈ post.map Prod.fst := List.mem_map_of_mem hx
    have hahead := (hord x.1 t hearlier (List.mem_append_right _ (.tail _ hx'))
      (List.mem_append_right _ (.head _))).mem_left hnd
    exact (List.nodup_append.mp hnd).2.2 x.1 hahead x.1 (.tail _ hx') rfl

/-- The client of `c` has taken the last response of `t`, and it is a result. -/
def Succeeded (c : SocketName) (t : TxId) (h : List (SysEvent σ ω)) : Prop :=
  ∃ p ∈ tookBy c h, p.Finishes t ∧ p.status = .ok true

instance (c : SocketName) (t : TxId) (h : List (SysEvent σ ω)) : Decidable (Succeeded c t h) :=
  inferInstanceAs (Decidable (∃ p ∈ _, _ ∧ _))

/-- A call that has succeeded is one of those of the component. -/
theorem SharedBy.of_succeeded {compname : String} {comp : Component σ} {t₀ : TxId}
    {calls : List (TxId × (String × Value) × List Output)} {objs : σ}
    (hsh : SharedBy compname comp t₀ r calls objs) {c : SocketName} {opname : String}
    {input : Option Value} (hreq : .requested c t (.callMethod compname opname input) ∈ r.history)
    (hok : Succeeded c t r.history) :
    ∃ outs, (t, (opname, input.getD .null), outs) ∈ calls ∧
      responsesOf t (tookBy c r.history) = outputPackets t 0 outs := by
  obtain ⟨p, hp, hfin, hstatus⟩ := hok
  have hmem : p ∈ responsesOf t (tookBy c r.history) :=
    List.mem_filter.mpr ⟨hp, by simpa using hfin.1⟩
  rcases hsh.answers c t opname input hreq ⟨p, hp, hfin⟩ with hcall | hrefused | ⟨-, habsent⟩
  · exact hcall
  · rw [hrefused, List.mem_singleton] at hmem
    rw [hmem] at hstatus
    cases hstatus
  · rw [habsent, List.mem_singleton] at hmem
    rw [hmem] at hstatus
    cases hstatus

/-- What the VM has served since it imported modules, as the calls of a component that is defined
once. -/
theorem HasServed.shared {comptype compname : String} {input : Option Value} {c : SocketName}
    {mods : List (Module σ ω)} {ops : Operations}
    (hs : HasServed (.imported env mods) r.state r.history ops)
    (hr : ReachVia (recordedStep v uuid) (Kept v) (recordedStart v env) r)
    (hdef : DefinedOnce comptype compname input c t r.history) :
    ∃ factory comp env₁ env₂ calls objs,
      r.state.loop.vm.factories.lookup comptype = some factory ∧
      factory (input.getD .null) env₁ = .ok (.ok comp, env₂) ∧
      SharedBy compname comp t r calls objs := by
  have hexp := hs.explains hr
  have hop := hdef.confirmed.operation hr hs hexp hdef.requested
  obtain ⟨pre, post, hsplit⟩ := List.append_of_mem hop
  obtain ⟨hkeep₁, hkeep₂, hbefore, hafter⟩ := hexp.around hsplit hdef.once
  have hall := hexp.linearizes
  rw [hsplit] at hall
  obtain ⟨b₁, hlin₁, hlin₂⟩ := hall.append
  obtain ⟨b₂, hserves, hpost⟩ := hlin₂.tail
  have hserves' : b₁.Serves (.defineComponent comptype compname (some (input.getD .null)))
    [.ok (.map []) true] b₂ := hserves
  obtain ⟨factory, comp, env', hfac, hmake, hcomp⟩ := hserves'.made
  obtain ⟨objs, hcalls, hstored⟩ := Tables.component_linearizes hpost hcomp hkeep₂
  have hfactories : r.state.loop.vm.factories = b₁.factories :=
    (Tables.factories_of_legal hpost.legal).trans hserves'.factories
  refine ⟨factory, comp, b₁.env, env', viewed (callOn compname) post, objs, ?_, hmake,
    ⟨hcalls, hstored, ?_, ?_⟩⟩
  · rw [hfactories]
    exact hfac
  · intro t' call outs hmem
    obtain ⟨⟨q, outs₁⟩, hin, hcall⟩ := mem_viewed_iff.mp hmem
    have hops : (t', q, outs₁) ∈ ops := by
      rw [hsplit]
      exact List.mem_append_right _ (.tail _ hin)
    obtain ⟨c', q', hreq, rfl⟩ := hexp.requested _ _ _ hops
    obtain ⟨input', rfl, hinput⟩ := of_callOn_filled hcall
    exact ⟨c', input', hreq, hinput, (hafter _ hin).2⟩
  · intro c' t' opname input' hreq hfin
    rcases hexp.answers c' t' hfin with ⟨hrefused, -⟩ | ⟨q, outs, hops, htook⟩
    · exact .inr (.inl hrefused)
    · obtain ⟨c₁, q', hreq', rfl⟩ := hexp.requested _ _ _ hops
      obtain ⟨-, rfl⟩ := requested_unique hr hreq hreq'
      have hcall : callOn compname ((Request.callMethod compname opname input').filled, outs) =
          some ((opname, input'.getD .null), outs) := if_pos rfl
      rw [hsplit] at hops
      rcases List.mem_append.mp hops with hin | hin
      · -- The call came before the definition.
        have habsent := Tables.absent_of_legal hlin₁.legal
          (by rw [Tables.components_imported]; rfl) (fun x hx => ?_) _
          (List.mem_filterMap.mpr ⟨_, List.mem_map_of_mem hin, hcall⟩)
        · refine .inr (.inr ⟨(hbefore _ hin).2, ?_⟩)
          rw [htook, show outs = _ from habsent]
          rfl
        · obtain ⟨y, hy, rfl⟩ := List.mem_map.mp hx
          exact hkeep₁ y hy
      · rcases List.mem_cons.mp hin with heq | hin
        · obtain rfl : t' = t := congrArg Prod.fst heq
          obtain ⟨-, hne⟩ := requested_unique hr hreq hdef.requested
          cases hne
        · exact .inl ⟨outs, mem_viewed_iff.mpr ⟨_, hin, hcall⟩, htook⟩

/-- In every run in which clients use fresh ids, the VM goes on running, and no packet of a request
is lost: a component that is defined once, and whose definition has been answered, is a sequential
object for all clients that call it, made by the factory of its type. -/
theorem shared_component {comptype compname : String} {input : Option Value} {c : SocketName}
    (hr : ReachVia (recordedStep v uuid) (Kept v) (recordedStart v env) r)
    (hdef : DefinedOnce comptype compname input c t r.history) :
    ∃ factory comp env₁ env₂ calls objs,
      r.state.loop.vm.factories.lookup comptype = some factory ∧
      factory (input.getD .null) env₁ = .ok (.ok comp, env₂) ∧
      SharedBy compname comp t r calls objs := by
  obtain ⟨r₀, ops, -, -, -, ⟨mods, hmods⟩, hs⟩ := hasServed_of_reach hr
  rw [hmods] at hs
  exact hs.shared hr hdef

/-- The clients `c` and `d` call the component `s` that `c` has defined at the same time. -/
def sharingRun : List (SysAct OperatorState Unit) :=
  [.accept "d", .client "c" (.execute "t2" (.callMethod "s" "get" none)),
    .client "d" (.execute "t3" (.callMethod "s" "get" none)), .broker "d", .broker "c", .vmRecv,
    .vmRecv, .vmRecv, .vm .advance, .vmSend, .broker "vm", .vm .advance, .vmSend, .vmRecv,
    .vm .advance, .vmSend, .vm .advance, .vmSend, .broker "vm", .broker "vm", .broker "vm",
    .take "c", .take "d", .take "d", .take "c"]

theorem shared_component_sharingRun : ∃ r : Recorded (Sys OperatorState Unit) _,
    ReachVia (recordedStep "vm" fun n => toString n) (Kept "vm") (recordedStart "vm" ()) r ∧
      Finished "c" "t2" r.history ∧ Finished "d" "t3" r.history ∧
      ∃ factory comp env₁ env₂ calls objs,
        r.state.loop.vm.factories.lookup "service" = some factory ∧
        factory .null env₁ = .ok (.ok comp, env₂) ∧ SharedBy "s" comp "t1" r calls objs := by
  have hmeets : Meets (recordedStep "vm" fun n => toString n) (Kept "vm") (recordedStart "vm" ())
    (servingRun ++ definedRun ++ sharingRun) := by decide
  have hend : (run (recordedStep "vm" fun n => toString n) (recordedStart "vm" ())
      (servingRun ++ definedRun ++ sharingRun)).map (fun r =>
        (decide (Finished "c" "t2" r.history ∧ Finished "d" "t3" r.history),
          decide (Confirmed "c" "t1" r.history), replacersOf "s" r.history)) =
      some (true, true, ["t1"]) := by
    decide
  have hreq : (run (recordedStep "vm" fun n => toString n) (recordedStart "vm" ())
      (servingRun ++ definedRun ++ sharingRun)).map (fun r => r.history[4]?) =
      some (some (.requested "c" "t1" (.defineComponent "service" "s" none))) := rfl
  obtain ⟨r, hrun, hlast⟩ := Option.map_eq_some_iff.mp hend
  rw [hrun] at hreq
  obtain ⟨hfin, hlast⟩ := Prod.mk.inj hlast
  obtain ⟨hconf, honce⟩ := Prod.mk.inj hlast
  obtain ⟨hc, hd⟩ := of_decide_eq_true hfin
  have hreach := ReachVia.init.of_run hmeets hrun
  have hdef : DefinedOnce "service" "s" none "c" "t1" r.history :=
    ⟨List.mem_of_getElem? (Option.some.inj hreq), of_decide_eq_true hconf, honce⟩
  exact ⟨r, hreach, hc, hd, shared_component hreach hdef⟩

end Sys

end Ailoy
