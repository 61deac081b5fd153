import Ailoy.System.SharedComponent
import Ailoy.Vm.DebugModule

/-!
# An accumulator that clients share

Clients that share an accumulator lose no update (`no_lost_update`). There is one order of all texts
that clients have put, each once, that respects the order clients can tell, and each `get` returns
the texts up to one place in it: all that had been put before it was requested, and none that was
requested when it had been answered. This is what is left of the sequential object `Accumulates` for
clients that see their own responses only.
-/

namespace Ailoy

open SequentialObject Transition DebugModule

namespace DebugModule

/-- The text that a call adds. -/
def putOf (x : (String × Value) × List Output) : Option String :=
  if x.1.1 = "put" then putText x.1.2 else none

theorem Accumulates.pieces_eq {compname base : String} {pieces pieces' : List String}
    {x : (String × Value) × List Output}
    (h : Accumulates compname base pieces x.1 x.2 pieces') :
    pieces' = pieces ++ (putOf x).toList := by
  unfold Accumulates at h
  unfold putOf
  split at h
  · rename_i hput
    rw [if_pos hput]
    cases htext : putText x.1.2 with
    | none =>
      simp only [htext] at h
      rw [h.2, Option.toList_none, List.append_nil]
    | some s =>
      simp only [htext] at h
      exact h.2
  · rename_i hget
    rw [if_neg (by rw [hget]; decide), h.2, Option.toList_none, List.append_nil]
  · rename_i hcount
    rw [if_neg (by rw [hcount]; decide), h.2, Option.toList_none, List.append_nil]
  · rename_i hput _ _
    rw [if_neg hput, h.2, Option.toList_none, List.append_nil]

/-- The pieces are the texts that the calls have added. -/
theorem pieces_of_legal {compname base : String} {pieces pieces' : List String}
    {l : List ((String × Value) × List Output)}
    (h : Legal (Accumulates compname base) pieces l pieces') :
    pieces' = pieces ++ l.filterMap putOf := by
  induction h with
  | nil => simp
  | @cons pieces pieces' pieces'' call outs l hnext _ ih =>
    have hone := Accumulates.pieces_eq (x := (call, outs)) hnext
    rw [ih, hone, List.filterMap_cons, List.append_assoc]
    cases putOf (call, outs) <;> rfl

end DebugModule

namespace Sys

variable {σ ω : Type} {v : SocketName} {uuid : ℕ → TxId} {t : TxId} {h : List (SysEvent σ ω)}
  {env : ω} {r : Recorded (Sys σ ω) (SysEvent σ ω)}

/-- What clients see of an accumulator with the base `base`: the texts `puts` have been added one
after the other. -/
structure Collects (compname base : String) (h : List (SysEvent σ ω)) (puts : List (TxId × String)) :
    Prop where
  nodup : (puts.map Prod.fst).Nodup
  ordered : ∀ t t', Earlier h t t' → t ∈ puts.map Prod.fst → t' ∈ puts.map Prod.fst →
    (puts.map Prod.fst).Precedes t t'
  requested : ∀ t s, (t, s) ∈ puts → ∃ c input,
    .requested c t (.callMethod compname "put" input) ∈ h ∧ putText (input.getD .null) = some s
  complete : ∀ c t input s, .requested c t (.callMethod compname "put" input) ∈ h →
    putText (input.getD .null) = some s → Succeeded c t h → (t, s) ∈ puts
  gets : ∀ c t input, .requested c t (.callMethod compname "get" input) ∈ h → Succeeded c t h →
    ∃ n, responsesOf t (tookBy c h) = [.respondExecute t 0 true
        (.map [("text", .string (base ++ String.join ((puts.take n).map Prod.snd)))])] ∧
      (∀ x ∈ puts, Earlier h x.1 t → x ∈ puts.take n) ∧
      ∀ x ∈ puts.take n, ¬ Earlier h t x.1

/-- The calls of an accumulator, as clients see them. -/
theorem SharedBy.collects {compname base : String} {comp : Component σ} {t₀ : TxId}
    {calls : List (TxId × (String × Value) × List Output)} {objs : σ} {pieces : List String}
    (hsh : SharedBy compname comp t₀ r calls objs)
    (hacc : Linearizes (Accumulates compname base) (Earlier r.history) [] calls pieces) :
    Collects compname base r.history (viewed putOf calls) := by
  have hsub : ((viewed putOf calls).map Prod.fst).Sublist (calls.map Prod.fst) := map_fst_viewed
  refine ⟨hacc.nodup.sublist hsub, fun t t' hearlier ht ht' => ?_, fun t s hmem => ?_,
    fun c t input s hreq htext hok => ?_, fun c t input hreq hok => ?_⟩
  · exact (hacc.ordered t t' hearlier (hsub.subset ht) (hsub.subset ht')).of_sublist hacc.nodup hsub
      ht ht'
  · obtain ⟨⟨⟨opname, value⟩, outs⟩, hin, hput⟩ := mem_viewed_iff.mp hmem
    obtain ⟨rfl, htext⟩ := Option.ite_none_right_eq_some.mp hput
    obtain ⟨c, input, hreq, hinput, -⟩ := hsh.called _ _ _ hin
    exact ⟨c, input, hreq, by rw [hinput]; exact htext⟩
  · obtain ⟨outs, hin, -⟩ := hsh.of_succeeded hreq hok
    exact mem_viewed_iff.mpr ⟨_, hin, Option.ite_none_right_eq_some.mpr ⟨rfl, htext⟩⟩
  · obtain ⟨outs, hin, htook⟩ := hsh.of_succeeded hreq hok
    obtain ⟨pre, post, rfl⟩ := List.append_of_mem hin
    obtain ⟨pieces₁, hpre, hrest⟩ := hacc.append
    obtain ⟨pieces₂, hget, -⟩ := hrest.tail
    have hpieces : pieces₁ = (viewed putOf pre).map Prod.snd := by
      rw [pieces_of_legal hpre.legal, List.nil_append, map_snd_viewed]
    have htake : (viewed putOf (pre ++ (t, ("get", input.getD .null), outs) :: post)).take
        (viewed putOf pre).length = viewed putOf pre := by
      rw [viewed_append, List.take_left]
    obtain ⟨houts, -⟩ : outs = [.ok (.map [("text", .string (base ++ String.join pieces₁))]) true] ∧
      pieces₂ = pieces₁ := hget
    have hnd := hacc.nodup
    have hord := hacc.ordered
    rw [List.map_append, List.map_cons] at hnd hord
    refine ⟨(viewed putOf pre).length, ?_, fun x hx hearlier => ?_, fun x hx hearlier => ?_⟩
    · rw [htake, htook, houts, hpieces]
      rfl
    · have hx' : x.1 ∈ ((pre ++ (t, ("get", input.getD .null), outs) :: post).map Prod.fst) :=
        hsub.subset (List.mem_map_of_mem hx)
      rw [List.map_append, List.map_cons] at hx'
      have hahead := (hord x.1 t hearlier hx' (List.mem_append_right _ (.head _))).mem_left hnd
      rw [htake]
      rw [viewed_append] at hx
      refine (List.mem_append.mp hx).resolve_right fun hbehind => ?_
      have hmem := map_fst_viewed.subset (List.mem_map_of_mem (f := Prod.fst) hbehind)
      exact (List.nodup_append.mp hnd).2.2 x.1 hahead x.1 hmem rfl
    · rw [htake] at hx
      have hahead := map_fst_viewed.subset (List.mem_map_of_mem (f := Prod.fst) hx)
      have hbehind := (hord t x.1 hearlier (List.mem_append_right _ (.head _))
        (List.mem_append_left _ hahead)).mem_right hnd
      exact (List.nodup_append.mp hnd).2.2 x.1 hahead x.1 (.tail _ hbehind) rfl

/-- In every run in which clients use fresh ids, the VM goes on running, and no packet of a request
is lost: clients that share an accumulator that is defined once see one order of the texts that they
have put, in which none is lost or added twice. -/
theorem no_lost_update {comptype compname : String} {input : Option Value} {c : SocketName}
    (getType : Value → String) (e : Embedding (MethodState Accumulator) σ)
    (hr : ReachVia (recordedStep v uuid) (Kept v) (recordedStart v env) r)
    (hdef : DefinedOnce comptype compname input c t r.history)
    (hfac : r.state.loop.vm.factories.lookup comptype = some (accumulatorFactory getType e)) :
    ∃ base m puts, input = some (.map m) ∧ m.lookup "base" = some (.string base) ∧
      Collects compname base r.history puts := by
  obtain ⟨r₀, ops, -, -, -, ⟨mods, hmods⟩, hs⟩ := hasServed_of_reach hr
  rw [hmods] at hs
  obtain ⟨factory, comp, env₁, env₂, calls, objs, hfac', hmake, hsh⟩ := hs.shared hr hdef
  obtain rfl := Option.some.inj (hfac.symm.trans hfac')
  obtain ⟨base, m, hattrs, hbase, hops, hobjs⟩ := of_accumulatorFactory getType e hmake
  have hinput : input = some (.map m) := by
    cases input with
    | none => cases hattrs
    | some v => exact congrArg some hattrs
  have hlin := hsh.linearizes
  rw [hops] at hlin
  obtain ⟨pieces, hacc, -⟩ := hlin.refine (refines_accumulates getType e compname base _) hobjs
  have hsame : viewed some calls = calls := by simp [viewed]
  rw [hsame] at hacc
  exact ⟨base, m, viewed putOf calls, hinput, hbase, hsh.collects hacc⟩

/-- The states of the operators of the debug module, and of accumulators. -/
abbrev DebugState := OperatorState ⊕ MethodState Accumulator

def debugOperators : Embedding OperatorState DebugState := ⟨.inl, Sum.getLeft?, fun _ => rfl⟩

def debugAccumulators : Embedding (MethodState Accumulator) DebugState :=
  ⟨.inr, Sum.getRight?, fun _ => rfl⟩

/-- An input with one text. -/
def textInput (field s : String) : Option Value := some (.map [(field, .string s)])

/-- The client `c` defines an accumulator. Then `c` and `d` put texts at the same time, and `d` asks
for the text when it has its answer. -/
def accumulatingRun : List (SysAct DebugState Unit) :=
  [.vm (.importModule (debugModule (fun _ => "null_t") debugAccumulators debugOperators)), .vmSend,
    .vmSend, .vmSend, .vm .enter, .broker "vm", .broker "vm", .broker "vm", .vmRecv, .vmRecv,
    .vmRecv, .accept "c", .accept "d",
    .client "c" (.execute "t1" (.defineComponent "accumulator" "a" (textInput "base" ">"))),
    .broker "c", .vmRecv, .vmSend, .vmSend, .vmSend, .vmSend, .vmSend, .broker "vm", .broker "vm",
    .broker "vm", .broker "vm", .broker "vm", .take "c",
    .client "c" (.execute "t2" (.callMethod "a" "put" (textInput "s" "x"))),
    .client "d" (.execute "t3" (.callMethod "a" "put" (textInput "s" "y"))), .broker "d",
    .vmRecv, .vmRecv, .vmRecv, .vmRecv, .vmRecv, .vm .advance, .vmSend, .broker "c", .broker "vm",
    .take "d", .client "d" (.execute "t4" (.callMethod "a" "get" none)), .broker "d", .vmRecv,
    .vm .advance, .vmSend, .vmRecv, .vm .advance, .vmSend, .broker "vm", .broker "vm", .take "c",
    .take "d"]

set_option maxRecDepth 4000 in
theorem no_lost_update_accumulatingRun : ∃ r : Recorded (Sys DebugState Unit) _,
    ReachVia (recordedStep "vm" fun n => toString n) (Kept "vm") (recordedStart "vm" ()) r ∧
      Succeeded "c" "t2" r.history ∧ Succeeded "d" "t3" r.history ∧ Succeeded "d" "t4" r.history ∧
      ∃ base m puts, textInput "base" ">" = some (.map m) ∧ m.lookup "base" = some (.string base) ∧
        Collects "a" base r.history puts := by
  have hmeets : Meets (recordedStep "vm" fun n => toString n) (Kept "vm") (recordedStart "vm" ())
    accumulatingRun := by decide
  have hend : (run (recordedStep "vm" fun n => toString n) (recordedStart "vm" ())
      accumulatingRun).map (fun r => (decide (Succeeded "c" "t2" r.history ∧
          Succeeded "d" "t3" r.history ∧ Succeeded "d" "t4" r.history),
        decide (Confirmed "c" "t1" r.history), replacersOf "a" r.history)) =
      some (true, true, ["t1"]) := by
    decide
  have hreq : (run (recordedStep "vm" fun n => toString n) (recordedStart "vm" ())
      accumulatingRun).map (fun r => (r.history[6]?,
        r.state.loop.vm.factories.lookup "accumulator")) = some
      (some (.requested "c" "t1" (.defineComponent "accumulator" "a" (textInput "base" ">"))),
        some (accumulatorFactory (fun _ => "null_t") debugAccumulators)) := rfl
  obtain ⟨r, hrun, hlast⟩ := Option.map_eq_some_iff.mp hend
  rw [hrun] at hreq
  obtain ⟨hdone, hlast⟩ := Prod.mk.inj hlast
  obtain ⟨hconf, honce⟩ := Prod.mk.inj hlast
  obtain ⟨hreq, hfac⟩ := Prod.mk.inj (Option.some.inj hreq)
  obtain ⟨hc, hd, hget⟩ := of_decide_eq_true hdone
  have hreach := ReachVia.init.of_run hmeets hrun
  have hdef : DefinedOnce "accumulator" "a" (textInput "base" ">") "c" "t1" r.history :=
    ⟨List.mem_of_getElem? hreq, of_decide_eq_true hconf, honce⟩
  exact ⟨r, hreach, hc, hd, hget, no_lost_update _ _ hreach hdef hfac⟩

end Sys

end Ailoy
