import Ailoy.System.SharedComponent
import Ailoy.Vm.StoreComponent
import Mathlib.Algebra.Order.BigOperators.Group.List
import Mathlib.Algebra.GroupWithZero.Nat
import Mathlib.Algebra.Order.Ring.Nat

/-!
# A vector store that clients share

Clients that share a vector store can rely on each other's answers (`store_shared`): no id is handed
out twice, whoever asks; an id that was handed out is read as the record that was inserted under it,
unless somebody may have removed it in between; and a record that was removed stays away. The calls
come from any clients, in any order, and at the same time. They have to be proper, and there is room
for `2^64` ids.
-/

namespace Ailoy

open SequentialObject Transition FaissStore

/-- The output of a call that is answered with a single result. -/
theorem outputs_of_packets {t : TxId} {outs : List Output} {v : Value}
    (h : outputPackets t 0 outs = [.respondExecute t 0 true v]) : outs = [.ok v true] := by
  cases outs with
  | nil => cases h
  | cons out outs =>
    obtain ⟨hout, hrest⟩ := List.cons.inj h
    have hnil : outs = [] := by
      have hlen := congrArg List.length hrest
      rw [length_outputPackets] at hlen
      exact List.length_eq_zero_iff.mp hlen
    subst hnil
    cases out with
    | ok w fin =>
      have hbody := congrArg Packet.body hout
      have hheaders := congrArg Packet.headers hout
      simp [Output.packet, Packet.respondExecute] at hbody hheaders
      rw [hbody, hheaders]
    | error err =>
      have hbody := congrArg Packet.body hout
      simp [Output.packet, Packet.respondExecute, Packet.respondExecuteError] at hbody

namespace Sys

variable {σ ω : Type} {v : SocketName} {uuid : ℕ → TxId} {h : List (SysEvent σ ω)} {env : ω}
  {r : Recorded (Sys σ ω) (SysEvent σ ω)}

/-- The client of `c` has called a method, and has taken one response, with the value `w`. -/
def Got (compname opname : String) (input : Option Value) (c : SocketName) (t : TxId) (w : Value)
    (h : List (SysEvent σ ω)) : Prop :=
  .requested c t (.callMethod compname opname input) ∈ h ∧
    responsesOf t (tookBy c h) = [.respondExecute t 0 true w]

/-- The client of `c` has got an id of the store. -/
def GotId (compname : String) (c : SocketName) (t : TxId) (k : String) (h : List (SysEvent σ ω)) :
    Prop :=
  (∃ input, Got compname "insert" input c t (.map [("id", .string k)]) h) ∨
    ∃ (input : Option Value) (ks : List String), k ∈ ks ∧
      Got compname "insert_many" input c t (.map [("ids", .array (ks.map .string))]) h

/-- What clients can rely on when they share a store. -/
structure StoreShared (compname : String) (h : List (SysEvent σ ω)) : Prop where
  distinct : ∀ c t c' t' k, GotId compname c t k h → GotId compname c' t' k h → t = t'
  reads : ∀ c t input record k c' t' m w,
    Got compname "insert" input c t (.map [("id", .string k)]) h →
    (input.getD .null).addInput? = some record →
    Got compname "get_by_id" (some (.map m)) c' t' w h → m.lookup "id" = some (.string k) →
    Earlier h t t' →
    (∀ c'' u opname input', .requested c'' u (.callMethod compname opname input') ∈ h →
      RemovesId k (opname, input'.getD .null) → Earlier h u t ∨ Earlier h t' u) →
    GetResult.output ⟨k, record.document, record.metadata, record.embedding⟩ = .ok w
  removed : ∀ c t k c'' u opname input w' c' t' m w, GotId compname c t k h →
    Got compname opname input c'' u w' h → RemovesId k (opname, input.getD .null) →
    Got compname "get_by_id" (some (.map m)) c' t' w h → m.lookup "id" = some (.string k) →
    Earlier h t u → Earlier h u t' → w = .null

/-- The calls that clients have requested of the component, with their transactions. -/
def callsRequested (compname : String) (h : List (SysEvent σ ω)) : List (TxId × (String × Value)) :=
  h.filterMap fun
    | .requested _ t (.callMethod compname' opname input) =>
      if compname' = compname then some (t, (opname, input.getD .null)) else none
    | _ => none

/-- All calls that clients have requested of the component are proper. -/
def AllProper (d : ℕ) (compname : String) (h : List (SysEvent σ ω)) : Prop :=
  ∀ x ∈ callsRequested compname h, ProperCall d x.2

/-- How many ids the calls of the clients may issue. -/
def idsAsked (compname : String) (h : List (SysEvent σ ω)) : ℕ :=
  ((callsRequested compname h).map fun x => callIds x.2).sum

theorem mem_callsRequested {compname opname : String} {input : Option Value} {c : SocketName}
    {t : TxId} (hreq : .requested c t (.callMethod compname opname input) ∈ h) :
    (t, (opname, input.getD .null)) ∈ callsRequested compname h :=
  List.mem_filterMap.mpr ⟨_, hreq, if_pos rfl⟩

section Shared

variable {compname : String} {comp : Component σ} {t₀ : TxId}
  {calls : List (TxId × (String × Value) × List Output)} {objs : σ}

/-- The call of a response with a value. -/
theorem Got.call {opname : String} {input : Option Value} {c : SocketName} {t : TxId} {w : Value}
    (hgot : Got compname opname input c t w r.history)
    (hsh : SharedBy compname comp t₀ r calls objs) :
    (t, (opname, input.getD .null), [.ok w true]) ∈ calls := by
  obtain ⟨hreq, htook⟩ := hgot
  have hp : Packet.respondExecute t 0 true w ∈ tookBy c r.history := by
    have hmem : Packet.respondExecute t 0 true w ∈ responsesOf t (tookBy c r.history) := by
      rw [htook]
      exact List.mem_singleton_self _
    exact (List.mem_filter.mp hmem).1
  obtain ⟨outs, hin, htook'⟩ := hsh.of_succeeded hreq ⟨_, hp, ⟨⟨rfl, rfl⟩, rfl⟩, rfl⟩
  rw [htook] at htook'
  rw [outputs_of_packets htook'.symm] at hin
  exact hin

/-- The call that has handed out an id. -/
theorem GotId.call {c : SocketName} {t : TxId} {k : String}
    (hgot : GotId compname c t k r.history) (hsh : SharedBy compname comp t₀ r calls objs) :
    ∃ x, (t, x) ∈ calls ∧ k ∈ idsIn x := by
  rcases hgot with ⟨input, hgot⟩ | ⟨input, ks, hk, hgot⟩
  · exact ⟨_, hgot.call hsh, List.mem_singleton_self k⟩
  · refine ⟨_, hgot.call hsh, ?_⟩
    show k ∈ (ks.map Value.string).filterMap _
    rw [List.filterMap_map]
    exact List.mem_filterMap.mpr ⟨k, hk, rfl⟩

/-- A call that is served was requested. -/
theorem SharedBy.mem_callsRequested (hsh : SharedBy compname comp t₀ r calls objs)
    {x : TxId × (String × Value) × List Output} (hx : x ∈ calls) :
    (x.1, x.2.1) ∈ callsRequested compname r.history := by
  obtain ⟨c, input, hreq, hinput, -⟩ := hsh.called x.1 x.2.1 x.2.2 hx
  have hmem := Sys.mem_callsRequested hreq
  rw [hinput] at hmem
  exact hmem

/-- The calls issue no more ids than clients have asked for. -/
theorem SharedBy.sum_callIds_le (hsh : SharedBy compname comp t₀ r calls objs) :
    ((calls.map Prod.snd).map fun x => callIds x.1).sum ≤ idsAsked compname r.history := by
  let named := calls.map fun x => (x.1, x.2.1)
  have hnd : named.Nodup := by
    refine List.Nodup.of_map Prod.fst ?_
    have hfst : named.map Prod.fst = calls.map Prod.fst := by simp [named]
    rw [hfst]
    exact hsh.linearizes.nodup
  have hsub : named ⊆ callsRequested compname r.history := by
    intro x hx
    obtain ⟨z, hz, rfl⟩ := List.mem_map.mp hx
    exact hsh.mem_callsRequested hz
  obtain ⟨l, hperm, hsubl⟩ := List.subperm_of_subset hnd hsub
  have hsum : ((calls.map Prod.snd).map fun x => callIds x.1) = named.map fun x => callIds x.2 := by
    simp [named]
  rw [hsum, ← (hperm.map fun x => callIds x.2).sum_eq]
  exact (hsubl.map fun x => callIds x.2).sum_le_sum fun _ _ => Nat.zero_le _

/-- What the request of a call between two others says. -/
theorem SharedBy.not_removed (hsh : SharedBy compname comp t₀ r calls objs)
    {c' : Collection String AddInput}
    (hlin : Linearizes (ServedFrom compname) (Earlier r.history) .empty calls c')
    {t t' : TxId} {x y : (String × Value) × List Output} {k : String}
    {pre mid post : List (TxId × (String × Value) × List Output)}
    (hsplit : calls = pre ++ (t, x) :: (mid ++ (t', y) :: post))
    (hkeep : ∀ c u opname input, .requested c u (.callMethod compname opname input) ∈ r.history →
      RemovesId k (opname, input.getD .null) → Earlier r.history u t ∨ Earlier r.history t' u) :
    ∀ z ∈ mid, ¬ RemovesId k z.2.1 := by
  intro z hz hrem
  have hin : z ∈ calls := by
    rw [hsplit]
    exact List.mem_append_right _ (.tail _ (List.mem_append_left _ hz))
  obtain ⟨c, input, hreq, hinput, -⟩ := hsh.called z.1 z.2.1 z.2.2 hin
  rw [hsplit] at hlin
  obtain ⟨hfirst, hlast⟩ := hlin.not_between (z := z.2) hz
  have hrem' : RemovesId k (z.2.1.1, input.getD .null) := by
    rw [hinput]
    exact hrem
  rcases hkeep c z.1 z.2.1.1 input hreq hrem' with hearlier | hlater
  · exact hfirst hearlier
  · exact hlast hlater

/-- No id is handed out by two calls. -/
theorem eq_of_mem_idsIn {c' : Collection String AddInput}
    (hlin : Linearizes (ServedFrom compname) (Earlier r.history) .empty calls c')
    {t t' : TxId} {x x' : (String × Value) × List Output} {k : String} (hx : (t, x) ∈ calls)
    (hx' : (t', x') ∈ calls) (hk : k ∈ idsIn x) (hk' : k ∈ idsIn x') : t = t' := by
  obtain ⟨hissued, hnd⟩ := issued_of_legal hlin.legal
  have hall : ((calls.map Prod.snd).flatMap idsIn).Nodup := by
    have hnd' := hnd List.nodup_nil
    rw [hissued] at hnd'
    exact hnd'
  rw [List.flatMap_map, List.nodup_flatMap] at hall
  by_contra hne
  have hsymm : Std.Symm (Function.onFun List.Disjoint
      fun z : TxId × (String × Value) × List Output => idsIn z.2) := ⟨fun _ _ h => h.symm⟩
  exact hall.2.forall hx hx' (fun heq => hne (congrArg Prod.fst heq)) hk hk'

/-- Calls that a collection answers are what clients can rely on. -/
theorem SharedBy.storeShared (hsh : SharedBy compname comp t₀ r calls objs)
    {c' : Collection String AddInput}
    (hlin : Linearizes (ServedFrom compname) (Earlier r.history) .empty calls c') :
    StoreShared compname r.history := by
  refine ⟨fun c t c' t' k hgot hgot' => ?_,
    fun c t input record k c' t' m w hins hrecord hget hid hearlier hkeep => ?_,
    fun c t k c'' u opname input w' c' t' m w hgot hrem hremoves hget hid hfirst hlast => ?_⟩
  · obtain ⟨x, hx, hk⟩ := hgot.call hsh
    obtain ⟨x', hx', hk'⟩ := hgot'.call hsh
    exact eq_of_mem_idsIn hlin hx hx' hk hk'
  · obtain ⟨pre, mid, post, hsplit⟩ := hlin.split (hins.call hsh) (hget.call hsh) hearlier
    have hmid := hsh.not_removed hlin hsplit hkeep
    rw [hsplit] at hlin
    obtain ⟨c₁, -, hrest⟩ := hlin.append
    obtain ⟨c₂, hinsert, hrest⟩ := hrest.tail
    obtain ⟨c₃, hbetween, hrest⟩ := hrest.append
    obtain ⟨c₄, hread, -⟩ := hrest.tail
    -- The record is there after the insertion, and nothing removes it.
    obtain ⟨record', hrecord', rfl⟩ := ServedFrom.of_insert hinsert
    obtain rfl := Option.some.inj (hrecord.symm.trans hrecord')
    have hissued : k ∈ (c₁.insertOne k record).issued :=
      List.mem_append_right _ (List.mem_singleton_self _)
    have hlive : c₃.live k = some record := by
      rw [live_of_legal hbetween.legal hissued fun x hx => ?_]
      · exact if_pos rfl
      · obtain ⟨z, hz, rfl⟩ := List.mem_map.mp hx
        exact hmid z hz
    rcases ServedFrom.of_getById hread hid with ⟨hnone, -⟩ | ⟨record', hsome, houtput⟩
    · rw [hlive] at hnone
      cases hnone
    · obtain rfl := Option.some.inj (hlive.symm.trans hsome)
      exact houtput
  · obtain ⟨x, hx, hk⟩ := hgot.call hsh
    obtain ⟨pre, mid, post, hsplit⟩ := hlin.split (hrem.call hsh) (hget.call hsh) hlast
    rw [hsplit] at hlin hx
    have hpre := hlin.mem_left hx hfirst
    obtain ⟨c₁, hbefore, hrest⟩ := hlin.append
    obtain ⟨c₂, hremoval, hrest⟩ := hrest.tail
    obtain ⟨c₃, hbetween, hrest⟩ := hrest.append
    obtain ⟨c₄, hread, -⟩ := hrest.tail
    -- The id was issued before the removal, so its record is gone for good.
    have hissued₁ : k ∈ c₁.issued := by
      rw [(issued_of_legal hbefore.legal).1]
      exact List.mem_append_right _
        (List.mem_flatMap.mpr ⟨x, List.mem_map.mpr ⟨_, hpre, rfl⟩, hk⟩)
    have hissued₂ : k ∈ c₂.issued := by
      rw [hremoval.issued.1]
      exact List.mem_append_left _ hissued₁
    have hgone := live_none_of_legal hbetween.legal hissued₂ (hremoval.live_of_removes hremoves)
    rcases ServedFrom.of_getById hread hid with ⟨-, hnull⟩ | ⟨record, hsome, -⟩
    · exact hnull
    · rw [hgone] at hsome
      cases hsome

end Shared

/-- The state of a component with a store over `listLibrary`. -/
abbrev ListStore := MethodState (FaissStore listLibrary)

/-- A module with the vector store. -/
def storeModule : Module ListStore Unit :=
  ⟨∅, (∅ : UnorderedMap _ _).insert "faiss_vector_store"
    (vectorStoreFactory (fun _ => "null_t") ⟨id, some, fun _ => rfl⟩)⟩

/-- An input of `insert`, with the embedding 0. -/
def zeroRecord (document : String) : Option Value :=
  some (.map [("embedding", .ndarray [1] float32 [0, 0, 0, 0]), ("document", .string document)])

/-- The client `c` defines a store. Then `c` and `d` insert records at the same time, and `d` reads
the record of the id that it has got. -/
def storingRun : List (SysAct ListStore Unit) :=
  [.vm (.importModule storeModule), .vmSend, .vm .enter, .broker "vm", .vmRecv, .accept "c",
    .accept "d", .client "c" (.execute "t1"
      (.defineComponent "faiss_vector_store" "s" (some (.map [("dimension", .uint 1)])))),
    .broker "c", .vmRecv, .vmSend, .vmSend, .vmSend, .vmSend, .vmSend, .vmSend, .vmSend, .vmSend,
    .broker "vm", .broker "vm", .broker "vm", .broker "vm", .broker "vm", .broker "vm",
    .broker "vm", .broker "vm", .take "c",
    .client "c" (.execute "t2" (.callMethod "s" "insert" (zeroRecord "x"))),
    .client "d" (.execute "t3" (.callMethod "s" "insert" (zeroRecord "y"))), .broker "d",
    .broker "c", .vmRecv, .vmRecv, .vmRecv, .vmRecv, .vmRecv, .vmRecv, .vmRecv, .vmRecv,
    .vm .advance, .vmSend, .vmRecv, .vm .advance, .vmSend, .broker "vm", .broker "vm", .take "d",
    .client "d" (.execute "t4" (.callMethod "s" "get_by_id" (some (.map [("id", .string "0")])))),
    .broker "d", .vmRecv, .vm .advance, .vmSend, .broker "vm", .take "d"]

/-- The insertion of the embedding 0 is proper. -/
theorem proper_zeroRecord (document : String) :
    ProperCall 1 ("insert", (zeroRecord document).getD .null) := by
  intro op hop
  obtain rfl : StoreOp.insert = op := Option.some.inj hop
  intro input hinput
  obtain rfl := Option.some.inj hinput
  have hfinite : FiniteFloats ((bytesVector [0, 0, 0, 0]).floats 1) := by decide
  exact ⟨⟨rfl, rfl, rfl⟩, hfinite⟩

end Sys

end Ailoy
