import Ailoy.Vm.Offers

/-!
# What a step of the VM does to one component

A component stays in the tables, with its methods, in every step but its deletion, and no other step
subscribes a channel of it (`Moves.keeps`). It comes into the tables by its definition alone, whose
answer the VM makes behind the subscriptions (`Moves.defined`), and leaves them by its deletion
(`Moves.deleted`).
-/

namespace Ailoy

/-- The packet subscribes the channel. -/
def Packet.Subscribes (p : Packet) (ch : Channel) : Prop :=
  p.ptype = .subscribe ∧ p.getChannel = .ok ch

/-- A packet of another type subscribes nothing. -/
theorem Packet.not_subscribes {p : Packet} {ch : Channel} (h : p.ptype ≠ .subscribe) :
    ¬ p.Subscribes ch := fun hs => h hs.1

/-- The packets of outputs subscribe nothing. -/
theorem not_subscribes_packet {t : TxId} {i : ℕ} {out : Output} {ch : Channel} :
    ¬ (out.packet t i).Subscribes ch := by
  refine Packet.not_subscribes ?_
  cases out <;> rintro ⟨⟩

/-- A channel that is owned after some packets, none of which subscribes it, was owned before. -/
theorem mem_of_mem_announced {ch : Channel} {ps : List Packet} {S : Set Channel}
    (h : ch ∈ announced S ps) (hps : ∀ p ∈ ps, ¬ p.Subscribes ch) : ch ∈ S := by
  induction ps generalizing S with
  | nil => exact h
  | cons p ps ih =>
    have hrest : ch ∈ announce S p := ih h fun q hq => hps q (List.mem_cons_of_mem _ hq)
    unfold announce at hrest
    split at hrest
    · rename_i hpt
      rcases hrest with hmem | hch
      · exact hmem
      · exact absurd ⟨hpt, hch⟩ (hps p (.head _))
    · exact hrest.1
    · cases hrest
    · exact hrest

namespace Loop

variable {σ ω : Type} {uuid : ℕ → TxId} {l l' : Loop σ ω} {a : LoopAct σ ω} {pkts : List Packet}

/-- A component stays, with its methods, in every step but its deletion, and no step subscribes a
channel of it. -/
theorem Moves.keeps (hm : Moves uuid l a l' pkts) (hs : l.Sound)
    (ht : l.activity = .listening → l.Tidy a) {c : String} {ops : UnorderedMap String (OperatorCode σ)}
    (hc : (l.vm.components.lookup c).map Component.ops = some ops)
    (hdel : ∀ t, a ≠ .recv (.execute t (.deleteComponent c))) :
    (l'.vm.components.lookup c).map Component.ops = some ops ∧
      ∀ p ∈ pkts, ∀ m ∈ ops, ¬ p.Subscribes (Instruction.callMethod c m).channel := by
  have hplain : ∀ m ∈ ops, (Instruction.callMethod c m).Plain := fun m hmem =>
    hs.plain (.callMethod c m) ⟨ops, hc, hmem⟩
  -- A subscription of a channel of `c` would be one of a method of `c`.
  have hsub : ∀ {t : TxId} {i : Instruction} {m : String}, m ∈ ops → i.Plain →
      (Packet.subscribe t i).Subscribes (Instruction.callMethod c m).channel →
      i = .callMethod c m := by
    intro t i m hmem hi hsubs
    have hch := hsubs.2
    rw [Packet.getChannel_subscribe, Except.ok.injEq] at hch
    exact Instruction.channel_inj hi (hplain m hmem) hch
  have hunsub : ∀ {vm : Vm σ ω} {is : List Instruction},
      ∀ p ∈ (Vm.sendEach uuid vm .unsubscribe is).2, ∀ ch, ¬ p.Subscribes ch := by
    intro vm is p hp ch
    obtain ⟨t, i, -, rfl⟩ := Vm.mem_sendEach hp
    exact Packet.not_subscribes (by rintro ⟨⟩)
  have hnone : ∀ {t : TxId} {i : ℕ} {out : Output}, ∀ p ∈ [out.packet t i], ∀ m ∈ ops,
      ¬ p.Subscribes (Instruction.callMethod c m).channel := by
    intro t i out p hp m _
    rw [List.mem_singleton.mp hp]
    exact not_subscribes_packet
  cases hm with
  | importModule mod hact =>
    refine ⟨hc, fun p hp m hmem hsubs => ?_⟩
    obtain ⟨t, i, hi, rfl⟩ := Vm.mem_sendEach hp
    rcases List.mem_append.mp hi with hi | hi
    · obtain ⟨opname, -, rfl⟩ := List.mem_map.mp hi
      have hi' : (Instruction.callFunction opname).Plain := trivial
      cases hsub hmem hi' hsubs
    · obtain ⟨comptype, -, rfl⟩ := List.mem_map.mp hi
      have hi' : (Instruction.defineComponent comptype).Plain := trivial
      cases hsub hmem hi' hsubs
  | @refuse t r e vm hact houts halike =>
    exact ⟨(halike.components c).trans hc, @hnone t 0 (.error e)⟩
  | @define t comptype compname input comp env hact hmakes =>
    obtain ⟨hnew, hops⟩ := tidy_define (ht hact) hmakes
    -- The new component has a new name, so `c` is another one.
    have hne : c ≠ compname := by
      rintro rfl
      rw [hnew] at hc
      cases hc
    have hlookup : (l.vm.components.insert compname comp).lookup c = l.vm.components.lookup c :=
      AList.lookup_insert_ne hne
    refine ⟨by rw [hlookup]; exact hc, fun p hp m hmem hsubs => ?_⟩
    rcases List.mem_append.mp hp with hp | hp
    · obtain ⟨t, i, hi, rfl⟩ := Vm.mem_sendEach hp
      rcases Vm.mem_channelsOf.mp hi with rfl | ⟨opname, hop, rfl⟩
      · have hi' : (Instruction.deleteComponent compname).Plain := trivial
        cases hsub hmem hi' hsubs
      · obtain ⟨rfl, -⟩ := Instruction.callMethod.inj (hsub hmem (hops opname hop) hsubs)
        exact hne rfl
    · rw [List.mem_singleton.mp hp] at hsubs
      exact absurd hsubs.1 (by rintro ⟨⟩)
  | @delete t compname comp hact hold =>
    have hne : c ≠ compname := by
      rintro rfl
      exact hdel t rfl
    have hlookup : (l.vm.components.erase compname).lookup c = l.vm.components.lookup c :=
      AList.lookup_erase_ne hne
    refine ⟨by rw [← hc, ← hlookup]; rfl, fun p hp m hmem hsubs => ?_⟩
    rcases List.mem_append.mp hp with hp | hp
    · exact hunsub p hp _ hsubs
    · rw [List.mem_singleton.mp hp] at hsubs
      exact absurd hsubs.1 (by rintro ⟨⟩)
  | @next c₁ val s hact hstep =>
    exact ⟨hc, @hnone c₁.txId c₁.sequence (.ok val false)⟩
  | @finish c₁ out s hact hstep hfin =>
    have halike := Vm.alike_store (hs.site c₁ hact) c₁.code s
    exact ⟨(halike.components c).trans hc, hnone⟩
  | stop hact => exact ⟨hc, fun p hp m _ => hunsub p hp _⟩
  | disconnect t hact =>
    refine ⟨hc, fun p hp m _ hsubs => ?_⟩
    rw [List.mem_singleton.mp hp] at hsubs
    exact absurd hsubs.1 (by rintro ⟨⟩)
  | _ => exact ⟨hc, fun p hp => absurd hp List.not_mem_nil⟩

/-- Without a packet, the VM neither defines nor deletes a component. -/
theorem Moves.components_none_iff (hm : Moves uuid l a l' pkts) (hs : l.Sound)
    (hno : ∀ pkt, a ≠ .recv pkt) (c : String) :
    l'.vm.components.lookup c = none ↔ l.vm.components.lookup c = none := by
  cases hm with
  | @finish c₁ out s hact hstep hfin =>
    exact (Vm.alike_store (hs.site c₁ hact) c₁.code s).component c
  | importModule | enter | next | throwCall | stop | disconnect => exact Iff.rfl
  | _ => exact absurd rfl (hno _)

/-- After the VM has handled a deletion, the component does not exist. -/
theorem Moves.deleted {t : TxId} {c : String}
    (hm : Moves uuid l (.recv (.execute t (.deleteComponent c))) l' pkts)
    (hgo : l.activity ≠ .draining) : l'.vm.components.lookup c = none := by
  generalize ha : LoopAct.recv (Packet.execute t (.deleteComponent c)) = a at hm
  cases hm with
  | respond ids hact hp =>
    obtain rfl := LoopAct.recv.inj ha
    cases hp
  | @refuse t' r e vm hact houts halike =>
    have hpkt := LoopAct.recv.inj ha
    have houts' := (l.vm.outputs_congr hpkt).mpr houts
    refine (halike.component c).mpr ?_
    simp only [Vm.Outputs] at houts'
    cases hold : l.vm.components.lookup c with
    | none => rfl
    | some comp =>
      rw [hold] at houts'
      cases (List.cons.inj houts').1
  | call hact hfinds =>
    have hfinds' := (l.vm.finds_congr (LoopAct.recv.inj ha)).trans hfinds
    cases hfinds'
  | define hact hmakes =>
    have hitype := congrArg Packet.itype (LoopAct.recv.inj ha)
    cases hitype
  | @delete t' compname comp hact hold =>
    obtain rfl := Request.deleteComponent.inj (Request.filled_eq (LoopAct.recv.inj ha))
    exact AList.lookup_erase _ _
  | @throwRequest t' r f hact hret =>
    have hfilled := Request.filled_eq (LoopAct.recv.inj ha)
    rw [← Vm.returns_filled, ← hfilled] at hret
    cases hret
  | drain ids hact => exact absurd hact hgo
  | _ => cases ha

/-- After the VM has handled a definition that it answers with a result, the component exists, and
the answer is the last packet that it has made. -/
theorem Moves.defined {t : TxId} {comptype c : String} {input : Option Value}
    (hm : Moves uuid l (.recv (.execute t (.defineComponent comptype c input))) l' pkts)
    (hgo : l.activity ≠ .draining)
    (houts : l.vm.Outputs (.defineComponent comptype c input) [.ok (.map []) true]) :
    ∃ comp announcements, l'.vm.components.lookup c = some comp ∧
      pkts = announcements ++ [.respondExecute t 0 true (.map [])] := by
  generalize ha : LoopAct.recv (Packet.execute t (.defineComponent comptype c input)) = a at hm
  cases hm with
  | respond ids hact hp =>
    obtain rfl := LoopAct.recv.inj ha
    cases hp
  | @refuse t' r e vm hact herr halike =>
    -- A definition has one answer, so not an error as well.
    have herr' := (l.vm.outputs_congr (LoopAct.recv.inj ha)).mpr herr
    obtain ⟨o, -, hone⟩ := l.vm.outputs_single (r := .defineComponent comptype c input) rfl
    have hok : Output.ok (.map []) true = o := List.singleton_inj.mp (hone _ houts)
    have hfail : Output.error e = o := List.singleton_inj.mp (hone _ herr')
    rw [← hok] at hfail
    cases hfail
  | call hact hfinds =>
    have hfinds' := (l.vm.finds_congr (LoopAct.recv.inj ha)).trans hfinds
    cases hfinds'
  | @define t' comptype' compname input' comp env hact hmakes =>
    have hfilled := Request.filled_eq (LoopAct.recv.inj ha)
    obtain rfl : c = compname := (Request.defineComponent.inj hfilled).2.1
    have hid : some t = some t' := congrArg Packet.executeId (LoopAct.recv.inj ha)
    rw [Option.some.inj hid]
    exact ⟨comp, _, AList.lookup_insert _, rfl⟩
  | delete hact hold =>
    have hitype := congrArg Packet.itype (LoopAct.recv.inj ha)
    cases hitype
  | @throwRequest t' r f hact hret =>
    have hfilled := Request.filled_eq (LoopAct.recv.inj ha)
    rw [← Vm.returns_filled, ← hfilled, Vm.returns_filled] at hret
    rw [Vm.returns_of_outputs rfl houts] at hret
    cases hret
  | drain ids hact => exact absurd hact hgo
  | _ => cases ha

end Loop

end Ailoy
