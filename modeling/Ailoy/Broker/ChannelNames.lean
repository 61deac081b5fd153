import Ailoy.Broker.Ownership
import Ailoy.Vm.Offers

/-!
# What a channel says about its packet

`get_channel` joins the routing names of a packet with a separator that a name may contain. The
digit in front keeps the instruction types apart and a single name is the whole rest, so only the
channels of two methods can meet: when one component's name is the other's with a part of its method
name behind (`Instruction.Overlaps`). For all other packets the channel gives back the type and the
names (`channel_eq_iff`). What the broker forwards an `execute` by is the channel alone, so an
overlap of names is also a call that reaches the method of another component (`channels_exact`).
-/

namespace Ailoy

open Transition

/-! ## Names -/

namespace Packet

/-- A packet that a `dump_packet` template builds for an instruction. -/
inductive Instructs : Packet → Instruction → Prop
  | subscribe (txId : TxId) (i : Instruction) : Instructs (subscribe txId i) i
  | unsubscribe (txId : TxId) (i : Instruction) : Instructs (unsubscribe txId i) i
  | execute (txId : TxId) (r : Request) : Instructs (execute txId r) r.instruction

/-- The headers behind the transaction id. -/
def routingNames (p : Packet) : List Value := (p.headers.getD []).tail

variable {p q : Packet} {i j : Instruction}

theorem Instructs.itype_eq (h : p.Instructs i) : p.itype = some i.itype := by
  cases h <;> rfl

theorem Instructs.routingNames_eq (h : p.Instructs i) : p.routingNames = i.names.map .string := by
  cases h <;> rfl

theorem Instructs.getChannel_eq (h : p.Instructs i) : p.getChannel = .ok i.channel := by
  cases h with
  | subscribe txId => exact getChannel_subscribe txId i
  | unsubscribe txId => exact getChannel_unsubscribe txId i
  | execute txId r => cases r <;> rfl

end Packet

namespace Instruction

variable {i j : Instruction}

/-- The type and the names make the instruction. -/
theorem eq_of_names (ht : i.itype = j.itype) (hn : i.names = j.names) : i = j := by
  cases i <;> cases j <;> simp_all [itype, names]

/-- One of two methods belongs to a component whose name goes on with a part of the other's method
name. -/
def Overlaps : Instruction → Instruction → Prop
  | .callMethod compname opname, .callMethod compname' opname' =>
    ∃ part, (compname' = compname ++ "/" ++ part ∧ opname = part ++ "/" ++ opname') ∨
      (compname = compname' ++ "/" ++ part ∧ opname' = part ++ "/" ++ opname)
  | _, _ => False

/-- No instruction overlaps with itself. -/
theorem not_overlaps_self (i : Instruction) : ¬ i.Overlaps i := by
  cases i with
  | callMethod compname opname =>
    rintro ⟨part, ⟨h, -⟩ | ⟨h, -⟩⟩
    all_goals
      have hlen := congrArg (fun s => s.toList.length) h
      simp only [String.toList_append, List.length_append] at hlen
      have hsep : "/".toList.length = 1 := rfl
      omega
  | _ => exact id

end Instruction

/-- Two texts around a separator are the same text when their parts are, or when one of the
separators of the one stands inside a part of the other. -/
theorem append_separator_eq_iff {l₁ l₂ m₁ m₂ : List Char} :
    l₁ ++ '/' :: m₁ = l₂ ++ '/' :: m₂ ↔ (l₁ = l₂ ∧ m₁ = m₂) ∨
      ∃ part, (l₂ = l₁ ++ '/' :: part ∧ m₁ = part ++ '/' :: m₂) ∨
        (l₁ = l₂ ++ '/' :: part ∧ m₂ = part ++ '/' :: m₁) := by
  constructor
  · intro h
    -- The longer front has the other one's separator behind what they share.
    rcases List.append_eq_append_iff.mp h with ⟨as, hl, hm⟩ | ⟨as, hl, hm⟩
    · cases as with
      | nil => exact .inl ⟨by simpa using hl.symm, (List.cons.inj hm).2⟩
      | cons a part =>
        obtain ⟨rfl, htail⟩ := List.cons.inj hm
        exact .inr ⟨part, .inl ⟨hl, htail⟩⟩
    · cases as with
      | nil => exact .inl ⟨by simpa using hl, (List.cons.inj hm).2.symm⟩
      | cons a part =>
        obtain ⟨rfl, htail⟩ := List.cons.inj hm
        exact .inr ⟨part, .inr ⟨hl, htail⟩⟩
  · rintro (⟨rfl, rfl⟩ | ⟨part, ⟨rfl, rfl⟩ | ⟨rfl, rfl⟩⟩) <;> simp

/-- Two instructions share a channel exactly when they are the same or overlap. -/
theorem Instruction.channel_eq_iff {i j : Instruction} :
    i.channel = j.channel ↔ i = j ∨ i.Overlaps j := by
  rw [← String.toList_inj, toList_channel, toList_channel]
  cases i with
  | callFunction opname =>
    cases j <;> simp [Overlaps, String.toList_inj]
  | defineComponent comptype =>
    cases j <;> simp [Overlaps, String.toList_inj]
  | deleteComponent compname =>
    cases j <;> simp [Overlaps, String.toList_inj]
  | callMethod compname opname =>
    cases j with
    | callMethod compname' opname' =>
      have hsep : "/".toList = ['/'] := rfl
      have hback : ∀ l : List Char, (String.ofList l).toList = l := fun l => String.toList_ofList
      simp only [List.cons.injEq, true_and, append_separator_eq_iff, Overlaps,
        Instruction.callMethod.injEq, ← String.toList_inj, String.toList_append, hsep,
        List.append_assoc, List.singleton_append]
      refine or_congr_right ⟨?_, ?_⟩
      · rintro ⟨part, h⟩
        refine ⟨String.ofList part, ?_⟩
        rw [hback]
        exact h
      · rintro ⟨part, h⟩
        exact ⟨part.toList, h⟩
    | _ => simp [Overlaps]

/-- The channels of two packets say the same about their names, unless they overlap. -/
theorem Packet.Instructs.names_iff {p q : Packet} {i j : Instruction} (hp : p.Instructs i)
    (hq : q.Instructs j) (h : p.getChannel = q.getChannel) :
    (p.itype = q.itype ∧ p.routingNames = q.routingNames) ↔ ¬ i.Overlaps j := by
  have hstring : Function.Injective Value.string := fun _ _ => Value.string.inj
  have hch : i.channel = j.channel := by
    rw [hp.getChannel_eq, hq.getChannel_eq] at h
    exact Except.ok.inj h
  rw [hp.itype_eq, hq.itype_eq, hp.routingNames_eq, hq.routingNames_eq]
  constructor
  · rintro ⟨ht, hn⟩
    rw [Instruction.eq_of_names (Option.some.inj ht) (hstring.list_map hn)]
    exact j.not_overlaps_self
  · intro hno
    obtain rfl := (Instruction.channel_eq_iff.mp hch).resolve_right hno
    exact ⟨rfl, rfl⟩

/-! ## Subscriptions -/

namespace Broker

variable {b b' : Broker} {socket owner : SocketName} {pkt : Packet} {send : Option Send}
  {channel : Channel}

/-- An entry of the table was there before the packet, and its owner does not give it up by it, or
the packet makes it. -/
theorem Handles.entry (h : Handles b socket pkt (b', send))
    (ho : b'.subscriptions.lookup channel = some owner) :
    (b.subscriptions.lookup channel = some owner ∧ ¬ (socket = owner ∧ pkt.Releases channel)) ∨
      (socket = owner ∧ pkt.ptype = .subscribe ∧ pkt.getChannel = .ok channel) := by
  have hkeeps : b.subscriptions.lookup channel = some owner → pkt.ptype ≠ .unsubscribe →
      pkt.ptype ≠ .disconnect → b.subscriptions.lookup channel = some owner ∧
        ¬ (socket = owner ∧ pkt.Releases channel) := by
    rintro hold hun hdis
    exact ⟨hold, fun ⟨_, hrel⟩ => hrel.elim (fun hr => hun hr.1) hdis⟩
  generalize hr : (b', send) = r at h
  obtain rfl : b' = r.1 := by rw [← hr]
  cases h with
  | connect hp => exact .inl (hkeeps ho (by simp [hp]) (by simp [hp]))
  | ignored hp =>
    refine .inl (hkeeps ho ?_ ?_) <;> rcases hp with hp | ⟨code, hp⟩ <;> simp [hp]
  | execute hp =>
    rw [subscriptions_onExecute] at ho
    exact .inl (hkeeps ho (by simp [hp]) (by simp [hp]))
  | respondExecute hp =>
    rw [subscriptions_onRespondExecute] at ho
    exact .inl (hkeeps ho (by simp [hp]) (by simp [hp]))
  | disconnect hp =>
    obtain ⟨hold, hne⟩ := (subscriptions_onDisconnect ..).mp ho
    exact .inl ⟨hold, fun hrel => hne hrel.1.symm⟩
  | @subscribe txId ch hp htx hch =>
    rw [subscriptions_onSubscribe] at ho
    cases hold : b.subscriptions.lookup channel with
    | some o =>
      rw [hold] at ho
      have hkept := hkeeps (hold.trans ho) (by simp [hp]) (by simp [hp])
      rw [hold] at hkept
      exact .inl hkept
    | none =>
      rw [hold, Option.none_or] at ho
      split_ifs at ho with hc
      exact .inr ⟨Option.some.inj ho, hp, hc ▸ hch⟩
  | @unsubscribe txId ch hp htx hch =>
    rw [subscriptions_onUnsubscribe] at ho
    split_ifs at ho with hc
    refine .inl ⟨ho, ?_⟩
    rintro ⟨rfl, hrel | hrel⟩
    · obtain rfl : channel = ch := Except.ok.inj (hrel.2.symm.trans hch)
      exact hc ⟨rfl, ho⟩
    · rw [hp] at hrel
      cases hrel

/-- A forwarded `execute` goes to the owner of its channel. -/
theorem Handles.owner_of_forward (h : Handles b socket pkt (b', send)) (hp : pkt.ptype = .execute)
    (hch : pkt.getChannel = .ok channel) (hsend : send = some (.forward owner)) :
    b.subscriptions.lookup channel = some owner := by
  generalize hr : (b', send) = r at h
  cases h with
  | @execute txId ch _ _ hch' =>
    obtain rfl : channel = ch := Except.ok.inj (hch.symm.trans hch')
    have hsnd : send = (b.onExecute socket txId channel).2 := congrArg Prod.snd hr
    unfold onExecute at hsnd
    cases ho : b.subscriptions.lookup channel with
    | none =>
      rw [hsend, ho] at hsnd
      cases hsnd
    | some target =>
      rw [hsend, ho] at hsnd
      cases hsnd
      rfl
  | connect hp' | disconnect hp' | subscribe hp' | unsubscribe hp' | respondExecute hp' =>
    rw [hp] at hp'
    cases hp'
  | ignored hp' =>
    rw [hp] at hp'
    rcases hp' with hp' | ⟨code, hp'⟩ <;> cases hp'

end Broker

namespace Net

/-- The socket `owner` has subscribed the channel, by the packet `q`, and has not given it up
since. -/
def SubscribedBy (pre : List NetEvent) (owner : SocketName) (channel : Channel) (q : Packet) :
    Prop :=
  ∃ pre₁ pre₂, pre = pre₁ ++ .received owner q :: pre₂ ∧ q.ptype = .subscribe ∧
    q.getChannel = .ok channel ∧ ∀ p, .received owner p ∈ pre₂ → ¬ p.Releases channel

variable {h es : List NetEvent} {owner : SocketName} {channel : Channel} {q : Packet}

/-- A subscription outlives events by which its owner does not give it up. -/
theorem SubscribedBy.append (hs : SubscribedBy h owner channel q)
    (hes : ∀ p, .received owner p ∈ es → ¬ p.Releases channel) :
    SubscribedBy (h ++ es) owner channel q := by
  obtain ⟨pre₁, pre₂, rfl, hp, hch, hkeep⟩ := hs
  refine ⟨pre₁, pre₂ ++ es, by simp, hp, hch, fun p hmem => ?_⟩
  rcases List.mem_append.mp hmem with hmem | hmem
  · exact hkeep p hmem
  · exact hes p hmem

/-- The table of subscriptions and the history: each entry has been subscribed by its owner, and a
forwarded `execute` was put for the subscriber of its channel. -/
structure Subscribed (n : Net) (h : List NetEvent) : Prop where
  table : ∀ ch o, n.broker.subscriptions.lookup ch = some o → ∃ q, SubscribedBy h o ch q
  put : Each (fun pre e => ∀ dest s pkt ch, e = .put dest (some s) pkt → pkt.Executes ch →
    ∃ q, SubscribedBy pre dest ch q) h

/-- The invariant after a handled message, with the packet that it puts, if any. -/
theorem Subscribed.handled {n n' : Net} {s : SocketName} {msg : Packet} {send : Option Send}
    (hi : Subscribed n h) (hh : Broker.Handles n.broker s msg (n'.broker, send))
    (hes : es = [.received s msg] ∨ ∃ dest source pkt, Sends s msg send dest source pkt ∧
      es = [.received s msg, .put dest source pkt]) : Subscribed n' (h ++ es) := by
  have hreceived : ∀ o p, .received o p ∈ es → o = s ∧ p = msg := by
    intro o p hmem
    rcases hes with rfl | ⟨dest, source, pkt, -, rfl⟩ <;> simpa using hmem
  have htable : ∀ ch o, n'.broker.subscriptions.lookup ch = some o →
      ∃ q, SubscribedBy (h ++ es) o ch q := by
    intro ch o ho
    rcases hh.entry ho with ⟨hold, hkeep⟩ | ⟨rfl, hp, hch⟩
    · obtain ⟨q, hq⟩ := hi.table ch o hold
      refine ⟨q, hq.append fun p hmem hrel => ?_⟩
      obtain ⟨rfl, rfl⟩ := hreceived o p hmem
      exact hkeep ⟨rfl, hrel⟩
    · refine ⟨msg, h, es.tail, ?_, hp, hch, fun p hmem => ?_⟩
      · rcases hes with rfl | ⟨dest, source, pkt, -, rfl⟩ <;> rfl
      · rcases hes with rfl | ⟨dest, source, pkt, -, rfl⟩ <;> simp at hmem
  have hfirst : Each (fun pre e => ∀ dest s pkt ch, e = .put dest (some s) pkt →
      pkt.Executes ch → ∃ q, SubscribedBy pre dest ch q) (h ++ [.received s msg]) :=
    each_concat.mpr ⟨hi.put, by rintro _ _ _ _ ⟨⟩⟩
  rcases hes with rfl | ⟨dest, source, pkt, hput, rfl⟩
  · exact ⟨htable, hfirst⟩
  · have hsplit : h ++ [.received s msg, .put dest source pkt] =
        (h ++ [.received s msg]) ++ [.put dest source pkt] := by simp
    refine ⟨htable, ?_⟩
    rw [hsplit, each_concat]
    refine ⟨hfirst, ?_⟩
    rintro _ _ _ ch ⟨⟩ ⟨hp, hch⟩
    generalize hsrc : (some _ : Option SocketName) = source at hput
    cases hput with
    | reply => cases hsrc
    | forward =>
      obtain ⟨q, hq⟩ := hi.table ch dest (hh.owner_of_forward hp hch rfl)
      refine ⟨q, hq.append fun p hmem hrel => ?_⟩
      obtain ⟨-, rfl⟩ : dest = s ∧ p = msg := by simpa using hmem
      -- The message is an `execute`, which gives nothing up.
      rcases hrel with hrel | hrel
      · rw [hp] at hrel
        cases hrel.1
      · rw [hp] at hrel
        cases hrel

/-- The invariant after any step. -/
theorem Subscribed.moves {n n' : Net} (hi : Subscribed n h) (hm : Moves n es n') :
    Subscribed n' (h ++ es) := by
  cases hm with
  | idle =>
    rw [List.append_nil]
    exact hi
  | accept hs =>
    rw [List.append_nil]
    exact ⟨hi.table, hi.put⟩
  | send s pkt =>
    refine ⟨fun ch o ho => ?_, each_concat.mpr ⟨hi.put, by rintro _ _ _ _ ⟨⟩⟩⟩
    obtain ⟨q, hq⟩ := hi.table ch o ho
    exact ⟨q, hq.append (by simp)⟩
  | @handle s msg rest broker send hs hq hh => exact hi.handled hh (.inl rfl)
  | @handlePut s dest msg pkt rest broker send source hs hq hh hput =>
    exact hi.handled hh (.inr ⟨dest, source, pkt, hput, rfl⟩)
  | take hq =>
    refine ⟨fun ch o ho => ?_, each_concat.mpr ⟨hi.put, by rintro _ _ _ _ ⟨⟩⟩⟩
    obtain ⟨q, hq⟩ := hi.table ch o ho
    exact ⟨q, hq.append (by simp)⟩

/-- The invariant holds in every run. -/
theorem subscribed_of_reach {r : Recorded Net NetEvent} (hr : Reach recordedStep recordedEmpty r) :
    Subscribed r.state r.history := by
  have h₀ : Subscribed recordedEmpty.state recordedEmpty.history :=
    ⟨fun ch o ho => by simp [recordedEmpty, empty, Broker.empty] at ho, each_nil⟩
  refine hr.invariant (P := fun r => Subscribed r.state r.history) h₀ ?_
  rintro ⟨n, h⟩ a ⟨n', h'⟩ - hi - hstep
  obtain ⟨hstep, rfl⟩ := record_eq_some_iff.mp hstep
  exact hi.moves (moves_of_step hstep)

/-- For all packets of the types `subscribe`, `unsubscribe`, and `execute`: an equal channel means
the same instruction type and the same routing names, exactly when the instructions do not overlap.
In every run, an `execute` is forwarded to a socket that has subscribed its channel and has not
given it up since, and it was subscribed for the same type and names exactly when the two do not
overlap. -/
theorem channels_exact {p p' : Packet} {i i' : Instruction} (hp : p.Instructs i)
    (hp' : p'.Instructs i') :
    ((p.getChannel = p'.getChannel → p.itype = p'.itype ∧ p.routingNames = p'.routingNames) ↔
      ¬ i.Overlaps i') ∧
    ∀ r, Reach recordedStep recordedEmpty r → ∀ pre dest s post,
      r.history = pre ++ .put dest (some s) p :: post → p.ptype = .execute →
      ∃ q, SubscribedBy pre dest i.channel q ∧ ∀ j, Packet.Instructs q j →
        ((p.itype = q.itype ∧ p.routingNames = q.routingNames) ↔ ¬ i.Overlaps j) := by
  refine ⟨⟨fun hsame hover => ?_, fun hno h => ?_⟩, ?_⟩
  · have hch : p.getChannel = p'.getChannel := by
      rw [hp.getChannel_eq, hp'.getChannel_eq, Instruction.channel_eq_iff.mpr (.inr hover)]
    exact (hp.names_iff hp' hch).mp (hsame hch) hover
  · exact (hp.names_iff hp' h).mpr hno
  · intro r hr pre dest s post hsplit hexecute
    obtain ⟨q, hq⟩ := (subscribed_of_reach hr).put pre _ post hsplit dest s p i.channel rfl
      ⟨hexecute, hp.getChannel_eq⟩
    refine ⟨q, hq, fun j hj => hp.names_iff hj ?_⟩
    obtain ⟨-, -, -, -, hch, -⟩ := hq
    rw [hp.getChannel_eq, hch]

/-- The peer `0` offers the method `c` of a component `a/b`, and a client calls the method `b/c` of a
component `a`. -/
def overlappingRun : List NetAct :=
  [.accept "0", .send "0" (.subscribe "s" (.callMethod "a/b" "c")), .recv "0", .accept "1",
    .send "1" (.execute "t" (.callMethod "a" "b/c" none)), .recv "1"]

/-- The history of `overlappingRun` before its last event. -/
def overlappingHistory : List NetEvent :=
  [.sent "0" (.subscribe "s" (.callMethod "a/b" "c")),
    .received "0" (.subscribe "s" (.callMethod "a/b" "c")),
    .put "0" none (.respond "s"),
    .sent "1" (.execute "t" (.callMethod "a" "b/c" none)),
    .received "1" (.execute "t" (.callMethod "a" "b/c" none))]

theorem run_overlappingRun : ∃ r, run recordedStep recordedEmpty overlappingRun = some r ∧
    r.history = overlappingHistory ++
      .put "0" (some "1") (.execute "t" (.callMethod "a" "b/c" none)) :: [] :=
  ⟨_, rfl, rfl⟩

/-- The two methods share the channel `3/a/b/c`, and the broker forwards the call of the one to the
subscriber of the other. -/
theorem overlapping_not_exact :
    (Packet.subscribe "s" (.callMethod "a/b" "c")).getChannel =
      (Packet.execute "t" (.callMethod "a" "b/c" none)).getChannel ∧
    (Packet.subscribe "s" (.callMethod "a/b" "c")).routingNames ≠
      (Packet.execute "t" (.callMethod "a" "b/c" none)).routingNames ∧
    ∃ r, Reach recordedStep recordedEmpty r ∧
      .put "0" (some "1") (.execute "t" (.callMethod "a" "b/c" none)) ∈ r.history ∧
      ∀ p, .received "0" p ∈ r.history → p.routingNames = [.string "a/b", .string "c"] := by
  obtain ⟨r, hr, hhist⟩ := run_overlappingRun
  refine ⟨rfl, fun h => ?_, r, reach_of_run hr, ?_, fun p hmem => ?_⟩
  · exact absurd (Value.string.inj (List.cons.inj h).1) (by decide)
  · rw [hhist]
    exact List.mem_append_right _ (List.mem_cons_self ..)
  · obtain rfl : p = .subscribe "s" (.callMethod "a/b" "c") := by
      simpa [hhist, overlappingHistory] using hmem
    rfl

/-- The two halves, for a function and for `overlappingRun`. -/
theorem channels_exact_overlappingRun :
    ((Packet.subscribe "s" (.callFunction "f")).getChannel =
        (Packet.execute "t" (.callFunction "f" none)).getChannel →
      (Packet.subscribe "s" (.callFunction "f")).itype =
          (Packet.execute "t" (.callFunction "f" none)).itype ∧
        (Packet.subscribe "s" (.callFunction "f")).routingNames =
          (Packet.execute "t" (.callFunction "f" none)).routingNames) ∧
    ∃ q, SubscribedBy overlappingHistory "0" (Instruction.callMethod "a" "b/c").channel q ∧
      ∀ j, Packet.Instructs q j → (((Packet.execute "t" (.callMethod "a" "b/c" none)).itype =
        q.itype ∧ (Packet.execute "t" (.callMethod "a" "b/c" none)).routingNames =
          q.routingNames) ↔ ¬ (Instruction.callMethod "a" "b/c").Overlaps j) := by
  obtain ⟨r, hr, hhist⟩ := run_overlappingRun
  have hexecute := Packet.Instructs.execute "t" (.callMethod "a" "b/c" none)
  exact ⟨(channels_exact (.subscribe "s" (.callFunction "f"))
      (.execute "t" (.callFunction "f" none))).1.mpr id,
    (channels_exact hexecute hexecute).2 r (reach_of_run hr) _ _ _ _ hhist rfl⟩

end Net

end Ailoy
