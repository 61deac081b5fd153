import Ailoy.Vm.Moves
import Mathlib.Data.Set.Lattice

/-!
# The channels that the VM offers

What the VM can be asked for is what its tables hold: `Offers` is the set of these instructions, and
`offered` the set of their channels. The VM announces a change of its tables with `subscribe` and
`unsubscribe` packets, from lists that are written separately for imports, definitions, deletions,
and the stop. `Moves.offered` is the statement for one step: the packets of the step turn the
channels offered before it into the channels offered after it. A deletion takes away no channel of
another component because method names without the separator make channels unambiguous.
-/

namespace Ailoy

/-- The method name of an instruction does not contain the separator of channels. -/
def Instruction.Plain : Instruction → Prop
  | .callMethod _ opname => '/' ∉ opname.toList
  | _ => True

/-- The last separator splits a text in one way. -/
theorem append_separator_inj {l₁ l₂ m₁ m₂ : List Char} (h₁ : '/' ∉ m₁) (h₂ : '/' ∉ m₂)
    (h : l₁ ++ '/' :: m₁ = l₂ ++ '/' :: m₂) : l₁ = l₂ ∧ m₁ = m₂ := by
  -- One of the texts before the separator is the longer one. What it has in excess is empty, or it
  -- puts a separator into the name behind the other.
  rcases List.append_eq_append_iff.mp h with ⟨as, hl, hm⟩ | ⟨as, hl, hm⟩
  · cases as with
    | nil =>
      rw [List.append_nil] at hl
      exact ⟨hl.symm, (List.cons.inj hm).2⟩
    | cons a as =>
      have htail : m₁ = as ++ '/' :: m₂ := (List.cons.inj hm).2
      exact absurd (htail ▸ List.mem_append_right as (List.mem_cons_self ..)) h₁
  · cases as with
    | nil =>
      rw [List.append_nil] at hl
      exact ⟨hl, (List.cons.inj hm).2.symm⟩
    | cons a as =>
      have htail : m₂ = as ++ '/' :: m₁ := (List.cons.inj hm).2
      exact absurd (htail ▸ List.mem_append_right as (List.mem_cons_self ..)) h₂

/-- The characters of a channel: the digit of its instruction type, the separator, and the names. -/
theorem Instruction.toList_channel (i : Instruction) : i.channel.toList =
    match i with
    | .callFunction opname => '0' :: '/' :: opname.toList
    | .defineComponent comptype => '1' :: '/' :: comptype.toList
    | .deleteComponent compname => '2' :: '/' :: compname.toList
    | .callMethod compname opname => '3' :: '/' :: (compname.toList ++ '/' :: opname.toList) := by
  cases i with
  | callFunction opname => exact String.toList_append (s := "0/")
  | defineComponent comptype => exact String.toList_append (s := "1/")
  | deleteComponent compname => exact String.toList_append (s := "2/")
  | callMethod compname opname =>
    have hsplit : (Instruction.callMethod compname opname).channel =
      "3/" ++ compname ++ "/" ++ opname := rfl
    rw [hsplit, String.toList_append, String.toList_append, String.toList_append,
      List.append_assoc, List.append_assoc]
    rfl

/-- With plain method names, no two instructions share a channel. -/
theorem Instruction.channel_inj {i j : Instruction} (hi : i.Plain) (hj : j.Plain)
    (h : i.channel = j.channel) : i = j := by
  have hl := congrArg String.toList h
  rw [toList_channel, toList_channel] at hl
  cases i with
  | callFunction opname =>
    cases j with
    | callFunction opname' =>
      rw [String.toList_inj.mp (List.cons.inj (List.cons.inj hl).2).2]
    | _ => simp at hl
  | defineComponent comptype =>
    cases j with
    | defineComponent comptype' =>
      rw [String.toList_inj.mp (List.cons.inj (List.cons.inj hl).2).2]
    | _ => simp at hl
  | deleteComponent compname =>
    cases j with
    | deleteComponent compname' =>
      rw [String.toList_inj.mp (List.cons.inj (List.cons.inj hl).2).2]
    | _ => simp at hl
  | callMethod compname opname =>
    cases j with
    | callMethod compname' opname' =>
      obtain ⟨hc, ho⟩ := append_separator_inj hi hj (List.cons.inj (List.cons.inj hl).2).2
      rw [String.toList_inj.mp hc, String.toList_inj.mp ho]
    | _ => simp at hl

/-! ## Announcements -/

/-- What a packet of a socket does to the channels that the socket owns. -/
def announce (S : Set Channel) (p : Packet) : Set Channel :=
  match p.ptype with
  | .subscribe => S ∪ {ch | p.getChannel = .ok ch}
  | .unsubscribe => S \ {ch | p.getChannel = .ok ch}
  | .disconnect => ∅
  | _ => S

/-- The channels that a socket owns after packets of it, in order. -/
def announced (S : Set Channel) (ps : List Packet) : Set Channel := ps.foldl announce S

/-- The channels of a list of instructions. -/
def channels (is : List Instruction) : Set Channel := {ch | ∃ i ∈ is, i.channel = ch}

@[simp] theorem announced_nil (S : Set Channel) : announced S [] = S := rfl

@[simp] theorem announced_append (S : Set Channel) (ps qs : List Packet) :
    announced S (ps ++ qs) = announced (announced S ps) qs := List.foldl_append

@[simp] theorem announce_packet (S : Set Channel) (t : TxId) (i : ℕ) (out : Output) :
    announce S (out.packet t i) = S := by
  cases out <;> rfl

@[simp] theorem announced_respondExecute (S : Set Channel) (t : TxId) (i : ℕ) (fin : Bool)
    (out : Value) : announced S [.respondExecute t i fin out] = S := rfl

theorem announce_subscribe (S : Set Channel) (t : TxId) (i : Instruction) :
    announce S (.subscribe t i) = S ∪ channels [i] := by
  have hset : announce S (.subscribe t i) =
    S ∪ {ch | (Packet.subscribe t i).getChannel = .ok ch} := rfl
  rw [hset, Packet.getChannel_subscribe]
  simp [channels]

theorem announce_unsubscribe (S : Set Channel) (t : TxId) (i : Instruction) :
    announce S (.unsubscribe t i) = S \ channels [i] := by
  have hset : announce S (.unsubscribe t i) =
    S \ {ch | (Packet.unsubscribe t i).getChannel = .ok ch} := rfl
  rw [hset, Packet.getChannel_unsubscribe]
  simp [channels]

theorem channels_singleton (i : Instruction) : channels [i] = {i.channel} := by
  ext ch
  simp [channels, eq_comm]

theorem channels_cons (i : Instruction) (is : List Instruction) :
    channels (i :: is) = channels [i] ∪ channels is := by
  ext ch
  simp [channels, eq_comm]

section SendEach

variable {σ ω : Type} (uuid : ℕ → TxId) (vm : Vm σ ω) (S : Set Channel) (is : List Instruction)

/-- Subscriptions add the channels of their instructions. The induction is on the instructions, with
as many ids. -/
theorem announced_subscribes :
    announced S (Vm.sendEach uuid vm .subscribe is).2 = S ∪ channels is := by
  have key : ∀ (is : List Instruction) (ids : List TxId) (S : Set Channel),
      ids.length = is.length →
      announced S (List.zipWith .subscribe ids is) = S ∪ channels is := by
    intro is
    induction is with
    | nil => simp [channels]
    | cons i is ih =>
      intro ids S hlen
      cases ids with
      | nil => simp at hlen
      | cons id ids =>
        have hrest := ih ids (announce S (.subscribe id i)) (by simpa using hlen)
        rw [channels_cons, ← Set.union_assoc, ← announce_subscribe S id i]
        exact hrest
  exact key is _ S (by simp)

/-- Unsubscriptions take the channels of their instructions away. -/
theorem announced_unsubscribes :
    announced S (Vm.sendEach uuid vm .unsubscribe is).2 = S \ channels is := by
  have key : ∀ (is : List Instruction) (ids : List TxId) (S : Set Channel),
      ids.length = is.length →
      announced S (List.zipWith .unsubscribe ids is) = S \ channels is := by
    intro is
    induction is with
    | nil => simp [channels]
    | cons i is ih =>
      intro ids S hlen
      cases ids with
      | nil => simp at hlen
      | cons id ids =>
        have hrest := ih ids (announce S (.unsubscribe id i)) (by simpa using hlen)
        rw [channels_cons, ← Set.sdiff_sdiff, ← announce_unsubscribe S id i]
        exact hrest
  exact key is _ S (by simp)

end SendEach

/-! ## What the tables hold -/

namespace Vm

variable {σ ω : Type}

/-- The instruction can be executed: the tables hold what it names. -/
def Offers (vm : Vm σ ω) : Instruction → Prop
  | .callFunction opname => (vm.operators.lookup opname).isSome
  | .defineComponent comptype => (vm.factories.lookup comptype).isSome
  | .deleteComponent compname => (vm.components.lookup compname).isSome
  | .callMethod compname opname =>
    ∃ ops, (vm.components.lookup compname).map Component.ops = some ops ∧ opname ∈ ops

/-- The channels of what can be executed. -/
def offered (vm : Vm σ ω) : Set Channel := {ch | ∃ i, vm.Offers i ∧ i.channel = ch}

/-- The definition is not one of a component that exists. -/
def Singular (vm : Vm σ ω) : Request → Bool
  | .defineComponent _ compname _ => (vm.components.lookup compname).isNone
  | _ => true

/-- The methods of the component that a definition makes have plain names. -/
def PlainMethods (vm : Vm σ ω) : Request → Bool
  | .defineComponent comptype _ input =>
    match vm.factories.lookup comptype with
    | none => true
    | some factory =>
      match factory (input.getD .null) vm.env with
      | .ok (.ok comp, _) => comp.ops.keys.all fun opname => '/' ∉ opname.toList
      | _ => true
  | _ => true

theorem singular_filled (vm : Vm σ ω) (r : Request) : vm.Singular r.filled = vm.Singular r := by
  cases r <;> rfl

theorem plainMethods_filled (vm : Vm σ ω) (r : Request) :
    vm.PlainMethods r.filled = vm.PlainMethods r := by
  cases r <;> rfl

/-- States with the same names offer the same. -/
theorem Alike.offers {vm vm' : Vm σ ω} (h : vm.Alike vm') (i : Instruction) :
    vm'.Offers i ↔ vm.Offers i := by
  cases i with
  | callFunction opname => simp only [Offers, h.operators]
  | defineComponent comptype => simp only [Offers, h.factories]
  | deleteComponent compname =>
    have hops := congrArg Option.isSome (h.components compname)
    simp only [Option.isSome_map] at hops
    simp only [Offers, hops]
  | callMethod compname opname => simp only [Offers, h.components]

theorem Alike.offered {vm vm' : Vm σ ω} (h : vm.Alike vm') : vm'.offered = vm.offered := by
  unfold Vm.offered
  simp only [h.offers]

section Changes

variable {uuid : ℕ → TxId} {vm : Vm σ ω}

/-- An import adds the operators and the component types of its module. -/
theorem offers_onImportModule (mod : Module σ ω) (i : Instruction) :
    (vm.onImportModule uuid mod).1.Offers i ↔ vm.Offers i ∨
      i ∈ mod.ops.keys.map .callFunction ++ mod.factories.keys.map .defineComponent := by
  simp only [onImportModule, sendEach, List.mem_append, List.mem_map]
  cases i with
  | callFunction opname =>
    simp [Offers, UnorderedMap.lookup_mergeNew_isSome, UnorderedMap.mem_keys_iff]
  | defineComponent comptype =>
    simp [Offers, UnorderedMap.lookup_mergeNew_isSome, UnorderedMap.mem_keys_iff]
  | deleteComponent compname => simp [Offers]
  | callMethod compname opname => simp [Offers]

/-- The stop withdraws all that is offered. -/
theorem mem_onStop (i : Instruction) :
    i ∈ vm.operators.keys.map .callFunction ++ (vm.factories.keys.map .defineComponent ++
        vm.components.entries.flatMap fun c => channelsOf c.1 c.2) ↔ vm.Offers i := by
  have hcomp : ∀ c : Sigma fun _ : String => Component σ,
      c ∈ vm.components.entries ↔ vm.components.lookup c.1 = some c.2 := fun c =>
    UnorderedMap.mem_entries_iff
  simp only [List.mem_append, List.mem_map, List.mem_flatMap, channelsOf, List.mem_cons, hcomp]
  cases i with
  | callFunction opname => simp [Offers, AList.lookup_isSome, AList.mem_keys]
  | defineComponent comptype => simp [Offers, AList.lookup_isSome, AList.mem_keys]
  | deleteComponent compname =>
    simp only [reduceCtorEq, and_false, exists_false, or_false, false_or, Offers,
      Instruction.deleteComponent.injEq, Option.isSome_iff_exists]
    constructor
    · rintro ⟨⟨c, comp⟩, hc, rfl⟩
      exact ⟨comp, hc⟩
    · rintro ⟨comp, hc⟩
      exact ⟨⟨compname, comp⟩, hc, rfl⟩
  | callMethod compname opname =>
    simp only [reduceCtorEq, and_false, exists_false, false_or, Offers,
      Instruction.callMethod.injEq, Option.map_eq_some_iff]
    constructor
    · rintro ⟨⟨c, comp⟩, hc, m, hm, rfl, rfl⟩
      exact ⟨comp.ops, ⟨comp, hc, rfl⟩, hm⟩
    · rintro ⟨_, ⟨comp, hc, rfl⟩, hm⟩
      exact ⟨⟨compname, comp⟩, hc, opname, hm, rfl, rfl⟩

end Changes

/-- The instructions of one component are its channels. -/
theorem mem_channelsOf {compname : String} {comp : Component σ} {i : Instruction} :
    i ∈ channelsOf compname comp ↔ i = .deleteComponent compname ∨
      ∃ opname ∈ comp.ops, i = .callMethod compname opname := by
  simp only [channelsOf, List.mem_cons, List.mem_map, AList.mem_keys, eq_comm (a := i)]

/-- A new component adds its channels. -/
theorem offers_define {vm vm' : Vm σ ω} {compname : String} {comp : Component σ}
    (hnew : vm.components.lookup compname = none)
    (hcomp : vm'.components = vm.components.insert compname comp)
    (hop : vm'.operators = vm.operators) (hfac : vm'.factories = vm.factories) (i : Instruction) :
    vm'.Offers i ↔ vm.Offers i ∨ i ∈ channelsOf compname comp := by
  have hlookup := fun c => UnorderedMap.lookup_insert_eq vm.components compname c comp
  rw [mem_channelsOf]
  cases i with
  | callFunction opname => simp [Offers, hop]
  | defineComponent comptype => simp [Offers, hfac]
  | deleteComponent c =>
    simp only [Offers, hcomp, hlookup]
    split_ifs with h <;> simp [h]
  | callMethod c opname =>
    simp only [Offers, hcomp, hlookup]
    split_ifs with h
    · subst h
      simp [hnew]
    · simp [h]

/-- New instructions bring their channels. -/
theorem offered_union {vm vm' : Vm σ ω} {is : List Instruction}
    (hoff : ∀ i, vm'.Offers i ↔ vm.Offers i ∨ i ∈ is) :
    vm.offered ∪ channels is = vm'.offered := by
  ext ch
  simp only [offered, channels, Set.mem_union, Set.mem_ofPred_eq]
  rw [← exists_or]
  refine exists_congr fun i => ?_
  rw [← or_and_right]
  exact and_congr_left fun _ => (hoff i).symm

/-- A deleted component takes its channels away, and no others. -/
theorem offers_delete {vm vm' : Vm σ ω} {compname : String} {comp : Component σ}
    (hold : vm.components.lookup compname = some comp)
    (hcomp : vm'.components = vm.components.erase compname)
    (hop : vm'.operators = vm.operators) (hfac : vm'.factories = vm.factories) (i : Instruction) :
    vm'.Offers i ↔ vm.Offers i ∧ i ∉ channelsOf compname comp := by
  have hlookup := fun c => UnorderedMap.lookup_erase_eq vm.components compname c
  rw [mem_channelsOf]
  cases i with
  | callFunction opname => simp [Offers, hop]
  | defineComponent comptype => simp [Offers, hfac]
  | deleteComponent c =>
    simp only [Offers, hcomp, hlookup]
    split_ifs with h <;> simp [h]
  | callMethod c opname =>
    simp only [Offers, hcomp, hlookup]
    split_ifs with h
    · subst h
      simp [hold]
    · simp [h]

end Vm

/-! ## One step -/

namespace Loop

variable {σ ω : Type} {uuid : ℕ → TxId} {l l' : Loop σ ω} {a : LoopAct σ ω} {pkts : List Packet}

/-- The channels that the VM offers: after a stop, it offers none. -/
def offered (l : Loop σ ω) : Set Channel :=
  match l.activity with
  | .draining | .returned => ∅
  | _ => l.vm.offered

/-- A definition that the step handles is one of a new component, whose methods have plain names. -/
def Tidy (l : Loop σ ω) : LoopAct σ ω → Prop
  | .recv pkt => ∀ r ∈ pkt.request?, l.vm.Singular r = true ∧ l.vm.PlainMethods r = true
  | _ => True

/-- The operator of a call is in the tables, and method names are plain. -/
structure Sound (l : Loop σ ω) : Prop where
  site : ∀ c, l.activity = .calling c → l.vm.Has c.site
  plain : ∀ i, l.vm.Offers i → i.Plain

/-- A step after which the tables have the same names. -/
theorem Sound.of_alike (hs : l.Sound) (h : l.vm.Alike l'.vm)
    (hsite : ∀ c, l'.activity = .calling c → l.vm.Has c.site) : l'.Sound := by
  refine ⟨fun c hc => ?_, fun i hi => hs.plain i ((h.offers i).mp hi)⟩
  have hhas := hsite c hc
  cases hcs : c.site with
  | function opname =>
    rw [hcs] at hhas
    exact (h.operators opname).trans hhas
  | method compname comp =>
    rw [hcs] at hhas
    exact (h.components compname).trans hhas

/-- A definition that meets the condition is one of a new component with plain method names. -/
theorem tidy_define {t : TxId} {comptype compname : String} {input : Option Value}
    {comp : Component σ} {env : ω}
    (ht : l.Tidy (.recv (.execute t (.defineComponent comptype compname input))))
    (hm : l.vm.Makes comptype compname input comp env) :
    l.vm.components.lookup compname = none ∧ ∀ opname ∈ comp.ops, '/' ∉ opname.toList := by
  obtain ⟨-, factory, hfac, hmake⟩ := hm
  obtain ⟨hsing, hplain⟩ := ht _ (Packet.request?_execute t _)
  rw [Vm.singular_filled] at hsing
  rw [Vm.plainMethods_filled] at hplain
  refine ⟨Option.isNone_iff_eq_none.mp hsing, fun opname hop => ?_⟩
  simp only [Vm.PlainMethods, hfac, hmake, List.all_eq_true, decide_eq_true_eq] at hplain
  exact hplain opname (AList.mem_keys.mpr hop)

/-- The packets of a step turn the channels offered before it into those offered after it. -/
theorem Moves.offered (hm : Moves uuid l a l' pkts) (hs : l.Sound)
    (ht : l.activity = .listening → l.Tidy a) :
    announced l.offered pkts = l'.offered ∧ l'.Sound := by
  -- Steps that change neither the names in the tables nor whether the VM has been stopped.
  have hsame : ∀ {l' : Loop σ ω}, l.vm.Alike l'.vm → l.offered = l.vm.offered →
      l'.offered = l'.vm.offered → l.offered = l'.offered := by
    intro l' halike h h'
    rw [h, h', halike.offered]
  have hids : ∀ ids, l.vm.Alike { l.vm with expectedResponses := ids } := fun _ =>
    ⟨rfl, fun _ => rfl, fun _ => rfl⟩
  cases hm with
  | importModule mod hact =>
    have hoff : ∀ i, (l.vm.onImportModule uuid mod).1.Offers i ↔ l.vm.Offers i ∨
        i ∈ mod.ops.keys.map .callFunction ++ mod.factories.keys.map .defineComponent :=
      Vm.offers_onImportModule mod
    refine ⟨?_, by rintro c ⟨⟩, fun i hi => ?_⟩
    · have hsubs := announced_subscribes uuid
        { l.vm with
          operators := UnorderedMap.mergeNew l.vm.operators mod.ops
          factories := UnorderedMap.mergeNew l.vm.factories mod.factories } l.offered
        (mod.ops.keys.map .callFunction ++ mod.factories.keys.map .defineComponent)
      -- The VM subscribes to the channels of the operators and of the factories.
      rw [Vm.onImportModule, hsubs]
      simp only [Loop.offered, hact]
      exact Vm.offered_union hoff
    · rcases (hoff i).mp hi with hi | hi
      · exact hs.plain i hi
      · rcases List.mem_append.mp hi with hi | hi
        · obtain ⟨opname, -, rfl⟩ := List.mem_map.mp hi
          trivial
        · obtain ⟨comptype, -, rfl⟩ := List.mem_map.mp hi
          trivial
  | enter hact =>
    refine ⟨?_, hs.of_alike (.refl l.vm) (by rintro c ⟨⟩)⟩
    exact hsame (.refl l.vm) (by simp only [Loop.offered, hact]) rfl
  | respond ids hact hp =>
    refine ⟨?_, hs.of_alike (hids ids) (by rintro c ⟨⟩)⟩
    exact hsame (hids ids) (by simp only [Loop.offered, hact]) rfl
  | @refuse t r e vm hact _ halike =>
    refine ⟨?_, hs.of_alike halike (by rintro c ⟨⟩)⟩
    exact hsame halike (by simp only [Loop.offered, hact]) rfl
  | @call t r c hact _ _ _ hsite _ =>
    refine ⟨?_, hs.of_alike (.refl l.vm) ?_⟩
    · exact hsame (.refl l.vm) (by simp only [Loop.offered, hact]) rfl
    · rintro _ ⟨⟩
      exact hsite
  | @define t comptype compname input comp env hact hmakes =>
    obtain ⟨hnew, hplain⟩ := tidy_define (ht hact) hmakes
    let vm : Vm σ ω :=
      { (Vm.sendEach uuid { l.vm with env } .subscribe (Vm.channelsOf compname comp)).1 with
        components := l.vm.components.insert compname comp }
    have hoff : ∀ i, vm.Offers i ↔ l.vm.Offers i ∨ i ∈ Vm.channelsOf compname comp :=
      Vm.offers_define hnew rfl rfl rfl
    refine ⟨?_, by rintro c ⟨⟩, fun i hi => ?_⟩
    · rw [announced_append, announced_subscribes, announced_respondExecute]
      simp only [Loop.offered, hact]
      exact Vm.offered_union hoff
    · rcases (hoff i).mp hi with hi | hi
      · exact hs.plain i hi
      · rcases Vm.mem_channelsOf.mp hi with rfl | ⟨opname, hop, rfl⟩
        · trivial
        · exact hplain opname hop
  | @delete t compname comp hact hold =>
    let vm : Vm σ ω :=
      (Vm.sendEach uuid { l.vm with components := l.vm.components.erase compname } .unsubscribe
        (comp.ops.keys.map (.callMethod compname) ++ [.deleteComponent compname])).1
    have hoff : ∀ i, vm.Offers i ↔ l.vm.Offers i ∧ i ∉ Vm.channelsOf compname comp :=
      Vm.offers_delete hold rfl rfl rfl
    -- The channels of the component are left in another order than they were announced in.
    have hmem : ∀ i, i ∈ comp.ops.keys.map (.callMethod compname) ++
        [Instruction.deleteComponent compname] ↔ i ∈ Vm.channelsOf compname comp := by
      intro i
      rw [List.mem_append, List.mem_singleton, Vm.channelsOf, List.mem_cons]
      exact or_comm
    have hgone : ∀ i, i ∈ Vm.channelsOf compname comp → l.vm.Offers i := by
      intro i hi
      rcases Vm.mem_channelsOf.mp hi with rfl | ⟨opname, hop, rfl⟩
      · simp [Vm.Offers, hold]
      · exact ⟨comp.ops, by rw [hold]; rfl, hop⟩
    refine ⟨?_, by rintro c ⟨⟩, fun i hi => hs.plain i ((hoff i).mp hi).1⟩
    rw [announced_append, announced_unsubscribes, announced_respondExecute]
    simp only [Loop.offered, hact]
    ext ch
    simp only [Vm.offered, channels, Set.mem_sdiff, Set.mem_ofPred_eq, hmem]
    constructor
    · rintro ⟨⟨i, hi, rfl⟩, hno⟩
      exact ⟨i, (hoff i).mpr ⟨hi, fun hdel => hno ⟨i, hdel, rfl⟩⟩, rfl⟩
    · rintro ⟨i, hi, rfl⟩
      obtain ⟨hi, hdel⟩ := (hoff i).mp hi
      refine ⟨⟨i, hi, rfl⟩, ?_⟩
      -- Another instruction with the same channel would be this one.
      rintro ⟨j, hj, hch⟩
      exact hdel (Instruction.channel_inj (hs.plain j (hgone j hj)) (hs.plain i hi) hch ▸ hj)
  | throwRequest f hact =>
    refine ⟨?_, hs.of_alike (.refl l.vm) (by rintro c ⟨⟩)⟩
    exact hsame (.refl l.vm) (by simp only [Loop.offered, hact]) rfl
  | @next c val s hact hstep =>
    refine ⟨?_, hs.of_alike (.refl l.vm) ?_⟩
    · rw [announced_respondExecute]
      exact hsame (.refl l.vm) (by simp only [Loop.offered, hact]) rfl
    · rintro _ ⟨⟩
      exact hs.site c hact
  | @finish c out s hact hstep hfin =>
    have halike := Vm.alike_store (hs.site c hact) c.code s
    refine ⟨?_, hs.of_alike halike (by rintro c ⟨⟩)⟩
    have hsingle : announced l.offered [out.packet c.txId c.sequence] = l.offered :=
      announce_packet _ _ _ _
    rw [hsingle]
    exact hsame halike (by simp only [Loop.offered, hact]) rfl
  | @throwCall c f hact hstep =>
    refine ⟨?_, hs.of_alike (.refl l.vm) (by rintro c ⟨⟩)⟩
    exact hsame (.refl l.vm) (by simp only [Loop.offered, hact]) rfl
  | stop hact =>
    refine ⟨?_, hs.of_alike ⟨rfl, fun _ => rfl, fun _ => rfl⟩ (by rintro c ⟨⟩)⟩
    -- Everything that the VM offers is unsubscribed.
    have hunsubs := announced_unsubscribes uuid l.vm l.offered
      (l.vm.operators.keys.map .callFunction ++ (l.vm.factories.keys.map .defineComponent ++
        l.vm.components.entries.flatMap fun c => Vm.channelsOf c.1 c.2))
    rw [Vm.onStop, hunsubs]
    simp only [Loop.offered, hact]
    ext ch
    simp only [Vm.offered, channels, Set.mem_sdiff, Set.mem_ofPred_eq, Vm.mem_onStop,
      and_not_self_iff, Set.mem_empty_iff_false]
  | drain ids hact =>
    refine ⟨?_, hs.of_alike (hids ids) (by rintro c ⟨⟩)⟩
    simp only [Loop.offered, hact, announced_nil]
  | disconnect t hact =>
    refine ⟨?_, hs.of_alike (.refl l.vm) (by rintro c ⟨⟩)⟩
    rfl

end Loop

end Ailoy
