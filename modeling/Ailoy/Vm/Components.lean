import Ailoy.Vm.Loop

/-!
# Definitions under an existing name

`handle_define_component` means to refuse a name that is taken, but looks the name up among the
factories. So a live component is replaced when its name is no component type, and a free name is
refused when it is one. `define_keeps_iff` states exactly which definitions are handled as they
should be: an existing component is kept, and a new one is registered.
-/

namespace Ailoy.Loop

open Transition

variable {σ ω : Type}

/-- The definition is refused: the only packet is an error response, and the tables and the expected
responses are as they were. -/
structure Refused (uuid : ℕ → TxId) (l : Loop σ ω) (t : TxId) (r : Request) : Prop where
  answer : ∃ reason, (l.recv uuid (.execute t r)).2 = [.respondExecuteError t 0 reason]
  listening : (l.recv uuid (.execute t r)).1.activity = .listening
  components : (l.recv uuid (.execute t r)).1.vm.components = l.vm.components
  factories : (l.recv uuid (.execute t r)).1.vm.factories = l.vm.factories
  operators : (l.recv uuid (.execute t r)).1.vm.operators = l.vm.operators
  expected : (l.recv uuid (.execute t r)).1.vm.expectedResponses = l.vm.expectedResponses

/-- The definition registers a component: behind subscriptions, the last packet is a result. -/
structure Registered (uuid : ℕ → TxId) (l : Loop σ ω) (t : TxId) (r : Request)
    (compname : String) (comp : Component σ) : Prop where
  answer : ∃ pkts, (l.recv uuid (.execute t r)).2 =
    pkts ++ [.respondExecute t 0 true (.map [])] ∧ ∀ p ∈ pkts, p.ptype = .subscribe
  listening : (l.recv uuid (.execute t r)).1.activity = .listening
  registered : (l.recv uuid (.execute t r)).1.vm.components.lookup compname = some comp

/-- What a definition under `compname` should do: with a component of that name it is refused, and
without one, when the factory succeeds, it registers the component. -/
def DefineKeeps (uuid : ℕ → TxId) (l : Loop σ ω) (t : TxId) (comptype compname : String)
    (input : Option Value) (factory : ComponentFactory σ ω) : Prop :=
  ((l.vm.components.lookup compname).isSome →
      Refused uuid l t (.defineComponent comptype compname input)) ∧
    (l.vm.components.lookup compname = none →
      ∀ comp env, factory (input.getD .null) l.vm.env = .ok (.ok comp, env) →
        Registered uuid l t (.defineComponent comptype compname input) compname comp)

/-- When the guard does what it is for: it holds for the name of an existing component, unless the
factory fails, and it does not hold for a free name, unless the factory does not succeed. -/
def GuardFits (l : Loop σ ω) (compname : String) (input : Option Value)
    (factory : ComponentFactory σ ω) : Prop :=
  ((l.vm.components.lookup compname).isSome → (l.vm.factories.lookup compname).isSome ∨
      ∃ e env, factory (input.getD .null) l.vm.env = .ok (.error e, env)) ∧
    (l.vm.components.lookup compname = none →
      (∃ comp env, factory (input.getD .null) l.vm.env = .ok (.ok comp, env)) →
        l.vm.factories.lookup compname = none)

section Cases

variable {uuid : ℕ → TxId} {l : Loop σ ω} {t : TxId} {comptype compname : String}
  {input : Option Value} {factory : ComponentFactory σ ω}

/-- A name that is a component type is refused. -/
theorem refused_of_guard (hfac : l.vm.factories.lookup comptype = some factory)
    (hname : (l.vm.factories.lookup compname).isSome) :
    Refused uuid l t (.defineComponent comptype compname input) := by
  obtain ⟨other, hother⟩ := Option.isSome_iff_exists.mp hname
  have hspec := Vm.onRecv_defineComponent uuid l.vm t comptype compname input
  simp only [hfac, hother] at hspec
  have hrecv : l.recv uuid (.execute t (.defineComponent comptype compname input)) =
      (⟨l.vm, .listening⟩,
        [.respondExecuteError t 0 ("Component already exists: " ++ compname)]) := by
    simp only [recv, hspec]
  constructor <;> rw [hrecv]
  exact ⟨_, rfl⟩

/-- A definition whose factory returns an error is refused. -/
theorem refused_of_factory_error (hfac : l.vm.factories.lookup comptype = some factory)
    (hname : l.vm.factories.lookup compname = none) {e : ErrorOutput} {env : ω}
    (hmake : factory (input.getD .null) l.vm.env = .ok (.error e, env)) :
    Refused uuid l t (.defineComponent comptype compname input) := by
  have hspec := Vm.onRecv_defineComponent uuid l.vm t comptype compname input
  simp only [hfac, hname] at hspec
  rw [hmake, Except.ok_bind] at hspec
  have hrecv : l.recv uuid (.execute t (.defineComponent comptype compname input)) =
      (⟨{ l.vm with env }, .listening⟩, [.respondExecuteError t 0 e.reason]) := by
    rw [recv, hspec]
    rfl
  constructor <;> rw [hrecv]
  exact ⟨_, rfl⟩

/-- A definition that the guard lets through registers what the factory makes, whether the name is
taken or not. -/
theorem registered_of_factory (hfac : l.vm.factories.lookup comptype = some factory)
    (hname : l.vm.factories.lookup compname = none) {comp : Component σ} {env : ω}
    (hmake : factory (input.getD .null) l.vm.env = .ok (.ok comp, env)) :
    Registered uuid l t (.defineComponent comptype compname input) compname comp := by
  have hspec := Vm.onRecv_defineComponent uuid l.vm t comptype compname input
  simp only [hfac, hname] at hspec
  rw [hmake, Except.ok_bind] at hspec
  let sent := Vm.sendEach uuid { l.vm with env } .subscribe (Vm.channelsOf compname comp)
  have hrecv : l.recv uuid (.execute t (.defineComponent comptype compname input)) =
      (⟨{ sent.1 with components := sent.1.components.insert compname comp }, .listening⟩,
        sent.2 ++ [.respondExecute t 0 true (.map [])]) := by
    rw [recv, hspec]
    rfl
  refine ⟨⟨sent.2, by rw [hrecv], fun p hp => ?_⟩, by rw [hrecv], ?_⟩
  · obtain ⟨i, hi, rfl⟩ := List.getElem_of_mem hp
    simp only [sent, Vm.sendEach, List.getElem_zipWith]
    rfl
  · rw [hrecv]
    exact AList.lookup_insert _

/-- A definition whose factory throws is not refused: it ends the VM. -/
theorem not_refused_of_factory_throws (hfac : l.vm.factories.lookup comptype = some factory)
    (hname : l.vm.factories.lookup compname = none) {f : Fault}
    (hmake : factory (input.getD .null) l.vm.env = .error f) :
    ¬ Refused uuid l t (.defineComponent comptype compname input) := by
  have hspec := Vm.onRecv_defineComponent uuid l.vm t comptype compname input
  simp only [hfac, hname] at hspec
  rw [hmake, Except.error_bind] at hspec
  intro href
  have hlisten := href.listening
  simp only [recv, hspec] at hlisten
  cases hlisten

/-- A definition is not both refused and registered: the last packets differ. -/
theorem not_refused_of_registered {r : Request} {comp : Component σ}
    (h : Registered uuid l t r compname comp) : ¬ Refused uuid l t r := by
  intro href
  obtain ⟨pkts, hpkts, -⟩ := h.answer
  obtain ⟨reason, hreason⟩ := href.answer
  rw [hpkts] at hreason
  have hlast := congrArg List.getLast? hreason
  rw [List.getLast?_concat, List.getLast?_singleton] at hlast
  have hbody := congrArg Packet.body (Option.some.inj hlast)
  simp [Packet.respondExecute, Packet.respondExecuteError] at hbody

end Cases

/-- For every VM state and every definition with a known component type: the definition keeps an
existing component and registers a new one if and only if the guard fits the name. -/
theorem define_keeps_iff (uuid : ℕ → TxId) (l : Loop σ ω) (t : TxId) (comptype compname : String)
    (input : Option Value) (factory : ComponentFactory σ ω)
    (hfac : l.vm.factories.lookup comptype = some factory) :
    DefineKeeps uuid l t comptype compname input factory ↔
      GuardFits l compname input factory := by
  constructor
  · rintro ⟨hkeep, hnew⟩
    refine ⟨fun hcomp => ?_, fun hcomp hok => ?_⟩
    · have href := hkeep hcomp
      cases hname : l.vm.factories.lookup compname with
      | some other => exact .inl rfl
      | none =>
        cases hmake : factory (input.getD .null) l.vm.env with
        | error f => exact absurd href (not_refused_of_factory_throws hfac hname hmake)
        | ok made =>
          obtain ⟨compOpt, env⟩ := made
          cases compOpt with
          | error e => exact .inr ⟨e, env, rfl⟩
          | ok comp =>
            exact absurd href (not_refused_of_registered (registered_of_factory hfac hname hmake))
    · obtain ⟨comp, env, hmake⟩ := hok
      have hreg := hnew hcomp comp env hmake
      cases hname : l.vm.factories.lookup compname with
      | none => rfl
      | some other =>
        have href : Refused uuid l t (.defineComponent comptype compname input) :=
          refused_of_guard hfac (by rw [hname]; rfl)
        exact absurd href (not_refused_of_registered hreg)
  · rintro ⟨hkeep, hnew⟩
    refine ⟨fun hcomp => ?_, fun hcomp comp env hmake => ?_⟩
    · cases hname : l.vm.factories.lookup compname with
      | some other => exact refused_of_guard hfac (by rw [hname]; rfl)
      | none =>
        rcases hkeep hcomp with hsome | ⟨e, env, hmake⟩
        · rw [hname] at hsome
          cases hsome
        · exact refused_of_factory_error hfac hname hmake
    · exact registered_of_factory hfac (hnew hcomp ⟨comp, env, hmake⟩) hmake

/-- A factory whose components are numbered. -/
def counterFactory : ComponentFactory ℕ ℕ := fun _ env => .ok (.ok ⟨∅, env⟩, env + 1)

/-- A VM with `counterFactory` as its component type `counter`. -/
def counterLoop : Loop ℕ ℕ :=
  ⟨{ (Vm.empty 0 : Vm ℕ ℕ) with
      factories := (∅ : UnorderedMap _ _).insert "counter" counterFactory }, .listening⟩

theorem define_keeps_iff_counterLoop :
    DefineKeeps (fun n => toString n) counterLoop "t" "counter" "c" none counterFactory ↔
      GuardFits counterLoop "c" none counterFactory :=
  define_keeps_iff (fun n => toString n) counterLoop "t" "counter" "c" none counterFactory rfl

/-- The component `c` is defined. -/
def defineRun : List (LoopAct ℕ ℕ) :=
  [.importModule ⟨∅, (∅ : UnorderedMap _ _).insert "counter" counterFactory⟩, .enter,
    .recv (.execute "t" (.defineComponent "counter" "c" none))]

/-- After `defineRun`, a second definition of `c` is not handled as it should be. -/
theorem defineRun_not_keeps : ∃ l : Loop ℕ ℕ,
    Reach (next fun n => toString n) (start 0) l ∧
      l.vm.factories.lookup "counter" = some counterFactory ∧
      ¬ DefineKeeps (fun n => toString n) l "u" "counter" "c" none counterFactory := by
  have hend : (run (next fun n => toString n) (start 0) defineRun).map (fun l =>
      ((l.vm.components.lookup "c").isSome, (l.vm.factories.lookup "c").isNone)) =
        some (true, true) := by decide
  have hfac : (run (next fun n => toString n) (start 0) defineRun).map (fun l =>
      l.vm.factories.lookup "counter") = some (some counterFactory) := rfl
  obtain ⟨l, hl, hend⟩ := Option.map_eq_some_iff.mp hend
  obtain ⟨hcomp, hname⟩ := Prod.mk.inj hend
  rw [hl] at hfac
  have hfac' := Option.some.inj hfac
  refine ⟨l, reach_of_run hl, hfac', fun hkeep => ?_⟩
  have hreg : Registered (fun n => toString n) l "u" (.defineComponent "counter" "c" none) "c"
      ⟨∅, l.vm.env⟩ :=
    registered_of_factory hfac' (Option.isNone_iff_eq_none.mp hname) rfl
  exact not_refused_of_registered hreg (hkeep.1 hcomp)

end Ailoy.Loop
