import Ailoy.Vm.Methods
import Ailoy.Vm.StoreRetrieve

/-!
# The debug module

The operators and the component of `vm/src/debug_module.cpp`: `echo`, `spell`, which yields a text
byte by byte, and `accumulator`, a text that grows and a count of the pieces. `answers_spell` is the
run of `spell` on any text. `accumulates` says that an accumulator is what its name says: a list of
pieces, of which `get` returns all, in order, behind the base, and `count` the number.
-/

namespace Ailoy.DebugModule

open SequentialObject

section Code

variable (getType : Value → String)

/-- The field of a map of inputs that has to be a string. -/
def readText (context inputsName field : String) :
    Option Value → Except Fault (Except ErrorOutput String)
  | none => .error .nullDereference
  | some (.map inputsMap) =>
    match inputsMap.lookup field with
    | none => .ok (.error (.rangeError context field))
    | some (.string text) => .ok (.ok text)
    | some v => .ok (.error (.typeError context field "string_t" (getType v)))
  | some v => .ok (.error (.typeError context inputsName "map_t" (getType v)))

/-- `echo`. -/
def echo (inputs : Option Value) : Except Fault (Except ErrorOutput Value) := do
  let text ← readText getType "echo" "inputs" "text" inputs
  return text.map fun text => .map [("text", .string text)]

/-- The state of `spell`. -/
def spellState (message : String) (index : UInt64) : Value :=
  .map [("message", .string message), ("index", .uint index)]

/-- `finit` of `spell`. -/
def spellInit (inputs : Value) : Except Fault (Except ErrorOutput Value) := do
  let text ← readText getType "spell" "inputs" "text" (some inputs)
  return text.map fun text => spellState text 0

/-- `fstep` of `spell`. The index is compared with the length after it has been incremented. -/
def spellStep (state : Option Value) : Except Fault (Output × Option Value) :=
  match state with
  | some (.map m) => do
    let msg ← Value.mapAt m "message" >>= Value.asString
    let idx ← Value.mapAt m "index" >>= Value.asUint
    if msg.length < idx.toNat then
      return (.error (.rangeError "Spell" "Index overflow"), state)
    else
      let nextChar := String.ofList ((msg.toList.drop idx.toNat).take 1)
      return (.ok (.map [("text", .string nextChar)]) ((idx + 1).toNat = msg.length),
        some (spellState msg (idx + 1)))
  | _ => .error .nullDereference

/-- The objects of an `accumulator`: `base` and `count`. -/
structure Accumulator where
  base : String
  count : UInt64

/-- `put`. -/
def put (component : Accumulator) (inputs : Option Value) :
    Except Fault (Except ErrorOutput Value × Accumulator) := do
  let s ← readText getType "accumulator.put" "inputs" "s" inputs
  match s with
  | .error e => return (.error e, component)
  | .ok s => return (.ok (.map []), ⟨component.base ++ s, component.count + 1⟩)

/-- `get`. -/
def get (component : Accumulator) (_inputs : Option Value) :
    Except Fault (Except ErrorOutput Value × Accumulator) :=
  .ok (.ok (.map [("text", .string component.base)]), component)

/-- `count`. -/
def count (component : Accumulator) (_inputs : Option Value) :
    Except Fault (Except ErrorOutput Value × Accumulator) :=
  .ok (.ok (.map [("count", .uint component.count)]), component)

variable {σ ω : Type} (e : Embedding (MethodState Accumulator) σ)

/-- The methods of an `accumulator`. -/
def accumulatorOps : UnorderedMap String (OperatorCode σ) :=
  (((∅ : UnorderedMap _ _).insert "put" ((instantMethodOperator (put getType)).lift e)).insert "get"
    ((instantMethodOperator get).lift e)).insert "count" ((instantMethodOperator count).lift e)

/-- `fcreate` of `accumulator`. -/
def accumulatorFactory : ComponentFactory σ ω := fun attrs env => do
  let base ← readText getType "accumulator" "attrs" "base" (some attrs)
  return (base.map fun base => ⟨accumulatorOps getType e, e.put ⟨⟨base, 0⟩, none⟩⟩, env)

/-- The module that `get_debug_module` fills. -/
def debugModule (o : Embedding OperatorState σ) : Module σ ω where
  ops := ((∅ : UnorderedMap _ _).insert "echo"
      ⟨(instantOperator (echo getType)).lift o, o.put ⟨none, none⟩⟩).insert "spell"
    ⟨(iterativeOperator (spellInit getType) spellStep).lift o, o.put ⟨none, none⟩⟩
  factories := (∅ : UnorderedMap _ _).insert "accumulator" (accumulatorFactory getType e)

end Code

/-! ## Spelling -/

section Spell

/-- A piece of a text, as an output of `spell`. -/
def piece (cs : List Char) (fin : Bool) : Output := .ok (.map [("text", .string (.ofList cs))]) fin

/-- The bytes of a text, the last one with the finish flag. -/
def letters : List Char → List Output
  | [] => []
  | c :: cs => piece [c] cs.isEmpty :: letters cs

/-- What `spell` answers a text with. An empty text is not found to be finished. -/
def spelled (text : String) : List Output :=
  if text = "" then [piece [] false, .error (.rangeError "Spell" "Index overflow")]
  else letters text.toList

variable {text : String} {input : Option Value}

/-- A step from a position that is not behind the end. -/
theorem spellStep_of_le (text : String) {i : ℕ} (hi : i ≤ text.length) (hlt : text.length < 2 ^ 64) :
    spellStep (some (spellState text (.ofNat i))) =
      .ok (piece ((text.toList.drop i).take 1) ((UInt64.ofNat i + 1).toNat = text.length),
        some (spellState text (.ofNat (i + 1)))) := by
  have hidx : (UInt64.ofNat i).toNat = i := by
    rw [UInt64.toNat_ofNat']
    omega
  have hle : ¬ text.length < (UInt64.ofNat i).toNat := by omega
  have hnext : UInt64.ofNat (i + 1) = UInt64.ofNat i + 1 := UInt64.ofNat_add i 1
  have hstep : spellStep (some (spellState text (.ofNat i))) =
      if text.length < (UInt64.ofNat i).toNat then
        .ok (.error (.rangeError "Spell" "Index overflow"), some (spellState text (.ofNat i)))
      else
        .ok (piece ((text.toList.drop (UInt64.ofNat i).toNat).take 1)
          ((UInt64.ofNat i + 1).toNat = text.length),
          some (spellState text (UInt64.ofNat i + 1))) := by
    rfl
  rw [hstep, if_neg hle, hidx, hnext]

/-- From a position in the text, its bytes are yielded one by one. -/
theorem yields_letters (getType : Value → String) (hlt : text.length < 2 ^ 64) {cs : List Char}
    {i : ℕ} (hcs : text.toList.drop i = cs) (hne : cs ≠ []) :
    (iterativeOperator (spellInit getType) spellStep).Yields
      ⟨input, some (spellState text (.ofNat i))⟩ (letters cs) (.ok ⟨none, none⟩) := by
  have hlen : text.length = i + cs.length := by
    have hdrop := congrArg List.length hcs
    have hpos := List.length_pos_iff.mpr hne
    rw [List.length_drop, String.length_toList] at hdrop
    omega
  induction cs generalizing i with
  | nil => exact absurd rfl hne
  | cons c cs ih =>
    rw [List.length_cons] at hlen
    have hstep := spellStep_of_le text (i := i) (by omega) hlt
    have hidx : (UInt64.ofNat i + 1).toNat = i + 1 := by
      rw [← UInt64.ofNat_one, ← UInt64.ofNat_add, UInt64.toNat_ofNat']
      omega
    rw [hidx, hcs] at hstep
    cases cs with
    | nil =>
      have hend : decide (i + 1 = text.length) = true := decide_eq_true hlen.symm
      rw [hend] at hstep
      refine @OperatorCode.Yields.finish _ _ _ _ (.map [("text", .string (.ofList [c]))]) ?_
      simp only [iterativeOperator, hstep]
      rfl
    | cons c' cs =>
      have hmore : decide (i + 1 = text.length) = false := by
        refine decide_eq_false fun heq => ?_
        rw [List.length_cons] at hlen
        omega
      rw [hmore] at hstep
      refine .next ?_ (ih (i := i + 1) ?_ (List.cons_ne_nil _ _) (by omega))
      · simp only [iterativeOperator, hstep]
        rfl
      · rw [← List.drop_drop, hcs]
        rfl

/-- `spell` answers a text with its bytes, each of them in an output of its own. -/
theorem answers_spell (getType : Value → String) (hlt : text.length < 2 ^ 64)
    {m : List (String × Value)} (hm : m.lookup "text" = some (.string text)) (s : OperatorState) :
    ∃ s', (iterativeOperator (spellInit getType) spellStep).Answers s (.map m) (spelled text)
      (.ok s') := by
  have hinit : (iterativeOperator (spellInit getType) spellStep).init (.map m) s =
      .ok (none, ⟨some (.map m), some (spellState text (.ofNat 0))⟩) := by
    simp only [iterativeOperator, spellInit, readText, hm]
    rfl
  unfold spelled
  split_ifs with hempty
  · -- The index is behind the end after the first output, which has no finish flag.
    subst hempty
    have hsecond : spellStep (some (spellState "" (.ofNat 1))) =
      .ok (.error (.rangeError "Spell" "Index overflow"), some (spellState "" (.ofNat 1))) := rfl
    have hfirst := spellStep_of_le "" (i := 0) le_rfl (by decide)
    have hend : (iterativeOperator (spellInit getType) spellStep).Yields
        ⟨some (.map m), some (spellState "" (.ofNat 1))⟩
        [.error (.rangeError "Spell" "Index overflow")]
        (.ok ⟨some (.map m), some (spellState "" (.ofNat 1))⟩) := by
      refine .fail ?_
      simp only [iterativeOperator, hsecond]
      rfl
    refine ⟨_, .run hinit (.next ?_ hend)⟩
    simp only [iterativeOperator, hfirst]
    rfl
  · have hne : text.toList ≠ [] := fun hnil => hempty (String.toList_eq_nil_iff.mp hnil)
    exact ⟨_, .run hinit (yields_letters getType hlt rfl hne)⟩

end Spell

/-! ## Accumulators -/

section Accumulator

variable {σ ω : Type} (getType : Value → String) (e : Embedding (MethodState Accumulator) σ)

/-- The text of an input of `put`. -/
def putText : Value → Option String
  | .map m =>
    match m.lookup "s" with
    | some (.string s) => some s
    | _ => none
  | _ => none

/-- What an accumulator is: the pieces that have been put. -/
def Accumulates (compname base : String) (pieces : List String) (call : String × Value)
    (outs : List Output) (pieces' : List String) : Prop :=
  match call.1 with
  | "put" =>
    match putText call.2 with
    | some s => outs = [.ok (.map []) true] ∧ pieces' = pieces ++ [s]
    | none => (∃ e, outs = [.error e]) ∧ pieces' = pieces
  | "get" =>
    outs = [.ok (.map [("text", .string (base ++ String.join pieces))]) true] ∧ pieces' = pieces
  | "count" =>
    outs = [.ok (.map [("count", .uint (.ofNat pieces.length))]) true] ∧ pieces' = pieces
  | opname =>
    outs = [.error ⟨"Method not exists: " ++ compname ++ "." ++ opname⟩] ∧ pieces' = pieces

/-- The objects of an accumulator with these pieces. -/
def accumulated (base : String) (pieces : List String) : Accumulator :=
  ⟨base ++ String.join pieces, .ofNat pieces.length⟩

theorem accumulated_concat (base s : String) (pieces : List String) :
    accumulated base (pieces ++ [s]) =
      ⟨(accumulated base pieces).base ++ s, (accumulated base pieces).count + 1⟩ := by
  simp only [accumulated, String.join_append, String.join_cons, String.join_nil, String.append_empty,
    String.append_assoc, List.length_append, List.length_singleton, UInt64.ofNat_add]
  rfl

theorem lookup_accumulatorOps (opname : String) : (accumulatorOps getType e).lookup opname =
    if opname = "count" then some ((instantMethodOperator count).lift e)
    else if opname = "get" then some ((instantMethodOperator get).lift e)
    else if opname = "put" then some ((instantMethodOperator (put getType)).lift e)
    else none := by
  simp only [accumulatorOps, UnorderedMap.lookup_insert_eq, AList.lookup_empty]

/-- `put` adds a text, and refuses anything else. -/
theorem put_cases (acc : Accumulator) (input : Value) :
    (∃ s, putText input = some s ∧
        put getType acc (some input) = .ok (.ok (.map []), ⟨acc.base ++ s, acc.count + 1⟩)) ∨
      putText input = none ∧ ∃ e, put getType acc (some input) = .ok (.error e, acc) := by
  cases input with
  | map m =>
    cases hs : m.lookup "s" with
    | none => exact .inr ⟨by simp only [putText, hs], by simp only [put, readText, hs]; exact ⟨_, rfl⟩⟩
    | some v =>
      cases v with
      | string s =>
        exact .inl ⟨s, by simp only [putText, hs], by simp only [put, readText, hs]; rfl⟩
      | _ => exact .inr ⟨by simp only [putText, hs], by simp only [put, readText, hs]; exact ⟨_, rfl⟩⟩
  | _ => exact .inr ⟨rfl, _, rfl⟩

/-- Among the states of the VM's operators, the objects of an accumulator with these pieces. -/
def Holds (base : String) (objs : σ) (pieces : List String) : Prop :=
  ∃ s, objs = e.put s ∧ s.objs = accumulated base pieces

/-- The methods of an accumulator keep the pieces. -/
theorem accumulates_of_serves {compname base : String} {pieces : List String} {call : String × Value}
    {outs : List Output} {objs objs' : σ} (hobjs : Holds e base objs pieces)
    (h : Component.Serves compname (accumulatorOps getType e) objs call outs objs') :
    ∃ pieces', Accumulates compname base pieces call outs pieces' ∧ Holds e base objs' pieces' := by
  obtain ⟨s, rfl, hs⟩ := hobjs
  obtain ⟨opname, value⟩ := call
  unfold Component.Serves at h
  rw [lookup_accumulatorOps] at h
  dsimp only at h
  split_ifs at h with hcount hget hput
  · subst hcount
    obtain ⟨s', hanswers, rfl⟩ := (OperatorCode.answers_lift e).mp h
    obtain ⟨output, hcall, -, rfl⟩ := of_answers_instantMethodOperator hanswers
    obtain ⟨rfl, hsame⟩ := Prod.mk.inj (Except.ok.inj hcall)
    refine ⟨pieces, ⟨?_, rfl⟩, s', rfl, hsame.symm.trans hs⟩
    rw [hs]
    rfl
  · subst hget
    obtain ⟨s', hanswers, rfl⟩ := (OperatorCode.answers_lift e).mp h
    obtain ⟨output, hcall, -, rfl⟩ := of_answers_instantMethodOperator hanswers
    obtain ⟨rfl, hsame⟩ := Prod.mk.inj (Except.ok.inj hcall)
    refine ⟨pieces, ⟨?_, rfl⟩, s', rfl, hsame.symm.trans hs⟩
    rw [hs]
    rfl
  · subst hput
    obtain ⟨s', hanswers, rfl⟩ := (OperatorCode.answers_lift e).mp h
    obtain ⟨output, hcall, -, rfl⟩ := of_answers_instantMethodOperator hanswers
    rcases put_cases getType s.objs value with ⟨text, htext, hput⟩ | ⟨hnone, err, hput⟩
    · obtain ⟨rfl, hadded⟩ := Prod.mk.inj (Except.ok.inj (hcall.symm.trans hput))
      refine ⟨pieces ++ [text], ?_, s', rfl, ?_⟩
      · simp only [Accumulates, htext, and_true]
        rfl
      · rw [hadded, hs, accumulated_concat]
    · obtain ⟨rfl, hsame⟩ := Prod.mk.inj (Except.ok.inj (hcall.symm.trans hput))
      refine ⟨pieces, ?_, s', rfl, hsame.trans hs⟩
      simp only [Accumulates, hnone, and_true]
      exact ⟨err, rfl⟩
  · obtain ⟨houts, rfl⟩ := h
    refine ⟨pieces, ?_, s, rfl, hs⟩
    unfold Accumulates
    split
    · rename_i heq
      exact absurd heq hput
    · rename_i heq
      exact absurd heq hget
    · rename_i heq
      exact absurd heq hcount
    · exact ⟨houts, rfl⟩

/-- The calls that an accumulator serves are operations of the object that keeps the pieces. -/
theorem refines_accumulates (compname base : String) (l : List ((String × Value) × List Output)) :
    Refines (Component.Serves compname (accumulatorOps getType e)) (Accumulates compname base) some
      (Holds e base) l := by
  refine ⟨fun x _ hnone => ?_, fun x _ y hxy objs pieces objs' hobjs hserves => ?_⟩
  · cases hnone
  · obtain rfl := Option.some.inj hxy
    exact accumulates_of_serves getType e hobjs hserves

/-- The component that the factory makes has the base, and no pieces. -/
theorem of_accumulatorFactory {attrs : Value} {env env' : ω} {comp : Component σ}
    (h : accumulatorFactory getType e attrs env = .ok (.ok comp, env')) :
    ∃ base m, attrs = .map m ∧ m.lookup "base" = some (.string base) ∧
      comp.ops = accumulatorOps getType e ∧ Holds e base comp.objs [] := by
  unfold accumulatorFactory readText at h
  cases attrs with
  | map m =>
    dsimp only at h
    cases hbase : m.lookup "base" with
    | none =>
      rw [hbase] at h
      cases (Prod.mk.inj (Except.ok.inj h)).1
    | some v =>
      rw [hbase] at h
      cases v with
      | string base =>
        obtain ⟨hcomp, -⟩ := Prod.mk.inj (Except.ok.inj h)
        obtain rfl := Except.ok.inj hcomp
        refine ⟨base, m, rfl, hbase, rfl, _, rfl, ?_⟩
        simp only [accumulated, String.join_nil, String.append_empty]
        rfl
      | _ => cases (Prod.mk.inj (Except.ok.inj h)).1
  | _ => cases (Prod.mk.inj (Except.ok.inj h)).1

end Accumulator

end Ailoy.DebugModule
