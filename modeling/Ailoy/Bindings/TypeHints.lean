import Ailoy.Lib.FirstFault

/-!
# The schema of a type hint

`_parse_type_hint` of `bindings/python/ailoy/tools.py`. `Hint` is a hint as `get_origin` and
`get_args` show it, nested to any depth. The code reads `type` of each member of a union, so a member
without one (`Any`) is a `KeyError` that nothing catches. `Hint.faults` lists what the translation
stumbles over, in its order, and `Hint.typeEntry` is the `type` of what it returns; `parseTypeHint`
does just that (`parseTypeHint_spec`).
-/

namespace Ailoy.ToolSchema

/-! ## Data -/

/-- What `json` makes of a text, and what schemas are made of. -/
inductive PyJson
  | null
  | bool (b : Bool)
  | number (text : String)
  | str (s : String)
  | list (items : List PyJson)
  | dict (entries : List (String × PyJson))

/-- `entries[key] = value`. -/
def setItem {α : Type} (key : String) (value : α) : List (String × α) → List (String × α)
  | [] => [(key, value)]
  | kv :: entries => if kv.1 = key then (key, value) :: entries else kv :: setItem key value entries

/-- The entry of a dictionary. -/
def PyJson.get : PyJson → String → Option PyJson
  | .dict entries, key => entries.lookup key
  | _, _ => none

/-- The dictionary with an entry set. -/
def PyJson.set : PyJson → String → PyJson → PyJson
  | .dict entries, key, value => .dict (setItem key value entries)
  | j, _, _ => j

/-- A type hint. A `list` has one argument or none, as `typing.List`; the other lists of arguments are
those of `get_args`, and `None` is `type(None)`. -/
inductive Hint
  | int
  | float
  | str
  | bool
  | none
  | any
  | ellipsis
  /-- A class without arguments, such as `list`. -/
  | bare (name : String)
  | list (args : List Hint)
  | tuple (args : List Hint)
  | dict (args : List Hint)
  /-- `Union`, `Optional` and `|`. -/
  | union (args : List Hint)

/-- The exceptions that leave the functions of `tools.py`. -/
inductive PyException
  | typeHintParsing (what : String)
  | docstringParsing (what : String)
  | keyError (key : String)
  | jsonDecodeError
  | typeError
  | attributeError
  deriving DecidableEq

/-- Two of the exceptions report that a function has no schema; the others escape. -/
inductive FaultKind
  | reported
  | escaping
  deriving DecidableEq

/-- The kind of an exception. -/
def PyException.kind : PyException → FaultKind
  | .typeHintParsing _ | .docstringParsing _ => .reported
  | _ => .escaping

namespace Hint

/-- The hint is `type(None)`. -/
def isNone : Hint → Bool
  | .none => true
  | _ => false

/-- The hint is `...`. -/
def isEllipsis : Hint → Bool
  | .ellipsis => true
  | _ => false

end Hint

/-! ## The translation -/

/-- A schema with a type only. -/
def typed (type : String) : PyJson := .dict [("type", .str type)]

/-- `_get_json_schema_type`. -/
def getJsonSchemaType : Hint → PyJson
  | .int => typed "integer"
  | .float => typed "number"
  | .str => typed "string"
  | .bool => typed "boolean"
  | .none => typed "null"
  | .any => .dict []
  | _ => typed "object"

/-- `all(isinstance(subtype["type"], str) for subtype in subtypes)`. -/
def allTypesAreStr : List PyJson → Except PyException Bool
  | [] => .ok true
  | subtype :: subtypes =>
    match subtype.get "type" with
    | none => .error (.keyError "type")
    | some (.str _) => allTypesAreStr subtypes
    | some _ => .ok false

/-- `subtype["type"]` of a subtype that has a string there. -/
def typeText (subtype : PyJson) : String :=
  match subtype.get "type" with
  | some (.str type) => type
  | _ => ""

/-- The schema of a union, from the schemas of its members. -/
def unionSchema (subtypes : List PyJson) : Except PyException PyJson :=
  match subtypes with
  | [subtype] => .ok subtype
  | subtypes => do
    if ← allTypesAreStr subtypes then
      let types := (subtypes.map typeText).mergeSort (· ≤ ·)
      return .dict [("type", .list (types.map .str))]
    else return .dict [("anyOf", .list subtypes)]

section Parse

-- `str` of a hint, without `typing.`.
variable (strHint : Hint → String)

/-- The exception for a tuple with one element. -/
def singleElementTuple (hint : Hint) : PyException :=
  .typeHintParsing ("The type hint " ++ strHint hint ++ " is a Tuple with a single element, which " ++
    "we do not automatically convert to JSON schema as it is rarely necessary. If this input can " ++
    "contain more than one element, we recommend using a List[] type instead, or if it really is " ++
    "a single element, remove the Tuple[] wrapper and just pass the element directly.")

/-- The exception for a tuple of any length. -/
def variableTuple : PyException :=
  .typeHintParsing ("Conversion of '...' is not supported in Tuple type hints. " ++
    "Use List[] types for variable-length inputs instead.")

mutual

/-- `_parse_type_hint`. -/
def parseTypeHint : Hint → Except PyException PyJson
  | .union args => do
    let subtypes ← parseSubtypes args
    let returnDict ← unionSchema subtypes
    return if args.any Hint.isNone then returnDict.set "nullable" (.bool true) else returnDict
  | .list [] => return typed "array"
  | .list (arg :: _) => do
    let items ← parseTypeHint arg
    return .dict [("type", .str "array"), ("items", items)]
  | .tuple args =>
    if args.isEmpty then return typed "array"
    else if args.length = 1 then .error (singleElementTuple strHint (.tuple args))
    else if args.any Hint.isEllipsis then .error variableTuple
    else do
      let prefixItems ← parseTypeHints args
      return .dict [("type", .str "array"), ("prefixItems", .list prefixItems)]
  | .dict [_, value] => do
    let additional ← parseTypeHint value
    return .dict [("type", .str "object"), ("additionalProperties", additional)]
  | .dict _ => return typed "object"
  | hint => return getJsonSchemaType hint

/-- `_parse_type_hint` of each argument. -/
def parseTypeHints : List Hint → Except PyException (List PyJson)
  | [] => return []
  | arg :: args => do
    let schema ← parseTypeHint arg
    let schemas ← parseTypeHints args
    return schema :: schemas

/-- `_parse_type_hint` of each argument but `type(None)`. -/
def parseSubtypes : List Hint → Except PyException (List PyJson)
  | [] => return []
  | arg :: args =>
    if arg.isNone then parseSubtypes args
    else do
      let schema ← parseTypeHint arg
      let schemas ← parseSubtypes args
      return schema :: schemas

end

end Parse

/-! ## What comes of a hint -/

/-- The entry `type` of a schema. -/
inductive TypeEntry
  | missing
  | one (type : String)
  | many
  deriving DecidableEq

/-- The entry is one type. -/
def TypeEntry.isOne : TypeEntry → Bool
  | .one _ => true
  | _ => false

/-- The entry of a union: that of its only member, a list if each member has one type, and otherwise
none, since the schema is `anyOf`. -/
def unionEntry : List TypeEntry → TypeEntry
  | [entry] => entry
  | entries => if entries.all TypeEntry.isOne then .many else .missing

/-- The fault of a union: among several members, the first one that has not one type has none. -/
def unionFaults : List TypeEntry → List FaultKind
  | [_] => []
  | entries =>
    match entries.find? fun entry => !entry.isOne with
    | some .missing => [.escaping]
    | _ => []

namespace Hint

mutual

/-- The entry `type` of the schema of a hint. -/
def typeEntry : Hint → TypeEntry
  | .union args => unionEntry (typeEntries args)
  | .int => .one "integer"
  | .float => .one "number"
  | .str => .one "string"
  | .bool => .one "boolean"
  | .none => .one "null"
  | .any => .missing
  | .list _ | .tuple _ => .one "array"
  | .dict _ | .bare _ | .ellipsis => .one "object"

/-- The entries of the members of a union but `type(None)`. -/
def typeEntries : List Hint → List TypeEntry
  | [] => []
  | arg :: args => if arg.isNone then typeEntries args else arg.typeEntry :: typeEntries args

end

mutual

/-- The faults of a hint, in the order in which the translation comes upon them. -/
def faults : Hint → List FaultKind
  | .union args => memberFaults args ++ unionFaults (typeEntries args)
  | .list (arg :: _) => arg.faults
  | .tuple args =>
    if args.isEmpty then []
    else if args.length = 1 ∨ args.any isEllipsis then [.reported]
    else argFaults args
  | .dict [_, value] => value.faults
  | _ => []

/-- The faults of all arguments. -/
def argFaults : List Hint → List FaultKind
  | [] => []
  | arg :: args => arg.faults ++ argFaults args

/-- The faults of the members of a union but `type(None)`. -/
def memberFaults : List Hint → List FaultKind
  | [] => []
  | arg :: args => if arg.isNone then memberFaults args else arg.faults ++ memberFaults args

end

end Hint

/-! ## The translation does just that -/

/-- The entry `type` of a schema. -/
def PyJson.typeEntry (schema : PyJson) : TypeEntry :=
  match schema.get "type" with
  | none => .missing
  | some (.str type) => .one type
  | some _ => .many

/-- The schema is a dictionary with this entry. -/
def PyJson.HasEntry (entry : TypeEntry) (schema : PyJson) : Prop :=
  (∃ entries, schema = .dict entries) ∧ schema.typeEntry = entry

/-- The entries after one is set. -/
theorem lookup_setItem {α : Type} (entries : List (String × α)) (key key' : String) (value : α) :
    (setItem key value entries).lookup key' =
      if key' = key then some value else entries.lookup key' := by
  induction entries with
  | nil => by_cases h : key' = key <;> simp [setItem, h]
  | cons kv entries ih =>
    unfold setItem
    by_cases hkv : kv.1 = key
    · rw [if_pos hkv, List.lookup_cons, List.lookup_cons, hkv]
      by_cases h : key' = key
      · simp [h]
      · simp [h, beq_false_of_ne h]
    · rw [if_neg hkv, List.lookup_cons, List.lookup_cons, ih]
      by_cases h : key' = key
      · simp [h, beq_false_of_ne (Ne.symm hkv)]
      · simp [h]

/-- Another entry does not change the type. -/
theorem PyJson.HasEntry.set {entry : TypeEntry} {schema : PyJson} (h : schema.HasEntry entry)
    {key : String} (hkey : key ≠ "type") (value : PyJson) : (schema.set key value).HasEntry entry := by
  obtain ⟨⟨entries, rfl⟩, hentry⟩ := h
  refine ⟨⟨_, rfl⟩, ?_⟩
  have hget : (PyJson.set (.dict entries) key value).get "type" = PyJson.get (.dict entries) "type" :=
    (lookup_setItem entries key "type" value).trans (if_neg hkey.symm)
  rw [PyJson.typeEntry, hget]
  exact hentry

/-- A member without a type is a fault, unless one with several types comes before it. -/
theorem allTypesAreStr_spec (subtypes : List PyJson) :
    Except.FailsAt PyException.kind
      (match (subtypes.map PyJson.typeEntry).find? fun entry => !entry.isOne with
        | some .missing => [.escaping]
        | _ => [])
      (allTypesAreStr subtypes)
      (fun all => all = (subtypes.map PyJson.typeEntry).all TypeEntry.isOne) := by
  induction subtypes with
  | nil => exact .ok _ rfl
  | cons subtype subtypes ih =>
    have hentry : subtype.typeEntry = match subtype.get "type" with
      | none => .missing
      | some (.str type) => .one type
      | some _ => .many := rfl
    unfold allTypesAreStr
    rw [List.map_cons, List.find?_cons, List.all_cons]
    cases htype : subtype.get "type" with
    | none =>
      rw [htype] at hentry
      rw [hentry]
      exact .error PyException.kind (.keyError "type") []
    | some type =>
      cases type with
      | str type =>
        rw [htype] at hentry
        rw [hentry]
        simpa [TypeEntry.isOne] using ih
      | _ =>
        rw [htype] at hentry
        rw [hentry]
        exact .ok _ rfl

/-- The schema of several members. -/
def severalSchema (subtypes : List PyJson) (all : Bool) : PyJson :=
  if all then .dict [("type", .list (((subtypes.map typeText).mergeSort (· ≤ ·)).map .str))]
  else .dict [("anyOf", .list subtypes)]

theorem unionSchema_eq {subtypes : List PyJson} (h : subtypes.length ≠ 1) :
    unionSchema subtypes =
      allTypesAreStr subtypes >>= fun all => .ok (severalSchema subtypes all) := by
  have hbranch : ∀ subtypes : List PyJson, (do
      if ← allTypesAreStr subtypes then
        let types := (subtypes.map typeText).mergeSort (· ≤ ·)
        return .dict [("type", .list (types.map .str))]
      else return .dict [("anyOf", .list subtypes)]) =
      allTypesAreStr subtypes >>= fun all => .ok (severalSchema subtypes all) := by
    intro subtypes
    refine congrArg _ (funext fun all => ?_)
    cases all <;> rfl
  match subtypes with
  | [] => exact hbranch []
  | [_] => exact absurd rfl h
  | _ :: _ :: _ => exact hbranch _

theorem unionFaults_eq {entries : List TypeEntry} (h : entries.length ≠ 1) :
    unionFaults entries =
      match entries.find? fun entry => !entry.isOne with
      | some .missing => [.escaping]
      | _ => [] := by
  match entries with
  | [] => rfl
  | [_] => exact absurd rfl h
  | _ :: _ :: _ => rfl

theorem unionEntry_eq {entries : List TypeEntry} (h : entries.length ≠ 1) :
    unionEntry entries = if entries.all TypeEntry.isOne then .many else .missing := by
  match entries with
  | [] => rfl
  | [_] => exact absurd rfl h
  | _ :: _ :: _ => rfl

/-- What comes of a union, from what its members are. -/
theorem unionSchema_spec {subtypes : List PyJson} {entries : List TypeEntry}
    (h : List.Forall₂ PyJson.HasEntry entries subtypes) :
    Except.FailsAt PyException.kind (unionFaults entries) (unionSchema subtypes)
      (PyJson.HasEntry (unionEntry entries)) := by
  have hentries : subtypes.map PyJson.typeEntry = entries := by
    induction h with
    | nil => rfl
    | cons hentry _ ih => rw [List.map_cons, hentry.2, ih]
  by_cases hone : subtypes.length = 1
  · cases h with
    | nil => cases hone
    | cons hentry hrest =>
      obtain rfl := List.eq_nil_of_length_eq_zero (Nat.succ.inj hone)
      cases hrest
      exact .ok _ hentry
  · have hlength : entries.length ≠ 1 := h.length_eq ▸ hone
    have hall := allTypesAreStr_spec subtypes
    rw [hentries] at hall
    rw [unionSchema_eq hone, unionFaults_eq hlength, unionEntry_eq hlength]
    refine hall.map fun all hall => ?_
    rw [← hall]
    cases all with
    | true => exact ⟨⟨_, rfl⟩, rfl⟩
    | false => exact ⟨⟨_, rfl⟩, rfl⟩

section Parse

variable (strHint : Hint → String)

theorem parseTypeHints_eq (args : List Hint) :
    parseTypeHints strHint args = args.mapM (parseTypeHint strHint) := by
  induction args with
  | nil => rfl
  | cons arg args ih => rw [parseTypeHints, List.mapM_cons, ih]

theorem parseSubtypes_eq (args : List Hint) :
    parseSubtypes strHint args =
      (args.filter fun arg => !arg.isNone).mapM (parseTypeHint strHint) := by
  induction args with
  | nil => rfl
  | cons arg args ih =>
    unfold parseSubtypes
    cases hnone : arg.isNone with
    | true => simpa [hnone] using ih
    | false => simp [hnone, ih]

end Parse

namespace Hint

theorem argFaults_eq (args : List Hint) : argFaults args = args.flatMap faults := by
  induction args with
  | nil => rfl
  | cons arg args ih => rw [argFaults, List.flatMap_cons, ih]

theorem memberFaults_eq (args : List Hint) :
    memberFaults args = (args.filter fun arg => !arg.isNone).flatMap faults := by
  induction args with
  | nil => rfl
  | cons arg args ih =>
    unfold memberFaults
    cases hnone : arg.isNone with
    | true => simpa [hnone] using ih
    | false => simp [hnone, ih]

theorem typeEntries_eq (args : List Hint) :
    typeEntries args = (args.filter fun arg => !arg.isNone).map typeEntry := by
  induction args with
  | nil => rfl
  | cons arg args ih =>
    unfold typeEntries
    cases hnone : arg.isNone with
    | true => simpa [hnone] using ih
    | false => simp [hnone, ih]

/-- A union has one type only when it has one member but `None`, and then it is that of the member. -/
theorem typeEntry_union_iff {args : List Hint} {type : String} :
    (Hint.union args).typeEntry = .one type ↔
      ∃ arg, (args.filter fun arg => !arg.isNone) = [arg] ∧ arg.typeEntry = .one type := by
  rw [typeEntry, typeEntries_eq]
  constructor
  · intro h
    match hmembers : args.filter fun arg => !arg.isNone with
    | [arg] =>
      rw [hmembers] at h
      exact ⟨arg, hmembers, h⟩
    | [] | _ :: _ :: _ =>
      rw [hmembers, unionEntry_eq (by simp)] at h
      split_ifs at h
  · rintro ⟨arg, hmembers, htype⟩
    rw [hmembers]
    exact htype

/-- What holds of a hint when it holds of those without arguments, and of another one when it holds
of its arguments. -/
@[elab_as_elim]
theorem inductionOn {P : Hint → Prop} (hint : Hint) (int : P .int) (float : P .float)
    (str : P .str) (bool : P .bool) (none : P .none) (any : P .any) (ellipsis : P .ellipsis)
    (bare : ∀ name, P (.bare name)) (list : ∀ args, (∀ arg ∈ args, P arg) → P (.list args))
    (tuple : ∀ args, (∀ arg ∈ args, P arg) → P (.tuple args))
    (dict : ∀ args, (∀ arg ∈ args, P arg) → P (.dict args))
    (union : ∀ args, (∀ arg ∈ args, P arg) → P (.union args)) : P hint :=
  @Hint.rec P (fun args => ∀ arg ∈ args, P arg) int float str bool none any ellipsis bare list tuple
    dict union (fun _ h => absurd h (by simp))
    (fun _ _ harg hargs => List.forall_mem_cons.mpr ⟨harg, hargs⟩) hint

end Hint

/-- The translation of a hint fails at its first fault, and returns a schema with its type. -/
theorem parseTypeHint_spec (strHint : Hint → String) (hint : Hint) :
    Except.FailsAt PyException.kind hint.faults (parseTypeHint strHint hint)
      (PyJson.HasEntry hint.typeEntry) := by
  induction hint using Hint.inductionOn with
  | list args ih =>
    cases args with
    | nil => exact .ok _ ⟨⟨_, rfl⟩, rfl⟩
    | cons arg args =>
      refine (ih arg List.mem_cons_self).map fun items _ => ?_
      exact ⟨⟨_, rfl⟩, rfl⟩
  | tuple args ih =>
    unfold parseTypeHint Hint.faults
    by_cases hempty : args.isEmpty = true
    · rw [if_pos hempty, if_pos hempty]
      exact .ok _ ⟨⟨_, rfl⟩, rfl⟩
    rw [if_neg hempty, if_neg hempty]
    by_cases hlength : args.length = 1
    · rw [if_pos hlength, if_pos (.inl hlength)]
      exact .error PyException.kind (singleElementTuple strHint (.tuple args)) []
    rw [if_neg hlength]
    by_cases hellipsis : args.any Hint.isEllipsis = true
    · rw [if_pos hellipsis, if_pos (.inr hellipsis)]
      exact .error PyException.kind variableTuple []
    · rw [if_neg hellipsis, if_neg (not_or.mpr ⟨hlength, hellipsis⟩), Hint.argFaults_eq,
        parseTypeHints_eq]
      refine (Except.FailsAt.mapM ih).map fun items _ => ?_
      exact ⟨⟨_, rfl⟩, rfl⟩
  | dict args ih =>
    match args with
    | [_, value] =>
      refine (ih value (by simp)).map fun additional _ => ?_
      exact ⟨⟨_, rfl⟩, rfl⟩
    | [] | [_] | _ :: _ :: _ :: _ => exact .ok _ ⟨⟨_, rfl⟩, rfl⟩
  | union args ih =>
    have hmembers : Except.FailsAt PyException.kind (Hint.memberFaults args)
        (parseSubtypes strHint args) fun subtypes =>
          List.Forall₂ PyJson.HasEntry (Hint.typeEntries args) subtypes := by
      rw [Hint.memberFaults_eq, parseSubtypes_eq, Hint.typeEntries_eq]
      have hmem : ∀ arg ∈ args.filter fun arg => !arg.isNone,
          Except.FailsAt PyException.kind arg.faults (parseTypeHint strHint arg)
            (PyJson.HasEntry arg.typeEntry) := fun arg harg => ih arg (List.mem_of_mem_filter harg)
      exact (Except.FailsAt.mapM hmem).imp fun subtypes h => List.forall₂_map_left_iff.mpr h
    refine hmembers.bind fun subtypes hsubtypes => ?_
    refine (unionSchema_spec hsubtypes).map fun schema hschema => ?_
    split_ifs
    · exact hschema.set (by decide) _
    · exact hschema
  | _ => exact .ok _ ⟨⟨_, rfl⟩, rfl⟩

end Ailoy.ToolSchema
