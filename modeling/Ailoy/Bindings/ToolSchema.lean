import Ailoy.Bindings.RestTool
import Ailoy.Bindings.TypeHints
import Ailoy.Lib.Pieces

/-!
# The schema of a function

`get_json_schema` of `bindings/python/ailoy/tools.py`, and what `add_py_function_tool` of
`bindings/python/ailoy/agent.py` does with its result: it is validated as a `ToolDescription`. The
validator takes one type out of six for a parameter, and `integer` is not among them; neither does it
take a schema without a type or with several. `PyFunction.faults` lists what the generator stumbles
over, in its order, and `schemaAccepted_iff` says for which functions it reports the first of these
or comes to a schema that is accepted.
-/

namespace Ailoy.ToolSchema

/-! ## Docstrings -/

/-- `str.strip`. -/
def strip (s : List Char) : List Char := Pieces.trim pythonSpace s

/-- What stands in front of the first of the marks. -/
def beforeMark (marks : List (List Char)) : List Char → List Char
  | [] => []
  | c :: cs => if marks.any (·.isPrefixOf (c :: cs)) then [] else c :: beforeMark marks cs

/-- What stands behind a heading that has a line of its own. -/
def afterHeading (heading : List Char) : List Char → Option (List Char)
  | [] => none
  | c :: cs =>
    let line := cs.dropWhile pythonSpace
    if c = '\n' ∧ (heading ++ ['\n']).isPrefixOf line then some (line.drop (heading.length + 1))
    else afterHeading heading cs

/-- A section of a docstring, which ends at the first of the marks. -/
def sectionOf (heading : String) (marks : List String) (doc : List Char) : Option (List Char) :=
  (afterHeading heading.toList doc).map fun rest =>
    strip (beforeMark (marks.map String.toList) (rest.dropWhile pythonSpace))

/-- `re.sub(r"\s*\n+\s*", " ", ..)`, without the first `skip` characters. -/
def joinLines : ℕ → List Char → List Char
  | _, [] => []
  | skip + 1, _ :: cs => joinLines skip cs
  | 0, c :: cs =>
    let blanks := (c :: cs).takeWhile pythonSpace
    if '\n' ∈ blanks then ' ' :: joinLines (blanks.length - 1) cs else c :: joinLines 0 cs

section Arguments

-- The characters of the words of a regular expression.
variable (isWord : Char → Bool)

/-- The name of an argument with its colon, behind blanks. -/
def nameAt (s : List Char) : Option (String × List Char) :=
  let s := s.dropWhile pythonSpace
  match s.dropWhile isWord with
  | ':' :: rest =>
    if s.takeWhile isWord = [] then none else some (String.ofList (s.takeWhile isWord), rest)
  | _ => none

/-- The description of an argument, and what stands behind it from the name of the next one on. -/
def takeContent : List Char → List Char × List Char
  | [] => ([], [])
  | c :: cs =>
    let blanks := (c :: cs).takeWhile pythonSpace
    let rest := (c :: cs).dropWhile pythonSpace
    if rest = [] ∨ '\n' ∈ blanks ∧ (nameAt isWord rest).isSome then ([], rest)
    else
      let (content, next) := takeContent cs
      (c :: content, next)

/-- The text from the first argument on. -/
def skipToArgument : List Char → List Char
  | [] => []
  | c :: cs => if c = '\n' ∧ (nameAt isWord cs).isSome then cs else skipToArgument cs

/-- The arguments with their descriptions. Each takes a character at least, so the length of the
text is enough for `fuel`. -/
def argumentsFrom : ℕ → List Char → List (String × List Char)
  | 0, _ => []
  | fuel + 1, s =>
    match nameAt isWord s with
    | none => []
    | some (name, rest) =>
      let (content, next) := takeContent isWord (rest.dropWhile pythonSpace)
      (name, content) :: argumentsFrom fuel next

/-- What `args_split_re` finds, as a dictionary. -/
def readArguments (block : List Char) : List (String × List Char) :=
  let lines := (block.splitOn '\n').filter fun line => !line.all pythonSpace
  let s := ['\n'].intercalate lines
  let first := if (nameAt isWord s).isSome then s else skipToArgument isWord s
  (argumentsFrom isWord s.length first).foldl
    (fun args arg => setItem arg.1 (joinLines 0 (strip arg.2)) args) []

/-- The parts of a docstring. -/
structure Docstring where
  description : List Char
  args : List (String × List Char)
  returns : Option (List Char)

/-- `parse_google_format_docstring`. -/
def parseGoogleFormatDocstring (doc : List Char) : Docstring where
  description := strip (beforeMark (["Args:", "Returns:", "Raises:"].map String.toList) doc)
  args :=
    match sectionOf "Args:" ["Returns:", "Raises:"] doc with
    | some block => readArguments isWord block
    | none => []
  returns := sectionOf "Returns:" ["Raises:"] doc

end Arguments

/-- A letter as `re.IGNORECASE` compares it. -/
def foldCase (c : Char) : Char :=
  if c = 'ſ' then 's' else if c = 'ı' ∨ c = 'İ' then 'i' else c.toLower

/-- What stands in front of and behind the first `(choices:`. -/
def findChoices : List Char → Option (List Char × List Char)
  | [] => none
  | c :: cs =>
    if "(choices:".toList.isPrefixOf ((c :: cs).map foldCase) then some ([], (c :: cs).drop 9)
    else (findChoices cs).map fun p => (c :: p.1, p.2)

/-- The choices at the end of a description, and what stands in front of them. -/
def enumChoices (desc : List Char) : Option (List Char × List Char) :=
  let desc := desc.rdropWhile pythonSpace
  if desc.getLast? = some ')' then
    (findChoices desc.dropLast).map fun p => (strip p.1, p.2.dropWhile pythonSpace)
  else none

/-! ## The generator -/

/-- A parameter of a function. -/
structure PyParam where
  name : String
  hint : Option Hint
  hasDefault : Bool

/-- A function, with what `inspect.getdoc` and `get_type_hints` know of it. No parameter is called
`return`, so the hint of the result stands apart. -/
structure PyFunction where
  name : String
  doc : Option String
  params : List PyParam
  returns : Option Hint

/-- What the generator takes from Python: `str` of a hint, the characters of words, and `json.loads`,
unless it raises an exception. -/
structure PyLibrary where
  strHint : Hint → String
  isWord : Char → Bool
  loads : String → Option PyJson

/-- The parameters that have a type hint. -/
def PyFunction.typeHints (f : PyFunction) : List (String × Hint) :=
  f.params.filterMap fun p => p.hint.map fun hint => (p.name, hint)

/-- What `_convert_type_hints_to_json_schema` returns: the entry `return` of the properties stands
apart. -/
structure HintsSchema where
  properties : List (String × PyJson)
  returns : Option PyJson
  required : List String

section Generator

variable (lib : PyLibrary)

/-- The check of a parameter of the signature. -/
def checkParam (funcName : String) (p : PyParam) : Except PyException PyParam :=
  match p.hint with
  | none => .error (.typeHintParsing
      ("Argument " ++ p.name ++ " is missing a type hint in function " ++ funcName))
  | some _ => .ok p

/-- `_convert_type_hints_to_json_schema`. -/
def convertTypeHintsToJsonSchema (f : PyFunction) : Except PyException HintsSchema := do
  let params ← f.params.mapM (checkParam f.name)
  let properties ← f.typeHints.mapM fun h => do
    let schema ← parseTypeHint lib.strHint h.2
    return (h.1, schema)
  let returns ← f.returns.toList.mapM (parseTypeHint lib.strHint)
  return { properties, returns := returns.head?
           required := (params.filter fun p => !p.hasDefault).map PyParam.name }

/-- `c.strip()` of an element of the choices. -/
def stripChoice : PyJson → Except PyException PyJson
  | .str s => .ok (.str (String.ofList (strip s.toList)))
  | _ => .error .attributeError

/-- `[c.strip() for c in json.loads(text)]`. -/
def readChoices (text : List Char) : Except PyException (List PyJson) :=
  match lib.loads (String.ofList text) with
  | none => .error .jsonDecodeError
  | some (.list items) => items.mapM stripChoice
  | some (.str s) => (s.toList.map fun c => .str (String.singleton c)).mapM stripChoice
  | some (.dict entries) => (entries.map fun kv => .str kv.1).mapM stripChoice
  | some _ => .error .typeError

/-- The schema of a parameter with its choices and its description. -/
def describeProperty (funcName : String) (descriptions : List (String × List Char))
    (property : String × PyJson) : Except PyException (String × PyJson) :=
  match descriptions.lookup property.1 with
  | none => .error (.docstringParsing ("Cannot generate JSON schema for " ++ funcName ++
      " because the docstring has no description for the argument '" ++ property.1 ++ "'"))
  | some desc =>
    match enumChoices desc with
    | none => .ok (property.1, property.2.set "description" (.str (String.ofList desc)))
    | some (desc, text) => do
      let choices ← readChoices lib text
      return (property.1, (property.2.set "enum" (.list choices)).set "description"
        (.str (String.ofList desc)))

/-- The schema of the result, with its description if there is one. -/
def returnSchema (returnDoc : Option (List Char)) (schema : PyJson) : PyJson :=
  match returnDoc with
  | none => schema
  | some doc => schema.set "description" (.str (String.ofList doc))

/-- The schema of a function from its parts. -/
def functionSchema (name : String) (description : List Char) (properties : List (String × PyJson))
    (required : List String) (returns : Option PyJson) : PyJson :=
  let parameters := [("type", .str "object"), ("properties", .dict properties)] ++
    if required = [] then [] else [("required", .list (required.map .str))]
  let output := [("name", .str name), ("description", .str (String.ofList description)),
    ("parameters", .dict parameters)] ++ returns.toList.map fun schema => ("return", schema)
  .dict [("type", .str "function"), ("function", .dict output)]

/-- `get_json_schema`. -/
def getJsonSchema (f : PyFunction) : Except PyException PyJson :=
  match f.doc.filter (· ≠ "") with
  | none => .error (.docstringParsing
      ("Cannot generate JSON schema for " ++ f.name ++ " because it has no docstring!"))
  | some doc => do
    let docstring := parseGoogleFormatDocstring lib.isWord (strip doc.toList)
    let schema ← convertTypeHintsToJsonSchema lib f
    let properties ← schema.properties.mapM (describeProperty lib f.name docstring.args)
    return functionSchema f.name docstring.description properties schema.required
      (schema.returns.map (returnSchema docstring.returns))

end Generator

/-! ## The agent -/

/-- The types that a `ToolParametersProperty` can have. -/
def propertyTypes : List String := ["string", "number", "boolean", "object", "array", "null"]

/-- A field that has to be a string. -/
def isStr : Option PyJson → Bool
  | some (.str _) => true
  | _ => false

/-- A field that may be left out or `None`. -/
def isOptional (check : PyJson → Bool) : Option PyJson → Bool
  | none | some .null => true
  | some j => check j

/-- The validation of a `ToolParametersProperty`. -/
def isToolParametersProperty : PyJson → Bool
  | .dict entries =>
    (match entries.lookup "type" with
      | some (.str type) => propertyTypes.contains type
      | _ => false) &&
    isOptional (fun j => isStr (some j)) (entries.lookup "description")
  | _ => false

/-- The validation of a list of strings. -/
def isStrList : PyJson → Bool
  | .list items => items.all fun j => isStr (some j)
  | _ => false

/-- The validation of `ToolParameters`. -/
def isToolParameters : PyJson → Bool
  | .dict entries =>
    (match entries.lookup "type" with
      | some (.str type) => type == "object"
      | _ => false) &&
    (match entries.lookup "properties" with
      | some (.dict properties) => properties.all fun kv => isToolParametersProperty kv.2
      | _ => false) &&
    isOptional isStrList (entries.lookup "required")
  | _ => false

/-- The validation of a dictionary. -/
def isDict : PyJson → Bool
  | .dict _ => true
  | _ => false

/-- `ToolDescription.model_validate`, which knows `return_type` by its alias too. -/
def isToolDescription : PyJson → Bool
  | .dict entries =>
    isStr (entries.lookup "name") && isStr (entries.lookup "description") &&
    (match entries.lookup "parameters" with
      | some parameters => isToolParameters parameters
      | none => false) &&
    isOptional isDict ((entries.lookup "return").or (entries.lookup "return_type"))
  | _ => false

/-- A `Tool` of an agent. -/
structure Tool where
  desc : PyJson

/-- `t.desc.name`. -/
def Tool.name (tool : Tool) : Option PyJson := tool.desc.get "name"

/-- The exceptions of `add_py_function_tool`. -/
inductive AddException
  | valueError (e : PyException)
  | validationError
  | raised (e : PyException)

/-- `ToolDescription.model_validate`, as it is called. -/
def modelValidate (desc : PyJson) : Except AddException PyJson :=
  if isToolDescription desc then .ok desc else .error .validationError

/-- The name of a tool in the list. -/
def sameName (tool tool' : Tool) : Bool :=
  match tool.name, tool'.name with
  | some (.str name), some (.str name') => name == name'
  | _, _ => false

/-- `add_tool`. -/
def addTool (tools : List Tool) (tool : Tool) : List Tool :=
  if tools.any (sameName tool) then tools else tools ++ [tool]

/-- `add_py_function_tool`, with the tools of the agent. -/
def addPyFunctionTool (lib : PyLibrary) (tools : List Tool) (f : PyFunction)
    (desc : Option PyJson) : Except AddException (List Tool) := do
  let toolDescription ←
    match desc with
    | some desc => modelValidate desc
    | none =>
      match getJsonSchema lib f with
      | .error e =>
        match e.kind with
        | .reported => .error (.valueError e)
        | .escaping => .error (.raised e)
      | .ok schema => modelValidate ((schema.get "function").getD (.dict []))
  return addTool tools ⟨toolDescription⟩

/-! ## What the generator has to do -/

/-- The generator reports that there is no schema, or its schema is accepted and the function becomes
a tool. -/
def SchemaAccepted (lib : PyLibrary) (f : PyFunction) : Prop :=
  (∃ e, getJsonSchema lib f = .error e ∧ e.kind = .reported) ∨
  ∃ schema desc, getJsonSchema lib f = .ok schema ∧ schema.get "function" = some desc ∧
    isToolDescription desc = true ∧
    ∀ tools, ∃ tools', addPyFunctionTool lib tools f none = .ok tools' ∧
      ∃ tool ∈ tools', tool.name = some (.str f.name)

/-- The choices that can be read: a list of strings, or what else gives strings one by one. -/
def IsChoices : Option PyJson → Bool
  | some (.list items) => items.all fun j => isStr (some j)
  | some (.str _) | some (.dict _) => true
  | _ => false

section Faults

variable (lib : PyLibrary) (f : PyFunction)

/-- The fault of a parameter in its docstring: there is no description, or its choices cannot be
read. -/
def propertyFaults (descriptions : List (String × List Char)) (name : String) : List FaultKind :=
  match descriptions.lookup name with
  | none => [.reported]
  | some desc =>
    match enumChoices desc with
    | none => []
    | some (_, text) => if IsChoices (lib.loads (String.ofList text)) then [] else [.escaping]

/-- The faults of a function, in the order in which the generator comes upon them: the docstring, the
parameters without a hint, the faults of the hints, and those of the descriptions. -/
def PyFunction.faults : List FaultKind :=
  match f.doc.filter (· ≠ "") with
  | none => [.reported]
  | some doc =>
    ((f.params.flatMap fun p => if p.hint.isNone then [.reported] else []) ++
      ((f.typeHints.flatMap fun h => h.2.faults) ++ f.returns.toList.flatMap Hint.faults)) ++
    f.typeHints.flatMap fun h =>
      propertyFaults lib (parseGoogleFormatDocstring lib.isWord (strip doc.toList)).args h.1

end Faults

/-! ## The generator fails at the first fault -/

open Except (FailsAt)

theorem checkParam_spec (funcName : String) (p : PyParam) :
    FailsAt PyException.kind (if p.hint.isNone then [.reported] else [])
      (checkParam funcName p) fun _ => True := by
  unfold checkParam
  cases p.hint with
  | none => exact .error PyException.kind (.typeHintParsing _) []
  | some hint => exact .ok _ trivial

/-- The properties have the types of the hints, in their order. -/
theorem convertTypeHintsToJsonSchema_spec (lib : PyLibrary) (f : PyFunction) :
    FailsAt PyException.kind
      ((f.params.flatMap fun p => if p.hint.isNone then [.reported] else []) ++
        ((f.typeHints.flatMap fun h => h.2.faults) ++ f.returns.toList.flatMap Hint.faults))
      (convertTypeHintsToJsonSchema lib f)
      fun schema => List.Forall₂ (fun h kv => kv.1 = h.1 ∧ PyJson.HasEntry h.2.typeEntry kv.2)
        f.typeHints schema.properties ∧ ∀ r ∈ schema.returns, ∃ entries, r = .dict entries := by
  refine (FailsAt.mapM fun p _ => checkParam_spec f.name p).bind fun params _ => ?_
  have hproperty : ∀ h ∈ f.typeHints, FailsAt PyException.kind h.2.faults
      (parseTypeHint lib.strHint h.2 >>= fun schema => .ok (h.1, schema))
      fun kv => kv.1 = h.1 ∧ PyJson.HasEntry h.2.typeEntry kv.2 := fun h _ =>
    (parseTypeHint_spec lib.strHint h.2).map fun schema hschema => ⟨rfl, hschema⟩
  refine (FailsAt.mapM hproperty).bind fun properties hproperties => ?_
  refine (FailsAt.mapM fun h _ => parseTypeHint_spec lib.strHint h).map fun returns hreturns => ?_
  refine ⟨hproperties, fun r hr => ?_⟩
  generalize f.returns.toList = hints at hreturns
  cases hreturns with
  | nil => cases hr
  | cons hentry _ =>
    obtain rfl := Option.some.inj hr
    exact hentry.1

/-- The choices are read when they are strings. -/
theorem readChoices_spec (lib : PyLibrary) (text : List Char) :
    FailsAt PyException.kind
      (if IsChoices (lib.loads (String.ofList text)) then [] else [.escaping])
      (readChoices lib text) fun _ => True := by
  have hitems : ∀ items : List PyJson, FailsAt PyException.kind
      (if items.all fun j => isStr (some j) then [] else [.escaping])
      (items.mapM stripChoice) fun _ => True := by
    intro items
    induction items with
    | nil => exact .ok _ trivial
    | cons j items ih =>
      rw [List.mapM_cons, List.all_cons]
      cases j with
      | str s => exact ih.map fun _ _ => trivial
      | _ => exact .error PyException.kind .attributeError []
  unfold readChoices
  cases lib.loads (String.ofList text) with
  | none => exact .error PyException.kind .jsonDecodeError []
  | some j =>
    cases j with
    | list items => exact hitems items
    | str s =>
      have hchars := hitems (s.toList.map fun c => .str (String.singleton c))
      simpa [IsChoices, isStr] using hchars
    | dict entries =>
      have hkeys := hitems (entries.map fun kv => .str kv.1)
      simpa [IsChoices, isStr] using hkeys
    | _ => exact .error PyException.kind .typeError []

/-- The schema has a type of this kind and a description. -/
def PyJson.Described (entry : TypeEntry) (schema : PyJson) : Prop :=
  schema.HasEntry entry ∧ ∃ s, schema.get "description" = some (.str s)

/-- A schema is described once the description is set. -/
theorem PyJson.HasEntry.described {entry : TypeEntry} {schema : PyJson} (h : schema.HasEntry entry)
    (desc : String) : (schema.set "description" (.str desc)).Described entry := by
  refine ⟨h.set (by decide) _, desc, ?_⟩
  obtain ⟨⟨entries, rfl⟩, -⟩ := h
  exact (lookup_setItem entries _ _ _).trans (if_pos rfl)

theorem describeProperty_spec (lib : PyLibrary) (funcName : String)
    (descriptions : List (String × List Char)) (property : String × PyJson) :
    FailsAt PyException.kind (propertyFaults lib descriptions property.1)
      (describeProperty lib funcName descriptions property)
      fun kv => ∀ entry, property.2.HasEntry entry → kv.2.Described entry := by
  unfold describeProperty propertyFaults
  cases descriptions.lookup property.1 with
  | none => exact .error PyException.kind (.docstringParsing _) []
  | some desc =>
    dsimp only
    cases enumChoices desc with
    | none => exact .ok _ fun entry h => h.described _
    | some p =>
      refine (readChoices_spec lib p.2).map fun choices _ => ?_
      exact fun entry h => (h.set (by decide) _).described _

theorem returnSchema_dict (returnDoc : Option (List Char)) (entries : List (String × PyJson)) :
    ∃ entries', returnSchema returnDoc (.dict entries) = .dict entries' := by
  cases returnDoc with
  | none => exact ⟨entries, rfl⟩
  | some doc => exact ⟨_, rfl⟩

/-- What the generator returns for a function. -/
def Generated (f : PyFunction) (schema : PyJson) : Prop :=
  ∃ description properties required returns,
    schema = functionSchema f.name description properties required returns ∧
    (∀ r ∈ returns, ∃ entries, r = .dict entries) ∧
    List.Forall₂ (fun h kv => PyJson.Described (Hint.typeEntry h.2) (Prod.snd kv)) f.typeHints
      properties

/-- The generator fails at the first fault of a function. -/
theorem getJsonSchema_spec (lib : PyLibrary) (f : PyFunction) :
    FailsAt PyException.kind (f.faults lib) (getJsonSchema lib f) (Generated f) := by
  unfold PyFunction.faults getJsonSchema
  cases f.doc.filter (· ≠ "") with
  | none => exact .error PyException.kind (.docstringParsing _) []
  | some doc =>
    refine (convertTypeHintsToJsonSchema_spec lib f).bind fun schema hschema => ?_
    obtain ⟨hproperties, hreturns⟩ := hschema
    have hfaults : (f.typeHints.flatMap fun h => propertyFaults lib
        (parseGoogleFormatDocstring lib.isWord (strip doc.toList)).args h.1) =
        schema.properties.flatMap fun kv => propertyFaults lib
          (parseGoogleFormatDocstring lib.isWord (strip doc.toList)).args kv.1 :=
      hproperties.flatMap_eq fun h kv hkv => by rw [hkv.1]
    rw [hfaults]
    refine (FailsAt.mapM fun kv _ => describeProperty_spec lib f.name _ kv).map
      fun properties hdescribed => ⟨_, properties, _, _, rfl, ?_, ?_⟩
    · intro r hr
      obtain ⟨r', hr', rfl⟩ := Option.map_eq_some_iff.mp hr
      obtain ⟨entries, rfl⟩ := hreturns r' hr'
      exact returnSchema_dict _ entries
    · exact hproperties.comp hdescribed fun h kv kd hkv hkd => hkd _ hkv.2

/-- A property is accepted when it has one of the types that the agent knows. -/
theorem isToolParametersProperty_iff {entry : TypeEntry} {schema : PyJson}
    (h : schema.Described entry) :
    isToolParametersProperty schema = true ↔ ∃ t ∈ propertyTypes, entry = .one t := by
  obtain ⟨⟨⟨entries, rfl⟩, rfl⟩, desc, hdesc⟩ := h
  have hget : ∀ key, PyJson.get (.dict entries) key = entries.lookup key := fun _ => rfl
  rw [hget] at hdesc
  rw [isToolParametersProperty, hdesc, PyJson.typeEntry, hget]
  cases entries.lookup "type" with
  | none => simp
  | some type => cases type <;> simp [isOptional, isStr]

/-- The parameters of a generated schema are accepted when their properties are. -/
theorem isToolParameters_eq (properties : List (String × PyJson)) (required : List String) :
    isToolParameters (.dict ([("type", .str "object"), ("properties", .dict properties)] ++
      if required = [] then [] else [("required", .list (required.map .str))])) =
      properties.all fun kv => isToolParametersProperty kv.2 := by
  by_cases h : required = []
  · simp [isToolParameters, isOptional, List.lookup_cons, h]
  · simp [isToolParameters, isOptional, isStrList, isStr, List.lookup_cons, h]

/-- The schema is accepted when each parameter has one of the types that the agent knows. -/
theorem isToolDescription_iff {f : PyFunction} {schema desc : PyJson} (h : Generated f schema)
    (hdesc : schema.get "function" = some desc) :
    desc.get "name" = some (.str f.name) ∧ (isToolDescription desc = true ↔
      ∀ hint ∈ f.typeHints, ∃ t ∈ propertyTypes, hint.2.typeEntry = .one t) := by
  obtain ⟨description, properties, required, returns, rfl, hreturns, hproperties⟩ := h
  have hall := hproperties.forall_iff fun hint kv hkv => (isToolParametersProperty_iff hkv).symm
  obtain rfl := Option.some.inj hdesc
  refine ⟨rfl, ?_⟩
  rw [hall, ← List.all_eq_true, ← isToolParameters_eq properties required]
  cases returns with
  | none => simp [isToolDescription, isStr, isOptional, List.lookup_cons]
  | some r =>
    obtain ⟨entries, rfl⟩ := hreturns r rfl
    simp [isToolDescription, isStr, isOptional, isDict, List.lookup_cons]

/-- A tool that is added is there afterwards, or one with its name is. -/
theorem exists_mem_addTool (tools : List Tool) {tool : Tool} {name : String}
    (h : tool.name = some (.str name)) :
    ∃ tool' ∈ addTool tools tool, tool'.name = some (.str name) := by
  unfold addTool
  split_ifs with hany
  · obtain ⟨tool', hmem, hsame⟩ := List.any_eq_true.mp hany
    refine ⟨tool', hmem, ?_⟩
    unfold sameName at hsame
    rw [h] at hsame
    split at hsame
    · rename_i n n' hn hn'
      cases hn
      rw [hn', beq_iff_eq.mp hsame]
    · cases hsame
  · exact ⟨tool, by simp, h⟩

theorem addPyFunctionTool_eq {lib : PyLibrary} {f : PyFunction} {schema desc : PyJson}
    (hschema : getJsonSchema lib f = .ok schema) (hdesc : schema.get "function" = some desc)
    (hvalid : isToolDescription desc = true) (tools : List Tool) :
    addPyFunctionTool lib tools f none = .ok (addTool tools ⟨desc⟩) := by
  simp only [addPyFunctionTool, hschema, hdesc, Option.getD_some, modelValidate, if_pos hvalid]
  rfl

/-- The generator does what it has to for exactly these functions: those whose first fault is one that
it reports, and those without a fault all of whose parameters have a type that the agent knows. -/
theorem schemaAccepted_iff (lib : PyLibrary) (f : PyFunction) :
    SchemaAccepted lib f ↔ (f.faults lib).head? = some .reported ∨
      f.faults lib = [] ∧ ∀ hint ∈ f.typeHints, ∃ t ∈ propertyTypes, hint.2.typeEntry = .one t := by
  have hspec := getJsonSchema_spec lib f
  rw [hspec.head?_eq_some_iff]
  refine or_congr_right ?_
  constructor
  · rintro ⟨schema, desc, hschema, hdesc, hvalid, -⟩
    rcases hspec with ⟨hnone, schema', hok, hgenerated⟩ | ⟨_, _, e, -, herror, -⟩
    · rw [hschema] at hok
      cases hok
      exact ⟨hnone, (isToolDescription_iff hgenerated hdesc).2.mp hvalid⟩
    · rw [hschema] at herror
      cases herror
  · rintro ⟨hnone, htypes⟩
    rcases hspec with ⟨-, schema, hschema, hgenerated⟩ | ⟨_, _, _, hcons, -, -⟩
    · have hdesc : ∃ desc, schema.get "function" = some desc := by
        obtain ⟨_, _, _, _, rfl, -, -⟩ := hgenerated
        exact ⟨_, rfl⟩
      obtain ⟨desc, hdesc⟩ := hdesc
      obtain ⟨hname, hiff⟩ := isToolDescription_iff hgenerated hdesc
      have hvalid := hiff.mpr htypes
      exact ⟨schema, desc, hschema, hdesc, hvalid, fun tools =>
        ⟨_, addPyFunctionTool_eq hschema hdesc hvalid tools, exists_mem_addTool tools hname⟩⟩
    · rw [hnone] at hcons
      cases hcons

/-- A function with a described parameter of type `int`. -/
def square : PyFunction :=
  ⟨"square", some "Squares.\n\nArgs:\n    x: A number", [⟨"x", some .int, false⟩], some .int⟩

/-- Nothing that is said of `square` is wrong, and its schema is not accepted. -/
theorem square_not_accepted :
    ¬ SchemaAccepted ⟨fun _ => "", Char.isAlphanum, fun _ => none⟩ square := by
  have hnone : square.faults ⟨fun _ => "", Char.isAlphanum, fun _ => none⟩ = [] := by decide
  rintro (⟨e, he, -⟩ | ⟨schema, desc, hschema, hdesc, hvalid, -⟩)
  · rcases getJsonSchema_spec ⟨fun _ => "", Char.isAlphanum, fun _ => none⟩ square with
      ⟨-, schema, hok, -⟩ | ⟨_, _, _, hcons, -, -⟩
    · rw [he] at hok
      cases hok
    · rw [hnone] at hcons
      cases hcons
  · rcases getJsonSchema_spec ⟨fun _ => "", Char.isAlphanum, fun _ => none⟩ square with
      ⟨-, schema', hok, hgenerated⟩ | ⟨_, _, e, hcons, -, -⟩
    · rw [hschema] at hok
      cases hok
      obtain ⟨t, ht, htype⟩ := (isToolDescription_iff hgenerated hdesc).2.mp hvalid ("x", .int)
        (by simp [square, PyFunction.typeHints])
      cases htype
      exact absurd ht (by decide)
    · rw [hnone] at hcons
      cases hcons

end Ailoy.ToolSchema
