import Ailoy.Vm.Module
import Ailoy.Vm.SplitText

/-!
# The operators of the text splitters

`split_text_by_separator_op` and `split_text_by_separators_recursively_op` of
`vm/src/split_text.cpp`. Both read their arguments from the entries of a map, with a default for all
but the text, and return the chunks under the key `chunks`. An argument of a wrong type or value is
an error output that names it. What `overlap > size` does is left to the splitters, which throw.
-/

namespace Ailoy

namespace SplitText

/-- The bytes of a `std::string` that a value holds. -/
def bytesOf (s : String) : Text := s.toList.map Char.toUInt8

/-- The `std::string` with these bytes. -/
def ofBytes (t : Text) : String := String.ofList (t.map Char.ofUInt8)

@[simp] theorem bytesOf_ofBytes (t : Text) : bytesOf (ofBytes t) = t := by
  have hbyte : ∀ b : UInt8, (Char.ofUInt8 b).toUInt8 = b := fun b => UInt8.toUInt8_toUInt32 b
  unfold bytesOf ofBytes
  rw [String.toList_ofList, List.map_map]
  exact List.map_id'' hbyte t

/-! ## Errors -/

/-- `type_error("Split Text", name, expected, actual)`. -/
def typeError (name expected actual : String) : ErrorOutput :=
  ⟨"[Split Text] Type error:\n - name: " ++ name ++ "\n - expected: " ++ expected ++
    "\n - actual: " ++ actual⟩

/-- `range_error("Split Text", name)`. -/
def rangeError (name : String) : ErrorOutput := ⟨"[Split Text] Range error: " ++ name⟩

/-- `value_error("Split Text", name, expected, actual)`. -/
def valueError (name expected actual : String) : ErrorOutput :=
  ⟨"[Split Text] Value error:\n - name: " ++ name ++ "\n - expected: " ++ expected ++
    "\n - actual: " ++ actual⟩

/-! ## Arguments -/

section Arguments

-- `get_type` of a value is `typeid(..).name()`, which is the compiler's choice.
variable (getType : Value → String)

/-- The entries of the inputs. -/
def parseInputs : Value → Except ErrorOutput (List (String × Value))
  | .map m => .ok m
  | v => .error (typeError "inputs" "map_t" (getType v))

/-- A value that has to be a string. -/
def parseString (name : String) : Value → Except ErrorOutput String
  | .string s => .ok s
  | v => .error (typeError name "string_t" (getType v))

/-- `Parse text`. -/
def parseText (m : List (String × Value)) : Except ErrorOutput Text :=
  match m.lookup "text" with
  | none => .error (rangeError "text")
  | some v => do return bytesOf (← parseString getType "text" v)

/-- A value that has to be an integer, as a `size_t`. -/
def parseInteger (name : String) : Value → Except ErrorOutput ℕ
  | .uint n => .ok n.toNat
  | .int n => .ok n.toUInt64.toNat
  | v => .error (typeError name "uint_t | int_t" (getType v))

/-- `Parse chunk size` and `Parse chunk overlap`. -/
def parseLength (name : String) (default : ℕ) (m : List (String × Value)) :
    Except ErrorOutput ℕ :=
  match m.lookup name with
  | none => .ok default
  | some v => do
    let n ← parseInteger getType name v
    if n < 1 then .error (valueError name ">= 1" (toString n)) else return n

/-- `Parse chunk size`. -/
def parseChunkSize (m : List (String × Value)) : Except ErrorOutput ℕ :=
  parseLength getType "chunk_size" 4000 m

/-- `Parse chunk overlap`. -/
def parseChunkOverlap (m : List (String × Value)) : Except ErrorOutput ℕ :=
  parseLength getType "chunk_overlap" 200 m

/-- `Parse separator`. -/
def parseSeparator (m : List (String × Value)) : Except ErrorOutput Text :=
  match m.lookup "separator" with
  | none => .ok (bytesOf "\n\n")
  | some v => do return bytesOf (← parseString getType "separator" v)

/-- The separators without the argument. -/
def defaultSeparators : List Text := [bytesOf "\n\n", bytesOf "\n", bytesOf " ", bytesOf ""]

/-- `Parse separators`. -/
def parseSeparators (m : List (String × Value)) : Except ErrorOutput (List Text) :=
  match m.lookup "separators" with
  | none => .ok defaultSeparators
  | some (.array vs) =>
    vs.mapM fun sep => do return bytesOf (← parseString getType "separators.*" sep)
  | some v => .error (typeError "separators" "array_t" (getType v))

/-- `Parse length_function`. -/
def parseLengthFunction (m : List (String × Value)) : Except ErrorOutput String :=
  match m.lookup "length_function" with
  | none => .ok "default"
  | some v => do
    let name ← parseString getType "length_function" v
    if name = "default" ∨ name = "string" then return name
    else .error (valueError "length_function" "default | string" name)

/-- The arguments of an operator, with its separator or separators. -/
structure Arguments (σ : Type) where
  text : Text
  chunkSize : ℕ
  chunkOverlap : ℕ
  separators : σ
  lengthFunction : String

/-- The arguments in the order in which they are checked. -/
def parseArguments {σ : Type} (separators : List (String × Value) → Except ErrorOutput σ)
    (inputs : Value) : Except ErrorOutput (Arguments σ) := do
  let m ← parseInputs getType inputs
  let text ← parseText getType m
  let chunkSize ← parseChunkSize getType m
  let chunkOverlap ← parseChunkOverlap getType m
  let separators ← separators m
  let lengthFunction ← parseLengthFunction getType m
  return { text, chunkSize, chunkOverlap, separators, lengthFunction }

end Arguments

/-! ## Operators -/

section Operators

variable (getType : Value → String)

/-- `Return output`. -/
def chunksOutput (chunks : List Text) : Value :=
  .map [("chunks", .array (chunks.map fun chunk => .string (ofBytes chunk)))]

/-- `split_text_by_separator_op`. -/
def splitTextBySeparatorOp (inputs : Value) : Except Fault (Except ErrorOutput Value) :=
  match parseArguments getType (parseSeparator getType) inputs with
  | .error e => .ok (.error e)
  | .ok a => do
    let chunks ←
      splitTextBySeparator a.text a.chunkSize a.chunkOverlap a.separators a.lengthFunction
    return .ok (chunksOutput chunks)

/-- `split_text_by_separators_recursively_op`. -/
def splitTextBySeparatorsRecursivelyOp (inputs : Value) :
    Except Fault (Except ErrorOutput Value) :=
  match parseArguments getType (parseSeparators getType) inputs with
  | .error e => .ok (.error e)
  | .ok a => do
    let chunks ← splitTextBySeparatorsRecursively a.text a.chunkSize a.chunkOverlap a.separators
      a.lengthFunction
    return .ok (chunksOutput chunks)

end Operators

/-! ## What the arguments are -/

section Facts

variable {getType : Value → String} {inputs : Value} {σ : Type}
  {parse : List (String × Value) → Except ErrorOutput σ} {a : Arguments σ}

/-- A length is the default or an integer that is at least one. -/
theorem one_le_of_parseLength {name : String} {default n : ℕ} {m : List (String × Value)}
    (hdefault : 1 ≤ default) (h : parseLength getType name default m = .ok n) : 1 ≤ n := by
  unfold parseLength at h
  split at h
  · rw [← Except.ok.inj h]
    exact hdefault
  · obtain ⟨k, -, hk⟩ := Except.bind_eq_ok_iff.mp h
    split_ifs at hk with hlt
    obtain rfl : k = n := Except.ok.inj hk
    exact not_lt.mp hlt

/-- A length function that is accepted is one that there is. -/
theorem name_of_parseLengthFunction {m : List (String × Value)} {name : String}
    (h : parseLengthFunction getType m = .ok name) : name = "default" ∨ name = "string" := by
  unfold parseLengthFunction at h
  split at h
  · exact .inl (Except.ok.inj h).symm
  · obtain ⟨s, -, hs⟩ := Except.bind_eq_ok_iff.mp h
    split_ifs at hs with hname
    obtain rfl : s = name := Except.ok.inj hs
    exact hname

/-- Accepted arguments pass their checks, the defaults among them. -/
theorem parseArguments_ok (h : parseArguments getType parse inputs = .ok a) :
    1 ≤ a.chunkSize ∧ 1 ≤ a.chunkOverlap ∧
      (a.lengthFunction = "default" ∨ a.lengthFunction = "string") := by
  unfold parseArguments at h
  obtain ⟨m, -, h⟩ := Except.bind_eq_ok_iff.mp h
  obtain ⟨text, -, h⟩ := Except.bind_eq_ok_iff.mp h
  obtain ⟨chunkSize, hsize, h⟩ := Except.bind_eq_ok_iff.mp h
  obtain ⟨chunkOverlap, hoverlap, h⟩ := Except.bind_eq_ok_iff.mp h
  obtain ⟨separators, -, h⟩ := Except.bind_eq_ok_iff.mp h
  obtain ⟨lengthFunction, hname, h⟩ := Except.bind_eq_ok_iff.mp h
  obtain rfl := Except.ok.inj h
  exact ⟨one_le_of_parseLength (by decide) hsize, one_le_of_parseLength (by decide) hoverlap,
    name_of_parseLengthFunction hname⟩

end Facts

end SplitText

end Ailoy
