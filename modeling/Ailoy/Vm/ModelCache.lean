import Ailoy.Lib.FileTree
import Ailoy.Vm.OpenAi
import Mathlib.Logic.Relation

/-!
# The cache of models

`get_model_base_path`, `list_local_models` and `remove_model` of `vm/src/mlc_llm/model_cache.cpp`, on
a file system with the paths of POSIX. An id becomes the name of a directory by writing each slash as
two dashes, and a name is read back by writing two dashes as a slash. Nothing keeps an id from being
empty, `.` or `..`, and two ids can have one name. `modelCache_isolated_iff` says which ids have
directories of their own, and which downloaded models are listed under their id.
-/

namespace Ailoy

open FileTree

/-! ## Paths -/

/-- `"tvm-models"`. -/
def tvmModels : List Char := "tvm-models".toList

theorem tvmModels_isName : IsName tvmModels := by decide

/-- `cache_root / "tvm-models"`. -/
def tvmLocation (root : Location) : Location := root ++ [⟨tvmModels, tvmModels_isName⟩]

/-- `std::regex_replace(model_id, std::regex("/"), "--")`. -/
def escapeId (modelId : List Char) : List Char :=
  modelId.flatMap fun c => if c = '/' then ['-', '-'] else [c]

/-- `std::regex_replace(model_id, std::regex("--"), "/")`. -/
def unescapeId : List Char → List Char
  | '-' :: '-' :: cs => '/' :: unescapeId cs
  | c :: cs => c :: unescapeId cs
  | [] => []

/-- `get_model_base_path`. -/
def getModelBasePath (modelId : List Char) : List Char := joinPath tvmModels (escapeId modelId)

/-- The directory of a model in the cache. -/
def modelLocation (root : Location) (modelId : List Char) : Location :=
  locate root (getModelBasePath modelId)

/-! ## Listing -/

/-- `model_cache_list_result_t`, whose attributes are the quantization and the device. -/
structure ListResult where
  modelType : String
  modelId : List Char
  quantization : List Char
  device : List Char
  modelPath : Location
  totalBytes : ℕ

/-- The device in the name of a manifest file. -/
def manifestDevice (filename : List Char) : Option (List Char) :=
  if "manifest-".toList.isPrefixOf filename && ".json".toList.isSuffixOf filename then
    match ((filename.take (filename.length - 5)).drop 9).splitOn '-' with
    | [_, _, device] => some device
    | _ => none
  else none

/-- The directories in a directory. -/
def subdirectories (t : FileTree) (l : Location) : List Name :=
  (children t l).filter fun n => t.lookup (l ++ [n]) = some .directory

/-- What a file holds. -/
def readFile (t : FileTree) (l : Location) : Option (List UInt8) :=
  match t.lookup l with
  | some (.file content) => some content
  | _ => none

/-- The bytes of a file that a manifest lists. -/
def pairBytes (t : FileTree) (quantDir : Location) : Json → Except Fault ℕ
  | .array (name :: _) => do
    let file ← name.getString
    return ((readFile t (locate quantDir file.toList)).map List.length).getD 0
  | _ => .ok 0

/-- The bytes of all files that a manifest lists. -/
def manifestBytes (t : FileTree) (quantDir : Location) (manifest : Json) : Except Fault ℕ :=
  match manifest.find "files" with
  | some (.array pairs) => do
    let sizes ← pairs.mapM (pairBytes t quantDir)
    return sizes.sum
  | _ => .ok 0

section Listing

-- What `>>` reads of a stream, unless it throws.
variable (parse : List UInt8 → Option Json) (t : FileTree) (root : Location)

/-- What is listed for an entry of the directory of a quantization. -/
def entryResult (model quant file : Name) : Except Fault (Option ListResult) :=
  let quantDir := tvmLocation root ++ [model, quant]
  match readFile t (quantDir ++ [file]), manifestDevice file.1 with
  | some content, some device =>
    match parse content with
    | some manifest => do
      let totalBytes ← manifestBytes t quantDir manifest
      return some ⟨"tvm", unescapeId model.1, quant.1, device, quantDir, totalBytes⟩
    | none => .ok none
  | _, _ => .ok none

/-- The entries that are looked at, with the names on the way to them. -/
def cacheEntries : List (Name × Name × Name) :=
  (subdirectories t (tvmLocation root)).flatMap fun model =>
    (subdirectories t (tvmLocation root ++ [model])).flatMap fun quant =>
      (children t (tvmLocation root ++ [model, quant])).map fun file => (model, quant, file)

/-- `list_local_models`. -/
def listLocalModels : Except Fault (List ListResult) :=
  match t.lookup (tvmLocation root) with
  | none => .ok []
  | some (.file _) => .error (.exception "directory iterator cannot open directory")
  | some .directory => do
    let results ← (cacheEntries t root).mapM fun e => entryResult parse t root e.1 e.2.1 e.2.2
    return results.filterMap id

end Listing

/-! ## Removing -/

/-- `model_cache_remove_result_t`, with the path relative to the root of the cache. -/
structure RemoveResult where
  success : Bool
  skipped : Bool
  modelPath : Option (List Char)
  errorMessage : Option String

/-- The answer to the prompt, from what is read until it is one or the input ends. -/
def askPrompt : List String → Bool
  | [] => false
  | answer :: answers =>
    if answer.toLower = "y" then true
    else if answer.toLower = "n" then false
    else askPrompt answers

/-- `fs::remove_all`. What is below `.` or `..` is removed, and then these themselves cannot be. -/
def removeAllPath (t : FileTree) (root : Location) (path : List Char) :
    FileTree × Except Fault Unit :=
  if ((untilNul path).splitOn '/').getLast? ∈ [some ['.'], some ['.', '.']] then
    (removeBelow t (locate root path), .error (.exception "cannot remove all"))
  else (removeAll t (locate root path), .ok ())

/-- `fs::exists` of the path of a model. No path leads through `tvm-models` unless that is a
directory. -/
def modelExists (t : FileTree) (root : Location) (modelId : List Char) : Bool :=
  t.lookup (tvmLocation root) = some .directory && (t.lookup (modelLocation root modelId)).isSome

/-- `remove_model`, with what is typed at the prompt. -/
def removeModel (t : FileTree) (root : Location) (modelId : List Char) (prompt : Bool)
    (answers : List String) : FileTree × Except Fault RemoveResult :=
  let modelPath := getModelBasePath modelId
  if !modelExists t root modelId then
    (t, .ok ⟨false, false, none, some ("The model id \"" ++ String.ofList modelId ++
      "\" does not exist in local cache")⟩)
  else if prompt && !askPrompt answers then (t, .ok ⟨true, true, some modelPath, none⟩)
  else
    let (t, removed) := removeAllPath t root modelPath
    (t, do
      removed
      return ⟨true, false, some modelPath, none⟩)

/-! ## What the cache has to do -/

/-- One slash is written as two dashes. -/
inductive Dashed : List Char → List Char → Prop
  | slash (front back : List Char) : Dashed (front ++ '/' :: back) (front ++ '-' :: '-' :: back)

/-- The ids are alike up to slashes that are written as two dashes. -/
def Confusable (a b : List Char) : Prop := Relation.EqvGen Dashed (untilNul a) (untilNul b)

/-- The id has a name: up to its first NUL it is not empty, `.` or `..`. -/
def ProperId (modelId : List Char) : Prop := untilNul modelId ∉ [[], ['.'], ['.', '.']]

instance : DecidablePred ProperId := fun _ => inferInstanceAs (Decidable (_ ∉ _))

/-- A location strictly inside `tvm-models`. -/
def InsideCache (root l : Location) : Prop := tvmLocation root <+: l ∧ l ≠ tvmLocation root

/-- The directories of two models are apart and inside `tvm-models`, and removing the first model
leaves the files of the second, and all files outside `tvm-models`, in place. -/
structure Isolated (root : Location) (a b : List Char) : Prop where
  not_within : ¬ modelLocation root a <+: modelLocation root b
  not_around : ¬ modelLocation root b <+: modelLocation root a
  inside : InsideCache root (modelLocation root a)
  inside' : InsideCache root (modelLocation root b)
  kept : ∀ t prompt answers l, modelLocation root b <+: l ∨ ¬ tvmLocation root <+: l →
    (removeModel t root a prompt answers).1.lookup l = t.lookup l

/-- What a model is downloaded for. The machine and the system are what `uname` calls them. A device
with a slash has no manifest, since its directory is never made. -/
structure Variant where
  quantization : List Char
  machine : List Char
  sysname : List Char
  device : List Char
  machine_chars : ∀ c ∈ machine, c ∉ ['/', '-', '\x00']
  sysname_chars : ∀ c ∈ sysname, c ∉ ['/', '-', '\x00']
  device_chars : '/' ∉ device

/-- The name of the manifest. -/
def Variant.manifestName (v : Variant) : List Char :=
  "manifest-".toList ++ (v.machine ++ '-' :: (v.sysname ++ '-' :: (v.device ++ ".json".toList)))

/-- The directory that a model is downloaded to. -/
def quantLocation (root : Location) (modelId : List Char) (v : Variant) : Location :=
  locate root (joinPath (getModelBasePath modelId) v.quantization)

/-- The manifest of a downloaded model. -/
def manifestLocation (root : Location) (modelId : List Char) (v : Variant) : Location :=
  locate root (joinPath (joinPath (getModelBasePath modelId) v.quantization) v.manifestName)

/-- Every entry of the tree is in a directory. -/
def IsTree (t : FileTree) : Prop :=
  ∀ l n, l ≠ [] → (t.lookup (l ++ [n])).isSome → t.lookup l = some .directory

/-- The cache has a downloaded model: its manifest is there and can be read. -/
structure Downloaded (parse : List UInt8 → Option Json) (t : FileTree) (root : Location)
    (modelId : List Char) (v : Variant) : Prop where
  tree : IsTree t
  manifest : ∃ content manifest,
    readFile t (manifestLocation root modelId v) = some content ∧ parse content = some manifest

/-- The list has the downloaded model under its id. -/
def Reported (parse : List UInt8 → Option Json) (t : FileTree) (root : Location)
    (modelId : List Char) (v : Variant) : Prop :=
  ∃ results, listLocalModels parse t root = .ok results ∧ ∃ r ∈ results,
    r.modelId = modelId ∧ r.modelPath = quantLocation root modelId v ∧ r.device = v.device

/-- No manifest of the cache lists a file by what is no string. -/
def ReadableManifests (parse : List UInt8 → Option Json) (t : FileTree) (root : Location) : Prop :=
  ∀ e ∈ cacheEntries t root, ∀ content device manifest pairs,
    readFile t (tvmLocation root ++ [e.1, e.2.1] ++ [e.2.2]) = some content →
    manifestDevice e.2.2.1 = some device → parse content = some manifest →
    manifest.find "files" = some (.array pairs) →
    ∀ name rest, Json.array (name :: rest) ∈ pairs → ∃ s, name = .string s

/-- The model can be listed: its id is proper, has no NUL, and no dash of it is followed by a dash or
a slash; its quantization is right inside its directory; its device has no dash and no NUL; and no
other manifest keeps the list from being made. -/
structure Listable (parse : List UInt8 → Option Json) (t : FileTree) (root : Location)
    (modelId : List Char) (v : Variant) : Prop where
  proper : ProperId modelId
  chars : '\x00' ∉ modelId
  dashes : ¬ ['-', '-'] <:+: modelId ∧ ¬ ['-', '/'] <:+: modelId
  quantization : '\x00' ∉ v.quantization ∧
    ∃ q, quantLocation root modelId v = modelLocation root modelId ++ [q]
  device : '-' ∉ v.device ∧ '\x00' ∉ v.device
  readable : ReadableManifests parse t root

/-! ## Names of ids -/

@[simp] theorem escapeId_append (a b : List Char) :
    escapeId (a ++ b) = escapeId a ++ escapeId b := List.flatMap_append

@[simp] theorem escapeId_cons (c : Char) (cs : List Char) :
    escapeId (c :: cs) = (if c = '/' then ['-', '-'] else [c]) ++ escapeId cs := List.flatMap_cons

theorem slash_not_mem_escapeId (modelId : List Char) : '/' ∉ escapeId modelId := by
  induction modelId with
  | nil => simp [escapeId]
  | cons c cs ih =>
    rw [escapeId_cons]
    by_cases h : c = '/'
    · simpa [h] using ih
    · simpa [h, Ne.symm h] using ih

/-- The name ends where the id does. -/
theorem untilNul_escapeId (modelId : List Char) :
    untilNul (escapeId modelId) = escapeId (untilNul modelId) := by
  induction modelId with
  | nil => rfl
  | cons c cs ih =>
    unfold untilNul at ih ⊢
    rw [escapeId_cons]
    by_cases hslash : c = '/'
    · simpa [hslash] using ih
    · by_cases hnul : c = '\x00'
      · simp [hnul, escapeId]
      · simpa [hslash, hnul] using ih

/-- A name is a name of some id, and reading it back and writing it again gives it. -/
theorem escapeId_unescapeId {name : List Char} (h : '/' ∉ name) :
    escapeId (unescapeId name) = name := by
  induction name using unescapeId.induct with
  | case1 cs ih =>
    rw [unescapeId, escapeId_cons, ih fun hmem => h (by simp [hmem])]
    rfl
  | case2 c cs hnot ih =>
    obtain ⟨hne, hcs⟩ := List.ne_and_not_mem_of_not_mem_cons h
    rw [unescapeId, escapeId_cons, if_neg (Ne.symm hne), ih hcs]
    · rfl
    · exact hnot
  | case3 => rfl

/-- The name of an id starts with a dash when the id starts with a dash or a slash. -/
theorem escapeId_eq_dash_cons_iff {modelId : List Char} :
    (∃ rest, escapeId modelId = '-' :: rest) ↔
      ∃ c cs, modelId = c :: cs ∧ (c = '-' ∨ c = '/') := by
  cases modelId with
  | nil => simp [escapeId]
  | cons c cs =>
    rw [escapeId_cons]
    by_cases hslash : c = '/' <;> simp [hslash]

/-- Reading the name of an id back gives the id when no dash stands before a dash or a slash. -/
theorem unescapeId_escapeId_iff {modelId : List Char} :
    unescapeId (escapeId modelId) = modelId ↔
      ¬ ['-', '-'] <:+: modelId ∧ ¬ ['-', '/'] <:+: modelId := by
  induction modelId with
  | nil => simp [escapeId, unescapeId]
  | cons c cs ih =>
    rw [escapeId_cons]
    by_cases hslash : c = '/'
    · -- The two dashes of a slash are read back as it.
      subst hslash
      rw [if_pos rfl]
      show '/' :: unescapeId (escapeId cs) = '/' :: cs ↔ _
      rw [List.cons_inj_right, ih]
      simp [List.infix_cons_iff]
    rw [if_neg hslash, List.singleton_append]
    by_cases hdash : c = '-' ∧ ∃ rest, escapeId cs = '-' :: rest
    · -- A dash takes the next one with it.
      obtain ⟨rfl, rest, hrest⟩ := hdash
      obtain ⟨d, ds, rfl, hd⟩ := escapeId_eq_dash_cons_iff.mp ⟨rest, hrest⟩
      rw [hrest, unescapeId]
      refine iff_of_false (by simp) fun ⟨hdashes, hslashes⟩ => ?_
      rcases hd with rfl | rfl
      · exact hdashes (List.prefix_append ['-', '-'] ds).isInfix
      · exact hslashes (List.prefix_append ['-', '/'] ds).isInfix
    · have hread : unescapeId (c :: escapeId cs) = c :: unescapeId (escapeId cs) := by
        rw [unescapeId]
        intro rest hc hrest
        exact hdash ⟨hc, rest, hrest⟩
      rw [hread, List.cons_inj_right, ih, List.infix_cons_iff, List.infix_cons_iff]
      have hfirst : ∀ d, (d = '-' ∨ d = '/') → ¬ ['-', d] <+: c :: cs := by
        intro d hd hpre
        obtain ⟨hc, hpre⟩ := List.cons_prefix_cons.mp hpre
        obtain ⟨rest, rfl⟩ := hpre
        exact hdash ⟨hc.symm, escapeId_eq_dash_cons_iff.mpr ⟨d, rest, rfl, hd⟩⟩
      simp only [hfirst '-' (.inl rfl), hfirst '/' (.inr rfl), false_or]

theorem escapeId_of_no_slash {modelId : List Char} (h : '/' ∉ modelId) :
    escapeId modelId = modelId := by
  induction modelId with
  | nil => rfl
  | cons c cs ih =>
    obtain ⟨hne, hcs⟩ := List.ne_and_not_mem_of_not_mem_cons h
    rw [escapeId_cons, if_neg (Ne.symm hne), ih hcs, List.singleton_append]

theorem dash_mem_escapeId {modelId : List Char} (h : '/' ∈ modelId) : '-' ∈ escapeId modelId := by
  obtain ⟨front, back, rfl⟩ := List.append_of_mem h
  simp

/-- A name without a dash is that of the same id only. -/
theorem escapeId_eq_iff {modelId name : List Char} (hdash : '-' ∉ name) (hslash : '/' ∉ name) :
    escapeId modelId = name ↔ modelId = name := by
  constructor
  · rintro rfl
    exact (escapeId_of_no_slash fun h => hdash (dash_mem_escapeId h)).symm
  · rintro rfl
    exact escapeId_of_no_slash hslash

/-- An id has a proper name. -/
theorem isName_escapeId_iff {modelId : List Char} :
    IsName (escapeId (untilNul modelId)) ↔ ProperId modelId := by
  have hnul : '\x00' ∉ escapeId (untilNul modelId) := by
    rw [← untilNul_escapeId]
    exact nul_not_mem_untilNul _
  have hslash := slash_not_mem_escapeId (untilNul modelId)
  unfold IsName ProperId
  rw [ne_eq, ne_eq, ne_eq, escapeId_eq_iff (by simp) (by simp), escapeId_eq_iff (by simp) (by simp),
    escapeId_eq_iff (by simp) (by simp)]
  simp [hnul, hslash]

/-- Ids that are alike stay so behind the same characters. -/
theorem eqvGen_dashed_append {a b : List Char} (h : Relation.EqvGen Dashed a b)
    (front : List Char) : Relation.EqvGen Dashed (front ++ a) (front ++ b) := by
  induction h with
  | rel _ _ hab =>
    obtain ⟨front', back⟩ := hab
    rw [← List.append_assoc, ← List.append_assoc]
    exact .rel _ _ (.slash _ _)
  | refl _ => exact .refl _
  | symm _ _ _ ih => exact .symm _ _ ih
  | trans _ _ _ _ _ ih ih' => exact .trans _ _ _ ih ih'

/-- An id is like its name. -/
theorem eqvGen_dashed_escapeId (modelId : List Char) :
    Relation.EqvGen Dashed modelId (escapeId modelId) := by
  induction modelId with
  | nil => exact .refl _
  | cons c cs ih =>
    rw [escapeId_cons]
    by_cases hslash : c = '/'
    · subst hslash
      exact .trans _ _ _ (.rel _ _ (.slash [] cs)) (eqvGen_dashed_append ih ['-', '-'])
    · rw [if_neg hslash]
      exact eqvGen_dashed_append ih [c]

theorem escapeId_eq_of_eqvGen {a b : List Char} (h : Relation.EqvGen Dashed a b) :
    escapeId a = escapeId b := by
  induction h with
  | rel _ _ hab =>
    obtain ⟨front, back⟩ := hab
    simp
  | refl _ => rfl
  | symm _ _ _ ih => exact ih.symm
  | trans _ _ _ _ _ ih ih' => exact ih.trans ih'

/-- Two ids have one name when they are alike up to slashes that are written as two dashes. -/
theorem confusable_iff {a b : List Char} :
    Confusable a b ↔ escapeId (untilNul a) = escapeId (untilNul b) := by
  refine ⟨escapeId_eq_of_eqvGen, fun h => ?_⟩
  have ha := eqvGen_dashed_escapeId (untilNul a)
  rw [h] at ha
  exact .trans _ _ _ ha (.symm _ _ (eqvGen_dashed_escapeId (untilNul b)))

/-! ## Locations of models -/

theorem getModelBasePath_eq (modelId : List Char) :
    getModelBasePath modelId = tvmModels ++ '/' :: escapeId modelId := by
  have hhead : (escapeId modelId).head? ≠ some '/' := fun h =>
    slash_not_mem_escapeId modelId (List.mem_of_mem_head? h)
  rw [getModelBasePath, joinPath, if_neg hhead, if_neg (by decide)]

theorem modelLocation_eq (root : Location) (modelId : List Char) :
    modelLocation root modelId = enter (tvmLocation root) (escapeId (untilNul modelId)) := by
  have hhead : (escapeId modelId).head? ≠ some '/' := fun h =>
    slash_not_mem_escapeId modelId (List.mem_of_mem_head? h)
  have htvm : locate root tvmModels = tvmLocation root := locate_name root tvmModels_isName
  rw [modelLocation, getModelBasePath, locate_joinPath tvmModels_isName.2.2.2.2, htvm,
    locate_component hhead (slash_not_mem_escapeId modelId), untilNul_escapeId]

/-- The directory of a proper id is in `tvm-models` under its name. -/
theorem modelLocation_of_proper (root : Location) {modelId : List Char} (h : ProperId modelId) :
    modelLocation root modelId =
      tvmLocation root ++ [⟨escapeId (untilNul modelId), isName_escapeId_iff.mpr h⟩] := by
  rw [modelLocation_eq, enter_name]

/-- The directory of an id is the one that has its name. -/
theorem modelLocation_of_name (root : Location) {modelId : List Char} {model : Name}
    (h : escapeId modelId = model.1) : modelLocation root modelId = tvmLocation root ++ [model] := by
  rw [modelLocation_eq, ← untilNul_escapeId, h, untilNul_eq_self model.2.2.2.2.2,
    enter_name model.2]

/-- That of another id is not inside `tvm-models`. -/
theorem not_insideCache_of_not_proper (root : Location) {modelId : List Char}
    (h : ¬ ProperId modelId) : ¬ InsideCache root (modelLocation root modelId) := by
  rintro ⟨hwithin, hne⟩
  rw [modelLocation_eq] at hwithin hne
  rcases enter_eq_self_or_dropLast (l := tvmLocation root)
    (fun hname => h (isName_escapeId_iff.mp hname)) with heq | heq
  · exact hne heq
  · rw [heq] at hwithin
    have hlength := hwithin.length_le
    simp [tvmLocation] at hlength

/-- Removing a model changes nothing outside its directory. -/
theorem lookup_removeModel {root l : Location} {modelId : List Char}
    (h : ¬ modelLocation root modelId <+: l) (t : FileTree) (prompt : Bool)
    (answers : List String) :
    (removeModel t root modelId prompt answers).1.lookup l = t.lookup l := by
  unfold removeModel
  split_ifs
  · rfl
  · rfl
  · show (removeAllPath t root (getModelBasePath modelId)).1.lookup l = t.lookup l
    unfold removeAllPath
    split_ifs
    · exact (lookup_removeBelow _ _ _).trans (if_neg fun hbelow => h hbelow.1)
    · exact (lookup_removeAll _ _ _).trans (if_neg h)

/-- Two locations in one directory are not one around the other, unless they are the same. -/
theorem name_unique {l : Location} {m n : Name} {l' : Location} (hm : l ++ [m] <+: l')
    (hn : l ++ [n] <+: l') : m = n := by
  have hle : (l ++ [m]).length ≤ (l ++ [n]).length := by simp
  have heq := (List.prefix_of_prefix_length_le hm hn hle).eq_of_length (by simp)
  simpa using heq

/-- Two models have directories of their own when both ids are proper and they are not alike. -/
theorem isolated_iff {root : Location} {a b : List Char} :
    Isolated root a b ↔ ProperId a ∧ ProperId b ∧ ¬ Confusable a b := by
  constructor
  · intro h
    refine ⟨?_, ?_, fun halike => h.not_within ?_⟩
    · by_contra hproper
      exact not_insideCache_of_not_proper root hproper h.inside
    · by_contra hproper
      exact not_insideCache_of_not_proper root hproper h.inside'
    · rw [modelLocation_eq, modelLocation_eq, confusable_iff.mp halike]
  · rintro ⟨ha, hb, halike⟩
    have hna := modelLocation_of_proper root ha
    have hnb := modelLocation_of_proper root hb
    have hname : ∀ l, modelLocation root a <+: l → ¬ modelLocation root b <+: l := by
      intro l hal hbl
      rw [hna] at hal
      rw [hnb] at hbl
      exact halike (confusable_iff.mpr (congrArg Subtype.val (name_unique hal hbl)))
    have hinside : ∀ {id}, ProperId id → InsideCache root (modelLocation root id) := fun hid => by
      rw [modelLocation_of_proper root hid]
      exact ⟨List.prefix_append _ _, by simp⟩
    refine ⟨fun h => hname _ h (List.prefix_refl _), fun h => hname _ (List.prefix_refl _) h,
      hinside ha, hinside hb, ?_⟩
    intro t prompt answers l hl
    refine lookup_removeModel (fun hal => ?_) t prompt answers
    rcases hl with hbl | houtside
    · exact hname l hal hbl
    · exact houtside ((hinside ha).1.trans hal)

/-! ## The list of models -/

/-- The entries that are looked at are those below two directories. -/
theorem mem_cacheEntries_iff {t : FileTree} {root : Location} {model quant file : Name} :
    (model, quant, file) ∈ cacheEntries t root ↔
      t.lookup (tvmLocation root ++ [model]) = some .directory ∧
      t.lookup (tvmLocation root ++ [model, quant]) = some .directory ∧
      (t.lookup (tvmLocation root ++ [model, quant, file])).isSome := by
  have hsub : ∀ l (n : Name), n ∈ subdirectories t l ↔ t.lookup (l ++ [n]) = some .directory := by
    intro l n
    rw [subdirectories, List.mem_filter, mem_children_iff, decide_eq_true_eq]
    exact ⟨fun h => h.2, fun h => ⟨by rw [h]; rfl, h⟩⟩
  have happend : ∀ (l : Location) (m n : Name), l ++ [m] ++ [n] = l ++ [m, n] := fun l m n =>
    List.append_assoc l [m] [n]
  have happend' : tvmLocation root ++ [model, quant] ++ [file] =
      tvmLocation root ++ [model, quant, file] := List.append_assoc _ _ _
  simp only [cacheEntries, List.mem_flatMap, List.mem_map, hsub, Prod.mk.injEq]
  constructor
  · rintro ⟨m, hm, q, hq, f, hf, rfl, rfl, rfl⟩
    rw [mem_children_iff, happend'] at hf
    rw [happend] at hq
    exact ⟨hm, hq, hf⟩
  · rintro ⟨hm, hq, hf⟩
    rw [← happend'] at hf
    rw [← happend] at hq
    exact ⟨model, hm, quant, hq, file, mem_children_iff.mpr hf, rfl, rfl, rfl⟩

section Listing

variable {parse : List UInt8 → Option Json} {t : FileTree} {root : Location}

/-- What is listed is what one of the entries gives. -/
theorem mem_listLocalModels {results : List ListResult}
    (h : listLocalModels parse t root = .ok results) {r : ListResult} :
    r ∈ results ↔ t.lookup (tvmLocation root) = some .directory ∧
      ∃ model quant file, (model, quant, file) ∈ cacheEntries t root ∧
        entryResult parse t root model quant file = .ok (some r) := by
  unfold listLocalModels at h
  split at h
  · rename_i hroot
    obtain rfl : [] = results := Except.ok.inj h
    simp [hroot]
  · cases h
  · rename_i hroot
    obtain ⟨found, hfound, h⟩ := Except.bind_eq_ok_iff.mp h
    obtain rfl : found.filterMap id = results := Except.ok.inj h
    simp only [List.mem_filterMap, id, exists_eq_right, Except.mem_mapM_iff hfound, Prod.exists,
      hroot, true_and]

/-- What an entry gives is named after its directories and its file. -/
theorem entryResult_eq_some {model quant file : Name} {r : ListResult}
    (h : entryResult parse t root model quant file = .ok (some r)) :
    r.modelId = unescapeId model.1 ∧ r.modelPath = tvmLocation root ++ [model, quant] ∧
      manifestDevice file.1 = some r.device := by
  simp only [entryResult] at h
  split at h
  · rename_i hdevice
    split at h
    · obtain ⟨totalBytes, -, h⟩ := Except.bind_eq_ok_iff.mp h
      obtain rfl := Option.some.inj (Except.ok.inj h)
      exact ⟨rfl, rfl, hdevice⟩
    · cases h
  · cases h

/-- The bytes of a listed file can be told when its name is a string. -/
theorem exists_pairBytes_iff {quantDir : Location} {pair : Json} :
    (∃ n, pairBytes t quantDir pair = .ok n) ↔
      ∀ name rest, pair = .array (name :: rest) → ∃ s, name = .string s := by
  unfold pairBytes
  split
  · rename_i name rest
    constructor
    · rintro ⟨n, h⟩ name' rest' heq
      obtain ⟨rfl, rfl⟩ : name = name' ∧ rest = rest' := by simpa using heq
      obtain ⟨file, hfile, -⟩ := Except.bind_eq_ok_iff.mp h
      cases name with
      | string s => exact ⟨s, rfl⟩
      | _ => cases hfile
    · intro h
      obtain ⟨s, rfl⟩ := h name rest rfl
      exact ⟨_, rfl⟩
  · rename_i hnot
    exact iff_of_true ⟨0, rfl⟩ fun name rest heq => absurd heq (hnot name rest)

/-- The bytes of a manifest can be told when it lists files by strings only. -/
theorem exists_manifestBytes_iff {quantDir : Location} {manifest : Json} :
    (∃ n, manifestBytes t quantDir manifest = .ok n) ↔
      ∀ pairs, manifest.find "files" = some (.array pairs) →
        ∀ name rest, Json.array (name :: rest) ∈ pairs → ∃ s, name = .string s := by
  unfold manifestBytes
  split
  · rename_i pairs hpairs
    have hsizes : (∃ n, (do
        let sizes ← pairs.mapM (pairBytes t quantDir)
        return sizes.sum : Except Fault ℕ) = .ok n) ↔
        ∃ sizes, pairs.mapM (pairBytes t quantDir) = .ok sizes := by
      constructor
      · rintro ⟨n, h⟩
        obtain ⟨sizes, hsizes, -⟩ := Except.bind_eq_ok_iff.mp h
        exact ⟨sizes, hsizes⟩
      · rintro ⟨sizes, hsizes⟩
        exact ⟨_, Except.bind_eq_ok_iff.mpr ⟨sizes, hsizes, rfl⟩⟩
    rw [hsizes, Except.exists_mapM_eq_ok_iff]
    simp only [exists_pairBytes_iff]
    constructor
    · intro h pairs' heq name rest hmem
      obtain rfl : pairs = pairs' := by simpa [hpairs] using heq
      exact h _ hmem name rest rfl
    · intro h pair hmem name rest heq
      exact h pairs hpairs name rest (heq ▸ hmem)
  · rename_i hnot
    exact iff_of_true ⟨0, rfl⟩ fun pairs heq => absurd heq (hnot pairs)

/-- An entry stops the list when it is a manifest whose bytes cannot be told. -/
theorem exists_entryResult_iff {model quant file : Name} :
    (∃ r, entryResult parse t root model quant file = .ok r) ↔
      ∀ content device manifest,
        readFile t (tvmLocation root ++ [model, quant] ++ [file]) = some content →
        manifestDevice file.1 = some device → parse content = some manifest →
        ∃ n, manifestBytes t (tvmLocation root ++ [model, quant]) manifest = .ok n := by
  simp only [entryResult]
  split
  · rename_i content device hcontent hdevice
    rw [hcontent, hdevice]
    split
    · rename_i manifest hmanifest
      constructor
      · rintro ⟨r, h⟩ content' device' manifest' hcontent' - hmanifest'
        obtain rfl := Option.some.inj hcontent'
        obtain rfl := Option.some.inj (hmanifest.symm.trans hmanifest')
        obtain ⟨n, hn, -⟩ := Except.bind_eq_ok_iff.mp h
        exact ⟨n, hn⟩
      · intro h
        obtain ⟨n, hn⟩ := h content device manifest rfl rfl hmanifest
        exact ⟨_, Except.bind_eq_ok_iff.mpr ⟨n, hn, rfl⟩⟩
    · rename_i hmanifest
      refine iff_of_true ⟨none, rfl⟩ fun content' device' manifest hcontent' _ hmanifest' => ?_
      obtain rfl := Option.some.inj hcontent'
      rw [hmanifest] at hmanifest'
      cases hmanifest'
  · rename_i hnot
    exact iff_of_true ⟨none, rfl⟩ fun content device manifest hcontent hdevice _ =>
      absurd hdevice (hnot content device hcontent)

/-- The list is made when no manifest of an entry lists a file by what is no string. -/
theorem exists_listLocalModels_iff (hroot : t.lookup (tvmLocation root) = some .directory) :
    (∃ results, listLocalModels parse t root = .ok results) ↔ ReadableManifests parse t root := by
  have hentries : (∃ results, listLocalModels parse t root = .ok results) ↔
      ∀ e ∈ cacheEntries t root, ∃ r, entryResult parse t root e.1 e.2.1 e.2.2 = .ok r := by
    rw [← Except.exists_mapM_eq_ok_iff, listLocalModels, hroot]
    constructor
    · rintro ⟨results, h⟩
      obtain ⟨found, hfound, -⟩ := Except.bind_eq_ok_iff.mp h
      exact ⟨found, hfound⟩
    · rintro ⟨found, hfound⟩
      exact ⟨_, Except.bind_eq_ok_iff.mpr ⟨found, hfound, rfl⟩⟩
  rw [hentries]
  simp only [exists_entryResult_iff, exists_manifestBytes_iff]
  constructor
  · intro h e he content device manifest pairs hcontent hdevice hmanifest hpairs
    exact h e he content device manifest hcontent hdevice hmanifest pairs hpairs
  · intro h e he content device manifest hcontent hdevice hmanifest pairs hpairs
    exact h e he content device manifest pairs hcontent hdevice hmanifest hpairs

/-- Removing a listed model by its listed id removes its directory. -/
theorem removes_listed {results : List ListResult} {r : ListResult}
    (h : listLocalModels parse t root = .ok results) (hr : r ∈ results) :
    (∃ done, (removeModel t root r.modelId false []).2 = .ok done ∧ done.success = true) ∧
      ∀ l, r.modelPath <+: l → (removeModel t root r.modelId false []).1.lookup l = none := by
  obtain ⟨hroot, model, quant, file, hentry, hresult⟩ := (mem_listLocalModels h).mp hr
  obtain ⟨hid, hpath, -⟩ := entryResult_eq_some hresult
  obtain ⟨hmodel, -, -⟩ := mem_cacheEntries_iff.mp hentry
  have hescape : escapeId r.modelId = model.1 := by
    rw [hid, escapeId_unescapeId model.2.2.2.2.1]
  have hlocation := modelLocation_of_name root hescape
  have hexists : modelExists t root r.modelId = true := by
    rw [modelExists, hlocation, hmodel, hroot]
    rfl
  have hlast : ((untilNul (getModelBasePath r.modelId)).splitOn '/').getLast? = some model.1 := by
    rw [getModelBasePath_eq, hescape, untilNul_append tvmModels_isName.2.2.2.2]
    show ((tvmModels ++ '/' :: untilNul model.1).splitOn '/').getLast? = _
    rw [List.splitOn_append_cons_self, untilNul_eq_self model.2.2.2.2.2,
      List.splitOn_eq_singleton model.2.2.2.2.1, List.getLast?_append_cons]
    rfl
  have hremove : removeAllPath t root (getModelBasePath r.modelId) =
      (removeAll t (tvmLocation root ++ [model]), .ok ()) := by
    rw [removeAllPath, hlast, if_neg]
    · exact congrArg (fun l => (removeAll t l, Except.ok ())) hlocation
    · simp [model.2.2.1, model.2.2.2.1]
  have hrun : removeModel t root r.modelId false [] = (removeAll t (tvmLocation root ++ [model]),
      .ok ⟨true, false, some (getModelBasePath r.modelId), none⟩) := by
    rw [removeModel, hexists]
    simp [hremove]
  rw [hrun, hpath]
  refine ⟨⟨_, rfl, rfl⟩, fun l hl => (lookup_removeAll _ _ _).trans (if_pos ?_)⟩
  exact List.IsPrefix.trans ⟨[quant], List.append_assoc _ _ _⟩ hl

end Listing

/-! ## Downloaded models -/

theorem nul_not_mem_getModelBasePath {modelId : List Char} (h : '\x00' ∉ modelId) :
    '\x00' ∉ getModelBasePath modelId := by
  have hescape : '\x00' ∉ escapeId modelId := by
    rw [← untilNul_eq_self h, ← untilNul_escapeId]
    exact nul_not_mem_untilNul _
  rw [getModelBasePath_eq, List.mem_append, List.mem_cons]
  exact not_or.mpr ⟨tvmModels_isName.2.2.2.2, not_or.mpr ⟨by decide, hescape⟩⟩

theorem Variant.isName_manifestName {v : Variant} (h : '\x00' ∉ v.device) :
    IsName v.manifestName := by
  have hnot : ∀ c, c ∈ ['/', '\x00'] → c ∉ v.machine ∧ c ∉ v.sysname ∧ c ∉ v.device := by
    intro c hc
    have hchars : c ∈ ['/', '-', '\x00'] := by
      rcases List.mem_pair.mp hc with rfl | rfl <;> decide
    refine ⟨fun hm => v.machine_chars c hm hchars, fun hs => v.sysname_chars c hs hchars, ?_⟩
    rcases List.mem_pair.mp hc with rfl | rfl
    · exact v.device_chars
    · exact h
  have hslash := hnot '/' (by decide)
  have hnul := hnot '\x00' (by decide)
  unfold IsName manifestName
  simp [hslash, hnul]

/-- The pieces of a list are made of it and do not have the separator. -/
theorem mem_splitOn {α : Type} [DecidableEq α] {sep : α} {as piece : List α}
    (h : piece ∈ as.splitOn sep) : sep ∉ piece ∧ piece ⊆ as := by
  induction as generalizing piece with
  | nil =>
    rw [List.splitOn_nil, List.mem_singleton] at h
    rw [h]
    exact ⟨List.not_mem_nil, List.Subset.refl _⟩
  | cons a as ih =>
    rw [List.splitOn_cons_eq_if_modifyHead] at h
    cases hsplit : as.splitOn sep with
    | nil => exact absurd hsplit (List.splitOn_ne_nil sep as)
    | cons first rest =>
      rw [hsplit] at h ih
      split_ifs at h with hsep
      · rcases List.mem_cons.mp h with rfl | hmem
        · exact ⟨List.not_mem_nil, List.nil_subset _⟩
        · exact ⟨(ih hmem).1, List.subset_cons_of_subset a (ih hmem).2⟩
      · rcases List.mem_cons.mp h with rfl | hmem
        · obtain ⟨hnot, hsubset⟩ := ih List.mem_cons_self
          exact ⟨List.not_mem_cons_of_ne_of_not_mem (fun heq => hsep (by simp [heq])) hnot,
            List.cons_subset_cons a hsubset⟩
        · obtain ⟨hnot, hsubset⟩ := ih (List.mem_cons_of_mem first hmem)
          exact ⟨hnot, List.subset_cons_of_subset a hsubset⟩

/-- The device that is read from the name of a manifest is a piece of it. -/
theorem manifestDevice_chars {filename device : List Char}
    (h : manifestDevice filename = some device) : '-' ∉ device ∧ device ⊆ filename := by
  unfold manifestDevice at h
  split_ifs at h
  split at h
  · rename_i first second third hsplit
    obtain rfl := Option.some.inj h
    have hmem : third ∈ ((filename.take (filename.length - 5)).drop 9).splitOn '-' := by
      simp [hsplit]
    obtain ⟨hdash, hsubset⟩ := mem_splitOn hmem
    exact ⟨hdash, fun c hc => List.take_subset _ _ (List.drop_subset _ _ (hsubset hc))⟩
  · cases h

/-- The manifest of a device without a dash is seen to be one. -/
theorem Variant.manifestDevice_manifestName {v : Variant} (h : '-' ∉ v.device) :
    manifestDevice v.manifestName = some v.device := by
  have hmachine : '-' ∉ v.machine := fun hm => v.machine_chars '-' hm (by decide)
  have hsysname : '-' ∉ v.sysname := fun hs => v.sysname_chars '-' hs (by decide)
  have hname : v.manifestName = "manifest-".toList ++
      (v.machine ++ '-' :: (v.sysname ++ '-' :: v.device)) ++ ".json".toList := by
    unfold manifestName
    simp only [List.append_assoc, List.cons_append]
  have hstem : (v.manifestName.take (v.manifestName.length - 5)).drop 9 =
      v.machine ++ '-' :: (v.sysname ++ '-' :: v.device) := by
    rw [hname, List.take_left', List.drop_left' (by decide)]
    exact (Nat.sub_eq_of_eq_add List.length_append).symm
  have hsplit : (v.machine ++ '-' :: (v.sysname ++ '-' :: v.device)).splitOn '-' =
      [v.machine, v.sysname, v.device] := by
    rw [List.splitOn_append_cons_self_of_not_mem hmachine,
      List.splitOn_append_cons_self_of_not_mem hsysname, List.splitOn_eq_singleton h]
  have hends : ("manifest-".toList.isPrefixOf v.manifestName &&
      ".json".toList.isSuffixOf v.manifestName) = true := by
    rw [Bool.and_eq_true, List.isPrefixOf_iff_prefix, List.isSuffixOf_iff_suffix]
    exact ⟨List.prefix_append _ _, hname ▸ List.suffix_append _ _⟩
  rw [manifestDevice, if_pos hends, hstem, hsplit]

theorem Variant.head_manifestName (v : Variant) : v.manifestName.head? ≠ some '/' := by
  unfold manifestName
  rw [List.head?_append_of_ne_nil _ (by decide)]
  decide

/-- The manifest is in the directory that the model is downloaded to. -/
theorem manifestLocation_eq {root : Location} {modelId : List Char} {v : Variant}
    (h : '\x00' ∉ modelId) (hquant : '\x00' ∉ v.quantization) (hdevice : '\x00' ∉ v.device) :
    manifestLocation root modelId v =
      quantLocation root modelId v ++ [⟨v.manifestName, v.isName_manifestName hdevice⟩] := by
  rw [manifestLocation,
    locate_joinPath (nul_not_mem_joinPath (nul_not_mem_getModelBasePath h) hquant), locate_name]
  rfl

/-- Behind a NUL in the quantization, the manifest is taken to be that directory itself. -/
theorem manifestLocation_of_nul {root : Location} {modelId : List Char} {v : Variant}
    (h : '\x00' ∈ v.quantization) :
    manifestLocation root modelId v = quantLocation root modelId v := by
  refine locate_joinPath_of_nul ?_ v.head_manifestName
  unfold joinPath
  split_ifs <;> simp [h]

theorem nul_not_mem_unescapeId {name : List Char} (h : '\x00' ∉ name) :
    '\x00' ∉ unescapeId name := by
  induction name using unescapeId.induct with
  | case1 cs ih =>
    have hcs : '\x00' ∉ cs := fun hmem => h (by simp [hmem])
    rw [unescapeId]
    exact List.not_mem_cons_of_ne_of_not_mem (by decide) (ih hcs)
  | case2 c cs hnot ih =>
    obtain ⟨hne, hcs⟩ := List.ne_and_not_mem_of_not_mem_cons h
    rw [unescapeId]
    · exact List.not_mem_cons_of_ne_of_not_mem hne (ih hcs)
    · exact hnot
  | case3 => exact h

section Listing

variable {parse : List UInt8 → Option Json} {t : FileTree} {root : Location}
  {modelId : List Char} {v : Variant}

theorem readFile_eq_some_iff {l : Location} {content : List UInt8} :
    readFile t l = some content ↔ t.lookup l = some (.file content) := by
  unfold readFile
  split
  · rename_i found hfound
    rw [hfound, Option.some_inj, Option.some_inj, Entry.file.injEq]
  · rename_i hnot
    exact iff_of_false (fun h => nomatch h) (hnot content)

/-- A model that is listed under its id and its device can be listed. -/
theorem listable_of_reported (h : Downloaded parse t root modelId v)
    (hreported : Reported parse t root modelId v) : Listable parse t root modelId v := by
  obtain ⟨results, hresults, r, hr, hid, hpath, hdevice⟩ := hreported
  obtain ⟨hroot, model, quant, file, hentry, hresult⟩ := (mem_listLocalModels hresults).mp hr
  obtain ⟨hmodelId, hmodelPath, hread⟩ := entryResult_eq_some hresult
  obtain ⟨-, hquant, -⟩ := mem_cacheEntries_iff.mp hentry
  have hunescape : unescapeId model.1 = modelId := hmodelId.symm.trans hid
  have hquantLocation : quantLocation root modelId v = tvmLocation root ++ [model, quant] :=
    hpath.symm.trans hmodelPath
  -- The name is the one that the id is given, for it has no slash.
  have hescape : escapeId modelId = model.1 := by
    rw [← hunescape, escapeId_unescapeId model.2.2.2.2.1]
  have hnul : '\x00' ∉ modelId := hunescape ▸ nul_not_mem_unescapeId model.2.2.2.2.2
  have hproper : ProperId modelId := by
    rw [← isName_escapeId_iff, untilNul_eq_self hnul, hescape]
    exact model.2
  have hdashes := unescapeId_escapeId_iff.mp ((congrArg unescapeId hescape).trans hunescape)
  have hlocation := modelLocation_of_name root hescape
  obtain ⟨hdash, hsubset⟩ := manifestDevice_chars hread
  rw [hdevice] at hdash hsubset
  refine ⟨hproper, hnul, hdashes, ⟨fun hmem => ?_, quant, ?_⟩,
    ⟨hdash, fun hmem => file.2.2.2.2.2 (hsubset hmem)⟩,
    (exists_listLocalModels_iff hroot).mp ⟨results, hresults⟩⟩
  · -- The manifest would be a file where the directory is.
    obtain ⟨content, -, hcontent, -⟩ := h.manifest
    rw [manifestLocation_of_nul hmem, hquantLocation] at hcontent
    rw [readFile_eq_some_iff.mp hcontent] at hquant
    cases hquant
  · rw [hquantLocation, hlocation, List.append_assoc]
    rfl

/-- A downloaded model that can be listed is listed under its id. -/
theorem reported_of_listable (h : Downloaded parse t root modelId v)
    (hlistable : Listable parse t root modelId v) : Reported parse t root modelId v := by
  obtain ⟨hproper, hnul, hdashes, ⟨hquantNul, quant, hquant⟩, ⟨hdash, hdeviceNul⟩, hreadable⟩ :=
    hlistable
  obtain ⟨content, manifest, hcontent, hparse⟩ := h.manifest
  have hname := isName_escapeId_iff.mpr hproper
  have hescape : unescapeId (escapeId (untilNul modelId)) = modelId := by
    rw [untilNul_eq_self hnul]
    exact unescapeId_escapeId_iff.mpr hdashes
  rw [modelLocation_of_proper root hproper] at hquant
  rw [manifestLocation_eq hnul hquantNul hdeviceNul, hquant] at hcontent
  generalize hmodel : (⟨escapeId (untilNul modelId), hname⟩ : Name) = model at hquant hcontent
  generalize hfile : (⟨v.manifestName, v.isName_manifestName hdeviceNul⟩ : Name) = file at hcontent
  have hquantDir : quantLocation root modelId v = tvmLocation root ++ [model, quant] :=
    hquant.trans (List.append_assoc _ _ _)
  -- All directories on the way to the manifest are there.
  have hfileEntry : (t.lookup (tvmLocation root ++ [model] ++ [quant] ++ [file])).isSome := by
    rw [readFile_eq_some_iff.mp hcontent]
    rfl
  have hquantEntry := h.tree _ _ (by simp) hfileEntry
  have hmodelEntry := h.tree _ _ (by simp) (Option.isSome_of_eq_some hquantEntry)
  have hroot : t.lookup (tvmLocation root) = some .directory :=
    h.tree _ _ (by simp [tvmLocation]) (Option.isSome_of_eq_some hmodelEntry)
  have hentry : (model, quant, file) ∈ cacheEntries t root := by
    rw [List.append_assoc _ [quant]] at hfileEntry
    rw [List.append_assoc] at hfileEntry hquantEntry
    exact mem_cacheEntries_iff.mpr ⟨hmodelEntry, hquantEntry, hfileEntry⟩
  rw [List.append_assoc _ [model]] at hcontent
  have hdevice : manifestDevice file.1 = some v.device :=
    hfile ▸ v.manifestDevice_manifestName hdash
  obtain ⟨results, hresults⟩ := (exists_listLocalModels_iff hroot).mpr hreadable
  obtain ⟨totalBytes, htotal⟩ := exists_manifestBytes_iff.mpr fun pairs hpairs =>
    hreadable _ hentry content _ manifest pairs hcontent hdevice hparse hpairs
  have hresult : entryResult parse t root model quant file = .ok (some
      ⟨"tvm", unescapeId model.1, quant.1, v.device, tvmLocation root ++ [model, quant],
        totalBytes⟩) := by
    have hcontent' : readFile t (tvmLocation root ++ [model, quant] ++ [file]) = some content :=
      hcontent
    simp only [entryResult, hcontent', hdevice, hparse]
    exact Except.bind_eq_ok_iff.mpr ⟨totalBytes, htotal, rfl⟩
  exact ⟨results, hresults, _, (mem_listLocalModels hresults).mpr
    ⟨hroot, model, quant, file, hentry, hresult⟩, hmodel ▸ hescape, hquantDir.symm, rfl⟩

end Listing

/-- The cache keeps models apart exactly when their ids are proper and not alike, and lists a
downloaded model exactly when it is listable. What is listed is removed by the listed id. -/
theorem modelCache_isolated_iff (parse : List UInt8 → Option Json) (root : Location) :
    (∀ a b, Isolated root a b ↔ ProperId a ∧ ProperId b ∧ ¬ Confusable a b) ∧
    (∀ t modelId v, Downloaded parse t root modelId v →
      (Reported parse t root modelId v ↔ Listable parse t root modelId v)) ∧
    ∀ t results r, listLocalModels parse t root = .ok results → r ∈ results →
      (∃ done, (removeModel t root r.modelId false []).2 = .ok done ∧ done.success = true) ∧
      ∀ l, r.modelPath <+: l → (removeModel t root r.modelId false []).1.lookup l = none :=
  ⟨fun _ _ => isolated_iff,
    fun _ _ _ h => ⟨listable_of_reported h, reported_of_listable h⟩,
    fun _ _ _ h hr => removes_listed h hr⟩

/-- A model `m` that is downloaded for a device `d` is listed, and removed by what is listed. -/
theorem modelCache_isolated_iff_small : ∃ (t : FileTree) (v : Variant) (r : ListResult),
    r.modelId = ['m'] ∧ r.modelPath = quantLocation [] ['m'] v ∧
      (∃ done, (removeModel t [] r.modelId false []).2 = .ok done ∧ done.success = true) ∧
      (removeModel t [] r.modelId false []).1.lookup (quantLocation [] ['m'] v) = none := by
  let v : Variant := ⟨['q'], ['x'], ['y'], ['d'], by simp, by simp, by simp⟩
  let quant := quantLocation [] ['m'] v
  let manifest := manifestLocation [] ['m'] v
  let t : FileTree := (((AList.insert (tvmLocation []) .directory ∅).insert
    (modelLocation [] ['m']) .directory).insert quant .directory).insert manifest (.file [])
  have htree : IsTree t := by
    intro l n hl hentry
    have hkeys : t.keys = [manifest, quant, modelLocation [] ['m'], tvmLocation []] := by decide
    have hkey : l ++ [n] ∈ [manifest, quant, modelLocation [] ['m'], tvmLocation []] := by
      rw [← hkeys]
      exact AList.lookup_isSome.mp hentry
    have hfront : ∀ k ∈ [manifest, quant, modelLocation [] ['m'], tvmLocation []],
        k.dropLast ≠ [] → t.lookup k.dropLast = some .directory := by decide
    have hdrop := hfront _ hkey
    rw [List.dropLast_concat] at hdrop
    exact hdrop hl
  have hdownloaded : Downloaded (fun _ => some (.object [])) t [] ['m'] v :=
    ⟨htree, [], .object [], by decide, rfl⟩
  have hquant : quant = modelLocation [] ['m'] ++ [⟨['q'], by decide⟩] := by decide
  have hdashes : ¬ ['-', '-'] <:+: ['m'] ∧ ¬ ['-', '/'] <:+: ['m'] := by decide
  have hlistable : Listable (fun _ => some (.object [])) t [] ['m'] v := by
    refine ⟨by decide, by decide, hdashes, ⟨by decide, _, hquant⟩, by decide, ?_⟩
    rintro e - content device manifest pairs - - hparse hpairs
    obtain rfl : Json.object [] = manifest := Option.some.inj hparse
    cases hpairs
  obtain ⟨-, hlist, hremove⟩ := modelCache_isolated_iff (fun _ => some (.object [])) []
  obtain ⟨results, hresults, r, hr, hid, hpath, -⟩ := (hlist t ['m'] v hdownloaded).mpr hlistable
  obtain ⟨hdone, hnone⟩ := hremove t results r hresults hr
  exact ⟨t, v, r, hid, hpath, hdone, hnone _ (hpath ▸ List.prefix_refl _)⟩

/-- The ids `a/b` and `a--b` have one directory, and `..` has the root of the cache. -/
theorem ids_share_directory :
    "a/b".toList ≠ "a--b".toList ∧
      modelLocation [] "a/b".toList = modelLocation [] "a--b".toList ∧
      ¬ Isolated [] "a/b".toList "a--b".toList ∧
      modelLocation [] "..".toList = [] ∧ ¬ Isolated [] "..".toList "a/b".toList := by
  have hshare : modelLocation [] "a/b".toList = modelLocation [] "a--b".toList := by decide
  refine ⟨by decide, hshare, fun h => h.not_within (hshare ▸ List.prefix_refl _), by decide,
    fun h => ?_⟩
  exact (isolated_iff.mp h).1 (by decide)

end Ailoy
