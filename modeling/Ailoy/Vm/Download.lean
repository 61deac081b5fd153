import Ailoy.Lib.Effects
import Ailoy.Vm.ModelCache

/-!
# Downloading a model

`download_file`, `download_file_with_progress` and `download_model` of
`vm/src/mlc_llm/model_cache.cpp`, over the file tree of the cache. All that comes from outside in a
call is an `Outside`: what the server answers, what becomes of a write, when SIGINT comes and when
the process is ended. A file is checked before it is asked for, and not again when it has been
received: `downloadModel_correct_iff` says for which answers a download that succeeds has left the
files of its manifest.
-/

namespace Ailoy

open FileTree Effects

/-! ## The outside -/

/-- What becomes of a write: it is done, or bytes are lost when the stream is closed, which nobody
asks for, or it fails, or the process is ended. In the last two cases the file may not be opened;
otherwise so many bytes are written. -/
inductive WriteFate
  | done
  | lost (written : ℕ)
  | failed (written : Option ℕ)
  | killed (written : Option ℕ)

/-- The bytes that a write leaves in the file, when it is opened. -/
def WriteFate.kept (data : List UInt8) : WriteFate → Option (List UInt8)
  | .done => some data
  | .lost n => some (data.take n)
  | .failed written | .killed written => written.map fun n => data.take n

/-- A piece of a body as it arrives. -/
structure BodyPiece where
  data : List UInt8
  fate : WriteFate

/-- What becomes of the request for a file: the pieces that arrive, the number of pieces after which
SIGINT has come, and the status or the text of the error that the client has for it. -/
structure FileAnswer where
  pieces : List BodyPiece
  sigint : Option ℕ
  response : Except String ℕ

/-- All that the outside decides in a call: whether the process is ended on the way through the
directories, what becomes of the request for the manifest, and what becomes of the one for the `i`th
file that is asked for. -/
structure Outside where
  directories : Option ℕ
  manifest : Except String (ℕ × List UInt8)
  manifestFate : WriteFate
  answer : ℕ → FileAnswer

/-- What `>>` throws into a `json`: `json::parse_error`, or another exception. -/
inductive ManifestError
  | parseError (what : String)
  | other (what : String)

/-- The machine that a model is downloaded to, with what the libraries make of bytes, and the text of
the HTTP client for a request that is canceled. -/
structure Host where
  root : Location
  machine : List Char
  sysname : List Char
  parse : List UInt8 → Except ManifestError Json
  sha1 : List UInt8 → String
  canceled : String

/-- The arguments of `download_model`. -/
structure DownloadTarget where
  modelId : List Char
  quantization : List Char
  device : List Char

/-- How a call ends without success: with a message, by an exception, or with its process. -/
inductive Ended
  | failed (message : String)
  | thrown (fault : Fault)
  | killed

/-- `model_cache_download_result_t`, with paths relative to the root of the cache. -/
structure DownloadResult where
  success : Bool
  modelPath : Option (List Char)
  modelLibPath : Option (List Char)
  errorMessage : Option String

/-- Programs over the files of the cache. -/
abbrev Disk (α : Type) := Effects FileTree Ended α

/-! ## Paths -/

/-- `model_base_path / quantization`. -/
def DownloadTarget.path (target : DownloadTarget) : List Char :=
  joinPath (getModelBasePath target.modelId) target.quantization

/-- `manifest_filename`. -/
def manifestFilename (host : Host) (device : List Char) : List Char :=
  "manifest-".toList ++ (host.machine ++ '-' :: (host.sysname ++ '-' :: (device ++ ".json".toList)))

def manifestPath (host : Host) (target : DownloadTarget) : List Char :=
  joinPath target.path (manifestFilename host target.device)

def DownloadTarget.filePath (target : DownloadTarget) (file : String) : List Char :=
  joinPath target.path file.toList

/-- The locations on the way to a path, with those to the root of the cache. -/
def way (root : Location) (path : List Char) : List Location :=
  (root.map Subtype.val).scanl enter [] ++
    ((untilNul path).splitOn '/').scanl enter (if path.head? = some '/' then [] else root)

section Download

variable (host : Host)

/-! ## Writing -/

/-- Where a stream is opened for writing. -/
def writePlace (t : FileTree) (path : List Char) : Option Location :=
  (resolve t host.root path).filter fun l => Writable t l

/-- The tree with bytes written to a new file, or behind what a file has. -/
def writeBytes (t : FileTree) (path : List Char) (append : Bool) (data : List UInt8) : FileTree :=
  match writePlace host t path with
  | some l => t.insert l (.file ((if append then (contentAt t l).getD [] else []) ++ data))
  | none => t

/-- The tree that a write leaves. -/
def treeAfterWrite (t : FileTree) (path : List Char) (append : Bool) (data : List UInt8)
    (fate : WriteFate) : FileTree :=
  match fate.kept data with
  | some kept => writeBytes host t path append kept
  | none => t

/-- `ofs.write`, with `ofs.good()` behind it. -/
def writeFile (path : List Char) (append : Bool) (data : List UInt8) (fate : WriteFate) :
    Disk Bool := do
  let t ← get
  set (treeAfterWrite host t path append data fate)
  match fate with
  | .done | .lost _ => return (writePlace host t path).isSome
  | .failed _ => return false
  | .killed _ => throw .killed

/-! ## Requests -/

/-- The message of a request that was not answered well. -/
def failedDownload (path : List Char) (response : String) : Ended :=
  .failed ("Failed to download " ++ String.ofList path ++ ": HTTP " ++ response)

/-- `download_file`. Nothing is asked of the stream that the body is written to. -/
def downloadFile (path : List Char) (answer : Except String (ℕ × List UInt8)) (fate : WriteFate) :
    Disk PUnit :=
  match answer with
  | .error text => throw (failedDownload path text)
  | .ok (status, body) => do
    if status ≠ 200 then throw (failedDownload path (toString status))
    else
      let _ ← writeFile host path false body fate
      return ()

/-- The content receiver, piece by piece. It is called for a body of any status, and not for an empty
one; the first bytes replace what the file had. -/
def receive (path : List Char) : Option ℕ → ℕ → List BodyPiece → Disk Bool
  | _, _, [] => return true
  | some 0, _, _ :: _ => return false
  | sigint, existingSize, piece :: pieces => do
    if ← writeFile host path (0 < existingSize) piece.data piece.fate then
      receive path (sigint.map Nat.pred) (existingSize + piece.data.length) pieces
    else return false

/-- What is made of the response that the client has in the end. -/
def finishFile (path : List Char) (interrupted : Bool) : Except String ℕ → Disk PUnit
  | .ok 200 | .ok 206 => return ()
  | .ok status =>
    throw (if interrupted then .failed "Interrupted while downloading the model"
      else failedDownload path (toString status))
  | .error text =>
    throw (if interrupted then .failed "Interrupted while downloading the model"
      else failedDownload path text)

/-- `download_file_with_progress`. -/
def downloadFileWithProgress (path : List Char) (answer : FileAnswer) : Disk PUnit := do
  let received ← receive host path answer.sigint 0 answer.pieces
  finishFile path answer.sigint.isSome (if received then answer.response else .error host.canceled)

/-! ## The manifest -/

/-- `fs::remove`. -/
def removeFile (path : List Char) : Disk PUnit := do
  let t ← get
  match resolve t host.root path with
  | none => return ()
  | some l =>
    if IsDirectory t l ∧ (l = [] ∨ children t l ≠ []) then
      throw (.thrown (.exception "cannot remove"))
    else set (t.erase l)

/-- What a stream reads of a path, unless it cannot be opened. -/
def contentOf (t : FileTree) (path : List Char) : Option (List UInt8) :=
  (resolve t host.root path).bind (contentAt t)

/-- The manifest, which is removed when it is no JSON. -/
def readManifest (path : List Char) : Disk Json := do
  let t ← get
  match contentOf host t path with
  | none => throw (.failed ("Failed to open manifest at " ++ String.ofList path))
  | some content =>
    match host.parse content with
    | .ok manifest => return manifest
    | .error (.parseError what) => do
      removeFile host path
      throw (.failed ("Failed to parse manifest: " ++ what))
    | .error (.other what) => throw (.thrown (.exception what))

/-- `get<std::pair<std::string, std::string>>()`. -/
def readPair : Json → Except Ended (String × String)
  | .array (.string file :: .string sha1 :: _) => .ok (file, sha1)
  | _ => .error (.thrown (.exception "type must be pair"))

/-- The files of a manifest, each with its checksum. -/
def listedFiles (manifest : Json) : Except Ended (List (String × String)) :=
  match manifest.find "files" with
  | some (.array pairs) => pairs.mapM readPair
  | _ => .error (.failed "Manifest is missing a valid 'files' array")

/-- `manifest["lib"].get<std::string>()`. -/
def libFile (manifest : Json) : Except Ended String :=
  match manifest.find "lib" with
  | some (.string lib) => .ok lib
  | _ => .error (.thrown (.exception "type must be string"))

/-! ## The download -/

variable (target : DownloadTarget) (outside : Outside)

/-- The file is there with its checksum. -/
def isCached (t : FileTree) (pair : String × String) : Bool :=
  match contentOf host t (target.filePath pair.1) with
  | some content => pair.2 = host.sha1 content
  | none => false

/-- `files_to_download`. -/
def filesToDownload (t : FileTree) (pairs : List (String × String)) : List String :=
  (pairs.filter fun pair => !isCached host target t pair).map Prod.fst

/-- The files are asked for one behind the other. -/
def downloadFiles : ℕ → List String → Disk PUnit
  | _, [] => return ()
  | i, file :: files => do
    downloadFileWithProgress host (target.filePath file) (outside.answer i)
    downloadFiles (i + 1) files

/-- `fs::create_directories` of the root of the cache and of the directory of the model. -/
def createDirectories (path : List Char) : Disk PUnit := do
  let t ← get
  match outside.directories with
  | some n =>
    set (makeDirectories t ((way host.root path).take n)).1
    throw .killed
  | none =>
    let (t, made) := makeDirectories t (way host.root path)
    set t
    if !made then throw (.thrown (.exception "cannot create directories"))

/-- The manifest is asked for when there is none. -/
def fetchManifest : Disk PUnit := do
  let t ← get
  if (contentOf host t (manifestPath host target)).isSome then return ()
  else downloadFile host (manifestPath host target) outside.manifest outside.manifestFate

/-- `download_model`, up to what is returned when it fails. -/
def downloadSteps : Disk DownloadResult := do
  createDirectories host outside target.path
  fetchManifest host target outside
  let manifest ← readManifest host (manifestPath host target)
  let pairs ← listedFiles manifest
  let t ← get
  downloadFiles host target outside 0 (filesToDownload host target t pairs)
  let lib ← libFile manifest
  return ⟨true, some target.path, some (target.filePath lib), none⟩

/-- `download_model`. -/
def downloadModel : Disk DownloadResult :=
  tryCatch (downloadSteps host target outside) fun
    | .failed message => return ⟨false, none, none, some message⟩
    | ended => throw ended

/-! ## What a download has to do -/

/-- The bytes that the pieces of a body leave in a file. -/
def bodyBytes (pieces : List BodyPiece) : List UInt8 :=
  pieces.flatMap fun piece => (piece.fate.kept piece.data).getD []

/-- The cache in which the files are looked for: the directory of the model is made, and the manifest
is as it was, or as it has been written. -/
def readyCache (t : FileTree) : FileTree :=
  let made := (makeDirectories t (way host.root target.path)).1
  if (contentOf host made (manifestPath host target)).isSome then made
  else match outside.manifest with
    | .ok (_, body) =>
      treeAfterWrite host made (manifestPath host target) false body outside.manifestFate
    | .error _ => made

/-- The manifest that a call uses. -/
def usedManifest (t : FileTree) : Option Json :=
  (contentOf host (readyCache host target outside t) (manifestPath host target)).bind
    fun content => (host.parse content).toOption

/-- A listed file is in the directory of the model and has its checksum. -/
def HasChecksum (t : FileTree) (pair : String × String) : Prop :=
  ((resolve t host.root (target.filePath pair.1)).bind (readFile t)).map host.sha1 = some pair.2

/-- What the answers leave at a location: the body of the last one for it that has any pieces. -/
def lastDelivery (t : FileTree) (l : Location) : ℕ → List String → Option (List UInt8)
  | _, [] => none
  | i, file :: files =>
    (lastDelivery t l (i + 1) files).or
      (if resolve t host.root (target.filePath file) = some l ∧ (outside.answer i).pieces ≠ [] then
        some (bodyBytes (outside.answer i).pieces) else none)

/-- The last body that comes for the place of a listed file has the checksum of the file. Where none
comes with any piece, what the cache has there has it. -/
def Delivered (t : FileTree) (pairs : List (String × String)) (pair : String × String) : Prop :=
  let ready := readyCache host target outside t
  let files := filesToDownload host target ready pairs
  ((resolve ready host.root (target.filePath pair.1)).bind fun l =>
    (lastDelivery host target outside ready l 0 files).or (readFile ready l)).map host.sha1 =
      some pair.2

end Download

section Proofs

variable {host : Host} {target : DownloadTarget} {outside : Outside}

/-! ## Writes -/

theorem writePlace_eq_some_iff {t : FileTree} {path : List Char} {l : Location} :
    writePlace host t path = some l ↔ resolve t host.root path = some l ∧ Writable t l := by
  rw [writePlace, Option.filter_eq_some_iff, decide_eq_true_eq]

/-- The tree behind a write, whatever becomes of it. -/
theorem after_writeFile (t : FileTree) (path : List Char) (append : Bool) (data : List UInt8)
    (fate : WriteFate) : after (writeFile host path append data fate) t =
      treeAfterWrite host t path append data fate := by
  cases fate <;> rfl

theorem writePlace_congr {t t' : FileTree} (h : SameDirectories t t') (path : List Char) :
    writePlace host t path = writePlace host t' path := by
  ext l
  rw [writePlace_eq_some_iff, writePlace_eq_some_iff, h.resolve_eq, h.writable_iff]

/-- A write that is good leaves its bytes where the path leads to. -/
theorem yields_writeFile {t t' : FileTree} {path : List Char} {append : Bool} {data : List UInt8}
    {fate : WriteFate} (h : Yields (writeFile host path append data fate) t true t') :
    ∃ l kept, writePlace host t path = some l ∧ fate.kept data = some kept ∧
      t' = t.insert l (.file ((if append then (contentAt t l).getD [] else []) ++ kept)) := by
  have htree : t' = treeAfterWrite host t path append data fate :=
    h.after_eq.symm.trans (after_writeFile t path append data fate)
  have hgood : (writePlace host t path).isSome = true ∧ ∃ kept, fate.kept data = some kept := by
    cases fate with
    | done => exact ⟨Except.ok.inj (congrArg Prod.fst h), _, rfl⟩
    | lost n => exact ⟨Except.ok.inj (congrArg Prod.fst h), _, rfl⟩
    | failed written => cases congrArg Prod.fst h
    | killed written => cases congrArg Prod.fst h
  obtain ⟨hplace, kept, hkept⟩ := hgood
  obtain ⟨l, hl⟩ := Option.isSome_iff_exists.mp hplace
  refine ⟨l, kept, hl, hkept, ?_⟩
  rw [htree, treeAfterWrite, hkept]
  show writeBytes host t path append kept = _
  rw [writeBytes, hl]

theorem kept_nil {fate : WriteFate} {kept : List UInt8} (h : fate.kept [] = some kept) :
    kept = [] := by
  cases fate with
  | done => exact (Option.some.inj h).symm
  | lost n => simpa [WriteFate.kept] using h.symm
  | failed written => cases written <;> simp [WriteFate.kept] at h; exact h
  | killed written => cases written <;> simp [WriteFate.kept] at h; exact h

/-- A body that is received to its end is in the file, unless no piece of it came. -/
theorem yields_receive {t t' : FileTree} {path : List Char} {sigint : Option ℕ} {size : ℕ}
    {pieces : List BodyPiece} (h : Yields (receive host path sigint size pieces) t true t') :
    pieces = [] ∧ t' = t ∨ pieces ≠ [] ∧ ∃ l, writePlace host t path = some l ∧
      t' = t.insert l
        (.file ((if 0 < size then (contentAt t l).getD [] else []) ++ bodyBytes pieces)) := by
  induction pieces generalizing t sigint size with
  | nil =>
    rw [receive] at h
    exact .inl ⟨rfl, (yields_pure_iff.mp h).2.symm⟩
  | cons piece pieces ih =>
    refine .inr ⟨List.cons_ne_nil _ _, ?_⟩
    have hgo : Yields (do
        if ← writeFile host path (0 < size) piece.data piece.fate then
          receive host path (sigint.map Nat.pred) (size + piece.data.length) pieces
        else return false : Disk Bool) t true t' := by
      match sigint with
      | some 0 => cases congrArg Prod.fst h
      | none | some (n + 1) => exact h
    obtain ⟨good, t₁, hwrite, hrest⟩ := yields_bind_iff.mp hgo
    cases good with
    | false => cases (yields_pure_iff.mp hrest).1
    | true =>
      obtain ⟨l, kept, hplace, hkept, rfl⟩ := yields_writeFile hwrite
      simp only [decide_eq_true_eq] at hrest ⊢
      generalize hstart : (if 0 < size then (contentAt t l).getD [] else []) = start at hrest
      have hbody : bodyBytes (piece :: pieces) = kept ++ bodyBytes pieces := by
        simp [bodyBytes, hkept]
      refine ⟨l, hplace, ?_⟩
      rw [hstart, hbody]
      have hwritable := (writePlace_eq_some_iff.mp hplace).2
      rcases ih hrest with ⟨rfl, rfl⟩ | ⟨-, l', hplace', rfl⟩
      · rw [bodyBytes, List.flatMap_nil, List.append_nil]
      · obtain rfl : l = l' := by
          rw [← writePlace_congr (hwritable.sameDirectories _), hplace] at hplace'
          exact Option.some.inj hplace'
        rw [AList.insert_insert, contentAt_insert hwritable]
        -- Without a byte so far, the next piece opens the file anew.
        split_ifs with hsize
        · rw [Option.getD_some, List.append_assoc]
        · obtain ⟨rfl, hdata⟩ : size = 0 ∧ piece.data = [] := by simpa using hsize
          rw [hdata] at hkept
          rw [kept_nil hkept, ← hstart, if_neg (Nat.lt_irrefl 0)]
          rfl

theorem yields_finishFile {t t' : FileTree} {path : List Char} {interrupted : Bool}
    {response : Except String ℕ} {u : PUnit}
    (h : Yields (finishFile path interrupted response) t u t') :
    (response = .ok 200 ∨ response = .ok 206) ∧ t = t' := by
  unfold finishFile at h
  split at h
  · exact ⟨.inl rfl, (yields_pure_iff.mp h).2⟩
  · exact ⟨.inr rfl, (yields_pure_iff.mp h).2⟩
  · exact absurd h not_yields_throw
  · exact absurd h not_yields_throw

/-- A file whose download succeeds is what came for it, if anything did. -/
theorem yields_downloadFileWithProgress {t t' : FileTree} {path : List Char} {answer : FileAnswer}
    {u : PUnit} (h : Yields (downloadFileWithProgress host path answer) t u t') :
    answer.pieces = [] ∧ t' = t ∨ answer.pieces ≠ [] ∧ ∃ l, resolve t host.root path = some l ∧
      Writable t l ∧ t' = t.insert l (.file (bodyBytes answer.pieces)) := by
  obtain ⟨received, t₁, hreceive, hresponse⟩ := yields_bind_iff.mp h
  have hgood : received = true ∧ t₁ = t' := by
    cases received with
    | true => exact ⟨rfl, (yields_finishFile hresponse).2⟩
    | false => exact absurd (yields_finishFile hresponse).1 (by simp)
  obtain ⟨rfl, rfl⟩ := hgood
  refine (yields_receive hreceive).imp_right fun ⟨hne, l, hplace, htree⟩ => ⟨hne, ?_⟩
  obtain ⟨hresolve, hwritable⟩ := writePlace_eq_some_iff.mp hplace
  exact ⟨l, hresolve, hwritable, htree⟩

theorem sameDirectories_downloadFile {t t' : FileTree} {path : List Char} {answer : FileAnswer}
    {u : PUnit} (h : Yields (downloadFileWithProgress host path answer) t u t') :
    SameDirectories t t' := by
  rcases yields_downloadFileWithProgress h with ⟨-, rfl⟩ | ⟨-, l, -, hwritable, rfl⟩
  · exact .refl _
  · exact hwritable.sameDirectories _

theorem lastDelivery_congr {t t' : FileTree} (h : SameDirectories t t') (l : Location) (i : ℕ)
    (files : List String) : lastDelivery host target outside t l i files =
      lastDelivery host target outside t' l i files := by
  induction files generalizing i with
  | nil => rfl
  | cons file files ih => rw [lastDelivery, lastDelivery, ih, h.resolve_eq]

/-- The loop leaves at each location what came for it last. -/
theorem yields_downloadFiles {t t' : FileTree} {i : ℕ} {files : List String} {u : PUnit}
    (h : Yields (downloadFiles host target outside i files) t u t') :
    SameDirectories t t' ∧ ∀ l, t'.lookup l =
      ((lastDelivery host target outside t l i files).map Entry.file).or (t.lookup l) := by
  induction files generalizing t i u with
  | nil =>
    obtain ⟨-, rfl⟩ := yields_pure_iff.mp h
    exact ⟨.refl t, fun l => rfl⟩
  | cons file files ih =>
    obtain ⟨u', t₁, hfile, hfiles⟩ := yields_bind_iff.mp h
    obtain ⟨hsame, hlookup⟩ := ih hfiles
    have hfirst := sameDirectories_downloadFile hfile
    refine ⟨hfirst.trans hsame, fun l => ?_⟩
    have hlast : lastDelivery host target outside t₁ l (i + 1) files =
        lastDelivery host target outside t l (i + 1) files := lastDelivery_congr hfirst.symm l _ _
    rw [hlookup, hlast, lastDelivery, Option.map_or, Option.or_assoc]
    congr 1
    rcases yields_downloadFileWithProgress hfile with
      ⟨hnil, rfl⟩ | ⟨hne, l', hresolve, -, rfl⟩
    · rw [if_neg fun h => h.2 hnil]
      rfl
    · rw [UnorderedMap.lookup_insert_eq, hresolve]
      by_cases heq : l = l'
      · rw [if_pos heq, if_pos ⟨congrArg some heq.symm, hne⟩]
        rfl
      · rw [if_neg heq, if_neg fun h => heq (Option.some.inj h.1).symm]
        rfl

theorem yields_createDirectories {t t' : FileTree} {path : List Char} {u : PUnit}
    (h : Yields (createDirectories host outside path) t u t') :
    makeDirectories t (way host.root path) = (t', true) := by
  obtain ⟨t₁, t₂, hget, h⟩ := yields_bind_iff.mp h
  obtain ⟨rfl, rfl⟩ := yields_get_iff.mp hget
  split at h
  · obtain ⟨_, _, -, hthrow⟩ := yields_bind_iff.mp h
    exact absurd hthrow not_yields_throw
  · split at h
    rename_i t₁ made hmake
    obtain ⟨_, t₂, hset, h⟩ := yields_bind_iff.mp h
    obtain rfl := yields_set_iff.mp hset
    cases made with
    | false => exact absurd h not_yields_throw
    | true =>
      obtain ⟨-, rfl⟩ := yields_pure_iff.mp h
      exact hmake

theorem yields_downloadFile {t t' : FileTree} {path : List Char}
    {answer : Except String (ℕ × List UInt8)} {fate : WriteFate} {u : PUnit}
    (h : Yields (downloadFile host path answer fate) t u t') :
    ∃ body, answer = .ok (200, body) ∧ t' = treeAfterWrite host t path false body fate := by
  unfold downloadFile at h
  split at h
  · exact absurd h not_yields_throw
  · rename_i status body
    split_ifs at h with hstatus
    · exact absurd h not_yields_throw
    · obtain ⟨good, t₁, hwrite, h⟩ := yields_bind_iff.mp h
      obtain ⟨-, rfl⟩ := yields_pure_iff.mp h
      refine ⟨body, by rw [not_not.mp hstatus], ?_⟩
      rw [← hwrite.after_eq, after_writeFile]

theorem fetchManifest_apply (t : FileTree) : fetchManifest host target outside t =
    (if (contentOf host t (manifestPath host target)).isSome then return ()
    else downloadFile host (manifestPath host target) outside.manifest outside.manifestFate :
      Disk PUnit) t := rfl

theorem yields_fetchManifest {t t' : FileTree} {u : PUnit}
    (h : Yields (fetchManifest host target outside) t u t') :
    (contentOf host t (manifestPath host target)).isSome = true ∧ t' = t ∨
      contentOf host t (manifestPath host target) = none ∧ ∃ body,
        outside.manifest = .ok (200, body) ∧
        t' = treeAfterWrite host t (manifestPath host target) false body outside.manifestFate := by
  unfold Yields at h
  rw [fetchManifest_apply] at h
  split_ifs at h with hthere
  · exact .inl ⟨hthere, (yields_pure_iff.mp h).2.symm⟩
  · exact .inr ⟨Option.not_isSome_iff_eq_none.mp hthere, yields_downloadFile h⟩

theorem yields_readManifest {t t' : FileTree} {path : List Char} {manifest : Json}
    (h : Yields (readManifest host path) t manifest t') :
    t = t' ∧ ∃ content, contentOf host t path = some content ∧ host.parse content = .ok manifest := by
  obtain ⟨t₁, t₂, hget, h⟩ := yields_bind_iff.mp h
  obtain ⟨rfl, rfl⟩ := yields_get_iff.mp hget
  split at h
  · exact absurd h not_yields_throw
  · rename_i content hcontent
    split at h
    · rename_i found hparse
      obtain ⟨rfl, rfl⟩ := yields_pure_iff.mp h
      exact ⟨rfl, content, hcontent, hparse⟩
    · obtain ⟨_, _, -, hthrow⟩ := yields_bind_iff.mp h
      exact absurd hthrow not_yields_throw
    · exact absurd h not_yields_throw

/-- A call that gets through has made the cache ready, has read the manifest, and has asked for the
files. -/
theorem yields_downloadSteps {t t' : FileTree} {r : DownloadResult}
    (h : Yields (downloadSteps host target outside) t r t') :
    ∃ manifest pairs lib,
      usedManifest host target outside t = some manifest ∧ listedFiles manifest = .ok pairs ∧
      Yields (downloadFiles host target outside 0
          (filesToDownload host target (readyCache host target outside t) pairs))
        (readyCache host target outside t) PUnit.unit t' ∧ libFile manifest = .ok lib ∧
      r = ⟨true, some target.path, some (target.filePath lib), none⟩ := by
  obtain ⟨_, made, hmake, h⟩ := yields_bind_iff.mp h
  obtain ⟨_, ready, hfetch, h⟩ := yields_bind_iff.mp h
  obtain ⟨manifest, ready', hread, h⟩ := yields_bind_iff.mp h
  obtain ⟨pairs, ready'', hpairs, h⟩ := yields_bind_iff.mp h
  obtain ⟨t₁, t₂, hget, h⟩ := yields_bind_iff.mp h
  obtain ⟨⟨⟩, t₃, hfiles, h⟩ := yields_bind_iff.mp h
  obtain ⟨lib, t₄, hlib, h⟩ := yields_bind_iff.mp h
  obtain ⟨rfl, content, hcontent, hparse⟩ := yields_readManifest hread
  obtain ⟨hlisted, rfl⟩ := yields_liftM_iff.mp hpairs
  obtain ⟨rfl, rfl⟩ := yields_get_iff.mp hget
  obtain ⟨hlibFile, rfl⟩ := yields_liftM_iff.mp hlib
  obtain ⟨rfl, rfl⟩ := yields_pure_iff.mp h
  have hready : ready = readyCache host target outside t := by
    rw [readyCache, yields_createDirectories hmake]
    rcases yields_fetchManifest hfetch with ⟨hthere, rfl⟩ | ⟨hnone, body, hanswer, rfl⟩
    · rw [if_pos hthere]
    · rw [hnone, hanswer]
      rfl
  subst hready
  refine ⟨manifest, pairs, lib, ?_, hlisted, hfiles, hlibFile, rfl⟩
  rw [usedManifest, hcontent]
  show (host.parse content).toOption = _
  rw [hparse]
  rfl

/-- A call is successful when it gets through. -/
theorem downloadModel_success_iff {t t' : FileTree} {r : DownloadResult} :
    Yields (downloadModel host target outside) t r t' ∧ r.success = true ↔
      Yields (downloadSteps host target outside) t r t' := by
  constructor
  · rintro ⟨h, hsuccess⟩
    unfold Yields downloadModel at h
    rw [tryCatch_apply] at h
    split at h
    · rename_i hsteps
      exact hsteps.trans h
    · split at h
      · obtain rfl := Except.ok.inj (congrArg Prod.fst h)
        cases hsuccess
      · cases congrArg Prod.fst h
  · intro h
    obtain ⟨_, _, _, -, -, -, -, hr⟩ := yields_downloadSteps h
    refine ⟨?_, by rw [hr]⟩
    unfold Yields downloadModel at *
    rw [tryCatch_apply, h]

/-- A file has its checksum behind the loop when what was left of it has. -/
theorem hasChecksum_iff {t t' : FileTree} {pairs : List (String × String)} {u : PUnit}
    (h : Yields (downloadFiles host target outside 0
        (filesToDownload host target (readyCache host target outside t) pairs))
      (readyCache host target outside t) u t') (pair : String × String) :
    HasChecksum host target t' pair ↔ Delivered host target outside t pairs pair := by
  obtain ⟨hsame, hlookup⟩ := yields_downloadFiles h
  have hread : ∀ l, readFile t' l = (lastDelivery host target outside
      (readyCache host target outside t) l 0
      (filesToDownload host target (readyCache host target outside t) pairs)).or
        (readFile (readyCache host target outside t) l) := by
    intro l
    rw [readFile, hlookup]
    cases lastDelivery host target outside (readyCache host target outside t) l 0
      (filesToDownload host target (readyCache host target outside t) pairs) <;> rfl
  unfold HasChecksum Delivered
  rw [← hsame.resolve_eq]
  simp only [← hread]

/-- The result says that the call was successful. -/
def succeeds : Except Ended DownloadResult → Bool
  | .ok r => r.success
  | .error _ => false

theorem exists_of_succeeds {t : FileTree}
    (h : succeeds (downloadModel host target outside t).1 = true) :
    ∃ r, Yields (downloadModel host target outside) t r (downloadModel host target outside t).2 ∧
      r.success = true := by
  cases hresult : downloadModel host target outside t with
  | mk result t' =>
    rw [hresult] at h
    cases result with
    | ok r => exact ⟨r, hresult, h⟩
    | error e => cases h

/-- With a parser that knows one manifest only, that is the one that is used. -/
theorem usedManifest_of_const {t : FileTree} {manifest : Json}
    (hparse : ∀ content, host.parse content = .ok manifest)
    (h : (contentOf host (readyCache host target outside t)
      (manifestPath host target)).isSome = true) :
    usedManifest host target outside t = some manifest := by
  obtain ⟨content, hcontent⟩ := Option.isSome_iff_exists.mp h
  rw [usedManifest, hcontent]
  show (host.parse content).toOption = some manifest
  rw [hparse]
  rfl

end Proofs

end Ailoy
