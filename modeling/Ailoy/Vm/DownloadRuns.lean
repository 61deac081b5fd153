import Ailoy.Vm.Download

/-!
# Downloads behind other downloads

What earlier calls of `download_model` for a model leave in the cache. A manifest that is there is
not asked for again, and only one that is no JSON is removed. The cache is `Startable` while the
manifests in it are `Usable`, and a call leaves it so when the manifest that it stores is one that
can be used, or is removed by the same call. `download_recovers` has this for whole histories, of
calls that fail or are interrupted anywhere.
-/

namespace Ailoy

open FileTree Effects

section Runs

variable (host : Host) (modelId quantization : List Char)

/-! ## The state between calls -/

/-- The arguments of the calls, which differ by their device. -/
def targetFor (device : List Char) : DownloadTarget := ⟨modelId, quantization, device⟩

/-- The directory of the model, as a path. -/
def modelPath : List Char := joinPath (getModelBasePath modelId) quantization

/-- The device has a manifest in the directory of the model. -/
def HasManifestName (device : List Char) : Prop := '/' ∉ manifestFilename host device

/-- The place of the manifest for a device. -/
def manifestPlace (t : FileTree) (device : List Char) : Option Location :=
  resolve t host.root (manifestPath host (targetFor modelId quantization device))

/-- The content of a manifest that can be used: its files can be placed, none of them where a
manifest is. -/
def Usable (t : FileTree) (content : List UInt8) : Prop :=
  ∃ manifest pairs lib, host.parse content = .ok manifest ∧ listedFiles manifest = .ok pairs ∧
    libFile manifest = .ok lib ∧ ∀ pair ∈ pairs, ∃ l,
      writePlace host t (joinPath (modelPath modelId quantization) pair.1.toList) = some l ∧
      ∀ device, HasManifestName host device →
        manifestPlace host modelId quantization t device ≠ some l

/-- The directory of the model is made, and the manifests in it can be used. -/
structure Sound (t : FileTree) : Prop where
  made : ∀ l ∈ way host.root (modelPath modelId quantization), IsDirectory t l
  manifests : ∀ device l, HasManifestName host device →
    manifestPlace host modelId quantization t device = some l →
    ¬ IsDirectory t l ∧
      ∀ content, t.lookup l = some (.file content) → Usable host modelId quantization t content

/-- The cache when the directory of the model is made. -/
def madeCache (t : FileTree) : FileTree :=
  (makeDirectories t (way host.root (modelPath modelId quantization))).1

/-- The directory of the model can be made, and the manifests in it can be used then. -/
def Startable (t : FileTree) : Prop :=
  (makeDirectories t (way host.root (modelPath modelId quantization))).2 = true ∧
    Sound host modelId quantization (madeCache host modelId quantization t)

/-! ## Calls -/

/-- The cache behind a call. -/
def afterCall (t : FileTree) (call : List Char × Outside) : FileTree :=
  after (downloadModel host (targetFor modelId quantization call.1) call.2) t

/-- What the call stores of a manifest can be used, or it is no JSON and is not left by the end of the
process. -/
def HarmlessManifest (t : FileTree) (call : List Char × Outside) : Prop :=
  ∀ l body stored, manifestPlace host modelId quantization t call.1 = some l →
    t.lookup l = none → call.2.manifest = .ok (200, body) →
    call.2.manifestFate.kept body = some stored →
    Usable host modelId quantization t stored ∨
      (∃ what, host.parse stored = .error (.parseError what)) ∧
        ∀ written, call.2.manifestFate ≠ .killed written

/-- The call leaves no manifest that blocks others. -/
def Harmless (t : FileTree) (call : List Char × Outside) : Prop :=
  (HasManifestName host call.1 ∨
    manifestPlace host modelId quantization (madeCache host modelId quantization t) call.1 = none) ∧
  HarmlessManifest host modelId quantization (madeCache host modelId quantization t) call

/-- The cache behind a history of calls. -/
def afterCalls (t : FileTree) (history : List (List Char × Outside)) : FileTree :=
  history.foldl (afterCall host modelId quantization) t

/-- All calls of a history are harmless. -/
def HarmlessHistory : FileTree → List (List Char × Outside) → Prop
  | _, [] => True
  | t, call :: history => Harmless host modelId quantization t call ∧
    HarmlessHistory (afterCall host modelId quantization t call) history

/-- Everything is answered, stored and left in peace: the manifest, if it is asked for, can be used,
and the bodies of the files come to their ends. -/
structure AnswersAll (t : FileTree) (outside : Outside) : Prop where
  undisturbed : outside.directories = none
  manifest : ∃ body, outside.manifest = .ok (200, body) ∧ outside.manifestFate = .done ∧
    Usable host modelId quantization (madeCache host modelId quantization t) body
  files : ∀ i, (outside.answer i).sigint = none ∧
    ((outside.answer i).response = .ok 200 ∨ (outside.answer i).response = .ok 206) ∧
    ∀ piece ∈ (outside.answer i).pieces, piece.fate = .done

end Runs

section Proofs

variable {host : Host} {modelId quantization : List Char}

/-! ## Sound caches -/

theorem manifestPlace_congr {t t' : FileTree} (h : SameDirectories t t') (device : List Char) :
    manifestPlace host modelId quantization t device =
      manifestPlace host modelId quantization t' device := h.resolve_eq _ _

theorem Usable.congr {t t' : FileTree} (h : SameDirectories t t') {content : List UInt8}
    (husable : Usable host modelId quantization t content) :
    Usable host modelId quantization t' content := by
  obtain ⟨manifest, pairs, lib, hparse, hpairs, hlib, hplaces⟩ := husable
  refine ⟨manifest, pairs, lib, hparse, hpairs, hlib, fun pair hpair => ?_⟩
  obtain ⟨l, hl, hnot⟩ := hplaces pair hpair
  refine ⟨l, writePlace_congr h _ ▸ hl, fun device hdevice => ?_⟩
  rw [← manifestPlace_congr h]
  exact hnot device hdevice

/-- A cache with the same directories is sound when each manifest that is new to it can be used. -/
theorem Sound.of_sameDirectories {t t' : FileTree} (h : Sound host modelId quantization t)
    (hsame : SameDirectories t t')
    (hnew : ∀ device l content, HasManifestName host device →
      manifestPlace host modelId quantization t device = some l →
      t'.lookup l = some (.file content) → t.lookup l ≠ some (.file content) →
      Usable host modelId quantization t content) :
    Sound host modelId quantization t' := by
  refine ⟨fun l hl => (hsame l).mp (h.made l hl), fun device l hdevice hplace => ?_⟩
  rw [← manifestPlace_congr hsame] at hplace
  obtain ⟨hdirectory, husable⟩ := h.manifests device l hdevice hplace
  refine ⟨fun hdir => hdirectory ((hsame l).mpr hdir), fun content hcontent => ?_⟩
  by_cases hold : t.lookup l = some (.file content)
  · exact (husable content hold).congr hsame
  · exact (hnew device l content hdevice hplace hcontent hold).congr hsame

/-- A file can be written that is no manifest, or a manifest that can be used. -/
theorem Sound.insert {t : FileTree} (h : Sound host modelId quantization t) {l : Location}
    (hl : Writable t l) {content : List UInt8}
    (husable : ∀ device, HasManifestName host device →
      manifestPlace host modelId quantization t device = some l →
      Usable host modelId quantization t content) :
    Sound host modelId quantization (t.insert l (.file content)) := by
  refine h.of_sameDirectories (hl.sameDirectories content) ?_
  intro device l' content' hdevice hplace hnew hold
  rw [UnorderedMap.lookup_insert_eq] at hnew
  split_ifs at hnew with heq
  · obtain rfl : content = content' := by simpa using hnew
    exact husable device hdevice (heq ▸ hplace)
  · exact absurd hnew hold

theorem Sound.madeCache_eq {t : FileTree} (h : Sound host modelId quantization t) :
    makeDirectories t (way host.root (modelPath modelId quantization)) = (t, true) :=
  makeDirectories_eq_self h.made

theorem Sound.startable {t : FileTree} (h : Sound host modelId quantization t) :
    Startable host modelId quantization t := by
  unfold Startable madeCache
  rw [h.madeCache_eq]
  exact ⟨rfl, h⟩

/-! ## What a call keeps -/

/-- A path that leads to no manifest. -/
def Apart (host : Host) (modelId quantization : List Char) (t : FileTree) (path : List Char) : Prop :=
  ∀ l, writePlace host t path = some l → ∀ device, HasManifestName host device →
    manifestPlace host modelId quantization t device ≠ some l

/-- The cache is sound, with the directories that it had. -/
def SoundSince (host : Host) (modelId quantization : List Char) (t₀ t : FileTree) : Prop :=
  Sound host modelId quantization t ∧ SameDirectories t₀ t

theorem keeps_writeFile {t₀ : FileTree} {path : List Char} (append : Bool) (data : List UInt8)
    (fate : WriteFate) (hpath : Apart host modelId quantization t₀ path) :
    Keeps (SoundSince host modelId quantization t₀) (writeFile host path append data fate) := by
  rintro t ⟨hsound, hsame⟩
  rw [after_writeFile, treeAfterWrite]
  cases fate.kept data with
  | none => exact ⟨hsound, hsame⟩
  | some kept =>
    show SoundSince host modelId quantization t₀ (writeBytes host t path append kept)
    unfold writeBytes
    split
    · rename_i l hl
      have hwritable := (writePlace_eq_some_iff.mp hl).2
      refine ⟨hsound.insert hwritable fun device hdevice hplace => ?_,
        hsame.trans (hwritable.sameDirectories _)⟩
      rw [← writePlace_congr hsame] at hl
      rw [← manifestPlace_congr hsame] at hplace
      exact absurd hplace (hpath l hl device hdevice)
    · exact ⟨hsound, hsame⟩

theorem keeps_receive {t₀ : FileTree} {path : List Char}
    (hpath : Apart host modelId quantization t₀ path) (sigint : Option ℕ) (size : ℕ)
    (pieces : List BodyPiece) :
    Keeps (SoundSince host modelId quantization t₀) (receive host path sigint size pieces) := by
  induction pieces generalizing sigint size with
  | nil =>
    rw [receive]
    exact keeps_pure true
  | cons piece pieces ih =>
    have hgo : ∀ sigint', Keeps (SoundSince host modelId quantization t₀) (do
        if ← writeFile host path (0 < size) piece.data piece.fate then
          receive host path sigint' (size + piece.data.length) pieces
        else return false) := by
      intro sigint'
      refine (keeps_writeFile _ _ _ hpath).bind fun good => ?_
      split
      · exact ih _ _
      · exact keeps_pure false
    cases sigint with
    | none => exact hgo none
    | some n =>
      cases n with
      | zero => exact keeps_pure false
      | succ n => exact hgo (some n)

theorem keeps_downloadFileWithProgress {t₀ : FileTree} {path : List Char}
    (hpath : Apart host modelId quantization t₀ path) (answer : FileAnswer) :
    Keeps (SoundSince host modelId quantization t₀) (downloadFileWithProgress host path answer) := by
  refine (keeps_receive hpath _ _ _).bind fun received => ?_
  unfold finishFile
  split
  · exact keeps_pure _
  · exact keeps_pure _
  · exact keeps_throw _
  · exact keeps_throw _

/-- The files of a manifest that can be used are no manifests. -/
theorem keeps_downloadFiles {t₀ : FileTree} {device : List Char} {outside : Outside} (i : ℕ)
    {files : List String}
    (hfiles : ∀ file ∈ files, Apart host modelId quantization t₀
      (joinPath (modelPath modelId quantization) file.toList)) :
    Keeps (SoundSince host modelId quantization t₀)
      (downloadFiles host (targetFor modelId quantization device) outside i files) := by
  induction files generalizing i with
  | nil => exact keeps_pure _
  | cons file files ih =>
    obtain ⟨hfile, hrest⟩ := List.forall_mem_cons.mp hfiles
    exact (keeps_downloadFileWithProgress hfile _).bind fun _ => ih _ hrest

/-- The program behind the request for the manifest. -/
def behindManifest (host : Host) (target : DownloadTarget) (outside : Outside) :
    Disk DownloadResult := do
  let manifest ← readManifest host (manifestPath host target)
  let pairs ← listedFiles manifest
  let t ← get
  downloadFiles host target outside 0 (filesToDownload host target t pairs)
  let lib ← libFile manifest
  return ⟨true, some target.path, some (target.filePath lib), none⟩

theorem downloadSteps_eq (host : Host) (target : DownloadTarget) (outside : Outside) :
    downloadSteps host target outside = (do
      createDirectories host outside target.path
      fetchManifest host target outside
      behindManifest host target outside) := rfl

/-- A manifest that is there in a sound cache can be used. -/
theorem Sound.usable_of_contentOf {t : FileTree} (h : Sound host modelId quantization t)
    {device : List Char} (hdevice : HasManifestName host device ∨
      manifestPlace host modelId quantization t device = none) {content : List UInt8}
    (hcontent : contentOf host t (manifestPath host (targetFor modelId quantization device)) =
      some content) : Usable host modelId quantization t content := by
  obtain ⟨l, hplace, hread⟩ := Option.bind_eq_some_iff.mp hcontent
  have hname : HasManifestName host device := hdevice.resolve_right fun hnone => by
    rw [manifestPlace, hplace] at hnone
    cases hnone
  obtain ⟨hdirectory, husable⟩ := h.manifests device l hname hplace
  rw [contentAt_of_not_directory hdirectory] at hread
  split at hread
  · rename_i found hfound
    obtain rfl := Option.some.inj hread
    exact husable found hfound
  · cases hread

/-- A manifest that is JSON is left where it is. -/
theorem after_readManifest {t : FileTree} {path : List Char}
    (h : ∀ content, contentOf host t path = some content → ∃ manifest,
      host.parse content = .ok manifest) : after (readManifest host path) t = t := by
  refine after_bind (P := fun s => s = t) (fun _ _ => rfl) fun t₁ t₂ hget => ?_
  obtain ⟨rfl, rfl⟩ := yields_get_iff.mp hget
  split
  · rfl
  · rename_i content hcontent
    obtain ⟨manifest, hparse⟩ := h content hcontent
    rw [hparse]
    rfl

/-- A manifest that is no JSON is removed. -/
theorem after_readManifest_of_parseError {t : FileTree} {path : List Char} {l : Location}
    {content : List UInt8} {what : String} (hplace : resolve t host.root path = some l)
    (hdirectory : ¬ IsDirectory t l) (hcontent : contentOf host t path = some content)
    (hparse : host.parse content = .error (.parseError what)) :
    after (readManifest host path) t = t.erase l := by
  have hremove : after (removeFile host path) t = t.erase l := by
    refine after_bind (P := fun s => s = t.erase l) (fun _ he => nomatch he) fun t₁ t₂ hget => ?_
    obtain ⟨rfl, rfl⟩ := yields_get_iff.mp hget
    rw [hplace]
    show after (if IsDirectory t l ∧ _ then _ else _) t = _
    rw [if_neg fun h => hdirectory h.1]
    rfl
  refine after_bind (P := fun s => s = t.erase l) (fun _ he => nomatch he) fun t₁ t₂ hget => ?_
  obtain ⟨rfl, rfl⟩ := yields_get_iff.mp hget
  simp only [hcontent, hparse]
  exact after_bind (P := fun s => s = t.erase l) (fun _ _ => hremove)
    fun _ _ h => h.after_eq.symm.trans hremove

/-- A call that finds the cache sound behind the request for the manifest leaves it so. -/
theorem sound_behindManifest {t : FileTree} {device : List Char} {outside : Outside}
    (h : Sound host modelId quantization t) (hdevice : HasManifestName host device ∨
      manifestPlace host modelId quantization t device = none) :
    Sound host modelId quantization
      (after (behindManifest host (targetFor modelId quantization device) outside) t) := by
  refine after_bind (fun e _ => ?_) fun manifest t₁ hread => ?_
  · rw [after_readManifest fun content hcontent => ?_]
    · exact h
    · obtain ⟨manifest, _, _, hparse, -⟩ := h.usable_of_contentOf hdevice hcontent
      exact ⟨manifest, hparse⟩
  obtain ⟨rfl, content, hcontent, hparse⟩ := yields_readManifest hread
  obtain ⟨manifest', pairs, lib, hparse', hpairs, -, hplaces⟩ :=
    h.usable_of_contentOf hdevice hcontent
  obtain rfl : manifest' = manifest := Except.ok.inj (hparse'.symm.trans hparse)
  refine after_bind (fun e _ => h) fun pairs' t₁ hlisted => ?_
  obtain ⟨hpairs', rfl⟩ := yields_liftM_iff.mp hlisted
  obtain rfl : pairs = pairs' := Except.ok.inj (hpairs.symm.trans hpairs')
  refine after_bind (fun e _ => h) fun t₁ t₂ hget => ?_
  obtain ⟨rfl, rfl⟩ := yields_get_iff.mp hget
  have hfiles : ∀ file ∈ filesToDownload host (targetFor modelId quantization device) t pairs,
      Apart host modelId quantization t (joinPath (modelPath modelId quantization) file.toList) := by
    intro file hfile l hl device' hdevice'
    obtain ⟨pair, hpair, rfl⟩ := List.mem_map.mp hfile
    obtain ⟨l', hl', hnot⟩ := hplaces pair (List.mem_of_mem_filter hpair)
    obtain rfl : l' = l := Option.some.inj (hl'.symm.trans hl)
    exact hnot device' hdevice'
  have hkeeps : Keeps (SoundSince host modelId quantization t) (do
      downloadFiles host (targetFor modelId quantization device) outside 0
        (filesToDownload host (targetFor modelId quantization device) t pairs)
      let lib ← libFile manifest'
      return (⟨true, some (targetFor modelId quantization device).path,
        some ((targetFor modelId quantization device).filePath lib), none⟩ : DownloadResult)) := by
    refine (keeps_downloadFiles 0 hfiles).bind fun _ => Keeps.bind (fun t ht => ht) fun lib => ?_
    exact keeps_pure _
  exact (hkeeps t ⟨h, .refl t⟩).1

/-- A manifest that is no JSON is gone behind the call that stored it. -/
theorem sound_behind_parseError {t : FileTree} {device : List Char} {outside : Outside}
    {l : Location} {stored : List UInt8} {what : String} (h : Sound host modelId quantization t)
    (hplace : manifestPlace host modelId quantization t device = some l) (hl : Writable t l)
    (hparse : host.parse stored = .error (.parseError what)) :
    Sound host modelId quantization (after
      (behindManifest host (targetFor modelId quantization device) outside)
      (t.insert l (.file stored))) := by
  have hsame := hl.sameDirectories stored
  have hplace' : resolve (t.insert l (.file stored)) host.root
      (manifestPath host (targetFor modelId quantization device)) = some l := by
    rw [← hsame.resolve_eq]
    exact hplace
  have hdirectory : ¬ IsDirectory (t.insert l (.file stored)) l := fun hdir =>
    hl.2.2 ((hsame l).mpr hdir)
  have hcontent : contentOf host (t.insert l (.file stored))
      (manifestPath host (targetFor modelId quantization device)) = some stored := by
    rw [contentOf, hplace']
    exact contentAt_insert hl stored
  refine after_bind (fun e _ => ?_) fun manifest t₁ hread => ?_
  · rw [after_readManifest_of_parseError hplace' hdirectory hcontent hparse]
    refine h.of_sameDirectories (hsame.trans (sameDirectories_erase hdirectory)) ?_
    intro device' l' content' _ _ hnew hold
    rw [UnorderedMap.lookup_erase_eq, UnorderedMap.lookup_insert_eq] at hnew
    split_ifs at hnew
    exact absurd hnew hold
  · obtain ⟨-, content, hcontent', hparse'⟩ := yields_readManifest hread
    obtain rfl := Option.some.inj (hcontent.symm.trans hcontent')
    rw [hparse] at hparse'
    cases hparse'

/-- What a write leaves of a manifest. -/
theorem treeAfterWrite_cases (host : Host) (t : FileTree) (path : List Char) (body : List UInt8)
    (fate : WriteFate) : treeAfterWrite host t path false body fate = t ∨
      ∃ l stored, writePlace host t path = some l ∧ fate.kept body = some stored ∧
        treeAfterWrite host t path false body fate = t.insert l (.file stored) := by
  unfold treeAfterWrite
  cases fate.kept body with
  | none => exact .inl rfl
  | some stored =>
    cases hplace : writePlace host t path with
    | none =>
      left
      show writeBytes host t path false stored = t
      rw [writeBytes, hplace]
    | some l =>
      refine .inr ⟨l, stored, rfl, rfl, ?_⟩
      show writeBytes host t path false stored = _
      rw [writeBytes, hplace]
      rfl

/-- Where a manifest is written, there was nothing. -/
theorem lookup_of_contentOf_none {t : FileTree} {path : List Char} {l : Location}
    (hplace : writePlace host t path = some l) (h : contentOf host t path = none) :
    t.lookup l = none := by
  obtain ⟨hresolve, hwritable⟩ := writePlace_eq_some_iff.mp hplace
  rw [contentOf, hresolve] at h
  have hread : contentAt t l = none := h
  rw [contentAt_of_not_directory hwritable.2.2] at hread
  cases hlookup : t.lookup l with
  | none => rfl
  | some entry =>
    rw [hlookup] at hread
    cases entry with
    | file content => cases hread
    | directory => exact absurd (.inr hlookup) hwritable.2.2

/-- The cache behind a manifest is sound, unless the manifest is no JSON and goes on to be read. -/
theorem stored_cases {t : FileTree} {call : List Char × Outside} {body : List UInt8}
    (h : Sound host modelId quantization t)
    (hharmless : HarmlessManifest host modelId quantization t call)
    (hnone : contentOf host t (manifestPath host (targetFor modelId quantization call.1)) = none)
    (hanswer : call.2.manifest = .ok (200, body)) {t' : FileTree}
    (htree : t' = treeAfterWrite host t
      (manifestPath host (targetFor modelId quantization call.1)) false body call.2.manifestFate) :
    Sound host modelId quantization t' ∨ (∀ written, call.2.manifestFate ≠ .killed written) ∧
      ∃ l stored what, t' = t.insert l (.file stored) ∧
        manifestPlace host modelId quantization t call.1 = some l ∧ Writable t l ∧
        host.parse stored = .error (.parseError what) := by
  rcases treeAfterWrite_cases host t
    (manifestPath host (targetFor modelId quantization call.1)) body call.2.manifestFate with
    heq | ⟨l, stored, hplace, hkept, heq⟩
  · exact .inl ((htree.trans heq).symm ▸ h)
  obtain ⟨hresolve, hwritable⟩ := writePlace_eq_some_iff.mp hplace
  rcases hharmless l body stored hresolve (lookup_of_contentOf_none hplace hnone) hanswer hkept with
    husable | ⟨⟨what, hparse⟩, halive⟩
  · exact .inl ((htree.trans heq).symm ▸ h.insert hwritable fun _ _ _ => husable)
  · exact .inr ⟨halive, l, stored, what, htree.trans heq, hresolve, hwritable, hparse⟩

theorem sameDirectories_treeAfterWrite (host : Host) (t : FileTree) (path : List Char)
    (body : List UInt8) (fate : WriteFate) :
    SameDirectories t (treeAfterWrite host t path false body fate) := by
  rcases treeAfterWrite_cases host t path body fate with heq | ⟨l, stored, hplace, -, heq⟩
  · rw [heq]
    exact .refl t
  · rw [heq]
    exact (writePlace_eq_some_iff.mp hplace).2.sameDirectories stored

theorem after_downloadFile_of_stop {t : FileTree} {path : List Char}
    {answer : Except String (ℕ × List UInt8)} {fate : WriteFate} {e : Ended}
    (h : (downloadFile host path answer fate t).1 = .error e) :
    after (downloadFile host path answer fate) t = t ∨
      (∃ written, fate = .killed written) ∧ ∃ body, answer = .ok (200, body) ∧
        after (downloadFile host path answer fate) t =
          treeAfterWrite host t path false body fate := by
  cases answer with
  | error text => exact .inl rfl
  | ok response =>
    obtain ⟨status, body⟩ := response
    by_cases hstatus : status = 200
    · subst hstatus
      right
      cases fate with
      | killed written => exact ⟨⟨written, rfl⟩, body, rfl, rfl⟩
      | done => cases h
      | lost written => cases h
      | failed written => cases h
    · left
      rw [downloadFile, if_pos hstatus]
      rfl

/-- Behind a request that stops there is the old cache, or what the end of the process has left. -/
theorem after_fetchManifest_of_stop {t : FileTree} {target : DownloadTarget} {outside : Outside}
    {e : Ended} (h : (fetchManifest host target outside t).1 = .error e) :
    after (fetchManifest host target outside) t = t ∨
      contentOf host t (manifestPath host target) = none ∧
      (∃ written, outside.manifestFate = .killed written) ∧ ∃ body,
        outside.manifest = .ok (200, body) ∧ after (fetchManifest host target outside) t =
          treeAfterWrite host t (manifestPath host target) false body outside.manifestFate := by
  unfold after
  rw [fetchManifest_apply] at h ⊢
  split_ifs at h ⊢ with hthere
  · cases h
  · exact (after_downloadFile_of_stop h).imp_right fun hkilled =>
      ⟨Option.not_isSome_iff_eq_none.mp hthere, hkilled⟩

/-- The part of a call behind the directories keeps a sound cache. -/
theorem sound_behindDirectories {t : FileTree} {call : List Char × Outside}
    (h : Sound host modelId quantization t)
    (hdevice : HasManifestName host call.1 ∨
      manifestPlace host modelId quantization t call.1 = none)
    (hharmless : HarmlessManifest host modelId quantization t call) :
    Sound host modelId quantization (after (do
      fetchManifest host (targetFor modelId quantization call.1) call.2
      behindManifest host (targetFor modelId quantization call.1) call.2) t) := by
  refine after_bind (fun e hstop => ?_) fun u t₁ hfetch => ?_
  · rcases after_fetchManifest_of_stop hstop with
      heq | ⟨hnone, ⟨written, hkilled⟩, body, hanswer, heq⟩
    · rw [heq]
      exact h
    · rcases stored_cases h hharmless hnone hanswer heq with hsound | ⟨halive, -⟩
      · exact hsound
      · exact absurd hkilled (halive written)
  · rcases yields_fetchManifest hfetch with ⟨-, rfl⟩ | ⟨hnone, body, hanswer, htree⟩
    · exact sound_behindManifest h hdevice
    rcases stored_cases h hharmless hnone hanswer htree with
      hsound | ⟨-, l, stored, what, rfl, hplace, hwritable, hparse⟩
    · refine sound_behindManifest hsound (hdevice.imp_right fun hplace => ?_)
      rw [htree, ← manifestPlace_congr (sameDirectories_treeAfterWrite _ _ _ _ _)]
      exact hplace
    · exact sound_behind_parseError h hplace hwritable hparse

theorem after_downloadModel (t : FileTree) (target : DownloadTarget) (outside : Outside) :
    after (downloadModel host target outside) t = after (downloadSteps host target outside) t := by
  unfold after downloadModel
  rw [tryCatch_apply]
  cases downloadSteps host target outside t with
  | mk result t' =>
    cases result with
    | ok r => rfl
    | error e => cases e <;> rfl

theorem createDirectories_of_cut (host : Host) {outside : Outside} {n : ℕ}
    (h : outside.directories = some n) (path : List Char) (t : FileTree) : createDirectories host outside path t =
      (.error .killed, (makeDirectories t ((way host.root path).take n)).1) := by
  unfold createDirectories
  rw [h]
  rfl

theorem createDirectories_of_made {outside : Outside} (h : outside.directories = none)
    {path : List Char} {t t' : FileTree}
    (hmake : makeDirectories t (way host.root path) = (t', true)) :
    Yields (createDirectories host outside path) t PUnit.unit t' := by
  refine yields_bind_iff.mpr ⟨t, t, rfl, ?_⟩
  simp only [h, hmake]
  exact yields_bind_iff.mpr ⟨PUnit.unit, t', rfl, rfl⟩

/-- A call that does no harm leaves the cache in a state from which the next one can start. -/
theorem Startable.afterCall {t : FileTree} {call : List Char × Outside}
    (h : Startable host modelId quantization t)
    (hharmless : Harmless host modelId quantization t call) :
    Startable host modelId quantization (afterCall host modelId quantization t call) := by
  obtain ⟨hmade, hsound⟩ := h
  obtain ⟨hdevice, hmanifest⟩ := hharmless
  have hmake : makeDirectories t (way host.root (modelPath modelId quantization)) =
      (madeCache host modelId quantization t, true) := Prod.ext rfl hmade
  rw [Ailoy.afterCall, after_downloadModel, downloadSteps_eq]
  cases hdirectories : call.2.directories with
  | some n =>
    -- The process ends on the way; the next call goes on from there.
    have hcut := createDirectories_of_cut host hdirectories
      (modelPath modelId quantization) t
    refine after_bind (fun e _ => ?_) fun u t₁ hyields => ?_
    · rw [after]
      show Startable host modelId quantization
        (createDirectories host call.2 (modelPath modelId quantization) t).2
      have hagain := makeDirectories_take hmake n
      rw [hcut]
      exact ⟨by rw [hagain], by rw [madeCache, hagain]; exact hsound⟩
    · cases congrArg Prod.fst (hcut.symm.trans hyields)
  | none =>
    have hdone := createDirectories_of_made hdirectories hmake
    refine after_bind (fun e he => ?_) fun u t₁ hyields => ?_
    · cases (congrArg Prod.fst hdone).symm.trans he
    · obtain rfl : madeCache host modelId quantization t = t₁ :=
        congrArg Prod.snd (hdone.symm.trans hyields)
      exact (sound_behindDirectories hsound hdevice hmanifest).startable

/-- Calls that do no harm leave it so. -/
theorem Startable.afterCalls {t : FileTree} {history : List (List Char × Outside)}
    (h : Startable host modelId quantization t)
    (hharmless : HarmlessHistory host modelId quantization t history) :
    Startable host modelId quantization (afterCalls host modelId quantization t history) := by
  induction history generalizing t with
  | nil => exact h
  | cons call history ih => exact ih (h.afterCall hharmless.1) hharmless.2

/-! ## A call that is answered well -/

theorem manifestFilename_isName {device : List Char} (h : HasManifestName host device) :
    IsName (untilNul (manifestFilename host device)) := by
  have hslash : '/' ∉ untilNul (manifestFilename host device) := fun hmem =>
    h ((List.takeWhile_prefix _).subset hmem)
  have hstart : ∃ rest, untilNul (manifestFilename host device) = 'm' :: 'a' :: 'n' :: rest := by
    unfold manifestFilename
    exact ⟨_, untilNul_append (by decide) _⟩
  obtain ⟨rest, hrest⟩ := hstart
  refine ⟨?_, ?_, ?_, hslash, nul_not_mem_untilNul _⟩ <;> simp [hrest]

theorem modelPath_ne_nil (modelId quantization : List Char) :
    modelPath modelId quantization ≠ [] := by
  unfold modelPath joinPath
  rw [getModelBasePath_eq]
  split_ifs with hhead
  · rintro rfl
    cases hhead
  · simp
  · simp

/-- The manifest of a device has a place in the directory of the model. -/
theorem manifestPlace_eq {t : FileTree} {device : List Char}
    (h : ∀ l ∈ way host.root (modelPath modelId quantization), IsDirectory t l)
    (hname : HasManifestName host device) (hid : '\x00' ∉ modelId) (hquant : '\x00' ∉ quantization) :
    IsDirectory t (locate host.root (modelPath modelId quantization)) ∧
      manifestPlace host modelId quantization t device =
        some (locate host.root (modelPath modelId quantization) ++
          [⟨untilNul (manifestFilename host device), manifestFilename_isName hname⟩]) := by
  have hnul : '\x00' ∉ modelPath modelId quantization :=
    nul_not_mem_joinPath (nul_not_mem_getModelBasePath hid) hquant
  have hnil : modelPath modelId quantization ≠ [] := modelPath_ne_nil modelId quantization
  have hhead : (manifestFilename host device).head? ≠ some '/' := fun hhead =>
    hname (List.mem_of_mem_head? hhead)
  have hmade : ∀ l ∈ ((untilNul (modelPath modelId quantization)).splitOn '/').scanl enter
      (if (modelPath modelId quantization).head? = some '/' then [] else host.root),
      IsDirectory t l := fun l hl => h l (List.mem_append_right _ hl)
  obtain ⟨hresolve, hdirectory⟩ := resolve_of_directories hmade
  refine ⟨hdirectory, ?_⟩
  show resolve t host.root (joinPath (modelPath modelId quantization)
    (manifestFilename host device)) = _
  rw [resolve_joinPath hnul hnil hhead, hresolve]
  show resolve t (locate host.root (modelPath modelId quantization))
    (manifestFilename host device) = _
  rw [resolve_component hdirectory hname, enter_name]

/-- The place of a manifest can be written in a sound cache. -/
theorem exists_manifestPlace {t : FileTree} {device : List Char}
    (h : Sound host modelId quantization t) (hname : HasManifestName host device)
    (hid : '\x00' ∉ modelId) (hquant : '\x00' ∉ quantization) :
    ∃ l, manifestPlace host modelId quantization t device = some l ∧ Writable t l := by
  obtain ⟨hdirectory, hplace⟩ := manifestPlace_eq h.made hname hid hquant
  refine ⟨_, hplace, by simp, ?_, (h.manifests device _ hname hplace).1⟩
  rw [List.dropLast_concat]
  exact hdirectory

theorem yields_writeFile_of_done {t : FileTree} {path : List Char} {l : Location}
    (hplace : writePlace host t path = some l) (append : Bool) (data : List UInt8) :
    Yields (writeFile host path append data .done) t true
      (treeAfterWrite host t path append data .done) := by
  show (Except.ok (writePlace host t path).isSome, _) = (Except.ok true, _)
  rw [hplace]
  rfl

theorem sameDirectories_writeBytes (t : FileTree) (path : List Char) (append : Bool)
    (data : List UInt8) : SameDirectories t (writeBytes host t path append data) := by
  unfold writeBytes
  split
  · rename_i l hl
    exact (writePlace_eq_some_iff.mp hl).2.sameDirectories _
  · exact .refl t

theorem yields_receive_of_done {t : FileTree} {path : List Char} {l : Location} (size : ℕ)
    {pieces : List BodyPiece} (hplace : writePlace host t path = some l)
    (hdone : ∀ piece ∈ pieces, piece.fate = .done) :
    ∃ t', Yields (receive host path none size pieces) t true t' := by
  induction pieces generalizing t size with
  | nil => exact ⟨t, rfl⟩
  | cons piece pieces ih =>
    obtain ⟨hfirst, hrest⟩ := List.forall_mem_cons.mp hdone
    have hwrite := yields_writeFile_of_done hplace (0 < size) piece.data
    have hsame : SameDirectories t (treeAfterWrite host t path (0 < size) piece.data .done) :=
      sameDirectories_writeBytes t path _ piece.data
    obtain ⟨t', hyields⟩ := ih (size + piece.data.length)
      ((writePlace_congr hsame path).symm.trans hplace) hrest
    refine ⟨t', yields_bind_iff.mpr ⟨true, _, ?_, hyields⟩⟩
    rw [hfirst]
    exact hwrite

theorem yields_downloadFile_of_done {t : FileTree} {path : List Char} {l : Location}
    {answer : FileAnswer} (hplace : writePlace host t path = some l) (hsigint : answer.sigint = none)
    (hresponse : answer.response = .ok 200 ∨ answer.response = .ok 206)
    (hdone : ∀ piece ∈ answer.pieces, piece.fate = .done) :
    ∃ t', Yields (downloadFileWithProgress host path answer) t PUnit.unit t' := by
  obtain ⟨t', hreceive⟩ := yields_receive_of_done 0 hplace hdone
  rw [← hsigint] at hreceive
  refine ⟨t', yields_bind_iff.mpr ⟨true, t', hreceive, ?_⟩⟩
  rw [if_pos rfl]
  rcases hresponse with hresponse | hresponse
  · rw [hresponse]
    rfl
  · rw [hresponse]
    rfl

theorem yields_downloadFiles_of_done {t : FileTree} {target : DownloadTarget} {outside : Outside}
    {i : ℕ} {files : List String}
    (hplaces : ∀ file ∈ files, ∃ l, writePlace host t (target.filePath file) = some l)
    (hanswers : ∀ i, (outside.answer i).sigint = none ∧
      ((outside.answer i).response = .ok 200 ∨ (outside.answer i).response = .ok 206) ∧
      ∀ piece ∈ (outside.answer i).pieces, piece.fate = .done) :
    ∃ t', Yields (downloadFiles host target outside i files) t PUnit.unit t' := by
  induction files generalizing t i with
  | nil => exact ⟨t, rfl⟩
  | cons file files ih =>
    obtain ⟨⟨l, hl⟩, hrest⟩ := List.forall_mem_cons.mp hplaces
    obtain ⟨hsigint, hresponse, hdone⟩ := hanswers i
    obtain ⟨t₁, hfile⟩ := yields_downloadFile_of_done hl hsigint hresponse hdone
    have hsame := sameDirectories_downloadFile hfile
    obtain ⟨t', hfiles⟩ := ih (i := i + 1) fun file hfile =>
      (hrest file hfile).imp fun l hl => (writePlace_congr hsame _).symm.trans hl
    exact ⟨t', yields_bind_iff.mpr ⟨PUnit.unit, t₁, hfile, hfiles⟩⟩

/-- Behind a manifest that can be used the rest of the call gets through. -/
theorem yields_behindManifest {t : FileTree} {device : List Char} {outside : Outside}
    {content : List UInt8}
    (hcontent : contentOf host t (manifestPath host (targetFor modelId quantization device)) =
      some content) (husable : Usable host modelId quantization t content)
    (hanswers : ∀ i, (outside.answer i).sigint = none ∧
      ((outside.answer i).response = .ok 200 ∨ (outside.answer i).response = .ok 206) ∧
      ∀ piece ∈ (outside.answer i).pieces, piece.fate = .done) :
    ∃ r t', Yields (behindManifest host (targetFor modelId quantization device) outside) t r t' := by
  obtain ⟨manifest, pairs, lib, hparse, hpairs, hlib, hplaces⟩ := husable
  have hread : Yields (readManifest host (manifestPath host (targetFor modelId quantization device)))
      t manifest t := by
    refine yields_bind_iff.mpr ⟨t, t, rfl, ?_⟩
    simp only [hcontent, hparse]
    rfl
  have hfiles : ∀ file ∈ filesToDownload host (targetFor modelId quantization device) t pairs,
      ∃ l, writePlace host t ((targetFor modelId quantization device).filePath file) = some l := by
    intro file hfile
    obtain ⟨pair, hpair, rfl⟩ := List.mem_map.mp hfile
    obtain ⟨l, hl, -⟩ := hplaces pair (List.mem_of_mem_filter hpair)
    exact ⟨l, hl⟩
  obtain ⟨t', hdownload⟩ := yields_downloadFiles_of_done (i := 0) hfiles hanswers
  exact ⟨_, t', yields_bind_iff.mpr ⟨manifest, t, hread, yields_bind_iff.mpr ⟨pairs, t,
    yields_liftM_iff.mpr ⟨hpairs, rfl⟩, yields_bind_iff.mpr ⟨t, t, rfl, yields_bind_iff.mpr
      ⟨PUnit.unit, t', hdownload, yields_bind_iff.mpr
        ⟨lib, t', yields_liftM_iff.mpr ⟨hlib, rfl⟩, rfl⟩⟩⟩⟩⟩⟩

/-- A call that is answered well gets through from a cache that it can start from. -/
theorem yields_of_answersAll {t : FileTree} {device : List Char} {outside : Outside}
    (h : Startable host modelId quantization t) (hname : HasManifestName host device)
    (hid : '\x00' ∉ modelId) (hquant : '\x00' ∉ quantization)
    (hanswers : AnswersAll host modelId quantization t outside) :
    ∃ r t', Yields (downloadModel host (targetFor modelId quantization device) outside) t r t' ∧
      r.success = true := by
  obtain ⟨hmade, hsound⟩ := h
  obtain ⟨hundisturbed, ⟨body, hbody, hstored, husable⟩, hfiles⟩ := hanswers
  have hmake : makeDirectories t (way host.root (modelPath modelId quantization)) =
      (madeCache host modelId quantization t, true) := Prod.ext rfl hmade
  have hdirectories := createDirectories_of_made hundisturbed hmake
  generalize madeCache host modelId quantization t = made at *
  suffices hrest : ∃ t₁, Yields (fetchManifest host (targetFor modelId quantization device) outside)
      made PUnit.unit t₁ ∧ ∃ content, contentOf host t₁
        (manifestPath host (targetFor modelId quantization device)) = some content ∧
        Usable host modelId quantization t₁ content by
    obtain ⟨t₁, hfetch, content, hcontent, husable⟩ := hrest
    obtain ⟨r, t', hbehind⟩ := yields_behindManifest hcontent husable hfiles
    refine ⟨r, t', downloadModel_success_iff.mpr ?_⟩
    rw [downloadSteps_eq]
    exact yields_bind_iff.mpr ⟨PUnit.unit, made, hdirectories, yields_bind_iff.mpr
      ⟨PUnit.unit, t₁, hfetch, hbehind⟩⟩
  cases hcontent : contentOf host made
    (manifestPath host (targetFor modelId quantization device)) with
  | some content =>
    refine ⟨made, ?_, content, hcontent, hsound.usable_of_contentOf (.inl hname) hcontent⟩
    unfold Yields
    rw [fetchManifest_apply, hcontent]
    rfl
  | none =>
    obtain ⟨l, hplace, hwritable⟩ := exists_manifestPlace hsound hname hid hquant
    have hsame := hwritable.sameDirectories body
    have hwritePlace := writePlace_eq_some_iff.mpr ⟨hplace, hwritable⟩
    have hwrite : treeAfterWrite host made (manifestPath host (targetFor modelId quantization device))
        false body .done = made.insert l (.file body) := by
      show writeBytes host made _ false body = _
      unfold writeBytes
      rw [hwritePlace]
      rfl
    refine ⟨made.insert l (.file body), ?_, body, ?_, husable.congr hsame⟩
    · unfold Yields
      rw [fetchManifest_apply, hcontent, hbody, hstored, ← hwrite]
      rfl
    · rw [contentOf, ← hsame.resolve_eq]
      show (manifestPlace host modelId quantization made device).bind _ = _
      rw [hplace]
      exact contentAt_insert hwritable body

/-- Behind any history of calls that do no harm, failed, interrupted or not, a call that is answered
well is successful. -/
theorem download_recovers {t : FileTree} {history : List (List Char × Outside)}
    {device : List Char} {outside : Outside} (hstart : Startable host modelId quantization t)
    (hharmless : HarmlessHistory host modelId quantization t history)
    (hname : HasManifestName host device) (hid : '\x00' ∉ modelId) (hquant : '\x00' ∉ quantization)
    (hanswers : AnswersAll host modelId quantization
      (afterCalls host modelId quantization t history) outside) :
    ∃ r t', Yields (downloadModel host (targetFor modelId quantization device) outside)
      (afterCalls host modelId quantization t history) r t' ∧ r.success = true :=
  yields_of_answersAll (hstart.afterCalls hharmless) hname hid hquant hanswers

/-- A cache that does not exist yet can be started from. -/
theorem startable_empty (hroot : host.root = []) : Startable host ['m'] ['q'] ∅ := by
  have hway : way host.root (modelPath ['m'] ['q']) = way [] (modelPath ['m'] ['q']) := by rw [hroot]
  have hmake : makeDirectories ∅ (way host.root (modelPath ['m'] ['q'])) =
      (madeCache host ['m'] ['q'] ∅, true) := by
    refine Prod.ext rfl ?_
    show (makeDirectories ∅ (way host.root (modelPath ['m'] ['q']))).2 = true
    rw [hway]
    decide +kernel
  obtain ⟨hmade, -, hold, hfiles⟩ := makeDirectories_spec hmake
  refine ⟨congrArg Prod.snd hmake, hmade, fun device l hname hplace => ⟨fun hdir => ?_, ?_⟩⟩
  · obtain ⟨-, heq⟩ := manifestPlace_eq hmade hname (by decide) (by decide)
    have hl := Option.some.inj (hplace.symm.trans heq)
    -- The directories that are made have at most three names.
    have hlength : ∀ l ∈ way [] (modelPath ['m'] ['q']), l.length ≤ 3 := by decide +kernel
    have hlocate : (locate [] (modelPath ['m'] ['q'])).length = 3 := by decide +kernel
    rw [hroot] at hl
    have hfour : l.length = 4 := by rw [hl, List.length_append, hlocate]; rfl
    rcases hold l hdir with (hnil | hempty) | hmem
    · rw [hnil] at hfour
      cases hfour
    · cases hempty
    · have hthree := hlength l (hway ▸ hmem)
      omega
  · intro content hcontent
    cases (hfiles l content).mp hcontent

/-- A call whose server cannot be reached does not stop the next one. -/
theorem download_recovers_offline : ∃ (host : Host) (offline online : Outside) (r : DownloadResult)
    (t : FileTree), Yields (downloadModel host (targetFor ['m'] ['q'] ['d']) online)
      (afterCalls host ['m'] ['q'] ∅ [(['d'], offline)]) r t ∧ r.success = true := by
  let host : Host := ⟨[], ['x'], ['y'], fun _ => .ok (.object [("files", .array []),
    ("lib", .string "l")]), fun _ => "00", "canceled"⟩
  let offline : Outside := ⟨none, .error "Connection", .done, fun _ => ⟨[], none, .ok 200⟩⟩
  let online : Outside := ⟨none, .ok (200, []), .done, fun _ => ⟨[], none, .ok 200⟩⟩
  have hname : HasManifestName host ['d'] := by
    unfold HasManifestName
    decide +kernel
  have hharmless : HarmlessHistory host ['m'] ['q'] ∅ [(['d'], offline)] :=
    ⟨⟨.inl hname, fun l body stored _ _ hanswer => nomatch hanswer⟩, trivial⟩
  have hanswers : AnswersAll host ['m'] ['q'] (afterCalls host ['m'] ['q'] ∅ [(['d'], offline)])
      online :=
    ⟨rfl, ⟨[], rfl, rfl, _, [], "l", rfl, rfl, rfl, by simp⟩,
      fun i => ⟨rfl, .inl rfl, by simp [online]⟩⟩
  obtain ⟨r, t, hyields, hsuccess⟩ := download_recovers (startable_empty rfl) hharmless hname
    (by decide) (by decide) hanswers
  exact ⟨host, offline, online, r, t, hyields, hsuccess⟩

/-- A manifest without files, once answered with 200, is used by all later calls. -/
theorem incomplete_manifest_blocks : ∃ (host : Host) (wrong right : Outside),
    Startable host ['m'] ['q'] ∅ ∧ HasManifestName host ['d'] ∧
      succeeds (downloadModel host (targetFor ['m'] ['q'] ['d']) wrong ∅).1 = false ∧
      AnswersAll host ['m'] ['q'] (afterCalls host ['m'] ['q'] ∅ [(['d'], wrong)]) right ∧
      ¬ ∃ r t, Yields (downloadModel host (targetFor ['m'] ['q'] ['d']) right)
        (afterCalls host ['m'] ['q'] ∅ [(['d'], wrong)]) r t ∧ r.success = true := by
  let host : Host := ⟨[], ['x'], ['y'], fun content => .ok (.object (if content = [] then [] else
    [("files", .array []), ("lib", .string "l")])), fun _ => "00", "canceled"⟩
  let wrong : Outside := ⟨none, .ok (200, []), .done, fun _ => ⟨[], none, .ok 200⟩⟩
  let right : Outside := ⟨none, .ok (200, [7]), .done, fun _ => ⟨[], none, .ok 200⟩⟩
  refine ⟨host, wrong, right, startable_empty rfl, ?_, by decide +kernel, ?_, ?_⟩
  · unfold HasManifestName
    decide +kernel
  · exact ⟨rfl, ⟨[7], rfl, rfl, _, [], "l", rfl, rfl, rfl, by simp⟩,
      fun i => ⟨rfl, .inl rfl, by simp [right]⟩⟩
  · rintro ⟨r, t, hyields, hsuccess⟩
    have hfail : succeeds (downloadModel host (targetFor ['m'] ['q'] ['d']) right
        (afterCalls host ['m'] ['q'] ∅ [(['d'], wrong)])).1 = false := by decide +kernel
    rw [hyields] at hfail
    exact absurd (hsuccess.symm.trans hfail) (by simp)

end Proofs

end Ailoy
