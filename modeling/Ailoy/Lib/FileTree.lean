import Ailoy.Lib.UnorderedMap
import Mathlib.Data.List.Infix
import Mathlib.Data.List.TakeWhile

/-!
# File trees

A file tree maps locations to files and directories, and a location is a list of names from the root
on. `locate` is what the system makes of the text of a path: it ends at the first NUL, its components
stand between slashes, and `.` and `..` are no names but steps. There are no links, so a location is
reached by one list of names only. What an operation leaves of the tree is said by `lookup`.
-/

namespace FileTree

/-! ## Locations -/

/-- A name that an entry of a directory can have. -/
def IsName (s : List Char) : Prop := s ≠ [] ∧ s ≠ ['.'] ∧ s ≠ ['.', '.'] ∧ '/' ∉ s ∧ '\x00' ∉ s

instance : DecidablePred IsName := fun _ => inferInstanceAs (Decidable (_ ∧ _))

/-- The name of an entry of a directory. -/
abbrev Name := {s : List Char // IsName s}

/-- A location, by the names on the way to it. -/
abbrev Location := List Name

/-- The location behind one component of a path. -/
def enter (l : Location) (component : List Char) : Location :=
  if component = ['.', '.'] then l.dropLast
  else if h : IsName component then l ++ [⟨component, h⟩]
  else l

/-- What the system is given of a path: it ends at the first NUL. -/
def untilNul (path : List Char) : List Char := path.takeWhile (· ≠ '\x00')

/-- The location of a path, seen from another one. -/
def locate (cwd : Location) (path : List Char) : Location :=
  ((untilNul path).splitOn '/').foldl enter (if path.head? = some '/' then [] else cwd)

/-- `p / q` of paths. -/
def joinPath (p q : List Char) : List Char :=
  if q.head? = some '/' then q
  else if p = [] ∨ p.getLast? = some '/' then p ++ q
  else p ++ '/' :: q

theorem nul_not_mem_untilNul (path : List Char) : '\x00' ∉ untilNul path := by
  intro h
  simpa using List.mem_takeWhile_imp h

theorem untilNul_eq_self {path : List Char} (h : '\x00' ∉ path) : untilNul path = path :=
  List.takeWhile_eq_self_iff.mpr fun _ hc => decide_eq_true fun heq => h (heq ▸ hc)

theorem enter_name {l : Location} {component : List Char} (h : IsName component) :
    enter l component = l ++ [⟨component, h⟩] := by
  rw [enter, if_neg h.2.2.1, dif_pos h]

/-- A component that is no name leads back or nowhere. -/
theorem enter_eq_self_or_dropLast {l : Location} {component : List Char} (h : ¬ IsName component) :
    enter l component = l ∨ enter l component = l.dropLast := by
  unfold enter
  rw [dif_neg h]
  split_ifs
  · exact .inr rfl
  · exact .inl rfl

/-- A path that is one component. -/
theorem locate_component {cwd : Location} {component : List Char}
    (hhead : component.head? ≠ some '/') (h : '/' ∉ component) :
    locate cwd component = enter cwd (untilNul component) := by
  have huntil : '/' ∉ untilNul component := fun hmem => h ((List.takeWhile_prefix _).subset hmem)
  rw [locate, if_neg hhead, List.splitOn_eq_singleton huntil]
  rfl

theorem locate_name (cwd : Location) {name : List Char} (h : IsName name) :
    locate cwd name = cwd ++ [⟨name, h⟩] := by
  have hhead : name.head? ≠ some '/' := fun hhead => h.2.2.2.1 (List.mem_of_mem_head? hhead)
  rw [locate_component hhead h.2.2.2.1, untilNul_eq_self h.2.2.2.2, enter_name]

theorem untilNul_append {p : List Char} (h : '\x00' ∉ p) (q : List Char) :
    untilNul (p ++ q) = p ++ untilNul q :=
  List.takeWhile_append_of_pos fun _ hc => decide_eq_true fun heq => h (heq ▸ hc)

/-- What is behind a NUL does not matter. -/
theorem untilNul_append_of_mem {p : List Char} (h : '\x00' ∈ p) (q : List Char) :
    untilNul (p ++ q) = untilNul p := by
  have hlength : (untilNul p).length ≠ p.length := by
    intro hlength
    have heq : untilNul p = p := (List.takeWhile_prefix _).eq_of_length hlength
    exact nul_not_mem_untilNul p (heq.symm ▸ h)
  exact List.takeWhile_append.trans (if_neg hlength)

theorem enter_nil (l : Location) : enter l [] = l := by
  rw [enter, if_neg (by simp), dif_neg fun h => h.1 rfl]

/-- A path that goes on behind a slash. -/
theorem locate_append_slash {cwd : Location} {p q : List Char} (h : '\x00' ∉ p) (hp : p ≠ []) :
    locate cwd (p ++ '/' :: q) = ((untilNul q).splitOn '/').foldl enter (locate cwd p) := by
  have hslash : untilNul ('/' :: q) = '/' :: untilNul q := rfl
  have hhead : (p ++ '/' :: q).head? = p.head? := List.head?_append_of_ne_nil p hp
  rw [locate, locate, untilNul_append h, hslash, hhead, List.splitOn_append_cons_self,
    List.foldl_append, untilNul_eq_self h]

/-- The second path is seen from the location of the first one. -/
theorem locate_joinPath {cwd : Location} {p q : List Char} (h : '\x00' ∉ p) :
    locate cwd (joinPath p q) = locate (locate cwd p) q := by
  unfold joinPath
  by_cases hq : q.head? = some '/'
  · rw [if_pos hq, locate, if_pos hq, locate, if_pos hq]
  rw [if_neg hq]
  have hrelative : ∀ l, locate l q = ((untilNul q).splitOn '/').foldl enter l := fun l => by
    rw [locate, if_neg hq]
  rw [hrelative]
  by_cases hnil : p = []
  · subst hnil
    rw [if_pos (.inl rfl), List.nil_append, hrelative]
    exact congrArg (List.foldl enter · _) (enter_nil cwd).symm
  by_cases hlast : p.getLast? = some '/'
  · -- The empty component behind the last slash leads nowhere.
    obtain ⟨front, rfl⟩ := List.getLast?_eq_some_iff.mp hlast
    rw [if_pos (.inr hlast)]
    have hfront : '\x00' ∉ front := fun hmem => h (List.mem_append_left _ hmem)
    have huntil : ∀ r, untilNul (front ++ '/' :: r) = front ++ '/' :: untilNul r := fun r =>
      untilNul_append hfront _
    have hhead : (front ++ '/' :: q).head? = (front ++ '/' :: []).head? := by
      rw [List.head?_append, List.head?_append, List.head?_cons, List.head?_cons]
    rw [List.append_assoc, List.singleton_append, locate, locate, hhead, huntil, huntil,
      List.splitOn_append_cons_self, List.splitOn_append_cons_self, List.foldl_append,
      List.foldl_append]
    exact congrArg (List.foldl enter · _) (enter_nil _).symm
  · rw [if_neg (not_or.mpr ⟨hnil, hlast⟩), locate_append_slash h hnil]

theorem nul_not_mem_joinPath {p q : List Char} (hp : '\x00' ∉ p) (hq : '\x00' ∉ q) :
    '\x00' ∉ joinPath p q := by
  unfold joinPath
  split_ifs <;> simp [hp, hq]

theorem locate_joinPath_of_nul {cwd : Location} {p q : List Char} (h : '\x00' ∈ p)
    (hq : q.head? ≠ some '/') : locate cwd (joinPath p q) = locate cwd p := by
  have hend : ∀ rest, locate cwd (p ++ rest) = locate cwd p := fun rest => by
    rw [locate, locate, untilNul_append_of_mem h,
      List.head?_append_of_ne_nil p (List.ne_nil_of_mem h)]
  unfold joinPath
  rw [if_neg hq]
  split_ifs
  · exact hend q
  · exact hend _

end FileTree

/-! ## Trees -/

namespace FileTree

/-- What is at a location. -/
inductive Entry
  | file (content : List UInt8)
  | directory
  deriving DecidableEq

end FileTree

/-- Files and directories by their locations. -/
abbrev FileTree := UnorderedMap FileTree.Location FileTree.Entry

namespace FileTree

/-- The last name of a location in a directory. -/
def childName (l l' : Location) : Option Name := if l'.dropLast = l then l'.getLast? else none

/-- The names of the entries of a directory. -/
def children (t : FileTree) (l : Location) : List Name :=
  t.entries.filterMap fun e => childName l e.1

/-- The tree without what lies below a location. -/
def removeBelow (t : FileTree) (l : Location) : FileTree :=
  UnorderedMap.eraseAll t (t.keys.filter fun l' => l.isPrefixOf l' && l' ≠ l)

/-- The tree without a location and what lies below it. -/
def removeAll (t : FileTree) (l : Location) : FileTree :=
  UnorderedMap.eraseAll t (t.keys.filter fun l' => l.isPrefixOf l')

theorem mem_children_iff {t : FileTree} {l : Location} {n : Name} :
    n ∈ children t l ↔ (t.lookup (l ++ [n])).isSome := by
  rw [AList.lookup_isSome, AList.mem_keys, AList.keys, List.keys, children, List.mem_filterMap,
    List.mem_map]
  refine exists_congr fun e => and_congr_right fun _ => ?_
  unfold childName
  constructor
  · intro h
    split_ifs at h with hdrop
    obtain ⟨front, hfront⟩ := List.getLast?_eq_some_iff.mp h
    rw [hfront, List.dropLast_concat] at hdrop
    rw [hfront, hdrop]
  · intro h
    rw [h]
    simp

/-- The tree after a part of it is removed: the rest is as it was. -/
theorem lookup_eraseAll_filter (t : FileTree) (p : Location → Bool) (l : Location) :
    (UnorderedMap.eraseAll t (t.keys.filter p)).lookup l = if p l then none else t.lookup l := by
  rw [UnorderedMap.lookup_eraseAll]
  by_cases hp : p l = true
  · rw [if_pos hp]
    split_ifs with hmem
    · rfl
    · have hkey : l ∉ t.keys := fun hkey => hmem (List.mem_filter.mpr ⟨hkey, hp⟩)
      exact AList.lookup_eq_none.mpr hkey
  · rw [if_neg hp, if_neg fun hmem => hp (List.mem_filter.mp hmem).2]

theorem lookup_removeAll (t : FileTree) (l l' : Location) :
    (removeAll t l).lookup l' = if l <+: l' then none else t.lookup l' := by
  rw [removeAll, lookup_eraseAll_filter]
  simp only [List.isPrefixOf_iff_prefix]

theorem lookup_removeBelow (t : FileTree) (l l' : Location) :
    (removeBelow t l).lookup l' = if l <+: l' ∧ l' ≠ l then none else t.lookup l' := by
  rw [removeBelow, lookup_eraseAll_filter]
  simp only [Bool.and_eq_true, List.isPrefixOf_iff_prefix, decide_eq_true_eq]

/-! ## Directories -/

/-- The location is a directory, as the root of the tree is. -/
def IsDirectory (t : FileTree) (l : Location) : Prop := l = [] ∨ t.lookup l = some .directory

instance (t : FileTree) (l : Location) : Decidable (IsDirectory t l) :=
  inferInstanceAs (Decidable (_ ∨ _))

/-- The location can be written as a file: it is, or can be, one of a directory. -/
def Writable (t : FileTree) (l : Location) : Prop :=
  l ≠ [] ∧ IsDirectory t l.dropLast ∧ ¬ IsDirectory t l

instance (t : FileTree) (l : Location) : Decidable (Writable t l) :=
  inferInstanceAs (Decidable (_ ∧ _))

/-- Where a path leads to in the tree: what is gone on from has to be a directory. -/
def resolve (t : FileTree) (cwd : Location) (path : List Char) : Option Location :=
  ((untilNul path).splitOn '/').foldlM
    (fun l component => if IsDirectory t l then some (enter l component) else none)
    (if path.head? = some '/' then [] else cwd)

/-- What can be read at a location. A directory can be opened, and there is nothing in it. -/
def contentAt (t : FileTree) (l : Location) : Option (List UInt8) :=
  if IsDirectory t l then some []
  else match t.lookup l with
    | some (.file content) => some content
    | _ => none

/-- The directories are made where there are none, until a file is in the way. -/
def makeDirectories (t : FileTree) : List Location → FileTree × Bool
  | [] => (t, true)
  | l :: ls =>
    if IsDirectory t l then makeDirectories t ls
    else if (t.lookup l).isSome then (t, false)
    else makeDirectories (t.insert l .directory) ls

/-- Two trees with the same directories. -/
def SameDirectories (t t' : FileTree) : Prop := ∀ l, IsDirectory t l ↔ IsDirectory t' l

theorem SameDirectories.refl (t : FileTree) : SameDirectories t t := fun _ => .rfl

theorem SameDirectories.trans {t t' t'' : FileTree} (h : SameDirectories t t')
    (h' : SameDirectories t' t'') : SameDirectories t t'' := fun l => (h l).trans (h' l)

theorem SameDirectories.symm {t t' : FileTree} (h : SameDirectories t t') :
    SameDirectories t' t := fun l => (h l).symm

theorem SameDirectories.writable_iff {t t' : FileTree} (h : SameDirectories t t') (l : Location) :
    Writable t l ↔ Writable t' l := by
  rw [Writable, Writable, h, h]

/-- A path leads to the same location. -/
theorem SameDirectories.resolve_eq {t t' : FileTree} (h : SameDirectories t t') (cwd : Location)
    (path : List Char) : resolve t cwd path = resolve t' cwd path := by
  unfold resolve
  congr
  funext l component
  exact if_congr (h l) rfl rfl

/-- A file is written where it can be. -/
theorem Writable.sameDirectories {t : FileTree} {l : Location} (h : Writable t l)
    (content : List UInt8) : SameDirectories t (t.insert l (.file content)) := by
  intro l'
  unfold IsDirectory
  rw [UnorderedMap.lookup_insert_eq]
  split_ifs with heq
  · rw [heq]
    refine or_congr_right (iff_of_false (fun hdir => h.2.2 (.inr hdir)) ?_)
    exact fun hdir => nomatch hdir
  · rfl

/-- No directory is taken away with a file. -/
theorem sameDirectories_erase {t : FileTree} {l : Location} (h : ¬ IsDirectory t l) :
    SameDirectories t (t.erase l) := by
  intro l'
  unfold IsDirectory
  rw [UnorderedMap.lookup_erase_eq]
  split_ifs with heq
  · rw [heq]
    exact or_congr_right (iff_of_false (fun hdir => h (.inr hdir)) (fun hdir => nomatch hdir))
  · rfl

theorem contentAt_of_not_directory {t : FileTree} {l : Location} (h : ¬ IsDirectory t l) :
    contentAt t l = match t.lookup l with
      | some (.file content) => some content
      | _ => none := if_neg h

/-- A file is read as it was written. -/
theorem contentAt_insert {t : FileTree} {l : Location} (h : Writable t l) (content : List UInt8) :
    contentAt (t.insert l (.file content)) l = some content := by
  rw [contentAt_of_not_directory fun hdir => h.2.2 ((h.sameDirectories content l).mpr hdir),
    AList.lookup_insert]

/-- The directories are there once they are made, and the rest of the tree is as it was. -/
theorem makeDirectories_spec {t t' : FileTree} {ls : List Location}
    (h : makeDirectories t ls = (t', true)) :
    (∀ l ∈ ls, IsDirectory t' l) ∧ (∀ l, IsDirectory t l → IsDirectory t' l) ∧
      (∀ l, IsDirectory t' l → IsDirectory t l ∨ l ∈ ls) ∧
      ∀ l content, t'.lookup l = some (.file content) ↔ t.lookup l = some (.file content) := by
  induction ls generalizing t with
  | nil =>
    obtain rfl : t = t' := congrArg Prod.fst h
    exact ⟨fun l hl => absurd hl List.not_mem_nil, fun _ => id, fun _ => .inl, fun _ _ => .rfl⟩
  | cons l ls ih =>
    rw [makeDirectories] at h
    split_ifs at h with hdir hsome
    · obtain ⟨hmade, hkept, hold, hfiles⟩ := ih h
      exact ⟨List.forall_mem_cons.mpr ⟨hkept l hdir, hmade⟩, hkept,
        fun l' hl' => (hold l' hl').imp_right (List.mem_cons_of_mem l), hfiles⟩
    · cases congrArg Prod.snd h
    · obtain ⟨hmade, hkept, hold, hfiles⟩ := ih h
      have hlookup : ∀ l', (t.insert l .directory).lookup l' =
          if l' = l then some Entry.directory else t.lookup l' :=
        fun l' => UnorderedMap.lookup_insert_eq t l l' .directory
      refine ⟨List.forall_mem_cons.mpr ⟨hkept l (.inr ?_), hmade⟩, fun l' hl' => hkept l' ?_,
        fun l' hl' => ?_, fun l' content => (hfiles l' content).trans ?_⟩
      · rw [hlookup, if_pos rfl]
      · unfold IsDirectory
        rw [hlookup]
        exact hl'.imp_right fun hlook => by split_ifs <;> trivial
      · by_cases heq : l' = l
        · exact .inr (heq ▸ List.mem_cons_self)
        · refine (hold l' hl').imp (fun hdir => ?_) (List.mem_cons_of_mem l)
          unfold IsDirectory at hdir
          rwa [hlookup, if_neg heq] at hdir
      · rw [hlookup]
        split_ifs with heq
        · rw [heq, Option.not_isSome_iff_eq_none.mp hsome]
          exact iff_of_false (fun hfile => nomatch hfile) (fun hfile => nomatch hfile)
        · rfl

/-- Nothing is to be made where the directories are. -/
theorem makeDirectories_eq_self {t : FileTree} {ls : List Location}
    (h : ∀ l ∈ ls, IsDirectory t l) : makeDirectories t ls = (t, true) := by
  induction ls with
  | nil => rfl
  | cons l ls ih =>
    obtain ⟨hl, hls⟩ := List.forall_mem_cons.mp h
    rw [makeDirectories, if_pos hl, ih hls]

/-- What was begun can be gone on with. -/
theorem makeDirectories_append (t : FileTree) (ls ls' : List Location) :
    makeDirectories t (ls ++ ls') = match makeDirectories t ls with
      | (t', true) => makeDirectories t' ls'
      | (t', false) => (t', false) := by
  induction ls generalizing t with
  | nil => rfl
  | cons l ls ih =>
    rw [List.cons_append, makeDirectories, makeDirectories]
    split_ifs
    · exact ih t
    · rfl
    · exact ih _

/-- Making directories can be begun anew. -/
theorem makeDirectories_take {t t' : FileTree} {ls : List Location}
    (h : makeDirectories t ls = (t', true)) (n : ℕ) :
    makeDirectories (makeDirectories t (ls.take n)).1 ls = (t', true) := by
  rw [← List.take_append_drop n ls, makeDirectories_append] at h
  split at h
  · rename_i begun hbegun
    rw [hbegun]
    have hself := makeDirectories_eq_self (makeDirectories_spec hbegun).1
    conv_lhs => rw [← List.take_append_drop n ls]
    rw [makeDirectories_append, hself]
    exact h
  · cases congrArg Prod.snd h

/-! ## Paths in a tree -/

/-- A path through directories leads where its components lead. -/
theorem resolve_of_directories {t : FileTree} {cwd : Location} {path : List Char}
    (h : ∀ l ∈ ((untilNul path).splitOn '/').scanl enter
      (if path.head? = some '/' then [] else cwd), IsDirectory t l) :
    resolve t cwd path = some (locate cwd path) ∧ IsDirectory t (locate cwd path) := by
  unfold resolve locate
  generalize (if path.head? = some '/' then [] else cwd) = l at h ⊢
  generalize (untilNul path).splitOn '/' = components at h ⊢
  induction components generalizing l with
  | nil => exact ⟨rfl, h l (by simp)⟩
  | cons component components ih =>
    rw [List.scanl_cons] at h
    obtain ⟨hl, hrest⟩ := List.forall_mem_cons.mp h
    rw [List.foldlM_cons, if_pos hl, List.foldl_cons]
    exact ih _ hrest

/-- Nothing is entered from what is no directory. -/
theorem foldlM_enter_of_not_directory {t : FileTree} {l : Location} (h : ¬ IsDirectory t l)
    {components : List (List Char)} (hne : components ≠ []) :
    components.foldlM
      (fun l component => if IsDirectory t l then some (enter l component) else none) l = none := by
  cases components with
  | nil => exact absurd rfl hne
  | cons component components =>
    rw [List.foldlM_cons, if_neg h]
    rfl

/-- The second path is seen from where the first one leads. -/
theorem resolve_joinPath {t : FileTree} {cwd : Location} {p q : List Char} (h : '\x00' ∉ p)
    (hnil : p ≠ []) (hq : q.head? ≠ some '/') :
    resolve t cwd (joinPath p q) = (resolve t cwd p).bind fun l => resolve t l q := by
  have hrelative : ∀ l, resolve t l q = ((untilNul q).splitOn '/').foldlM
      (fun l component => if IsDirectory t l then some (enter l component) else none) l :=
    fun l => by rw [resolve, if_neg hq]
  have hhead : ∀ rest, (p ++ rest).head? = p.head? := fun rest =>
    List.head?_append_of_ne_nil p hnil
  have hslash : ∀ front : List Char, '\x00' ∉ front →
      untilNul (front ++ '/' :: q) = front ++ '/' :: untilNul q := fun front hfront =>
    untilNul_append hfront _
  simp only [hrelative]
  unfold joinPath
  rw [if_neg hq]
  split_ifs with hlast
  · -- The empty component behind the last slash leads nowhere, from a directory.
    obtain ⟨front, rfl⟩ := List.getLast?_eq_some_iff.mp (hlast.resolve_left hnil)
    have hfront : '\x00' ∉ front := fun hmem => h (List.mem_append_left _ hmem)
    rw [resolve, resolve, hhead, List.append_assoc, List.singleton_append, hslash front hfront,
      untilNul_eq_self h, List.splitOn_append_cons_self, List.splitOn_append_cons_self,
      List.foldlM_append, List.foldlM_append]
    generalize List.foldlM (m := Option) _ _ (front.splitOn '/') = reached
    cases reached with
    | none => rfl
    | some l =>
      show List.foldlM _ l _ = Option.bind (Option.bind (if IsDirectory t l then _ else none) some) _
      by_cases hl : IsDirectory t l
      · rw [if_pos hl, List.reverse_nil, enter_nil]
        rfl
      · rw [if_neg hl, foldlM_enter_of_not_directory hl (List.splitOn_ne_nil _ _)]
        rfl
  · rw [resolve, resolve, hhead, hslash p h, untilNul_eq_self h, List.splitOn_append_cons_self,
      List.foldlM_append]
    rfl

/-- A path that is one component, in a directory. -/
theorem resolve_component {t : FileTree} {l : Location} {component : List Char}
    (hl : IsDirectory t l) (h : '/' ∉ component) :
    resolve t l component = some (enter l (untilNul component)) := by
  have huntil : '/' ∉ untilNul component := fun hmem => h ((List.takeWhile_prefix _).subset hmem)
  have hhead : component.head? ≠ some '/' := fun hhead => h (List.mem_of_mem_head? hhead)
  rw [resolve, if_neg hhead, List.splitOn_eq_singleton huntil, List.foldlM_cons, if_pos hl]
  rfl

end FileTree
