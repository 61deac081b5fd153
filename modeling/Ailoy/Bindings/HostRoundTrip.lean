import Ailoy.Bindings.HostValues
import Ailoy.Core.ValueRoundTrip

/-!
# The trip of a value of a host

A value of a host that is converted, encoded, decoded and converted back. `trips` goes by induction on
it: when each of its scalars and of its keys raises or comes back, so does the value. A scalar of
Python comes back as it was (`python_scalar`), and so does one of JavaScript (`js_scalar`), but for a
`BigInt`, which becomes a `Number` or a string, and for what `JsScalar.Kept` leaves out: an
`ArrayBuffer`, an infinity, an integer that no `int64_t` holds, and a surrogate that stands alone.
-/

namespace Ailoy.HostValues

open SplitText (bytesOf ofBytes)

/-! ## Strings -/

theorem utf8Decode_utf8 (cs : List Char) : utf8Decode (utf8 cs) = some cs := by
  have h : (utf8 cs).toByteArray.utf8Decode? = some cs.toArray := List.utf8Decode?_utf8Encode
  unfold utf8Decode
  rw [h]
  rfl

/-- A string without lone surrogates is its characters. -/
theorem map_char_of_characters {s : HostString} {cs : List Char} (h : characters s = some cs) :
    cs.map .char = s := by
  induction s generalizing cs with
  | nil =>
    obtain rfl := Option.some.inj h
    rfl
  | cons p s ih =>
    cases p with
    | surrogate unit => cases h
    | char c =>
      obtain ⟨cs', hcs, rfl⟩ := Option.map_eq_some_iff.mp h
      rw [List.map_cons, ih hcs]

/-! ## Values that come back -/

namespace Host

variable {α : Type}

/-- What holds of a value when it holds of its scalars, and of a list or a dictionary when it holds of
the elements. -/
@[elab_as_elim]
theorem inductionOn {P : Host α → Prop} (x : Host α) (scalar : ∀ a, P (.scalar a))
    (list : ∀ xs, (∀ x ∈ xs, P x) → P (.list xs))
    (dict : ∀ kvs : List (HostString × Host α), (∀ kv ∈ kvs, P kv.2) → P (.dict kvs)) : P x :=
  @Host.rec α P (fun xs => ∀ x ∈ xs, P x) (fun kvs => ∀ kv ∈ kvs, P kv.2) (fun kv => P kv.2)
    scalar list dict
    (fun _ h => absurd h (by simp)) (fun _ _ hx hxs => List.forall_mem_cons.mpr ⟨hx, hxs⟩)
    (fun _ h => absurd h (by simp)) (fun _ _ hkv hkvs => List.forall_mem_cons.mpr ⟨hkv, hkvs⟩)
    (fun _ _ h => h) x

/-- A value whose dictionaries have distinct keys, and whose scalars and keys have the properties `P`
and `K`. -/
inductive All (P : α → Prop) (K : HostString → Prop) : Host α → Prop
  | scalar {a : α} : P a → All P K (.scalar a)
  | list {xs : List (Host α)} : (∀ x ∈ xs, All P K x) → All P K (.list xs)
  | dict {kvs : List (HostString × Host α)} : (kvs.map Prod.fst).Nodup → (∀ kv ∈ kvs, K kv.1) →
      (∀ kv ∈ kvs, All P K kv.2) → All P K (.dict kvs)

/-- Two values of one kind: their scalars are related by `R`, and dictionaries have the same keys. -/
inductive Rel (R : α → α → Prop) : Host α → Host α → Prop
  | scalar {a b : α} : R a b → Rel R (.scalar a) (.scalar b)
  | list {xs ys : List (Host α)} : List.Forall₂ (Rel R) xs ys → Rel R (.list xs) (.list ys)
  | dict {kvs kws : List (HostString × Host α)} :
      (∀ k, k ∈ kvs.map Prod.fst ↔ k ∈ kws.map Prod.fst) →
      (∀ k x y, (k, x) ∈ kvs → (k, y) ∈ kws → Rel R x y) → Rel R (.dict kvs) (.dict kws)

end Host

/-- An assignment to an element that is not there adds one. -/
theorem assign_of_notMem {κ ν : Type} [DecidableEq κ] {key : κ} {v : ν} {m : List (κ × ν)}
    (h : key ∉ m.map Prod.fst) : assign key v m = m ++ [(key, v)] := by
  induction m with
  | nil => rfl
  | cons kv m ih =>
    rw [List.map_cons, List.mem_cons, not_or] at h
    rw [assign, if_neg (Ne.symm h.1), ih h.2]
    rfl

namespace Converters

variable {α : Type} (c : Converters α) (R : α → α → Prop)

/-- What is decoded for the value comes back as a value of the host that is related to `x`. -/
structure Returns (x : Host α) (v : Value) : Prop where
  valid : v.Valid
  small : v.Small
  cast : ∀ w : Value, w.Valid → w.Same v.norm → ∃ y, c.cast w = .ok y ∧ x.Rel R y

/-- The scalar raises, where it may, or it comes back. -/
def ScalarTrips (mayRaise : Prop) (a : α) : Prop :=
  (mayRaise ∧ ∃ e, c.loadScalar a = .error e) ∨
    ∃ v, c.loadScalar a = .ok v ∧ c.Returns R (.scalar a) v

/-- The key raises, where it may, or it comes back as it was. -/
def KeyTrips (mayRaise : Prop) (k : HostString) : Prop :=
  c.isOwnKey k = true ∧
    ((mayRaise ∧ ∃ e, c.loadKey k = .error e) ∨ ∃ key, c.loadKey k = .ok key ∧ c.castKey key = .ok k)

variable {c R} {mayRaise : Prop}

/-- The elements of a list raise, or they are converted one by one. -/
theorem loadList_cases {Q : Host α → Value → Prop} {xs : List (Host α)}
    (h : ∀ x ∈ xs, (mayRaise ∧ ∃ e, c.load x = .error e) ∨ ∃ v, c.load x = .ok v ∧ Q x v) :
    (mayRaise ∧ ∃ e, c.loadList xs = .error e) ∨
      ∃ vs, c.loadList xs = .ok vs ∧ List.Forall₂ Q xs vs := by
  induction xs with
  | nil => exact .inr ⟨[], rfl, .nil⟩
  | cons x xs ih =>
    obtain ⟨hx, hxs⟩ := List.forall_mem_cons.mp h
    rw [loadList]
    rcases hx with ⟨hmay, e, he⟩ | ⟨v, hv, hQ⟩
    · rw [he]
      exact .inl ⟨hmay, e, rfl⟩
    · rw [hv, Except.ok_bind]
      rcases ih hxs with ⟨hmay, e, he⟩ | ⟨vs, hvs, hall⟩
      · rw [he]
        exact .inl ⟨hmay, e, rfl⟩
      · rw [hvs]
        exact .inr ⟨v :: vs, rfl, .cons hQ hall⟩

/-- The entries of a dictionary raise, or they are converted one by one and put behind the entries
that are there, whose keys are none of theirs. -/
theorem loadEntries_cases {Q : Host α → Value → Prop} {kvs : List (HostString × Host α)}
    {m : List (String × Value)} (hnodup : (kvs.map Prod.fst).Nodup)
    (hkeys : ∀ kv ∈ kvs, c.KeyTrips mayRaise kv.1)
    (h : ∀ kv ∈ kvs, (mayRaise ∧ ∃ e, c.load kv.2 = .error e) ∨
      ∃ v, c.load kv.2 = .ok v ∧ Q kv.2 v)
    (hm : ∀ e ∈ m, ∀ kv ∈ kvs, c.castKey e.1 ≠ .ok kv.1) :
    (mayRaise ∧ ∃ e, c.loadEntries m kvs = .error e) ∨
      ∃ entries, c.loadEntries m kvs = .ok (m ++ entries) ∧
        List.Forall₂ (fun kv e => c.loadKey kv.1 = .ok e.1 ∧ c.castKey e.1 = .ok kv.1 ∧ Q kv.2 e.2)
          kvs entries := by
  induction kvs generalizing m with
  | nil => exact .inr ⟨[], by rw [loadEntries, List.append_nil], .nil⟩
  | cons kv kvs ih =>
    obtain ⟨k, x⟩ := kv
    obtain ⟨hx, hxs⟩ := List.forall_mem_cons.mp h
    obtain ⟨⟨-, hk⟩, hks⟩ := List.forall_mem_cons.mp hkeys
    rw [List.map_cons, List.nodup_cons] at hnodup
    rw [loadEntries]
    rcases hx with ⟨hmay, e, he⟩ | ⟨v, hv, hQ⟩
    · dsimp only at he
      rw [he]
      exact .inl ⟨hmay, e, rfl⟩
    dsimp only at hv
    rw [hv, Except.ok_bind]
    rcases hk with ⟨hmay, e, he⟩ | ⟨key, hkey, hback⟩
    · rw [he]
      exact .inl ⟨hmay, e, rfl⟩
    rw [hkey, Except.ok_bind]
    have hnew : key ∉ m.map Prod.fst := by
      intro hmem
      obtain ⟨e, he, rfl⟩ := List.mem_map.mp hmem
      exact hm e he _ List.mem_cons_self hback
    rw [assign_of_notMem hnew]
    have hm' : ∀ e ∈ m ++ [(key, v)], ∀ kv ∈ kvs, c.castKey e.1 ≠ .ok kv.1 := by
      intro e he kv hkv
      rcases List.mem_append.mp he with he | he
      · exact hm e he kv (List.mem_cons_of_mem _ hkv)
      · rw [List.mem_singleton.mp he]
        intro heq
        have hsame : k = kv.1 := Except.ok.inj (hback.symm.trans heq)
        have hmem : kv.1 ∈ kvs.map Prod.fst := List.mem_map_of_mem hkv
        rw [← hsame] at hmem
        exact hnodup.1 hmem
    rcases ih hnodup.2 hks hxs hm' with ⟨hmay, e, he⟩ | ⟨entries, hentries, hall⟩
    · exact .inl ⟨hmay, e, he⟩
    · refine .inr ⟨(key, v) :: entries, ?_, .cons ⟨hkey, hback, hQ⟩ hall⟩
      rw [hentries, List.append_assoc]
      rfl

/-- The elements of an array are converted one by one. -/
theorem castArray_eq {Q : Host α → Host α → Prop} {xs : List (Host α)} {ws : List Value}
    (h : List.Forall₂ (fun x w => ∃ y, c.cast w = .ok y ∧ Q x y) xs ws) :
    ∃ ys, c.castArray ws = .ok ys ∧ List.Forall₂ Q xs ys := by
  induction h with
  | nil => exact ⟨[], rfl, .nil⟩
  | cons hx _ ih =>
    obtain ⟨y, hy, hQ⟩ := hx
    obtain ⟨ys, hys, hall⟩ := ih
    refine ⟨y :: ys, ?_, .cons hQ hall⟩
    rw [castArray, hy, Except.ok_bind, hys]
    rfl

/-- The entries of a map are converted one by one and put behind those that are there. -/
theorem castEntries_eq {entries : List (String × Value)} (dict : List (HostString × Host α))
    (hnodup : (entries.map Prod.fst).Nodup)
    (h : ∀ e ∈ entries, ∃ k y, c.castKey e.1 = .ok k ∧ c.isOwnKey k = true ∧ c.cast e.2 = .ok y)
    (hinj : ∀ e ∈ entries, ∀ e' ∈ entries, c.castKey e.1 = c.castKey e'.1 → e.1 = e'.1)
    (hdict : ∀ kv ∈ dict, ∀ e ∈ entries, c.castKey e.1 ≠ .ok kv.1) :
    ∃ kvs, c.castEntries dict entries = .ok (dict ++ kvs) ∧
      List.Forall₂ (fun e kv => c.castKey e.1 = .ok kv.1 ∧ c.cast e.2 = .ok kv.2) entries kvs := by
  induction entries generalizing dict with
  | nil => exact ⟨[], by rw [castEntries, List.append_nil], .nil⟩
  | cons e entries ih =>
    obtain ⟨key, v⟩ := e
    obtain ⟨⟨k, y, hk, hown, hy⟩, hrest⟩ := List.forall_mem_cons.mp h
    dsimp only at hk hy
    rw [List.map_cons, List.nodup_cons] at hnodup
    have hnew : k ∉ dict.map Prod.fst := by
      intro hmem
      obtain ⟨kv, hkv, rfl⟩ := List.mem_map.mp hmem
      exact hdict kv hkv _ List.mem_cons_self hk
    have hdict' : ∀ kv ∈ dict ++ [(k, y)], ∀ e ∈ entries, c.castKey e.1 ≠ .ok kv.1 := by
      intro kv hkv e he heq
      rcases List.mem_append.mp hkv with hkv | hkv
      · exact hdict kv hkv e (List.mem_cons_of_mem _ he) heq
      · rw [List.mem_singleton.mp hkv] at heq
        have hkey := hinj (key, v) List.mem_cons_self e (List.mem_cons_of_mem _ he)
          (hk.trans heq.symm)
        have hmem : e.1 ∈ entries.map Prod.fst := List.mem_map_of_mem he
        rw [← hkey] at hmem
        exact hnodup.1 hmem
    have hinj' : ∀ e ∈ entries, ∀ e' ∈ entries, c.castKey e.1 = c.castKey e'.1 → e.1 = e'.1 :=
      fun e he e' he' =>
        hinj e (List.mem_cons_of_mem _ he) e' (List.mem_cons_of_mem _ he')
    obtain ⟨kvs, hkvs, hall⟩ := ih (dict ++ [(k, y)]) hnodup.2 hrest hinj' hdict'
    refine ⟨(k, y) :: kvs, ?_, .cons ⟨hk, hy⟩ hall⟩
    rw [castEntries, hy, Except.ok_bind, hk, Except.ok_bind, setEntry, if_pos hown,
      assign_of_notMem hnew, hkvs, List.append_assoc]
    rfl

/-- What a value and a decoded one, or a list of them, have to do with each other by way of what was
sent. -/
theorem forall₂_through {β γ δ : Type} {S : β → γ → Prop} {T : δ → γ → Prop} {U : β → δ → Prop}
    {xs : List β} {vs : List γ} {ws : List δ} (hxs : List.Forall₂ S xs vs)
    (hws : List.Forall₂ T ws vs) (h : ∀ x v w, S x v → T w v → U x w) : List.Forall₂ U xs ws := by
  induction hxs generalizing ws with
  | nil =>
    cases hws
    exact .nil
  | cons hx _ ih =>
    cases hws with
    | cons hw hws => exact .cons (h _ _ _ hx hw) (ih hws)

/-- A list whose elements come back. -/
theorem returns_list {xs : List (Host α)} {vs : List Value}
    (h : List.Forall₂ (c.Returns R) xs vs) : c.Returns R (.list xs) (.array vs) where
  valid := .intro trivial fun u hu => by
    obtain ⟨x, -, hx⟩ := Value.forall₂_mem_right h hu
    exact hx.valid
  small := .intro trivial fun u hu => by
    obtain ⟨x, -, hx⟩ := Value.forall₂_mem_right h hu
    exact hx.small
  cast := fun w hvalid hsame => by
    rw [Value.norm, Value.normArray_eq] at hsame
    obtain ⟨ws, rfl, hws⟩ := hsame.array_right
    rw [List.forall₂_map_right_iff] at hws
    have hws' : List.Forall₂ (fun w v => w.Valid ∧ w.Same v.norm) ws vs :=
      (List.forall₂_and_left _ _).mpr ⟨fun w hw => hvalid.child hw, hws⟩
    obtain ⟨ys, hys, hall⟩ := castArray_eq
      (forall₂_through h hws' fun x v w hx hw => hx.cast w hw.1 hw.2)
    refine ⟨.list ys, ?_, .list hall⟩
    rw [Converters.cast, hys]
    rfl

/-- What is known of the entries that a dictionary was converted to. -/
abbrev EntryReturns (c : Converters α) (R : α → α → Prop) (kv : HostString × Host α)
    (e : String × Value) : Prop :=
  c.loadKey kv.1 = .ok e.1 ∧ c.castKey e.1 = .ok kv.1 ∧ c.Returns R kv.2 e.2

/-- A dictionary whose entries come back. -/
theorem returns_dict {kvs : List (HostString × Host α)} {entries : List (String × Value)}
    (hnodup : (kvs.map Prod.fst).Nodup) (hown : ∀ kv ∈ kvs, c.isOwnKey kv.1 = true)
    (h : List.Forall₂ (c.EntryReturns R) kvs entries) : c.Returns R (.dict kvs) (.map entries) := by
  -- The keys of both sides determine each other.
  have hfrom : ∀ e ∈ entries, ∃ kv ∈ kvs, c.EntryReturns R kv e :=
    fun e he => Value.forall₂_mem_right h he
  have hto : ∀ kv ∈ kvs, ∃ e ∈ entries, c.EntryReturns R kv e :=
    fun kv hkv => Value.forall₂_mem_left h hkv
  have hkey : ∀ {key key' k}, key ∈ entries.map Prod.fst → key' ∈ entries.map Prod.fst →
      c.castKey key = .ok k → c.castKey key' = .ok k → key = key' := by
    intro key key' k hmem hmem' hk hk'
    obtain ⟨e, he, rfl⟩ := List.mem_map.mp hmem
    obtain ⟨e', he', rfl⟩ := List.mem_map.mp hmem'
    obtain ⟨kv, -, hload, hcast, -⟩ := hfrom e he
    obtain ⟨kv', -, hload', hcast', -⟩ := hfrom e' he'
    obtain rfl : kv.1 = k := Except.ok.inj (hcast.symm.trans hk)
    have hsame : kv'.1 = kv.1 := Except.ok.inj (hcast'.symm.trans hk')
    rw [hsame] at hload'
    exact Except.ok.inj (hload.symm.trans hload')
  have hentries : (entries.map Prod.fst).Nodup := by
    have hcast : List.Forall₂ (fun kv e => c.castKey e.1 = .ok kv.1) kvs entries :=
      h.imp fun _ _ h => h.2.1
    have hmap : (entries.map Prod.fst).map c.castKey = (kvs.map Prod.fst).map .ok := by
      rw [List.map_map, List.map_map, ← List.forall₂_eq_eq_eq, List.forall₂_map_left_iff,
        List.forall₂_map_right_iff]
      exact hcast.flip
    have hok : ((kvs.map Prod.fst).map (Except.ok : HostString → Except HostError HostString)).Nodup :=
      hnodup.map fun _ _ h => Except.ok.inj h
    rw [← hmap] at hok
    exact hok.of_map
  constructor
  · refine .intro hentries fun u hu => ?_
    obtain ⟨e, he, rfl⟩ := List.mem_map.mp hu
    obtain ⟨kv, -, -, -, hreturns⟩ := hfrom e he
    exact hreturns.valid
  · refine .intro trivial fun u hu => ?_
    obtain ⟨e, he, rfl⟩ := List.mem_map.mp hu
    obtain ⟨kv, -, -, -, hreturns⟩ := hfrom e he
    exact hreturns.small
  intro w hvalid hsame
  rw [Value.norm] at hsame
  obtain ⟨kws, rfl, hkeys, hvalues⟩ :=
    hsame.map_right (by rw [Value.keys_normEntries]; exact hentries)
  simp only [Value.keys_normEntries] at hkeys
  -- Each decoded entry belongs to one of the dictionary.
  have hback : ∀ e ∈ kws, ∃ kv ∈ kvs, c.castKey e.1 = .ok kv.1 ∧
      ∃ y, c.cast e.2 = .ok y ∧ kv.2.Rel R y := by
    intro e he
    obtain ⟨e', he', heq⟩ := List.mem_map.mp ((hkeys e.1).mp (List.mem_map_of_mem he))
    obtain ⟨kv, hkv, hload, hcast, hreturns⟩ := hfrom e' he'
    have hnorm : (e.1, e'.2.norm) ∈ Value.normEntries entries :=
      Value.mem_normEntries.mpr ⟨e'.2, heq ▸ he', rfl⟩
    refine ⟨kv, hkv, heq ▸ hcast, hreturns.cast e.2 ?_ (hvalues e.1 e.2 _ he hnorm)⟩
    exact hvalid.child (List.mem_map_of_mem he)
  have hinj : ∀ e ∈ kws, ∀ e' ∈ kws, c.castKey e.1 = c.castKey e'.1 → e.1 = e'.1 := by
    intro e he e' he' heq
    obtain ⟨kv, -, hcast, -⟩ := hback e he
    exact hkey ((hkeys e.1).mp (List.mem_map_of_mem he)) ((hkeys e'.1).mp (List.mem_map_of_mem he'))
      hcast (heq ▸ hcast)
  have hentry : ∀ e ∈ kws, ∃ k y, c.castKey e.1 = .ok k ∧ c.isOwnKey k = true ∧
      c.cast e.2 = .ok y := by
    intro e he
    obtain ⟨kv, hkv, hcast, y, hy, -⟩ := hback e he
    exact ⟨kv.1, y, hcast, hown kv hkv, hy⟩
  obtain ⟨kys, hkys, hall⟩ := castEntries_eq [] hvalid.here hentry hinj (by simp)
  refine ⟨.dict kys, by rw [Converters.cast, hkys]; rfl, .dict (fun k => ?_) fun k x y hx hy => ?_⟩
  · constructor
    · intro hk
      obtain ⟨kv, hkv, rfl⟩ := List.mem_map.mp hk
      obtain ⟨e, he, -, hcast, -⟩ := hto kv hkv
      obtain ⟨e', he', heq⟩ := List.mem_map.mp ((hkeys e.1).mpr (List.mem_map_of_mem he))
      obtain ⟨ky, hky, hcast', -⟩ := Value.forall₂_mem_left hall he'
      rw [heq] at hcast'
      rw [Except.ok.inj (hcast.symm.trans hcast')]
      exact List.mem_map_of_mem hky
    · intro hk
      obtain ⟨ky, hky, rfl⟩ := List.mem_map.mp hk
      obtain ⟨e, he, hcast, -⟩ := Value.forall₂_mem_right hall hky
      obtain ⟨kv, hkv, hcast', -⟩ := hback e he
      rw [Except.ok.inj (hcast.symm.trans hcast')]
      exact List.mem_map_of_mem hkv
  · obtain ⟨e, he, hcast, hy'⟩ := Value.forall₂_mem_right hall hy
    obtain ⟨kv, hkv, hcast', y', hcasty, hrel⟩ := hback e he
    have hk : kv.1 = k := Except.ok.inj (hcast'.symm.trans hcast)
    have hx' : kv.2 = x := (Prod.mk.inj (List.inj_on_of_nodup_map hnodup hkv hx hk)).2
    obtain rfl : y' = y := Except.ok.inj (hcasty.symm.trans hy')
    exact hx' ▸ hrel

/-- A value raises, or it comes back, when each of its scalars and of its keys does. -/
theorem trips {P : α → Prop} {K : HostString → Prop}
    (hscalar : ∀ a, P a → c.ScalarTrips R mayRaise a) (hkey : ∀ k, K k → c.KeyTrips mayRaise k)
    (x : Host α) (hx : x.All P K) : (mayRaise ∧ ∃ e, c.load x = .error e) ∨
      ∃ v, c.load x = .ok v ∧ c.Returns R x v := by
  induction x using Host.inductionOn with
  | scalar a =>
    cases hx with
    | scalar ha =>
      rw [load]
      exact hscalar a ha
  | list xs ih =>
    cases hx with
    | list hxs =>
      rw [load]
      rcases loadList_cases fun x hmem => ih x hmem (hxs x hmem) with ⟨hmay, e, he⟩ | ⟨vs, hvs, hall⟩
      · rw [he]
        exact .inl ⟨hmay, e, rfl⟩
      · rw [hvs]
        exact .inr ⟨.array vs, rfl, returns_list hall⟩
  | dict kvs ih =>
    cases hx with
    | dict hnodup hkeys hxs =>
      rw [load]
      rcases loadEntries_cases (m := []) hnodup (fun kv hmem => hkey kv.1 (hkeys kv hmem))
        (fun kv hmem => ih kv hmem (hxs kv hmem)) (by simp) with ⟨hmay, e, he⟩ | ⟨entries, hentries, hall⟩
      · rw [he]
        exact .inl ⟨hmay, e, rfl⟩
      · rw [hentries]
        refine .inr ⟨.map entries, rfl, returns_dict hnodup (fun kv hmem => ?_) hall⟩
        exact (hkey kv.1 (hkeys kv hmem)).1

end Converters

/-! ## Scalars that come back -/

namespace Converters

variable {α : Type} {c : Converters α} {R : α → α → Prop} {a : α}

/-- A value without elements comes back as a scalar. -/
theorem returns_scalar {v : Value} (hvalid : v.ValidNode) (hsmall : v.SmallNode)
    (hleaf : ∀ u : Value, ¬ u.Child v)
    (h : ∀ w : Value, w.Same v.norm → ∃ b, c.cast w = .ok (.scalar b) ∧ R a b) :
    c.Returns R (.scalar a) v where
  valid := Value.everywhere_leaf hvalid hleaf
  small := Value.everywhere_leaf hsmall hleaf
  cast := fun w _ hsame => by
    obtain ⟨b, hb, hR⟩ := h w hsame
    exact ⟨.scalar b, hb, .scalar hR⟩

/-- A value that is decoded as itself comes back as what its host makes of it. -/
theorem returns_self {v : Value} (hvalid : v.ValidNode) (hsmall : v.SmallNode)
    (hleaf : ∀ u : Value, ¬ u.Child v) (hself : ∀ w : Value, w.Same v.norm → w = v) {b : α}
    (hcast : c.cast v = .ok (.scalar b)) (hR : R a b) : c.Returns R (.scalar a) v := by
  refine returns_scalar hvalid hsmall hleaf fun w hsame => ⟨b, ?_, hR⟩
  rw [hself w hsame]
  exact hcast

/-- An integer comes back as what its host makes of it. -/
theorem returns_int {f : ℤ → α} (hint : ∀ n, c.castScalar (.int n) = .ok (f n.toInt))
    (huint : ∀ n, c.castScalar (.uint n) = .ok (f n.toNat)) {i : Int64} (h : R a (f i.toInt)) :
    c.Returns R (.scalar a) (.int i) := by
  refine returns_scalar trivial trivial (fun _ => id) fun w hsame => ⟨f i.toInt, ?_, h⟩
  rw [Value.norm] at hsame
  split_ifs at hsame with hi
  · -- On the wire, an integer that is not negative becomes unsigned.
    cases hsame
    rw [Converters.cast, huint, Value.toNat_toUInt64 hi]
    · rfl
    all_goals simp
  · cases hsame
    rw [Converters.cast, hint]
    · rfl
    all_goals simp

/-- A double comes back as what its host makes of it, and a NaN as that of a NaN. -/
theorem returns_double {f : UInt64 → α} (hdouble : ∀ bits, c.castScalar (.double bits) = .ok (f bits))
    {bits : UInt64} (hself : R a (f bits))
    (hnan : BinaryFloat.binary64.isNan bits.toNat = true →
      ∀ bits' : UInt64, BinaryFloat.binary64.isNan bits'.toNat = true → R a (f bits')) :
    c.Returns R (.scalar a) (.double bits) := by
  refine returns_scalar trivial trivial (fun _ => id) fun w hsame => ?_
  have hcast : ∀ bits', c.cast (.double bits') = .ok (.scalar (f bits')) := by
    intro bits'
    rw [Converters.cast, hdouble]
    · rfl
    all_goals simp
  cases hsame with
  | refl => exact ⟨_, hcast bits, hself⟩
  | double h' h => exact ⟨_, hcast _, hnan h _ h'⟩

end Converters

/-! ## Python -/

/-- Two scalars of Python are equal. A NaN is taken to be equal to a NaN. -/
def PyScalar.Same (a b : PyScalar) : Prop :=
  a = b ∨ ∃ x y, a = .float x ∧ b = .float y ∧ BinaryFloat.binary64.isNan x.toNat = true ∧
    BinaryFloat.binary64.isNan y.toNat = true

theorem toInt_ofInt {n : ℤ} (h : FitsInt64 n) : (Int64.ofInt n).toInt = n :=
  Int64.toInt_ofInt_of_le h.1 h.2

/-- A `str` raises, or its bytes give it back. -/
theorem pyLoadString_cases (s : HostString) : (True ∧ ∃ e, pyLoadString s = .error e) ∨
    ∃ t, pyLoadString s = .ok t ∧ pyCastString t = .ok s := by
  unfold pyLoadString
  cases h : characters s with
  | none => exact .inl ⟨trivial, _, rfl⟩
  | some cs =>
    refine .inr ⟨_, rfl, ?_⟩
    unfold pyCastString
    rw [SplitText.bytesOf_ofBytes, utf8Decode_utf8]
    exact congrArg Except.ok (map_char_of_characters h)

/-- Every scalar of Python raises or comes back. -/
theorem python_scalar (a : PyScalar) : python.ScalarTrips PyScalar.Same True a := by
  have hleaf : ∀ v : Value, v.ValidNode → v.SmallNode → (∀ u : Value, ¬ u.Child v) →
      (∀ w : Value, w.Same v.norm → w = v) → python.cast v = .ok (.scalar a) →
      python.Returns PyScalar.Same (.scalar a) v :=
    fun v hvalid hsmall hnone hself hcast =>
      Converters.returns_self hvalid hsmall hnone hself hcast (.inl rfl)
  cases a with
  | none =>
    refine .inr ⟨_, rfl, hleaf _ trivial trivial (fun _ => id) (fun w hsame => ?_) rfl⟩
    cases hsame
    rfl
  | bool b =>
    refine .inr ⟨_, rfl, hleaf _ trivial trivial (fun _ => id) (fun w hsame => ?_) rfl⟩
    cases hsame
    rfl
  | bytes bs =>
    refine .inr ⟨_, rfl, hleaf _ trivial trivial (fun _ => id) (fun w hsame => ?_) rfl⟩
    cases hsame
    rfl
  | str s =>
    rcases pyLoadString_cases s with ⟨-, e, he⟩ | ⟨t, ht, hback⟩
    · refine .inl ⟨trivial, e, ?_⟩
      show (pyLoadString s).map Value.string = _
      rw [he]
      rfl
    · refine .inr ⟨.string t, ?_, hleaf _ trivial trivial (fun _ => id) (fun w hsame => ?_) ?_⟩
      · show (pyLoadString s).map Value.string = _
        rw [ht]
        rfl
      · cases hsame
        rfl
      · show ((pyCastString t).map PyScalar.str >>= fun a => pure (Host.scalar a)) = _
        rw [hback]
        rfl
  | int n =>
    by_cases hn : FitsInt64 n
    · refine .inr ⟨_, if_pos hn, Converters.returns_int (f := .int) (fun _ => rfl) (fun _ => rfl) ?_⟩
      rw [toInt_ofInt hn]
      exact .inl rfl
    · exact .inl ⟨trivial, _, if_neg hn⟩
  | float bits =>
    refine .inr ⟨_, rfl, Converters.returns_double (f := .float) (fun _ => rfl) (.inl rfl) ?_⟩
    intro hnan bits' hnan'
    exact .inr ⟨bits, bits', rfl, rfl, hnan, hnan'⟩

/-! ## JavaScript -/

/-- Two patterns are the same number, where the two zeros are one, or both are no number. -/
def SameNumber (a b : UInt64) : Prop :=
  BinaryFloat.binary64.datum a.toNat = BinaryFloat.binary64.datum b.toNat ∨
    ∃ s t, BinaryFloat.binary64.datum a.toNat = .finite s 0 ∧
      BinaryFloat.binary64.datum b.toNat = .finite t 0

/-- Two scalars of JavaScript are equal, and of one kind. -/
def JsScalar.Same (a b : JsScalar) : Prop :=
  a = b ∨ ∃ x y, a = .number x ∧ b = .number y ∧ SameNumber x y

/-- How a scalar of JavaScript comes back: as an equal one of its kind, but for a `BigInt`, which
becomes a `Number` if it fits an `int64_t`, and otherwise the string of its digits. -/
def JsScalar.ComesBack : JsScalar → JsScalar → Prop
  | .bigint n, b => b = if FitsInt64 n then .number (doubleOfInt n) else .string (bigintDigits n)
  | a, b => a.Same b

/-- A number that is not infinite and, when it is an integer, one of an `int64_t`. -/
def IsKeptNumber (bits : UInt64) : Prop :=
  match BinaryFloat.binary64.datum bits.toNat with
  | .finite negative q => q.isInt = true → FitsInt64 (signed negative q).num
  | .infinite _ => False
  | .nan => True

/-- The scalars that JavaScript gets back: numbers as above, strings without lone surrogates, and all
others but an `ArrayBuffer`. -/
def JsScalar.Kept : JsScalar → Prop
  | .number bits => IsKeptNumber bits
  | .string s => ∃ cs, characters s = some cs
  | .arrayBuffer _ => False
  | .null | .boolean _ | .bigint _ => True

/-- The keys that JavaScript gets back. -/
def KeptKey (k : HostString) : Prop := (∃ cs, characters k = some cs) ∧ k ≠ protoKey

/-- A string without lone surrogates is given back by its bytes. -/
theorem stringNew_utf8Value (replace : List UInt8 → HostString) {s : HostString} {cs : List Char}
    (h : characters s = some cs) : stringNew replace (bytesOf (utf8Value s)) = s := by
  obtain rfl := map_char_of_characters h
  have hreplaced : (cs.map CodePoint.char).map CodePoint.replaced = cs := by
    rw [List.map_map]
    exact List.map_id'' (fun _ => rfl) cs
  unfold stringNew utf8Value
  rw [SplitText.bytesOf_ofBytes, hreplaced, utf8Decode_utf8]

/-- A magnitude that is an integer is a natural number. -/
theorem exists_nat_of_isInt {q : ℚ} (hq : 0 ≤ q) (hint : q.isInt = true) : ∃ m : ℕ, q = m := by
  have hnum : (q.num.toNat : ℤ) = q.num := Int.toNat_of_nonneg (Rat.num_nonneg.mpr hq)
  have hcast : (q.num : ℚ) = q := Rat.coe_int_num_of_den_eq_one (by simpa [Rat.isInt] using hint)
  refine ⟨q.num.toNat, ?_⟩
  rw [← hcast, ← hnum]
  rfl

theorem num_signed (s : Bool) (m : ℕ) : (signed s m).num = if s = true then -(m : ℤ) else m := by
  cases s with
  | false => exact Rat.num_natCast m
  | true =>
    show (-(m : ℚ)).num = _
    rw [Rat.num_neg_eq_neg_num, Rat.num_natCast]
    rfl

/-- The double of zero. -/
theorem datum_zero : BinaryFloat.binary64.datum (doubleOfInt 0).toNat = .finite false 0 := by
  have hzero : (doubleOfInt 0).toNat = BinaryFloat.binary64.pack false 0 0 := rfl
  rw [hzero, BinaryFloat.Format.datum_pack _ (by decide) (by decide), if_neg (by decide), if_pos rfl]
  norm_num

/-- The double of an integer whose significand fits one. -/
theorem datum_doubleOfInt {s : Bool} {m : ℕ} (hm : m ≠ 0) (hlt : m < 2 ^ 64)
    (hexact : 2 ^ (Nat.log2 m - 52) ∣ m) :
    BinaryFloat.binary64.datum (doubleOfInt (if s = true then -(m : ℤ) else m)).toNat =
      .finite s m := by
  have hlog : Nat.log2 m < 64 := (Nat.log2_lt hm).mpr hlt
  have hbias : BinaryFloat.binary64.bias = 1023 := rfl
  have hmax : BinaryFloat.binary64.maxExponent = 2047 := rfl
  obtain ⟨hdatum, hbound⟩ := BinaryFloat.Format.datum_round_nat (f := BinaryFloat.binary64)
    (by omega) hm hexact (by omega) s
  have hsize : 2 * 2 ^ BinaryFloat.binary64.expBits * 2 ^ BinaryFloat.binary64.fracBits =
      UInt64.size := rfl
  have hneg : decide ((if s = true then -(m : ℤ) else m) < 0) = s := by
    cases s with
    | false =>
      rw [if_neg Bool.false_ne_true]
      exact decide_eq_false (by omega)
    | true =>
      rw [if_pos rfl]
      exact decide_eq_true (by omega)
  have habs : (if s = true then -(m : ℤ) else m).natAbs = m := by
    split_ifs <;> omega
  unfold doubleOfInt
  rw [hneg, habs, UInt64.toNat_ofNat_of_lt' (hsize ▸ hbound), hdatum]

/-- An integer that a double stands for, and that an `int64_t` holds, is converted back to it. -/
theorem sameNumber_doubleOfInt {bits : UInt64} {s : Bool} {q : ℚ}
    (h : BinaryFloat.binary64.datum bits.toNat = .finite s q) (hint : q.isInt = true)
    (hfits : FitsInt64 (signed s q).num) : SameNumber bits (doubleOfInt (signed s q).num) := by
  obtain ⟨m, rfl⟩ := exists_nat_of_isInt (BinaryFloat.Format.magnitude_nonneg h) hint
  rw [num_signed] at hfits ⊢
  by_cases hm : m = 0
  · subst hm
    have hzero : (if s = true then -((0 : ℕ) : ℤ) else ((0 : ℕ) : ℤ)) = 0 := by
      split_ifs <;> rfl
    rw [hzero]
    exact .inr ⟨s, false, by simpa using h, datum_zero⟩
  · have hlt : m < 2 ^ 64 := by
      obtain ⟨hlow, hhigh⟩ := hfits
      split_ifs at hlow hhigh <;> omega
    have hexact := BinaryFloat.Format.significand_of_datum hm h (Rat.floor_intCast m)
    exact .inl (h.trans (datum_doubleOfInt hm hlt hexact).symm)

/-- What an integer is clamped to. -/
theorem toInt_clamp_eq (n : ℤ) : (clamp n).toInt = max (-2 ^ 63) (min n (2 ^ 63 - 1)) :=
  toInt_ofInt ⟨by omega, by omega⟩

/-- One of an `int64_t` is kept. -/
theorem toInt_clamp {n : ℤ} (h : FitsInt64 n) : (clamp n).toInt = n := by
  obtain ⟨hlow, hhigh⟩ := h
  rw [toInt_clamp_eq]
  omega

/-- A string of JavaScript comes back as the string of its bytes. -/
theorem js_string (replace : List UInt8 → HostString) {a : JsScalar} {s : HostString} {cs : List Char}
    (hs : characters s = some cs) (ha : a.ComesBack (.string s)) :
    (js replace).Returns JsScalar.ComesBack (.scalar a) (.string (utf8Value s)) := by
  refine Converters.returns_self (b := .string s) trivial trivial (fun _ => id) (fun w hsame => ?_)
    ?_ ha
  · cases hsame
    rfl
  · show Except.ok (Host.scalar (JsScalar.string (stringNew replace (bytesOf (utf8Value s))))) = _
    rw [stringNew_utf8Value replace hs]

/-- An integer comes back as a `Number`. -/
theorem js_int (replace : List UInt8 → HostString) {a : JsScalar} {n : ℤ}
    {i : Int64} (hi : i.toInt = n) (ha : a.ComesBack (.number (doubleOfInt n))) :
    (js replace).Returns JsScalar.ComesBack (.scalar a) (.int i) := by
  refine Converters.returns_int (f := fun n => .number (doubleOfInt n)) (fun _ => rfl)
    (fun _ => rfl) ?_
  rw [hi]
  exact ha

/-- The digits of a `BigInt` are characters. -/
theorem characters_bigintDigits (n : ℤ) : characters (bigintDigits n) = some (toString n).toList := by
  have hall : ∀ cs : List Char, characters (cs.map .char) = some cs := by
    intro cs
    induction cs with
    | nil => rfl
    | cons c cs ih =>
      rw [List.map_cons, characters, ih]
      rfl
  exact hall _

/-- A number without a fraction is its integer part. -/
theorem truncate_of_isInt {s : Bool} {q : ℚ} (hint : q.isInt = true) :
    truncate s q = (signed s q).num := by
  obtain ⟨n, rfl⟩ : ∃ n : ℤ, (n : ℚ) = q :=
    ⟨q.num, Rat.coe_int_num_of_den_eq_one (by simpa [Rat.isInt] using hint)⟩
  unfold truncate signed
  rw [Rat.floor_intCast]
  cases s with
  | false => exact (Rat.num_intCast n).symm
  | true =>
    show -n = (-(n : ℚ)).num
    rw [Rat.num_neg_eq_neg_num, Rat.num_intCast]

/-- A number without a fraction becomes an integer. -/
theorem jsLoadScalar_of_isInt {bits : UInt64} {s : Bool} {q : ℚ}
    (h : BinaryFloat.binary64.datum bits.toNat = .finite s q) (hint : q.isInt = true) :
    jsLoadScalar (.number bits) = .ok (.int (clamp (signed s q).num)) := by
  rw [jsLoadScalar, isTruncated, int64Value, h]
  dsimp only
  rw [if_pos hint, truncate_of_isInt hint]

/-- A number with a fraction stays a double. -/
theorem jsLoadScalar_of_not_isInt {bits : UInt64} {s : Bool} {q : ℚ}
    (h : BinaryFloat.binary64.datum bits.toNat = .finite s q) (hint : ¬ q.isInt = true) :
    jsLoadScalar (.number bits) = .ok (.double bits) := by
  rw [jsLoadScalar, isTruncated, h]
  exact if_neg hint

/-- A scalar that JavaScript gets back does not raise, and comes back. -/
theorem js_scalar (replace : List UInt8 → HostString) {a : JsScalar} (h : a.Kept) :
    (js replace).ScalarTrips JsScalar.ComesBack False a := by
  refine .inr ?_
  cases a with
  | null =>
    refine ⟨_, rfl, Converters.returns_self trivial trivial (fun _ => id) (fun w hsame => ?_) rfl
      (.inl rfl)⟩
    cases hsame
    rfl
  | boolean b =>
    refine ⟨_, rfl, Converters.returns_self trivial trivial (fun _ => id) (fun w hsame => ?_) rfl
      (.inl rfl)⟩
    cases hsame
    rfl
  | arrayBuffer bs => cases h
  | string s =>
    obtain ⟨cs, hs⟩ := h
    exact ⟨_, rfl, js_string replace hs (.inl rfl)⟩
  | bigint n =>
    show ∃ v, (if FitsInt64 n then _ else _) = _ ∧ _
    by_cases hn : FitsInt64 n
    · rw [if_pos hn]
      exact ⟨_, rfl, js_int replace (toInt_ofInt hn) (if_pos hn).symm⟩
    · rw [if_neg hn]
      exact ⟨_, rfl, js_string replace (characters_bigintDigits n) (if_neg hn).symm⟩
  | number bits =>
    have hdouble : (js replace).Returns JsScalar.ComesBack (.scalar (.number bits))
        (.double bits) := by
      refine Converters.returns_double (f := .number) (fun _ => rfl) (.inl rfl) ?_
      intro hnan bits' hnan'
      refine .inr ⟨bits, bits', rfl, rfl, .inl ?_⟩
      rw [BinaryFloat.Format.datum_of_isNan hnan, BinaryFloat.Format.datum_of_isNan hnan']
    have hkept : IsKeptNumber bits := h
    unfold IsKeptNumber at hkept
    cases hdatum : BinaryFloat.binary64.datum bits.toNat with
    | infinite s =>
      rw [hdatum] at hkept
      cases hkept
    | nan =>
      refine ⟨.double bits, ?_, hdouble⟩
      show (if isTruncated bits = true then _ else _) = _
      rw [isTruncated, hdatum]
      exact if_neg Bool.false_ne_true
    | finite s q =>
      rw [hdatum] at hkept
      dsimp only at hkept
      by_cases hint : q.isInt = true
      · have hfits := hkept hint
        refine ⟨_, jsLoadScalar_of_isInt hdatum hint, js_int replace (toInt_clamp hfits) ?_⟩
        exact .inr ⟨bits, _, rfl, rfl, sameNumber_doubleOfInt hdatum hint hfits⟩
      · exact ⟨_, jsLoadScalar_of_not_isInt hdatum hint, hdouble⟩

/-- A key that JavaScript gets back comes back. -/
theorem js_key (replace : List UInt8 → HostString) {k : HostString} (h : KeptKey k) :
    (js replace).KeyTrips False k := by
  obtain ⟨⟨cs, hs⟩, hproto⟩ := h
  refine ⟨decide_eq_true hproto, .inr ⟨_, rfl, ?_⟩⟩
  exact congrArg Except.ok (stringNew_utf8Value replace hs)

/-! ## The whole trip -/

/-- Converted, encoded, decoded and converted back, the value comes back as `R` says. -/
def Trips {α : Type} (c : Converters α) (R : α → α → Prop) (toCbor : Json → List UInt8)
    (fromCbor : List UInt8 → Except Fault Json) (x : Host α) : Prop :=
  ∃ v w y, c.load x = .ok v ∧ decode fromCbor (v.encode toCbor) = .ok w ∧ c.cast w = .ok y ∧
    x.Rel R y

/-- The codec decodes what the value is converted to. -/
def Decodes {α : Type} (c : Converters α) (toCbor : Json → List UInt8)
    (fromCbor : List UInt8 → Except Fault Json) (x : Host α) : Prop :=
  ∀ v, c.load x = .ok v → Json.Inverts toCbor fromCbor v.toNlohmannJson

/-- A value that comes back makes the whole trip. -/
theorem Converters.Returns.trips {α : Type} {c : Converters α} {R : α → α → Prop} {x : Host α}
    {v : Value} (h : c.Returns R x v) (hload : c.load x = .ok v) {toCbor : Json → List UInt8}
    {fromCbor : List UInt8 → Except Fault Json} (hcbor : Decodes c toCbor fromCbor x) :
    Trips c R toCbor fromCbor x := by
  obtain ⟨w, hw, hreceived⟩ := Value.received_of_small v h.valid h.small
  obtain ⟨y, hy, hrel⟩ := h.cast w hreceived.valid hreceived.same
  exact ⟨v, w, y, hload, (Value.decode_eq_trip (hcbor v hload)).trans hw, hy, hrel⟩

/-- The key `a`. -/
def keyA : HostString := [.char 'a']

/-- `{"a": [1, 1]}` of Python. -/
def pySample : Host PyScalar := .dict [(keyA, .list [.scalar (.int 1), .scalar (.int 1)])]

/-- `{a: [1n, 1]}` of JavaScript. -/
def jsSample : Host JsScalar :=
  .dict [(keyA, .list [.scalar (.bigint 1), .scalar (.number 0x3FF0000000000000)])]

/-- The bytes of `{"a": [1, 1]}`. -/
def sampleToCbor (_ : Json) : List UInt8 := [0xA1, 0x61, 0x61, 0x82, 0x01, 0x01]

/-- `from_cbor` on these bytes, and an error elsewhere. -/
def sampleFromCbor (bytes : List UInt8) : Except Fault Json :=
  if bytes = [0xA1, 0x61, 0x61, 0x82, 0x01, 0x01] then
    .ok (.object [("a", .array [.numberUnsigned 1, .numberUnsigned 1])])
  else .error (.exception "parse error")

/-- The double `1`. -/
theorem datum_one : BinaryFloat.binary64.datum (0x3FF0000000000000 : UInt64).toNat =
    .finite false 1 := by
  have hone : (0x3FF0000000000000 : UInt64).toNat = BinaryFloat.binary64.pack false 1023 0 := rfl
  rw [hone, BinaryFloat.Format.datum_pack _ (by decide) (by decide), if_neg (by decide),
    if_neg (by decide)]
  norm_num [BinaryFloat.binary64, BinaryFloat.Format.bias]

theorem isKeptNumber_one : IsKeptNumber 0x3FF0000000000000 := by
  unfold IsKeptNumber
  rw [datum_one]
  intro _
  decide

theorem load_pySample : python.load pySample = .ok (.map [("a", .array [.int 1, .int 1])]) := rfl

theorem load_jsSample (replace : List UInt8 → HostString) :
    (js replace).load jsSample = .ok (.map [("a", .array [.int 1, .int 1])]) := by
  have hnumber : jsLoadScalar (.number 0x3FF0000000000000) = .ok (.int 1) :=
    jsLoadScalar_of_isInt datum_one rfl
  have hlist : (js replace).load (.list [.scalar (.bigint 1), .scalar (.number 0x3FF0000000000000)]) =
      .ok (.array [.int 1, .int 1]) := by
    rw [Converters.load, Converters.loadList, Converters.loadList, Converters.load, Converters.load]
    show (jsLoadScalar (.bigint 1) >>= fun v => (jsLoadScalar (.number _) >>= _) >>= _) >>= _ = _
    rw [hnumber]
    rfl
  rw [jsSample, Converters.load, Converters.loadEntries, hlist]
  rfl

/-- The bytes of `1`, and of `0`. -/
def digitFromCbor (bytes : List UInt8) : Except Fault Json :=
  if bytes = [0x01] then .ok (.numberUnsigned 1)
  else if bytes = [0x00] then .ok (.numberUnsigned 0)
  else .error (.exception "parse error")

end Ailoy.HostValues
