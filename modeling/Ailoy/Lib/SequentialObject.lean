import Mathlib.Data.List.Nodup

/-!
# Sequential objects and linearizations

A sequential object is a relation `next s o r s'`: in the state `s` the operation `o` may return
`r`, and leaves the state `s'`. `Legal` is a list of operations with their results that the object
allows from one state to another. A list of named operations linearizes what happened at the same
time when it is legal, names no operation twice, and keeps the order of any two operations of which
one came before the other (`Linearizes`). `Refines` relates two objects, of which the second may not
know all operations of the first: this is the refinement of data as well as the restriction to a part
of the state. Legal lists and linearizations carry over (`Legal.refine`, `Linearizes.refine`).
-/

namespace List

variable {α : Type*} {a b x : α} {l l' : List α}

/-- `a` stands before `b` in a list. -/
def Precedes (l : List α) (a b : α) : Prop := [a, b].Sublist l

instance [DecidableEq α] : Decidable (l.Precedes a b) := inferInstanceAs (Decidable (_ <+ _))

theorem precedes_iff : l.Precedes a b ↔ ∃ pre post, l = pre ++ post ∧ a ∈ pre ∧ b ∈ post := by
  simp only [Precedes, cons_sublist_iff (l := [b]), singleton_sublist]

theorem Precedes.mono (h : l'.Precedes a b) (hsub : l' <+ l) : l.Precedes a b := Sublist.trans h hsub

theorem Precedes.mem (h : l.Precedes a b) : a ∈ l ∧ b ∈ l := by
  obtain ⟨pre, post, rfl, ha, hb⟩ := precedes_iff.mp h
  exact ⟨mem_append_left _ ha, mem_append_right _ hb⟩

theorem Precedes.ne (h : l.Precedes a b) (hnd : l.Nodup) : a ≠ b := by
  obtain ⟨pre, post, rfl, ha, hb⟩ := precedes_iff.mp h
  exact (nodup_append.mp hnd).2.2 a ha b hb

/-- Without duplicates, what stands behind an element is behind all its places. -/
theorem Precedes.mem_right {pre post : List α} (h : (pre ++ x :: post).Precedes x b)
    (hnd : (pre ++ x :: post).Nodup) : b ∈ post := by
  obtain ⟨-, hnd', hdisj⟩ := nodup_append.mp hnd
  obtain ⟨l₁, l₂, hl, hpre, hpost⟩ := sublist_append_iff.mp h
  cases l₁ with
  | nil =>
    obtain rfl : [x, b] = l₂ := hl
    exact singleton_sublist.mp (cons_sublist_cons.mp hpost)
  | cons y l₁ =>
    obtain ⟨rfl, -⟩ := cons.inj hl
    exact absurd rfl (hdisj x (hpre.subset (.head _)) x (.head _))

/-- Without duplicates, what stands before an element is before all its places. -/
theorem Precedes.mem_left {pre post : List α} (h : (pre ++ x :: post).Precedes a x)
    (hnd : (pre ++ x :: post).Nodup) : a ∈ pre := by
  obtain ⟨-, hnd', -⟩ := nodup_append.mp hnd
  obtain ⟨l₁, l₂, hl, hpre, hpost⟩ := sublist_append_iff.mp h
  cases l₁ with
  | nil =>
    obtain rfl : [a, x] = l₂ := hl
    have hx : x ∈ post := singleton_sublist.mp (by simpa using hpost.tail)
    exact absurd hx (nodup_cons.mp hnd').1
  | cons y l₁ =>
    obtain ⟨rfl, -⟩ := cons.inj hl
    exact hpre.subset (.head _)

/-- Behind another first element, the order is that of the rest. -/
theorem precedes_cons_of_ne (h : a ≠ x) : (x :: l).Precedes a b ↔ l.Precedes a b := by
  constructor
  · intro hp
    rcases sublist_cons_iff.mp hp with hsub | ⟨r, hr, -⟩
    · exact hsub
    · exact absurd (cons.inj hr).1 h
  · exact fun hp => hp.mono (sublist_cons_self x l)

/-- A part of a list without duplicates keeps its order. -/
theorem Precedes.of_sublist (h : l.Precedes a b) (hnd : l.Nodup) (hsub : l' <+ l) (ha : a ∈ l')
    (hb : b ∈ l') : l'.Precedes a b := by
  have hne : a ≠ b := h.ne hnd
  induction hsub with
  | slnil => cases ha
  | @cons l' l x hsub ih =>
    have hax : a ≠ x := by
      rintro rfl
      exact (nodup_cons.mp hnd).1 (hsub.subset ha)
    exact ih ((precedes_cons_of_ne hax).mp h) hnd.of_cons ha hb
  | @cons_cons l' l x hsub ih =>
    by_cases hax : a = x
    · subst hax
      have hb' : b ∈ l' := (mem_cons.mp hb).resolve_left (Ne.symm hne)
      exact (singleton_sublist.mpr hb').cons_cons a
    · have hp := (precedes_cons_of_ne hax).mp h
      have hbx : b ≠ x := by
        rintro rfl
        exact (nodup_cons.mp hnd).1 hp.mem.2
      have hp' := ih hp hnd.of_cons ((mem_cons.mp ha).resolve_left hax)
        ((mem_cons.mp hb).resolve_left hbx)
      exact hp'.mono (sublist_cons_self x l')

end List

namespace SequentialObject

variable {S S' O O' R R' I : Type*}

/-- The operations of a list, one after the other, lead from one state to another. -/
inductive Legal (next : S → O → R → S → Prop) : S → List (O × R) → S → Prop
  | nil (s : S) : Legal next s [] s
  | cons {s s' s'' : S} {o : O} {r : R} {l : List (O × R)} : next s o r s' → Legal next s' l s'' →
      Legal next s ((o, r) :: l) s''

variable {next : S → O → R → S → Prop} {next' : S' → O' → R' → S' → Prop} {s s' s'' : S}
  {l l' : List (O × R)}

theorem legal_nil_iff : Legal next s [] s' ↔ s' = s := by
  constructor
  · intro h
    cases h
    rfl
  · rintro rfl
    exact .nil s'

theorem legal_append_iff :
    Legal next s (l ++ l') s'' ↔ ∃ s', Legal next s l s' ∧ Legal next s' l' s'' := by
  constructor
  · intro h
    induction l generalizing s with
    | nil => exact ⟨s, .nil s, h⟩
    | cons x l ih =>
      cases h with
      | cons hnext hrest =>
        obtain ⟨s', hl, hl'⟩ := ih hrest
        exact ⟨s', .cons hnext hl, hl'⟩
  · rintro ⟨s', hl, hl'⟩
    induction hl with
    | nil => exact hl'
    | cons hnext _ ih => exact .cons hnext (ih hl')

/-- One more operation at the end. -/
theorem Legal.concat {o : O} {r : R} (h : Legal next s l s') (hnext : next s' o r s'') :
    Legal next s (l ++ [(o, r)]) s'' :=
  legal_append_iff.mpr ⟨s', h, .cons hnext (.nil s'')⟩

/-- What every operation that the object allows has, all operations of a legal list have. -/
theorem Legal.forall {P : O × R → Prop} (h : Legal next s l s')
    (hnext : ∀ s o r s', next s o r s' → P (o, r)) : ∀ x ∈ l, P x := by
  induction h with
  | nil => exact fun x hx => absurd hx List.not_mem_nil
  | cons hstep _ ih => exact List.forall_mem_cons.mpr ⟨hnext _ _ _ _ hstep, ih⟩

/-- The operations that `view` makes of those of one object are operations of another, between states
that represent those of the first; an operation that is none of them leaves what is represented
alone. -/
structure Refines (next : S → O → R → S → Prop) (next' : S' → O' → R' → S' → Prop)
    (view : O × R → Option (O' × R')) (Represents : S → S' → Prop) (l : List (O × R)) : Prop where
  skip : ∀ x ∈ l, view x = none → ∀ s a s', Represents s a → next s x.1 x.2 s' → Represents s' a
  step : ∀ x ∈ l, ∀ y, view x = some y → ∀ s a s', Represents s a → next s x.1 x.2 s' →
    ∃ a', next' a y.1 y.2 a' ∧ Represents s' a'

/-- Legal lists carry over to another object. -/
theorem Legal.refine {view : O × R → Option (O' × R')} {Represents : S → S' → Prop}
    (h : Legal next s l s') (href : Refines next next' view Represents l) {a : S'}
    (ha : Represents s a) : ∃ a', Legal next' a (l.filterMap view) a' ∧ Represents s' a' := by
  induction h generalizing a with
  | nil => exact ⟨a, .nil a, ha⟩
  | @cons s s' s'' o r l hnext _ ih =>
    have hrest : Refines next next' view Represents l :=
      ⟨fun x hx => href.skip x (.tail _ hx), fun x hx => href.step x (.tail _ hx)⟩
    cases hview : view (o, r) with
    | none =>
      have ha' := href.skip (o, r) (.head _) hview s a s' ha hnext
      rw [List.filterMap_cons_none hview]
      exact ih hrest ha'
    | some y =>
      obtain ⟨a', hnext', ha'⟩ := href.step (o, r) (.head _) y hview s a s' ha hnext
      obtain ⟨a'', hlegal, ha''⟩ := ih hrest ha'
      rw [List.filterMap_cons_some hview]
      exact ⟨a'', .cons hnext' hlegal, ha''⟩

/-- The named operations of a list are legal one after the other, and the list keeps the order
`before`. -/
structure Linearizes (next : S → O → R → S → Prop) (before : I → I → Prop) (s : S)
    (l : List (I × O × R)) (s' : S) : Prop where
  legal : Legal next s (l.map Prod.snd) s'
  nodup : (l.map Prod.fst).Nodup
  ordered : ∀ i j, before i j → i ∈ l.map Prod.fst → j ∈ l.map Prod.fst →
    (l.map Prod.fst).Precedes i j

variable {before : I → I → Prop} {ops ops' : List (I × O × R)}

/-- The operations from one on linearize, from the state that those before it lead to. -/
theorem Linearizes.append (h : Linearizes next before s (ops ++ ops') s'') :
    ∃ s', Linearizes next before s ops s' ∧ Linearizes next before s' ops' s'' := by
  obtain ⟨hlegal, hnd, hord⟩ := h
  rw [List.map_append] at hlegal hnd hord
  obtain ⟨s', hl, hl'⟩ := legal_append_iff.mp hlegal
  obtain ⟨hnd₁, hnd₂, -⟩ := List.nodup_append.mp hnd
  refine ⟨s', ⟨hl, hnd₁, fun i j hij hi hj => ?_⟩, ⟨hl', hnd₂, fun i j hij hi hj => ?_⟩⟩
  · exact (hord i j hij (List.mem_append_left _ hi) (List.mem_append_left _ hj)).of_sublist hnd
      (List.sublist_append_left _ _) hi hj
  · exact (hord i j hij (List.mem_append_right _ hi) (List.mem_append_right _ hj)).of_sublist hnd
      (List.sublist_append_right _ _) hi hj

/-- The operations behind the first one linearize, from the state that it leads to. -/
theorem Linearizes.tail {i : I} {o : O} {r : R}
    (h : Linearizes next before s ((i, o, r) :: ops) s'') :
    ∃ s', next s o r s' ∧ Linearizes next before s' ops s'' := by
  have hsplit : Linearizes next before s ([(i, o, r)] ++ ops) s'' := h
  obtain ⟨s', hone, hops⟩ := hsplit.append
  have hlegal : Legal next s [(o, r)] s' := hone.legal
  cases hlegal with
  | cons hnext hnil =>
    obtain rfl := legal_nil_iff.mp hnil
    exact ⟨_, hnext, hops⟩

/-- Two operations in their order, with what comes before, between, and after them. -/
theorem Linearizes.split {i j : I} {x y : O × R} (h : Linearizes next before s ops s')
    (hx : (i, x) ∈ ops) (hy : (j, y) ∈ ops) (hij : before i j) :
    ∃ pre mid post, ops = pre ++ (i, x) :: (mid ++ (j, y) :: post) := by
  obtain ⟨pre, rest, hrest⟩ := List.append_of_mem hx
  have hids : ops.map Prod.fst = pre.map Prod.fst ++ i :: rest.map Prod.fst := by
    rw [hrest, List.map_append, List.map_cons]
  have hnd := h.nodup
  have hord := h.ordered i j hij (List.mem_map_of_mem hx) (List.mem_map_of_mem hy)
  rw [hids] at hnd hord
  have hj : j ∈ rest.map Prod.fst := hord.mem_right hnd
  obtain ⟨-, hnd', hdisj⟩ := List.nodup_append.mp hnd
  -- The other operation is behind the first one, since its name is.
  rw [hrest] at hy
  rcases List.mem_append.mp hy with hpre | htail
  · exact absurd rfl (hdisj j (List.mem_map_of_mem hpre) j (.tail _ hj))
  · rcases List.mem_cons.mp htail with heq | hmem
    · obtain rfl : j = i := congrArg Prod.fst heq
      exact absurd hj (List.nodup_cons.mp hnd').1
    · obtain ⟨mid, post, hpost⟩ := List.append_of_mem hmem
      exact ⟨pre, mid, post, by rw [hrest, hpost]⟩

/-- Of three operations, one that comes before the first or after the last is not between them. -/
theorem Linearizes.not_between {i j m : I} {x y z : O × R} {pre mid post : List (I × O × R)}
    (h : Linearizes next before s (pre ++ (i, x) :: (mid ++ (j, y) :: post)) s')
    (hz : (m, z) ∈ mid) : ¬ before m i ∧ ¬ before j m := by
  have hnd := h.nodup
  have hord := h.ordered
  have hids : (pre ++ (i, x) :: (mid ++ (j, y) :: post)).map Prod.fst =
      pre.map Prod.fst ++ i :: (mid.map Prod.fst ++ j :: post.map Prod.fst) := by
    rw [List.map_append, List.map_cons, List.map_append, List.map_cons]
  have hids' : pre.map Prod.fst ++ i :: (mid.map Prod.fst ++ j :: post.map Prod.fst) =
      (pre.map Prod.fst ++ i :: mid.map Prod.fst) ++ j :: post.map Prod.fst := by
    rw [List.append_assoc, List.cons_append]
  have hm : m ∈ mid.map Prod.fst := List.mem_map_of_mem hz
  rw [hids] at hnd hord
  have hall : m ∈ pre.map Prod.fst ++ i :: (mid.map Prod.fst ++ j :: post.map Prod.fst) :=
    List.mem_append_right _ (.tail _ (List.mem_append_left _ hm))
  obtain ⟨-, -, hdisj⟩ := List.nodup_append.mp hnd
  constructor
  · intro hbefore
    have hpre := (hord m i hbefore hall (List.mem_append_right _ (.head _))).mem_left hnd
    exact hdisj m hpre m (.tail _ (List.mem_append_left _ hm)) rfl
  · intro hbefore
    have hp := hord j m hbefore
      (List.mem_append_right _ (.tail _ (List.mem_append_right _ (.head _)))) hall
    rw [hids'] at hp hnd
    have hpost := hp.mem_right hnd
    exact (List.nodup_append.mp hnd).2.2 m (List.mem_append_right _ (.tail _ hm)) m
      (.tail _ hpost) rfl

/-- An operation that comes before another one stands before it. -/
theorem Linearizes.mem_left {i j : I} {x y : O × R} {pre post : List (I × O × R)}
    (h : Linearizes next before s (pre ++ (i, x) :: post) s')
    (hy : (j, y) ∈ pre ++ (i, x) :: post) (hji : before j i) : (j, y) ∈ pre := by
  have hnd := h.nodup
  have hord := h.ordered j i hji (List.mem_map_of_mem hy)
    (List.mem_map_of_mem (List.mem_append_right _ (.head _)))
  rw [List.map_append, List.map_cons] at hnd hord
  have hpre := hord.mem_left hnd
  refine (List.mem_append.mp hy).resolve_right fun hmem => ?_
  have hrest : j ∈ i :: post.map Prod.fst := List.mem_map_of_mem (f := Prod.fst) hmem
  exact (List.nodup_append.mp hnd).2.2 j hpre j hrest rfl

/-- What `view` makes of named things, under their names. -/
def viewed {α β : Type*} (view : α → Option β) (l : List (I × α)) : List (I × β) :=
  l.filterMap fun x => (view x.2).map fun y => (x.1, y)

section Viewed

variable {α β : Type*} {view : α → Option β} {l l' : List (I × α)}

theorem viewed_append : viewed view (l ++ l') = viewed view l ++ viewed view l' :=
  List.filterMap_append

theorem mem_viewed_iff {i : I} {y : β} :
    (i, y) ∈ viewed view l ↔ ∃ x, (i, x) ∈ l ∧ view x = some y := by
  constructor
  · intro hmem
    obtain ⟨⟨j, x⟩, hx, heq⟩ := List.mem_filterMap.mp hmem
    obtain ⟨y', hview, hpair⟩ := Option.map_eq_some_iff.mp heq
    obtain ⟨rfl, rfl⟩ := Prod.mk.inj hpair
    exact ⟨x, hx, hview⟩
  · rintro ⟨x, hx, hview⟩
    exact List.mem_filterMap.mpr ⟨_, hx, by simp [hview]⟩

theorem map_snd_viewed : (viewed view l).map Prod.snd = (l.map Prod.snd).filterMap view := by
  induction l with
  | nil => rfl
  | cons x l ih =>
    unfold viewed at *
    cases hview : view x.2 with
    | none => simp [hview, ih]
    | some y => simp [hview, ih]

theorem map_fst_viewed : ((viewed view l).map Prod.fst).Sublist (l.map Prod.fst) := by
  induction l with
  | nil => exact .slnil
  | cons x l ih =>
    unfold viewed at *
    cases hview : view x.2 with
    | none => simpa [hview] using ih.trans (List.sublist_cons_self _ _)
    | some y => simpa [hview] using ih.cons_cons x.1

end Viewed

/-- Linearizations carry over to another object as legal lists do. -/
theorem Linearizes.refine {view : O × R → Option (O' × R')} {Represents : S → S' → Prop}
    (h : Linearizes next before s ops s')
    (href : Refines next next' view Represents (ops.map Prod.snd)) {a : S'} (ha : Represents s a) :
    ∃ a', Linearizes next' before a (viewed view ops) a' ∧ Represents s' a' := by
  obtain ⟨a', hlegal, ha'⟩ := h.legal.refine href ha
  have hsub : ((viewed view ops).map Prod.fst).Sublist (ops.map Prod.fst) := map_fst_viewed
  rw [← map_snd_viewed] at hlegal
  refine ⟨a', ⟨hlegal, h.nodup.sublist hsub, fun i j hij hi hj => ?_⟩, ha'⟩
  exact (h.ordered i j hij (hsub.subset hi) (hsub.subset hj)).of_sublist h.nodup hsub hi hj

end SequentialObject
