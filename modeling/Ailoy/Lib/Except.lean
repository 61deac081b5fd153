import Mathlib.Data.List.Basic

/-!
# Results of computations that can fail

The bind rule of `Except`: a chain of computations returns when each of its links does. Proofs about
a function written in `do` notation peel its links off with it.
-/

namespace Except

universe u v

variable {ε : Type u} {α β : Type v}

/-- A chain returns a result exactly when its first link does and the rest returns it from there. -/
theorem bind_eq_ok_iff {x : Except ε α} {f : α → Except ε β} {b : β} :
    x >>= f = .ok b ↔ ∃ a, x = .ok a ∧ f a = .ok b := by
  cases x with
  | error e =>
    constructor
    · intro h
      cases h
    · rintro ⟨a, h, -⟩
      cases h
  | ok a =>
    constructor
    · exact fun h => ⟨a, rfl, h⟩
    · rintro ⟨a', h, h'⟩
      cases h
      exact h'

/-- A mapped result is the image of a result. -/
theorem map_eq_ok_iff {x : Except ε α} {f : α → β} {b : β} :
    x.map f = .ok b ↔ ∃ a, x = .ok a ∧ f a = b := by
  cases x with
  | error e =>
    constructor
    · intro h
      cases h
    · rintro ⟨a, h, -⟩
      cases h
  | ok a =>
    constructor
    · exact fun h => ⟨a, rfl, Except.ok.inj h⟩
    · rintro ⟨a', h, rfl⟩
      cases h
      rfl

/-- Two chains agree on what `q` sees of their results, when their first links agree on what `p`
sees and the rest does from any two such results. -/
theorem map_bind_congr {γ δ : Type v} {p : α → γ} {q : β → δ} {x y : Except ε α}
    {f g : α → Except ε β} (h : x.map p = y.map p)
    (hf : ∀ a b, x = .ok a → y = .ok b → p a = p b → (f a).map q = (g b).map q) :
    (x >>= f).map q = (y >>= g).map q := by
  cases x with
  | error e =>
    cases y with
    | error e' =>
      have he : e = e' := Except.error.inj h
      rw [he]
      rfl
    | ok b => cases h
  | ok a =>
    cases y with
    | error e' => cases h
    | ok b => exact hf a b rfl rfl (Except.ok.inj h)

@[simp] theorem ok_bind (a : α) (f : α → Except ε β) : (.ok a : Except ε α) >>= f = f a := rfl

@[simp] theorem error_bind (e : ε) (f : α → Except ε β) :
    (.error e : Except ε α) >>= f = .error e := rfl

/-! ## Lists -/

section Lists

universe w

variable {γ : Type w} {f : γ → Except ε β}

theorem mapM_cons_eq_ok_iff {c : γ} {cs : List γ} {results : List β} :
    (c :: cs).mapM f = .ok results ↔
      ∃ b bs, f c = .ok b ∧ cs.mapM f = .ok bs ∧ b :: bs = results := by
  rw [List.mapM_cons, bind_eq_ok_iff]
  refine exists_congr fun b => ?_
  rw [exists_and_left, bind_eq_ok_iff]
  refine and_congr_right fun _ => exists_congr fun bs => and_congr_right fun _ => ?_
  exact ⟨Except.ok.inj, congrArg Except.ok⟩

/-- A list is mapped exactly when each of its elements is. -/
theorem exists_mapM_eq_ok_iff {cs : List γ} :
    (∃ bs, cs.mapM f = .ok bs) ↔ ∀ c ∈ cs, ∃ b, f c = .ok b := by
  induction cs with
  | nil => exact ⟨fun _ _ h => absurd h List.not_mem_nil, fun _ => ⟨[], rfl⟩⟩
  | cons c cs ih =>
    rw [List.forall_mem_cons, ← ih]
    constructor
    · rintro ⟨results, h⟩
      obtain ⟨b, bs, hb, hbs, -⟩ := mapM_cons_eq_ok_iff.mp h
      exact ⟨⟨b, hb⟩, bs, hbs⟩
    · rintro ⟨⟨b, hb⟩, bs, hbs⟩
      exact ⟨b :: bs, mapM_cons_eq_ok_iff.mpr ⟨b, bs, hb, hbs, rfl⟩⟩

/-- The results are those of the elements. -/
theorem mem_mapM_iff {cs : List γ} {bs : List β} (h : cs.mapM f = .ok bs) {b : β} :
    b ∈ bs ↔ ∃ c ∈ cs, f c = .ok b := by
  induction cs generalizing bs with
  | nil =>
    obtain rfl : [] = bs := Except.ok.inj h
    simp
  | cons c cs ih =>
    obtain ⟨b', bs', hb', hbs', rfl⟩ := mapM_cons_eq_ok_iff.mp h
    rw [List.mem_cons, ih hbs', List.exists_mem_cons_iff, hb']
    exact or_congr_left ⟨fun heq => heq ▸ rfl, fun heq => (Except.ok.inj heq).symm⟩

end Lists

/-! ## Checks -/

/-- A computation that returns `a` unless something is wrong, and fails then. -/
def Checks (bad : Prop) (x : Except ε α) (a : α) : Prop :=
  (bad ∧ ∃ e, x = .error e) ∨ (¬ bad ∧ x = .ok a)

/-- The same check in other words. -/
theorem Checks.of_iff {bad bad' : Prop} {x : Except ε α} {a : α} (h : Checks bad x a)
    (hiff : bad ↔ bad') : Checks bad' x a := by
  rwa [Checks, hiff] at h

/-- One check behind another. -/
theorem Checks.bind {bad bad' : Prop} {x : Except ε α} {f : α → Except ε β} {a : α} {b : β}
    (h : Checks bad x a) (h' : Checks bad' (f a) b) : Checks (bad ∨ bad') (x >>= f) b := by
  rcases h with ⟨hbad, e, rfl⟩ | ⟨hgood, rfl⟩
  · exact .inl ⟨.inl hbad, e, rfl⟩
  · rcases h' with ⟨hbad', hf⟩ | ⟨hgood', hf⟩
    · exact .inl ⟨.inr hbad', hf⟩
    · exact .inr ⟨not_or.mpr ⟨hgood, hgood'⟩, hf⟩

/-- A computation with one more step, which cannot fail. -/
theorem Checks.map {bad : Prop} {x : Except ε α} {a : α} (h : Checks bad x a) (f : α → β) :
    Checks bad (x >>= fun a => .ok (f a)) (f a) := by
  rcases h with ⟨hbad, e, rfl⟩ | ⟨hgood, rfl⟩
  · exact .inl ⟨hbad, e, rfl⟩
  · exact .inr ⟨hgood, rfl⟩

end Except
