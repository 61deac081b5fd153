import Mathlib.Data.List.Basic

/-!
# Coroutines

A coroutine is the body of a generator: it changes a store, yields to its consumer, and in the end
passes a value on or ends for good. `run n` is what is done of it when its consumer pulls `n` times,
and `finish` is what it has yielded when its consumer pulls up to its end. Coroutines are a monad,
whose bind puts the rest of the body behind. A loop that yields once for each element of a list is
run by `run_foldlM`.
-/

universe u

/-- The body of a generator with a store `S` that yields `R`s and ends with an `E`. -/
inductive Coroutine (S R E : Type u) (α : Type u) : Type u
  /-- The value goes to what comes behind. -/
  | pass (a : α)
  /-- Nothing comes behind, whatever the rest of the body is. -/
  | ends (e : E)
  | update (f : S → S) (rest : Coroutine S R E α)
  | yield (r : R) (rest : Coroutine S R E α)

namespace Coroutine

variable {S R E α β : Type u}

/-- Where a coroutine is when its consumer has got what it pulled for. -/
inductive Place (E α : Type u)
  /-- Before its first statement, or behind a `yield`. -/
  | paused
  | ended (e : E)
  /-- At its end, with pulls that are left for what comes behind. -/
  | passed (pulls : ℕ) (a : α)

/-- The body with its rest. -/
def bind : Coroutine S R E α → (α → Coroutine S R E β) → Coroutine S R E β
  | .pass a, k => k a
  | .ends e, _ => .ends e
  | .update f b, k => .update f (b.bind k)
  | .yield r b, k => .yield r (b.bind k)

instance : Monad (Coroutine S R E) where
  pure := .pass
  bind := bind

instance : LawfulMonad (Coroutine S R E) := LawfulMonad.mk' _
  (fun b => by
    induction b with
    | pass a => rfl
    | ends e => rfl
    | update f b ih => exact congrArg (Coroutine.update f) ih
    | yield r b ih => exact congrArg (Coroutine.yield r) ih)
  (fun _ _ => rfl)
  (fun b k l => by
    induction b with
    | pass a => rfl
    | ends e => rfl
    | update f b ih => exact congrArg (Coroutine.update f) ih
    | yield r b ih => exact congrArg (Coroutine.yield r) ih)

/-- The store changes. -/
def put (f : S → S) : Coroutine S R E PUnit := .update f (.pass ⟨⟩)

/-- A `yield`. -/
def emit (r : R) : Coroutine S R E PUnit := .yield r (.pass ⟨⟩)

/-- What a coroutine does on `n` pulls of its consumer. -/
def run : ℕ → Coroutine S R E α → S → S × Place E α
  | 0, _, s => (s, .paused)
  | n + 1, .pass a, s => (s, .passed (n + 1) a)
  | _ + 1, .ends e, s => (s, .ended e)
  | n + 1, .update f b, s => run (n + 1) b (f s)
  | n + 1, .yield _ b, s => run n b s

/-- Nothing is done without a pull. -/
@[simp] theorem run_zero (b : Coroutine S R E α) (s : S) : run 0 b s = (s, .paused) := by
  cases b <;> rfl

@[simp] theorem run_pass (n : ℕ) (a : α) (s : S) :
    run (n + 1) (.pass a : Coroutine S R E α) s = (s, .passed (n + 1) a) := rfl

@[simp] theorem run_ends (n : ℕ) (e : E) (s : S) :
    run (n + 1) (.ends e : Coroutine S R E α) s = (s, .ended e) := rfl

@[simp] theorem pass_bind (a : α) (k : α → Coroutine S R E β) : .pass a >>= k = k a := rfl

@[simp] theorem ends_bind (e : E) (k : α → Coroutine S R E β) : .ends e >>= k = .ends e := rfl

@[simp] theorem run_put (n : ℕ) (f : S → S) (k : PUnit → Coroutine S R E β) (s : S) :
    run (n + 1) (put f >>= k) s = run (n + 1) (k ⟨⟩) (f s) := rfl

@[simp] theorem run_emit (n : ℕ) (r : R) (k : PUnit → Coroutine S R E β) (s : S) :
    run (n + 1) (emit r >>= k) s = run n (k ⟨⟩) s := rfl

/-- A loop whose body yields once for each element, behind a change of the store: `n` pulls do it for
the first `n` elements, and what is left of them goes to what comes behind. -/
theorem run_foldlM {σ : Type u} {f : β → σ → Coroutine S R E β} (store : S → σ → S)
    (next : β → σ → β) (hf : ∀ n b a (k : β → Coroutine S R E α) s,
      run (n + 1) (f b a >>= k) s = run n (k (next b a)) (store s a))
    (k : β → Coroutine S R E α) (xs : List σ) (n : ℕ) (b : β) (s : S) :
    run n (xs.foldlM f b >>= k) s =
      run (n - xs.length) (k (xs.foldl next b)) ((xs.take n).foldl store s) := by
  induction xs generalizing n b s with
  | nil => simp
  | cons a xs ih =>
    cases n with
    | zero => simp
    | succ n =>
      calc run (n + 1) ((a :: xs).foldlM f b >>= k) s
          = run (n + 1) (f b a >>= fun b => xs.foldlM f b >>= k) s := by
            rw [List.foldlM_cons, bind_assoc]
        _ = run n (xs.foldlM f (next b a) >>= k) (store s a) := hf n b a _ s
        _ = run (n - xs.length) (k (xs.foldl next (next b a)))
              ((xs.take n).foldl store (store s a)) := ih n _ _
        _ = _ := by
            rw [List.length_cons, Nat.add_sub_add_right, List.take_succ_cons, List.foldl_cons,
              List.foldl_cons]

/-! ## Runs to the end -/

/-- What a coroutine has done at its end. -/
structure Finished (S R E α : Type u) where
  yields : List R
  store : S
  value : Except E α

/-- The coroutine with a consumer that pulls up to the end. -/
def finish : Coroutine S R E α → S → Finished S R E α
  | .pass a, s => ⟨[], s, .ok a⟩
  | .ends e, s => ⟨[], s, .error e⟩
  | .update f b, s => finish b (f s)
  | .yield r b, s => { finish b s with yields := r :: (finish b s).yields }

/-- A consumer that pulls once more than the coroutine yields gets to its end. -/
theorem run_finish (b : Coroutine S R E α) (n : ℕ) (s : S) :
    run ((finish b s).yields.length + n + 1) b s =
      ((finish b s).store, match (finish b s).value with
        | .ok a => .passed (n + 1) a
        | .error e => .ended e) := by
  induction b generalizing s with
  | pass a =>
    rw [finish, List.length_nil, Nat.zero_add]
    rfl
  | ends e => rfl
  | update f b ih => exact ih (f s)
  | yield r b ih =>
    calc run ((finish (.yield r b) s).yields.length + n + 1) (.yield r b) s
        = run ((finish b s).yields.length + n + 1) b s := by
          rw [finish, List.length_cons, Nat.add_right_comm _ 1 n]
          rfl
      _ = _ := ih s

/-- A body that passes a value on is done before its rest, and one that ends is done alone. -/
theorem finish_bind (b : Coroutine S R E α) (k : α → Coroutine S R E β) (s : S) :
    finish (b >>= k) s = match finish b s with
      | ⟨rs, s₁, .ok a⟩ => { finish (k a) s₁ with yields := rs ++ (finish (k a) s₁).yields }
      | ⟨rs, s₁, .error e⟩ => ⟨rs, s₁, .error e⟩ := by
  induction b generalizing s with
  | pass a => rfl
  | ends e => rfl
  | update f b ih => exact ih (f s)
  | yield r b ih =>
    have hrest : finish (.yield r b >>= k) s =
        { finish (b >>= k) s with yields := r :: (finish (b >>= k) s).yields } := rfl
    rw [hrest, ih s, finish]
    rcases finish b s with ⟨rs, s₁, a | e⟩ <;> rfl

/-- What passes a value on has done its own part, and then the rest with the value of the first. -/
theorem finish_bind_eq_ok_iff {b : Coroutine S R E α} {k : α → Coroutine S R E β} {s s' : S}
    {rs : List R} {c : β} :
    finish (b >>= k) s = ⟨rs, s', .ok c⟩ ↔ ∃ rs₁ s₁ a rs₂, finish b s = ⟨rs₁, s₁, .ok a⟩ ∧
      finish (k a) s₁ = ⟨rs₂, s', .ok c⟩ ∧ rs = rs₁ ++ rs₂ := by
  rw [finish_bind]
  rcases finish b s with ⟨rs₁, s₁, e | a⟩
  · simp
  · simp only [Finished.mk.injEq, Except.ok.injEq]
    constructor
    · rintro ⟨rfl, rfl, hvalue⟩
      exact ⟨rs₁, s₁, a, (finish (k a) s₁).yields, ⟨rfl, rfl, rfl⟩, by rw [← hvalue], rfl⟩
    · rintro ⟨_, _, _, rs₂, ⟨rfl, rfl, rfl⟩, hk, rfl⟩
      rw [hk]
      exact ⟨rfl, rfl, rfl⟩

/-- A body that yields nothing comes in front of its rest. -/
theorem finish_bind_of_silent {b : Coroutine S R E α} {s s₁ : S} {a : α}
    (h : finish b s = ⟨[], s₁, .ok a⟩) (k : α → Coroutine S R E β) :
    finish (b >>= k) s = finish (k a) s₁ := by
  rw [finish_bind, h]
  rfl

theorem finish_emit_eq_ok_iff {r : R} {k : PUnit → Coroutine S R E β} {s s' : S} {rs : List R}
    {c : β} : finish (emit r >>= k) s = ⟨rs, s', .ok c⟩ ↔
      ∃ rs', finish (k ⟨⟩) s = ⟨rs', s', .ok c⟩ ∧ rs = r :: rs' := by
  have hemit : finish (emit r >>= k) s =
      { finish (k ⟨⟩) s with yields := r :: (finish (k ⟨⟩) s).yields } := rfl
  rw [hemit]
  rcases finish (k ⟨⟩) s with ⟨rs', s₁, v⟩
  simp only [Finished.mk.injEq]
  constructor
  · rintro ⟨rfl, rfl, rfl⟩
    exact ⟨rs', ⟨rfl, rfl, rfl⟩, rfl⟩
  · rintro ⟨_, ⟨rfl, rfl, rfl⟩, rfl⟩
    exact ⟨rfl, rfl, rfl⟩

/-- A loop whose body yields once for each element, what `g` makes of its yields, and what it leaves
in the store. -/
theorem finish_foldlM {σ γ : Type u} {f : β → σ → Coroutine S R E β} (store : S → σ → S)
    (next : β → σ → β) (g : R → γ) (h : σ → γ)
    (hf : ∀ b a s, ∃ r, finish (f b a) s = ⟨[r], store s a, .ok (next b a)⟩ ∧ g r = h a)
    (xs : List σ) (b : β) (s : S) :
    ∃ rs, finish (xs.foldlM f b) s = ⟨rs, xs.foldl store s, .ok (xs.foldl next b)⟩ ∧
      rs.map g = xs.map h := by
  induction xs generalizing b s with
  | nil => exact ⟨[], rfl, rfl⟩
  | cons a xs ih =>
    obtain ⟨r, hr, hg⟩ := hf b a s
    obtain ⟨rs, hrs, hmap⟩ := ih (next b a) (store s a)
    refine ⟨r :: rs, ?_, by rw [List.map_cons, List.map_cons, hg, hmap]⟩
    rw [List.foldlM_cons, List.foldl_cons, List.foldl_cons]
    exact finish_bind_eq_ok_iff.mpr ⟨[r], store s a, next b a, rs, hr, hrs, rfl⟩

end Coroutine
