import Ailoy.Lib.History

/-!
# Queues in a machine

A machine has a queue when some of its actions take the first element of it, and all other steps
add at its end only (`Fifo`). Over a run, an element with `n` others in front of it is at the front
when the action behind the next `n` that take one is taken (`Fifo.serves`). This is the progress
argument of a loop that serves one element a round.
-/

namespace Transition

variable {S A Q : Type*}

/-- The queue of a machine while `live` holds, with the actions that take its first element. -/
structure Fifo (step : S → A → Option S) (queue : S → List Q) (takes : A → Bool)
    (live : S → Prop) : Prop where
  take : ∀ s a s', live s → live s' → step s a = some s' → takes a = true →
    ∃ x rest added, queue s = x :: rest ∧ queue s' = rest ++ added
  keep : ∀ s a s', live s → live s' → step s a = some s' → takes a = false →
    ∃ added, queue s' = queue s ++ added

namespace Fifo

variable {step : S → A → Option S} {queue : S → List Q} {takes : A → Bool} {live : S → Prop}
  {s s' : S} {as : List A}

/-- An element is taken once those in front of it are. -/
theorem serves (h : Fifo step queue takes live) {pre post : List Q} {x : Q}
    (hq : queue s = pre ++ x :: post) (hlive : Along step live s as)
    (hr : run step s as = some s') (hcount : pre.length < as.countP takes) :
    ∃ before a after s₁ rest, as = before ++ a :: after ∧
      run step s before = some s₁ ∧ takes a = true ∧ queue s₁ = x :: rest ∧
      before.countP takes = pre.length := by
  induction as generalizing s pre post with
  | nil => simp at hcount
  | cons a as ih =>
    obtain ⟨s₁, hs, hrest⟩ := Option.bind_eq_some_iff.mp hr
    have hlive₁ := hlive.2 s₁ hs
    cases ha : takes a with
    | false =>
      obtain ⟨more, hmore⟩ := h.keep s a s₁ hlive.1 hlive₁.head hs ha
      rw [List.countP_cons_of_neg (by simp [ha])] at hcount
      have hq₁ : queue s₁ = pre ++ x :: (post ++ more) := by
        rw [hmore, hq, List.append_assoc, List.cons_append]
      obtain ⟨before, b, after, s₂, rest, has, hbefore, hb, hx, hn⟩ := ih hq₁ hlive₁ hrest hcount
      refine ⟨a :: before, b, after, s₂, rest, by rw [has, List.cons_append], ?_, hb, hx, ?_⟩
      · rw [run_cons, hs]
        exact hbefore
      · rw [List.countP_cons_of_neg (by simp [ha]), hn]
    | true =>
      obtain ⟨y, rest, more, hfront, hmore⟩ := h.take s a s₁ hlive.1 hlive₁.head hs ha
      cases pre with
      | nil =>
        obtain ⟨rfl, -⟩ := List.cons.inj (hq.symm.trans hfront)
        exact ⟨[], a, as, s, post, rfl, rfl, ha, hq, rfl⟩
      | cons z pre =>
        obtain ⟨rfl, hpre⟩ : z = y ∧ pre ++ x :: post = rest :=
          List.cons.inj (hq.symm.trans hfront)
        rw [List.countP_cons_of_pos ha, List.length_cons] at hcount
        have hq₁ : queue s₁ = pre ++ x :: (post ++ more) := by
          rw [hmore, ← hpre, List.append_assoc, List.cons_append]
        obtain ⟨before, b, after, s₂, rest', has, hbefore, hb, hx, hn⟩ :=
          ih hq₁ hlive₁ hrest (Nat.lt_of_succ_lt_succ hcount)
        refine ⟨a :: before, b, after, s₂, rest', by rw [has, List.cons_append], ?_, hb, hx, ?_⟩
        · rw [run_cons, hs]
          exact hbefore
        · rw [List.countP_cons_of_pos ha, hn, List.length_cons]

end Fifo

variable {T I : Type*}

/-- Items that wait for tokens of the kind `t`: while `live` holds, an action that takes such a token
takes the first item and emits it, and no other action does. -/
structure Served (step : S → A → Option S) (tokens : S → List T) (takes : A → Bool) (t : T)
    (items : S → List I) (live : S → Prop) (emits : S → A → List I) : Prop where
  serve : ∀ s a s', live s → live s' → step s a = some s' → takes a = true →
    (tokens s).head? = some t →
    ∃ added, items s' = (items s).tail ++ added ∧ emits s a = (items s).head?.toList
  keep : ∀ s a s', live s → live s' → step s a = some s' →
    (takes a = true → (tokens s).head? ≠ some t) →
    ∃ added, items s' = items s ++ added ∧ emits s a = []

namespace Served

variable {step : S → A → Option S} {tokens : S → List T} {takes : A → Bool} {t : T}
  {items : S → List I} {live : S → Prop} {emits : S → A → List I} {s : S} {as : List A}
  {h : List I} {r : Recorded S I}

/-- The items in front are all taken when their tokens are, first and in order. -/
theorem taken [DecidableEq T] (hf : Fifo step tokens takes live)
    (hs : Served step tokens takes t items live emits) {old new : List I} {pre post : List T}
    (hitems : items s = old ++ new) (htokens : tokens s = pre ++ post)
    (hcount : old.length ≤ pre.count t) (htakes : pre.length ≤ as.countP takes)
    (hlive : Along step live s as) (hr : run (record step emits) ⟨s, h⟩ as = some r) :
    ∃ e, r.history = h ++ e ∧ old <+: e := by
  induction as generalizing s h old new pre post with
  | nil =>
    obtain rfl : pre = [] := List.length_eq_zero_iff.mp (Nat.le_zero.mp htakes)
    obtain rfl : old = [] := List.length_eq_zero_iff.mp (Nat.le_zero.mp hcount)
    obtain rfl : ⟨s, h⟩ = r := by simpa using hr
    exact ⟨[], (List.append_nil h).symm, List.nil_prefix⟩
  | cons a as ih =>
    obtain ⟨⟨s₁, h₁⟩, hstep, hrest⟩ := Option.bind_eq_some_iff.mp hr
    obtain ⟨hs₁, rfl⟩ := record_eq_some_iff.mp hstep
    have hlive₁ := hlive.2 s₁ hs₁
    have hat : live s₁ := hlive₁.head
    -- A step that takes no token of the items in front leaves them all.
    have hkeep : (takes a = true → (tokens s).head? ≠ some t) → ∀ pre' post',
        tokens s₁ = pre' ++ post' → old.length ≤ pre'.count t → pre'.length ≤ as.countP takes →
        ∃ e, r.history = h ++ e ∧ old <+: e := by
      intro hno pre' post' htokens' hcount' htakes'
      obtain ⟨added, hadd, hemit⟩ := hs.keep s a s₁ hlive.1 hat hs₁ hno
      rw [hitems, List.append_assoc] at hadd
      obtain ⟨e, he, hprefix⟩ := ih hadd htokens' hcount' htakes' hlive₁ hrest
      exact ⟨e, by rw [he, hemit, List.append_nil], hprefix⟩
    cases ha : takes a with
    | false =>
      obtain ⟨more, hmore⟩ := hf.keep s a s₁ hlive.1 hat hs₁ ha
      rw [List.countP_cons_of_neg (by simp [ha])] at htakes
      rw [htokens, List.append_assoc] at hmore
      exact hkeep (by simp [ha]) pre _ hmore hcount htakes
    | true =>
      obtain ⟨x, rest, more, hfront, hmore⟩ := hf.take s a s₁ hlive.1 hat hs₁ ha
      rw [List.countP_cons_of_pos ha] at htakes
      cases pre with
      | nil =>
        obtain rfl : old = [] := List.length_eq_zero_iff.mp (Nat.le_zero.mp hcount)
        obtain ⟨e, he⟩ := ReachVia.history_prefix (ReachVia.init.of_run (meets_true as) hrest)
        exact ⟨emits s a ++ e, by rw [← he, List.append_assoc], List.nil_prefix⟩
      | cons y pre =>
        obtain ⟨rfl, hpre⟩ : y = x ∧ pre ++ post = rest :=
          List.cons.inj (htokens.symm.trans hfront)
        rw [← hpre, List.append_assoc] at hmore
        rw [List.length_cons] at htakes
        by_cases hy : y = t
        · -- The token is one of theirs, and it takes the first of them.
          subst hy
          have hhead : (tokens s).head? = some y := by rw [hfront]; rfl
          obtain ⟨added, hadd, hemit⟩ := hs.serve s a s₁ hlive.1 hat hs₁ ha hhead
          rw [List.count_cons_self] at hcount
          cases old with
          | nil =>
            obtain ⟨e, he⟩ := ReachVia.history_prefix (ReachVia.init.of_run (meets_true as) hrest)
            exact ⟨emits s a ++ e, by rw [← he, List.append_assoc], List.nil_prefix⟩
          | cons m old =>
            rw [hitems, List.cons_append, List.tail_cons, List.append_assoc] at hadd
            obtain ⟨e, he, hprefix⟩ := ih hadd hmore (Nat.le_of_succ_le_succ hcount)
              (Nat.le_of_succ_le_succ htakes) hlive₁ hrest
            refine ⟨m :: e, ?_, List.cons_prefix_cons.mpr ⟨rfl, hprefix⟩⟩
            rw [he, hemit, hitems]
            simp
        · have hhead : (tokens s).head? ≠ some t := by
            rw [hfront]
            exact fun heq => hy (Option.some.inj heq)
          rw [List.count_cons_of_ne hy] at hcount
          exact hkeep (fun _ => hhead) pre _ hmore hcount (Nat.le_of_succ_le_succ htakes)

end Served

end Transition
