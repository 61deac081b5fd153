import Ailoy.Lib.Pieces

/-!
# Chunks that cover a sequence

Chunks of a sequence with their places. `Cover` says that each chunk occurs at its place, that the
places do not decrease, and that an element that lies in no chunk is blank or belongs to a separator
at which the sequence was cut. `CutIn` lists these separators for a joined sequence whose pieces may
have been cut themselves. Covers of two runs of pieces make one of both (`Cover.append`).
-/

namespace Pieces

variable {α : Type*}

/-- A chunk with its place. -/
abbrev Placed (α : Type*) := ℕ × List α

/-- The same chunks in a sequence with `n` more elements in front. -/
def shift (n : ℕ) (placed : List (Placed α)) : List (Placed α) :=
  placed.map fun p => (n + p.1, p.2)

theorem mem_shift {n : ℕ} {placed : List (Placed α)} {p : Placed α} :
    p ∈ shift n placed ↔ ∃ q ∈ placed, p = (n + q.1, q.2) := by
  unfold shift
  rw [List.mem_map]
  exact ⟨fun ⟨q, hq, h⟩ => ⟨q, hq, h.symm⟩, fun ⟨q, hq, h⟩ => ⟨q, hq, h.symm⟩⟩

theorem map_snd_shift (n : ℕ) (placed : List (Placed α)) :
    (shift n placed).map Prod.snd = placed.map Prod.snd := by
  unfold shift
  rw [List.map_map]
  rfl

/-- The element at `pos` lies in a chunk, or it is blank, or it belongs to a separator. -/
def Accounted (blank : α → Bool) (cut : ℕ → List α → Prop) (placed : List (Placed α)) (pos : ℕ)
    (c : α) : Prop :=
  (∃ p ∈ placed, p.1 ≤ pos ∧ pos < p.1 + p.2.length) ∨ blank c = true ∨
    ∃ start sep, cut start sep ∧ start ≤ pos ∧ pos < start + sep.length

/-- The chunks occur in order, and every element is accounted for. -/
structure Cover (blank : α → Bool) (text : List α) (cut : ℕ → List α → Prop)
    (placed : List (Placed α)) : Prop where
  nonempty : ∀ p ∈ placed, p.2 ≠ []
  occurs : ∀ p ∈ placed, Occurs text p.2 p.1
  ordered : placed.Pairwise fun p q => p.1 ≤ q.1
  covered : ∀ pos c, text[pos]? = some c → Accounted blank cut placed pos c

/-- The separators at which a joined sequence was cut: those between its pieces, and those inside a
piece. -/
inductive CutIn (d : List α) (inner : List α → ℕ → List α → Prop) (pieces : List (List α)) :
    ℕ → List α → Prop
  | between {pre post : List (List α)} : pieces = pre ++ post → pre ≠ [] → post ≠ [] →
      CutIn d inner pieces (join d pre).length d
  | inside {pre post : List (List α)} {s sep : List α} {start : ℕ} : pieces = pre ++ s :: post →
      inner s start sep → CutIn d inner pieces ((lead d pre).length + start) sep

variable {blank : α → Bool} {text d : List α} {cut cut' : ℕ → List α → Prop}
  {inner : List α → ℕ → List α → Prop} {placed placed' : List (Placed α)}

theorem Accounted.mono {pos : ℕ} {c : α} (h : Accounted blank cut placed pos c)
    (hcut : ∀ start sep, cut start sep → cut' start sep)
    (hplaced : ∀ p ∈ placed, p ∈ placed') : Accounted blank cut' placed' pos c := by
  rcases h with ⟨p, hp, hpos⟩ | hblank | ⟨start, sep, hsep, hpos⟩
  · exact .inl ⟨p, hplaced p hp, hpos⟩
  · exact .inr (.inl hblank)
  · exact .inr (.inr ⟨start, sep, hcut start sep hsep, hpos⟩)

/-- More cuts do no harm. -/
theorem Cover.mono (h : Cover blank text cut placed)
    (hcut : ∀ start sep, cut start sep → cut' start sep) : Cover blank text cut' placed :=
  ⟨h.nonempty, h.occurs, h.ordered, fun pos c hc => (h.covered pos c hc).mono hcut fun _ hp => hp⟩

/-- The empty sequence needs no chunks, and it has room for none. -/
theorem cover_nil : Cover blank [] cut [] :=
  ⟨by simp, by simp, List.Pairwise.nil, by simp⟩

theorem Cover.eq_nil (h : Cover blank [] cut placed) : placed = [] := by
  refine List.eq_nil_iff_forall_not_mem.mpr fun p hp => h.nonempty p hp ?_
  have hle := (h.occurs p hp).le
  rw [List.length_nil] at hle
  exact List.eq_nil_of_length_eq_zero (by omega)

/-- A sequence covers itself. -/
theorem cover_self (hne : text ≠ []) : Cover blank text cut [(0, text)] := by
  refine ⟨?_, ?_, List.pairwise_singleton _ _,
    fun pos c hc => .inl ⟨_, List.mem_singleton_self _, ?_⟩⟩
  · intro p hp
    rw [List.mem_singleton.mp hp]
    exact hne
  · intro p hp
    rw [List.mem_singleton.mp hp]
    exact ⟨[], [], by simp, rfl⟩
  · obtain ⟨hpos, -⟩ := List.getElem?_eq_some_iff.mp hc
    exact ⟨Nat.zero_le _, by simpa using hpos⟩

/-- A cover of a single piece. -/
theorem Cover.single {s : List α} (h : Cover blank s (inner s) placed) :
    Cover blank (join d [s]) (CutIn d inner [s]) placed := by
  rw [join_singleton]
  refine h.mono fun start sep hcut => ?_
  have hsplit : [s] = [] ++ s :: [] := rfl
  have hinside : CutIn d inner [s] ((lead d []).length + start) sep := .inside hsplit hcut
  simpa [lead] using hinside

/-- A cut inside the first pieces or inside the last ones is a cut. -/
theorem CutIn.append_left {xs ys : List (List α)} {start : ℕ} {sep : List α}
    (h : CutIn d inner xs start sep) : CutIn d inner (xs ++ ys) start sep := by
  cases h with
  | @between pre post hxs hpre hpost =>
    have hsplit : xs ++ ys = pre ++ (post ++ ys) := by rw [hxs, List.append_assoc]
    exact .between hsplit hpre (by simp [hpost])
  | @inside pre post s _ start hxs hinner =>
    have hsplit : xs ++ ys = pre ++ s :: (post ++ ys) := by
      rw [hxs, List.append_assoc, List.cons_append]
    exact .inside hsplit hinner

theorem CutIn.append_right {xs ys : List (List α)} {start : ℕ} {sep : List α}
    (h : CutIn d inner ys start sep) :
    CutIn d inner (xs ++ ys) ((lead d xs).length + start) sep := by
  cases h with
  | @between pre post hys hpre hpost =>
    have hsplit : xs ++ ys = (xs ++ pre) ++ post := by rw [hys, List.append_assoc]
    have hcut : CutIn d inner (xs ++ ys) (join d (xs ++ pre)).length d :=
      .between hsplit (by simp [hpre]) hpost
    rwa [join_append_lead hpre, List.length_append] at hcut
  | @inside pre post s _ start hys hinner =>
    have hsplit : xs ++ ys = (xs ++ pre) ++ s :: post := by rw [hys, List.append_assoc]
    have hcut : CutIn d inner (xs ++ ys) ((lead d (xs ++ pre)).length + start) sep :=
      .inside hsplit hinner
    rwa [lead_append, List.length_append, Nat.add_assoc] at hcut

/-- The separator between two runs of pieces is a cut. -/
theorem cutIn_middle {xs ys : List (List α)} (hx : xs ≠ []) (hy : ys ≠ []) :
    CutIn d inner (xs ++ ys) (join d xs).length d := .between rfl hx hy

/-- Covers of two runs of pieces. -/
theorem Cover.append {xs ys : List (List α)}
    (h : Cover blank (join d xs) (CutIn d inner xs) placed)
    (h' : Cover blank (join d ys) (CutIn d inner ys) placed') :
    Cover blank (join d (xs ++ ys)) (CutIn d inner (xs ++ ys))
      (placed ++ shift (lead d xs).length placed') := by
  by_cases hx : xs = []
  · subst hx
    rw [h.eq_nil]
    simpa [shift, lead] using h'
  by_cases hy : ys = []
  · subst hy
    rw [h'.eq_nil]
    simpa [shift] using h
  have hleft : Occurs (join d (xs ++ ys)) (join d xs) 0 := by
    have := occurs_join (d := d) [] ys hx
    simpa [lead] using this
  have hright : Occurs (join d (xs ++ ys)) (join d ys) (lead d xs).length := by
    have := occurs_join (d := d) xs [] hy
    rwa [List.append_nil] at this
  have hlead : (lead d xs).length = (join d xs).length + d.length := by
    rw [lead_eq hx, List.length_append]
  have htotal : (join d (xs ++ ys)).length = (lead d xs).length + (join d ys).length := by
    rw [join_append_lead hy, List.length_append]
  refine ⟨fun p hp => ?_, fun p hp => ?_, ?_, fun pos c hc => ?_⟩
  · rcases List.mem_append.mp hp with hp | hp
    · exact h.nonempty p hp
    · obtain ⟨q, hq, rfl⟩ := mem_shift.mp hp
      exact h'.nonempty q hq
  · rcases List.mem_append.mp hp with hp | hp
    · have hocc := hleft.trans (h.occurs p hp)
      rwa [Nat.zero_add] at hocc
    · obtain ⟨q, hq, rfl⟩ := mem_shift.mp hp
      exact hright.trans (h'.occurs q hq)
  · rw [List.pairwise_append]
    refine ⟨h.ordered, ?_, fun p hp q hq => ?_⟩
    · unfold shift
      rw [List.pairwise_map]
      exact h'.ordered.imp fun hle => Nat.add_le_add_left hle _
    · -- A chunk of the first pieces begins before their end.
      obtain ⟨q', -, rfl⟩ := mem_shift.mp hq
      have hle := (h.occurs p hp).le
      show p.1 ≤ (lead d xs).length + q'.1
      omega
  · obtain ⟨hpos, -⟩ := List.getElem?_eq_some_iff.mp hc
    by_cases hfirst : pos < (join d xs).length
    · have hsame := hleft.getElem? hfirst
      rw [Nat.zero_add] at hsame
      rw [hsame] at hc
      exact (h.covered pos c hc).mono (fun _ _ => CutIn.append_left) fun p hp =>
        List.mem_append_left _ hp
    · by_cases hmiddle : pos < (lead d xs).length
      · exact .inr (.inr ⟨_, d, cutIn_middle hx hy, by omega, by omega⟩)
      · obtain ⟨i, rfl⟩ := Nat.exists_eq_add_of_le (not_lt.mp hmiddle)
        have hi : i < (join d ys).length := by omega
        rw [hright.getElem? hi] at hc
        rcases h'.covered i c hc with ⟨p, hp, hlo, hhi⟩ | hblank | ⟨start, sep, hcut, hlo, hhi⟩
        · refine .inl ⟨((lead d xs).length + p.1, p.2),
            List.mem_append_right _ (mem_shift.mpr ⟨p, hp, rfl⟩), ?_, ?_⟩
          · exact Nat.add_le_add_left hlo _
          · show (lead d xs).length + i < (lead d xs).length + p.1 + p.2.length
            omega
        · exact .inr (.inl hblank)
        · exact .inr (.inr ⟨_, sep, hcut.append_right, by omega, by omega⟩)

end Pieces
