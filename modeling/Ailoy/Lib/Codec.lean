import Ailoy.Lib.Except

/-!
# Writers and readers

A writer and a reader of `α`, either of which can fail, and a relation `same` on `α` that says what
counts as unchanged. `RoundTrips` is that what is written is read as the same. A list goes through
exactly when its elements do (`roundTrips_mapM_iff`), and a record exactly when the part of it does
on which its writing depends (`roundTrips_part_iff`).
-/

namespace Codec

universe u v

variable {ε : Type u} {α τ γ σ : Type v} {write : α → Except ε τ} {read : τ → Except ε α}
  {same : α → α → Prop}

/-- What is written of `a` is read as something that is the same. -/
def RoundTrips (write : α → Except ε τ) (read : τ → Except ε α) (same : α → α → Prop) (a : α) :
    Prop :=
  ∃ t b, write a = .ok t ∧ read t = .ok b ∧ same b a

/-- A list goes through exactly when its elements do. -/
theorem roundTrips_mapM_iff {as : List α} :
    RoundTrips (fun as => as.mapM write) (fun ts => ts.mapM read) (List.Forall₂ same) as ↔
      ∀ a ∈ as, RoundTrips write read same a := by
  induction as with
  | nil =>
    constructor
    · exact fun _ a ha => absurd ha (List.not_mem_nil)
    · exact fun _ => ⟨[], [], rfl, rfl, .nil⟩
  | cons a as ih =>
    rw [List.forall_mem_cons, ← ih]
    constructor
    · rintro ⟨ts, bs, hwrite, hread, hsame⟩
      dsimp only at hwrite hread
      rw [List.mapM_cons, Except.bind_eq_ok_iff] at hwrite
      obtain ⟨t, ht, hwrite⟩ := hwrite
      obtain ⟨ts', hts, hwrite⟩ := Except.bind_eq_ok_iff.mp hwrite
      obtain rfl : t :: ts' = ts := Except.ok.inj hwrite
      rw [List.mapM_cons, Except.bind_eq_ok_iff] at hread
      obtain ⟨b, hb, hread⟩ := hread
      obtain ⟨bs', hbs, hread⟩ := Except.bind_eq_ok_iff.mp hread
      obtain rfl : b :: bs' = bs := Except.ok.inj hread
      obtain ⟨hhead, htail⟩ := List.forall₂_cons.mp hsame
      exact ⟨⟨t, b, ht, hb, hhead⟩, ts', bs', hts, hbs, htail⟩
    · rintro ⟨⟨t, b, ht, hb, hhead⟩, ts, bs, hts, hbs, htail⟩
      refine ⟨t :: ts, b :: bs, ?_, ?_, .cons hhead htail⟩
      · show (a :: as).mapM write = .ok (t :: ts)
        rw [List.mapM_cons, ht, Except.ok_bind, show as.mapM write = .ok ts from hts]
        rfl
      · show (t :: ts).mapM read = .ok (b :: bs)
        rw [List.mapM_cons, hb, Except.ok_bind, show ts.mapM read = .ok bs from hbs]
        rfl

/-- When the writing of a record is that of a part of it, and so is the reading, the record goes
through exactly when the part does. -/
theorem roundTrips_part_iff {a : α} {c : γ} {writePart : γ → Except ε σ}
    {readPart : σ → Except ε γ} {samePart : γ → γ → Prop} {f : σ → τ} {g : γ → α}
    (hwrite : write a = (writePart c).map f) (hread : ∀ t, read (f t) = (readPart t).map g)
    (hsame : ∀ c', same (g c') a ↔ samePart c' c) :
    RoundTrips write read same a ↔ RoundTrips writePart readPart samePart c := by
  constructor
  · rintro ⟨t, b, ht, hb, hsame'⟩
    rw [hwrite, Except.map_eq_ok_iff] at ht
    obtain ⟨s, hs, rfl⟩ := ht
    rw [hread, Except.map_eq_ok_iff] at hb
    obtain ⟨c', hc', rfl⟩ := hb
    exact ⟨s, c', hs, hc', (hsame c').mp hsame'⟩
  · rintro ⟨s, c', hs, hc', hsame'⟩
    refine ⟨f s, g c', ?_, ?_, (hsame c').mpr hsame'⟩
    · rw [hwrite, hs]
      rfl
    · rw [hread, hc']
      rfl

end Codec
