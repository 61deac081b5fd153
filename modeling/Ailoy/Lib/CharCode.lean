import Ailoy.Lib.Pieces

/-!
# Texts in a self-synchronizing code

A `CharCode` writes each character as a sequence of units whose first one is told apart from all
others, and no character's sequence begins another's. A sequence of units is `Valid` when it is the
characters of some text. Cutting a valid sequence where a character begins gives valid sequences
(`Valid.split`), and nothing else does: what is valid ends where the next character begins
(`Valid.cancel`). From these two follow the pieces at a separator (`valid_of_mem_split`), and the
exact condition for windows that are cut out at fixed distances (`valid_windows_iff`). UTF-8 is such
a code (`utf8`).
-/

/-- A code for the characters `α`, with units `β`. -/
structure CharCode (α β : Type*) where
  encode : α → List β
  /-- The units that begin a character. -/
  lead : β → Prop
  encode_cons : ∀ c, ∃ b bs, encode c = b :: bs ∧ lead b ∧ ∀ x ∈ bs, ¬ lead x
  prefix_free : ∀ c c', encode c <+: encode c' → encode c = encode c'

namespace CharCode

variable {α β : Type*} (code : CharCode α β)

/-- The sequence is a text. -/
def Valid (t : List β) : Prop := ∃ cs : List α, t = cs.flatMap code.encode

/-- The sequence is empty, or a character begins at its front. -/
def AtLead (t : List β) : Prop := ∀ b ∈ t.head?, code.lead b

variable {code} {a b t : List β}

theorem valid_nil : code.Valid [] := ⟨[], rfl⟩

theorem valid_encode (c : α) : code.Valid (code.encode c) := ⟨[c], by simp⟩

theorem atLead_nil : code.AtLead [] := by
  intro b hb
  cases hb

theorem Valid.append (ha : code.Valid a) (hb : code.Valid b) : code.Valid (a ++ b) := by
  obtain ⟨cs, rfl⟩ := ha
  obtain ⟨ds, rfl⟩ := hb
  exact ⟨cs ++ ds, List.flatMap_append.symm⟩

/-- A text is empty, or a character and a text. -/
theorem Valid.cases (h : code.Valid t) :
    t = [] ∨ ∃ c rest, t = code.encode c ++ rest ∧ code.Valid rest := by
  obtain ⟨cs, rfl⟩ := h
  cases cs with
  | nil => exact .inl rfl
  | cons c cs => exact .inr ⟨c, _, List.flatMap_cons, cs, rfl⟩

theorem Valid.atLead (h : code.Valid t) : code.AtLead t := by
  rcases h.cases with rfl | ⟨c, rest, rfl, -⟩
  · exact atLead_nil
  · obtain ⟨b, bs, hc, hlead, -⟩ := code.encode_cons c
    intro x hx
    rw [hc, List.cons_append, List.head?_cons, Option.mem_some_iff] at hx
    exact hx ▸ hlead

/-- Behind the first unit of a character, a character begins at its end at the earliest. -/
theorem atLead_append_encode {c : α} {front rest : List β} (h : code.encode c = front ++ b)
    (hfront : front ≠ []) (hb : code.AtLead (b ++ rest)) : b = [] := by
  obtain ⟨x, xs, hc, -, hxs⟩ := code.encode_cons c
  cases b with
  | nil => rfl
  | cons y b =>
    cases front with
    | nil => exact absurd rfl hfront
    | cons z front =>
      rw [hc, List.cons_append] at h
      have hy : y ∈ xs := by
        rw [(List.cons.inj h).2]
        exact List.mem_append_right _ (List.mem_cons_self ..)
      exact absurd (hb y rfl) (hxs y hy)

/-- A text that is cut where a character begins. -/
theorem Valid.split (h : code.Valid (a ++ b)) (hb : code.AtLead b) :
    code.Valid a ∧ code.Valid b := by
  obtain ⟨cs, hcs⟩ := h
  induction cs generalizing a with
  | nil =>
    obtain ⟨rfl, rfl⟩ := List.append_eq_nil_iff.mp hcs
    exact ⟨valid_nil, valid_nil⟩
  | cons c cs ih =>
    rw [List.flatMap_cons] at hcs
    rcases List.append_eq_append_iff.mp hcs with ⟨mid, hc, hrest⟩ | ⟨mid, ha, hrest⟩
    · -- The cut is not behind the first character, so it is in front of it.
      by_cases hempty : a = []
      · subst hempty
        exact ⟨valid_nil, c :: cs, by rw [List.flatMap_cons, ← hcs, List.nil_append]⟩
      · have hmid : mid = [] := atLead_append_encode hc hempty (hrest ▸ hb)
        subst hmid
        rw [List.append_nil] at hc
        exact ⟨hc ▸ valid_encode c, cs, by simpa using hrest⟩
    · obtain ⟨hmid, hvalid⟩ := ih hrest.symm
      exact ⟨ha ▸ (valid_encode c).append hmid, hvalid⟩

/-- Two characters in front of the same sequence are the same. -/
theorem encode_append_inj {c c' : α} (h : code.encode c ++ a = code.encode c' ++ b) :
    code.encode c = code.encode c' ∧ a = b := by
  have hc : code.encode c = code.encode c' := by
    rcases List.append_eq_append_iff.mp h with ⟨mid, hmid, -⟩ | ⟨mid, hmid, -⟩
    · exact code.prefix_free c c' ⟨mid, hmid.symm⟩
    · exact (code.prefix_free c' c ⟨mid, hmid.symm⟩).symm
  rw [hc] at h
  exact ⟨hc, List.append_cancel_left h⟩

/-- What follows a text in a text is a text. -/
theorem Valid.cancel (ha : code.Valid a) (h : code.Valid (a ++ b)) : code.Valid b := by
  obtain ⟨cs, rfl⟩ := ha
  induction cs with
  | nil => exact h
  | cons c cs ih =>
    rw [List.flatMap_cons, List.append_assoc] at h
    rcases h.cases with hnil | ⟨c', rest, hrest, hvalid⟩
    · obtain ⟨x, xs, hc, -⟩ := code.encode_cons c
      rw [hc] at hnil
      cases hnil
    · exact ih ((encode_append_inj hrest).2 ▸ hvalid)

/-- What a text follows in a text is a text. -/
theorem Valid.cancel_right (hb : code.Valid b) (h : code.Valid (a ++ b)) : code.Valid a :=
  (h.split hb.atLead).1

/-! ## Pieces of a text -/

open Pieces

/-- The units of `blank` characters at the ends do not matter. -/
theorem valid_trim_iff {p : β → Bool} (hp : ∀ x, p x = true → code.Valid [x]) :
    code.Valid (trim p t) ↔ code.Valid t := by
  have hblank : ∀ l : List β, (∀ x ∈ l, p x = true) → code.Valid l := by
    intro l
    induction l with
    | nil => exact fun _ => valid_nil
    | cons x l ih =>
      intro hl
      exact (hp x (hl x (List.mem_cons_self ..))).append
        (ih fun y hy => hl y (List.mem_cons_of_mem x hy))
  obtain ⟨front, back, ht, hfront, hback⟩ := trim_split p t
  constructor
  · intro h
    rw [ht]
    exact ((hblank front hfront).append h).append (hblank back hback)
  · intro h
    rw [ht] at h
    exact (hblank front hfront).cancel ((hblank back hback).cancel_right h)

/-- Texts with a text between them make a text. -/
theorem valid_join {d : List β} {xs : List (List β)} (hd : code.Valid d)
    (h : ∀ x ∈ xs, code.Valid x) : code.Valid (join d xs) := by
  cases xs with
  | nil => exact valid_nil
  | cons x xs =>
    refine (h x (List.mem_cons_self ..)).append ?_
    have hrest : ∀ y ∈ xs, code.Valid y := fun y hy => h y (List.mem_cons_of_mem x hy)
    clear h
    induction xs with
    | nil => exact valid_nil
    | cons y xs ih =>
      rw [List.flatMap_cons]
      exact (hd.append (hrest y (List.mem_cons_self ..))).append
        (ih fun z hz => hrest z (List.mem_cons_of_mem y hz))

variable [DecidableEq β]

/-- The pieces of what is left of a text. -/
theorem valid_of_mem_splitFrom {d : List β} (hne : d ≠ []) (hd : code.Valid d) {skip : ℕ}
    {piece s : List β} (hskip : skip ≤ s.length) (h : code.Valid (piece ++ s.drop skip)) :
    ∀ x ∈ splitFrom d skip piece s, code.Valid x := by
  induction s generalizing skip piece with
  | nil =>
    intro x hx
    obtain rfl : x = piece := by simpa [splitFrom] using hx
    simpa using h
  | cons c cs ih =>
    cases skip with
    | succ skip => exact ih (by simpa using hskip) (by simpa using h)
    | zero =>
      rw [List.drop_zero] at h
      unfold splitFrom
      split_ifs with hprefix
      · obtain ⟨rest, hrest⟩ := hprefix
        obtain ⟨b, bs, rfl⟩ := List.exists_cons_of_ne_nil hne
        obtain ⟨rfl, hcs⟩ := List.cons.inj hrest
        -- A separator begins with a character, so the text is cut at a character's front.
        have hlead : code.AtLead (b :: cs) := hd.atLead
        obtain ⟨hpiece, htail⟩ := h.split hlead
        have hrest : code.Valid rest := by
          have hwhole : b :: cs = (b :: bs) ++ rest := by rw [← hcs]; rfl
          rw [hwhole] at htail
          exact hd.cancel htail
        intro x hx
        rcases List.mem_cons.mp hx with rfl | hx
        · exact hpiece
        · have hlen : (b :: bs).length - 1 ≤ cs.length := by
            rw [← hcs]
            simp
          refine ih hlen ?_ x hx
          rw [List.nil_append, ← hcs]
          simpa using hrest
      · exact ih (Nat.zero_le _) (by simpa using h)

/-- The pieces of a text at a separator that is a text. -/
theorem valid_of_mem_split {d : List β} (hne : d ≠ []) (hd : code.Valid d) (h : code.Valid t) :
    ∀ x ∈ split d t, code.Valid x := by
  unfold split
  split_ifs
  · simp
  · exact valid_of_mem_splitFrom hne hd (Nat.zero_le _) (by simpa using h)

/-! ## Windows -/

omit [DecidableEq β]

/-- The windows of `size` elements that begin at the multiples of `stride`, up to the one that
reaches the end. -/
def windows (size stride : ℕ) (t : List β) : List (List β) :=
  if t.length ≤ size ∨ stride = 0 then [t]
  else t.take size :: windows size stride (t.drop stride)
termination_by t.length
decreasing_by
  rw [List.length_drop]
  omega

variable {size stride : ℕ}

theorem windows_of_le (h : t.length ≤ size) : windows size stride t = [t] := by
  rw [windows, if_pos (.inl h)]

theorem windows_of_lt (hstride : 0 < stride) (h : size < t.length) :
    windows size stride t = t.take size :: windows size stride (t.drop stride) := by
  rw [windows, if_neg (by omega)]

/-- A character begins at the front when the first window is a text. -/
theorem atLead_of_windows (hstride : 0 < stride) (hsize : 0 < size)
    (h : ∀ w ∈ windows size stride t, code.Valid w) : code.AtLead t := by
  rcases Nat.lt_or_ge size t.length with hlt | hle
  · rw [windows_of_lt hstride hlt] at h
    have htake := (h _ (List.mem_cons_self ..)).atLead
    intro b hb
    refine htake b ?_
    rwa [List.head?_take, if_neg (by omega)]
  · rw [windows_of_le hle] at h
    exact (h t (List.mem_singleton_self t)).atLead

/-- The windows of a text are texts exactly when each cut of one is where a character begins: the
end of every window before the last, and the beginning of the next one. -/
theorem valid_windows_iff (hstride : 0 < stride) (hle : stride ≤ size) (ht : code.Valid t) :
    (∀ w ∈ windows size stride t, code.Valid w) ↔
      ∀ k, k * stride + size < t.length →
        code.AtLead (t.drop (k * stride + size)) ∧ code.AtLead (t.drop ((k + 1) * stride)) := by
  induction hn : t.length using Nat.strong_induction_on generalizing t with
  | _ n ih =>
    subst hn
    rcases Nat.lt_or_ge size t.length with hlt | hge
    · have hlen : (t.drop stride).length < t.length := by
        rw [List.length_drop]
        omega
      rw [windows_of_lt hstride hlt, List.forall_mem_cons]
      -- The cuts of the rest are those of the whole text, one stride further.
      have hnextk : ∀ k, (k + 1) * stride = stride + k * stride := by
        intro k
        rw [Nat.add_mul, Nat.one_mul, Nat.add_comm]
      have hshift : ∀ k, k * stride + size < (t.drop stride).length ↔
          (k + 1) * stride + size < t.length := by
        intro k
        rw [List.length_drop, hnextk]
        omega
      have hcuts : ∀ k, (k + 1) * stride + size = stride + (k * stride + size) := by
        intro k
        rw [hnextk, Nat.add_assoc]
      have hdrop : ∀ k, (t.drop stride).drop k = t.drop (stride + k) := fun k => List.drop_drop
      constructor
      · rintro ⟨hfirst, hrest⟩
        have hend : code.AtLead (t.drop size) := by
          rw [← List.take_append_drop size t] at ht
          exact (hfirst.cancel ht).atLead
        have hnext : code.AtLead (t.drop stride) :=
          atLead_of_windows hstride (lt_of_lt_of_le hstride hle) hrest
        have htail : code.Valid (t.drop stride) := by
          rw [← List.take_append_drop stride t] at ht
          exact (ht.split hnext).2
        intro k hk
        cases k with
        | zero =>
          rw [Nat.zero_mul, Nat.zero_add, Nat.zero_add, Nat.one_mul]
          exact ⟨hend, hnext⟩
        | succ k =>
          obtain ⟨hcut, hbegin⟩ := (ih _ hlen htail rfl).mp hrest k ((hshift k).mpr hk)
          rw [hdrop] at hcut hbegin
          rw [hcuts, hnextk (k + 1)]
          exact ⟨hcut, hbegin⟩
      · intro h
        have hzero := h 0 (by omega)
        rw [Nat.zero_mul, Nat.zero_add, Nat.zero_add, Nat.one_mul] at hzero
        have hfirst : code.Valid (t.take size) := by
          rw [← List.take_append_drop size t] at ht
          exact (ht.split hzero.1).1
        have htail : code.Valid (t.drop stride) := by
          rw [← List.take_append_drop stride t] at ht
          exact (ht.split hzero.2).2
        refine ⟨hfirst, (ih _ hlen htail rfl).mpr fun k hk => ?_⟩
        obtain ⟨hcut, hbegin⟩ := h (k + 1) ((hshift k).mp hk)
        rw [hcuts] at hcut
        rw [hnextk (k + 1)] at hbegin
        rw [hdrop, hdrop]
        exact ⟨hcut, hbegin⟩
    · rw [windows_of_le hge]
      refine iff_of_true (fun w hw => ?_) fun k hk => ?_
      · rw [List.mem_singleton.mp hw]
        exact ht
      · omega

end CharCode

/-! ## UTF-8 -/

/-- UTF-8, with the first bytes of its characters. -/
def utf8 : CharCode Char UInt8 where
  encode := String.utf8EncodeChar
  lead := UInt8.IsUTF8FirstByte
  encode_cons c := by
    cases hc : String.utf8EncodeChar c with
    | nil => exact absurd hc String.utf8EncodeChar_ne_nil
    | cons b bs =>
      have hlead : ∀ i, ∀ h : i < (String.utf8EncodeChar c).length,
          (String.utf8EncodeChar c)[i].IsUTF8FirstByte ↔ i = 0 := fun i h =>
        UInt8.isUTF8FirstByte_getElem_utf8EncodeChar
      refine ⟨b, bs, rfl, ?_, fun x hx hfirst => ?_⟩
      · have hzero := (hlead 0 (by rw [hc]; simp)).mpr rfl
        simpa [hc] using hzero
      · obtain ⟨i, hi, rfl⟩ := List.mem_iff_getElem.mp hx
        have hsucc := hlead (i + 1) (by rw [hc]; simpa using hi)
        simp only [hc, List.getElem_cons_succ] at hsucc
        exact absurd (hsucc.mp hfirst) (Nat.succ_ne_zero i)
  prefix_free c c' h := by
    obtain ⟨rest, hrest⟩ := h
    have hc : ((String.utf8EncodeChar c).toByteArray ++ rest.toByteArray).utf8DecodeChar? 0 =
        some c := ByteArray.utf8DecodeChar?_utf8EncodeChar_append
    have hc' : ((String.utf8EncodeChar c').toByteArray ++ ByteArray.empty).utf8DecodeChar? 0 =
        some c' := ByteArray.utf8DecodeChar?_utf8EncodeChar_append
    rw [ByteArray.append_empty, ← hrest, List.toByteArray_append, hc] at hc'
    rw [Option.some.inj hc']
