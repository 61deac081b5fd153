import Mathlib.Data.List.Basic
import Mathlib.Data.List.TakeWhile

/-!
# Parameters in the query of a url

The form encoding of parameters: names and values are byte strings, `serialize` writes them with
`=` and `&` between them, a blank as `+` and each byte that is not safe in hexadecimal, and `parse`
reads them back. Encoders differ in which bytes they leave as they are, which a `SafeSet` says. What
is written is read back as it was (`parse_serialize`), whichever set the writer has.
-/

namespace FormUrlencoded

/-- The bytes that an encoder leaves as they are. -/
structure SafeSet where
  safe : UInt8 → Bool
  ascii : ∀ b, safe b → b < 128
  plain : ∀ b, safe b → b ∉ [37, 38, 43, 61]

/-- The letters, the digits and some marks. -/
def alphanumericOr (marks : List UInt8) (b : UInt8) : Bool :=
  (48 ≤ b && b ≤ 57) || (65 ≤ b && b ≤ 90) || (97 ≤ b && b ≤ 122) || marks.contains b

theorem alphanumericOr_iff {marks : List UInt8} {b : UInt8} : alphanumericOr marks b = true ↔
    ((48 ≤ b ∧ b ≤ 57 ∨ 65 ≤ b ∧ b ≤ 90) ∨ 97 ≤ b ∧ b ≤ 122) ∨ b ∈ marks := by
  simp [alphanumericOr]

theorem lt_of_alphanumericOr {marks : List UInt8} (h : ∀ b ∈ marks, b < 128) (b : UInt8)
    (hb : alphanumericOr marks b) : b < 128 := by
  rcases alphanumericOr_iff.mp hb with hb | hb
  · simp only [UInt8.le_iff_toNat_le, UInt8.lt_iff_toNat_lt, UInt8.reduceToNat] at hb ⊢
    omega
  · exact h b hb

theorem not_mem_of_alphanumericOr {marks : List UInt8} (h : ∀ b ∈ marks, b ∉ [37, 38, 43, 61])
    (b : UInt8) (hb : alphanumericOr marks b) : b ∉ [37, 38, 43, 61] := by
  rcases alphanumericOr_iff.mp hb with hb | hb
  · intro hmem
    simp only [List.mem_cons, List.not_mem_nil, or_false] at hmem
    rcases hmem with rfl | rfl | rfl | rfl <;> revert hb <;> decide
  · exact h b hb

/-! ## Writing -/

/-- The hexadecimal digit of a number below 16. -/
def hexDigit (n : ℕ) : Char := if n < 10 then Char.ofNat (48 + n) else Char.ofNat (55 + n)

/-- The encoding of a byte. -/
def quoteByte (S : SafeSet) (b : UInt8) : List Char :=
  if b = 32 then ['+']
  else if S.safe b then [Char.ofUInt8 b]
  else ['%', hexDigit (b.toNat / 16), hexDigit (b.toNat % 16)]

/-- The encoding of a name or a value. -/
def quotePlus (S : SafeSet) (bs : List UInt8) : List Char := bs.flatMap (quoteByte S)

/-- The encoding of parameters. -/
def serialize (S : SafeSet) (params : List (List UInt8 × List UInt8)) : List Char :=
  ['&'].intercalate (params.map fun p => quotePlus S p.1 ++ '=' :: quotePlus S p.2)

/-! ## Reading -/

/-- The value of a hexadecimal digit, which may be a small letter. -/
def hexValue (c : Char) : Option ℕ :=
  if '0' ≤ c ∧ c ≤ '9' then some (c.toNat - 48)
  else if 'A' ≤ c ∧ c ≤ 'F' then some (c.toNat - 55)
  else if 'a' ≤ c ∧ c ≤ 'f' then some (c.toNat - 87)
  else none

/-- The bytes of an encoded name or value. -/
def unquotePlus : List Char → List UInt8
  | [] => []
  | '%' :: c :: d :: cs =>
    match hexValue c, hexValue d with
    | some x, some y => UInt8.ofNat (16 * x + y) :: unquotePlus cs
    | _, _ => 37 :: unquotePlus (c :: d :: cs)
  | '+' :: cs => 32 :: unquotePlus cs
  | c :: cs => String.utf8EncodeChar c ++ unquotePlus cs

/-- The parameters of a query. A name without `=` has the empty value. -/
def parse (query : List Char) : List (List UInt8 × List UInt8) :=
  ((query.splitOn '&').filter (· ≠ [])).map fun p =>
    (unquotePlus (p.takeWhile (· ≠ '=')), unquotePlus ((p.dropWhile (· ≠ '=')).drop 1))

/-! ## The round trip -/

theorem hexValue_hexDigit : ∀ n < 16, hexValue (hexDigit n) = some n := by decide

theorem hexDigit_plain : ∀ n < 16, hexDigit n ∉ ['&', '='] := by decide

theorem ofUInt8_injective {a b : UInt8} (h : Char.ofUInt8 a = Char.ofUInt8 b) : a = b := by
  have hval : a.toUInt32 = b.toUInt32 := congrArg Char.val h
  have hnat : a.toNat = b.toNat := by simpa using congrArg UInt32.toNat hval
  exact UInt8.toNat_inj.mp hnat

/-- A byte of the safe set is none of the four marks. -/
theorem ofUInt8_plain {S : SafeSet} {b : UInt8} (h : S.safe b) :
    Char.ofUInt8 b ≠ '%' ∧ Char.ofUInt8 b ≠ '&' ∧ Char.ofUInt8 b ≠ '+' ∧ Char.ofUInt8 b ≠ '=' := by
  have hb := S.plain b h
  simp only [List.mem_cons, List.not_mem_nil, or_false, not_or] at hb
  obtain ⟨h37, h38, h43, h61⟩ := hb
  exact ⟨fun heq => h37 (ofUInt8_injective heq), fun heq => h38 (ofUInt8_injective heq),
    fun heq => h43 (ofUInt8_injective heq), fun heq => h61 (ofUInt8_injective heq)⟩

theorem utf8EncodeChar_ofUInt8 {b : UInt8} (h : b < 128) :
    String.utf8EncodeChar (Char.ofUInt8 b) = [b] := by
  have hlt : b.toNat < 128 := UInt8.lt_iff_toNat_lt.mp h
  have hval : (Char.ofUInt8 b).val.toNat = b.toNat := UInt8.toNat_toUInt32 b
  have hle : (Char.ofUInt8 b).val.toNat ≤ 127 := by omega
  rw [String.utf8EncodeChar, if_pos hle, hval, UInt8.ofNat_toNat]

/-- A character that is no mark of the encoding stands for its own bytes. -/
theorem unquotePlus_cons {c : Char} (hpercent : c ≠ '%') (hplus : c ≠ '+') (cs : List Char) :
    unquotePlus (c :: cs) = String.utf8EncodeChar c ++ unquotePlus cs := by
  rw [unquotePlus]
  · exact fun _ _ _ h _ => hpercent h
  · exact hplus

/-- A byte that was written is read back, whatever follows it. -/
theorem unquotePlus_quoteByte (S : SafeSet) (b : UInt8) (cs : List Char) :
    unquotePlus (quoteByte S b ++ cs) = b :: unquotePlus cs := by
  unfold quoteByte
  split_ifs with hblank hsafe
  · rw [hblank]
    rfl
  · -- A safe byte is a character of its own, which is no mark of the encoding.
    obtain ⟨hpercent, -, hplus, -⟩ := ofUInt8_plain hsafe
    rw [List.singleton_append, unquotePlus_cons hpercent hplus, utf8EncodeChar_ofUInt8
      (S.ascii b hsafe), List.singleton_append]
  · have hlt := b.toNat_lt
    have hhigh := hexValue_hexDigit (b.toNat / 16) (by omega)
    have hlow := hexValue_hexDigit (b.toNat % 16) (Nat.mod_lt _ (by decide))
    have hsum : 16 * (b.toNat / 16) + b.toNat % 16 = b.toNat := Nat.div_add_mod _ _
    simp only [List.cons_append, List.nil_append, unquotePlus, hhigh, hlow, hsum,
      UInt8.ofNat_toNat]

theorem unquotePlus_quotePlus (S : SafeSet) (bs : List UInt8) :
    unquotePlus (quotePlus S bs) = bs := by
  induction bs with
  | nil => rfl
  | cons b bs ih =>
    rw [quotePlus, List.flatMap_cons, unquotePlus_quoteByte]
    exact congrArg (b :: ·) ih

/-- What is written for a name or a value has no separator in it. -/
theorem quotePlus_plain {S : SafeSet} {bs : List UInt8} {c : Char} (h : c ∈ quotePlus S bs) :
    c ≠ '&' ∧ c ≠ '=' := by
  obtain ⟨b, -, hc⟩ := List.mem_flatMap.mp h
  unfold quoteByte at hc
  split_ifs at hc with hblank hsafe
  · rw [List.mem_singleton] at hc
    subst hc
    decide
  · rw [List.mem_singleton] at hc
    obtain ⟨-, hamp, -, heq⟩ := ofUInt8_plain hsafe
    exact ⟨hc ▸ hamp, hc ▸ heq⟩
  · have hlt := b.toNat_lt
    have hhigh := hexDigit_plain (b.toNat / 16) (by omega)
    have hlow := hexDigit_plain (b.toNat % 16) (Nat.mod_lt _ (by decide))
    simp only [List.mem_cons, List.not_mem_nil, or_false, not_or] at hc hhigh hlow
    rcases hc with rfl | rfl | rfl
    · decide
    · exact hhigh
    · exact hlow

/-- Parameters that were written are read back. -/
theorem parse_serialize (S : SafeSet) (params : List (List UInt8 × List UInt8)) :
    parse (serialize S params) = params := by
  by_cases hnil : params = []
  · subst hnil
    rfl
  · have hsplit : (serialize S params).splitOn '&' =
        params.map fun p => quotePlus S p.1 ++ '=' :: quotePlus S p.2 := by
      refine List.splitOn_intercalate '&' (fun l hl hmem => ?_) (by simpa using hnil)
      obtain ⟨p, -, rfl⟩ := List.mem_map.mp hl
      rcases List.mem_append.mp hmem with hname | hvalue
      · exact (quotePlus_plain hname).1 rfl
      · rcases List.mem_cons.mp hvalue with h | hvalue
        · exact absurd h (by decide)
        · exact (quotePlus_plain hvalue).1 rfl
    have hfilter : (params.map fun p => quotePlus S p.1 ++ '=' :: quotePlus S p.2).filter
        (· ≠ []) = params.map fun p => quotePlus S p.1 ++ '=' :: quotePlus S p.2 :=
      List.filter_eq_self.mpr fun l hl => by
        obtain ⟨p, -, rfl⟩ := List.mem_map.mp hl
        simp
    have hpos : ∀ p : List UInt8 × List UInt8, ∀ c ∈ quotePlus S p.1, decide (c ≠ '=') = true :=
      fun p c hc => decide_eq_true (quotePlus_plain hc).2
    rw [parse, hsplit, hfilter, List.map_map]
    refine List.map_id'' (fun p => ?_) params
    show (unquotePlus _, unquotePlus _) = p
    rw [List.takeWhile_append_of_pos (hpos p), List.dropWhile_append_of_pos (hpos p)]
    simp [unquotePlus_quotePlus]

end FormUrlencoded
