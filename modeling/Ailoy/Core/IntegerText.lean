import Mathlib.Algebra.Group.Int.Defs
import Mathlib.Algebra.Group.Nat.Defs
import Mathlib.Data.List.TakeWhile
import Mathlib.Data.Nat.Init

/-!
# Integers and their texts

`std::to_string` and `std::strtoll` for `int64_t`. The latter reads a number of any length at the
beginning of a text, behind blanks and a sign, and it takes a text without one as zero. It reads
back what the former writes (`strtoll_toString`), but it gives the same number for many other texts.
-/

namespace Ailoy

/-- An integer as a `uint64_t`, which takes it modulo `2^64`. -/
def wrap (n : Int) : ℕ := (n % 2 ^ 64).toNat

theorem wrap_of_lt {n : ℕ} (h : n < 2 ^ 64) : wrap n = n := by
  unfold wrap
  omega

/-- An `int64_t` and the `uint64_t` of the same bits are one number, or `2^64` apart. -/
theorem toInt_eq_toNat_toUInt64 (n : Int64) :
    n.toInt = if n.toUInt64.toNat < 2 ^ 63 then (n.toUInt64.toNat : Int)
      else (n.toUInt64.toNat : Int) - 2 ^ 64 := by
  have hcond : n.toInt = if 2 * n.toUInt64.toNat < 2 ^ 64 then (n.toUInt64.toNat : Int)
      else (n.toUInt64.toNat : Int) - (2 ^ 64 : ℕ) := BitVec.toInt_eq_toNat_cond n.toBitVec
  split_ifs at hcond ⊢ <;> omega

/-- The conversion from `int64_t`. -/
theorem toNat_toUInt64_eq (n : Int64) : n.toUInt64.toNat = wrap n.toInt := by
  have hint := toInt_eq_toNat_toUInt64 n
  have hlt : n.toUInt64.toNat < 2 ^ 64 := n.toUInt64.toNat_lt
  unfold wrap
  split_ifs at hint <;> omega

/-- `std::to_string`. -/
def int64ToString (i : Int64) : String :=
  if i.toInt < 0 then String.ofList ('-' :: Nat.toDigits 10 i.toInt.natAbs)
  else String.ofList (Nat.toDigits 10 i.toInt.natAbs)

/-- `isspace` in the C locale. -/
def isBlank (c : Char) : Bool := c = ' ' ∨ (9 ≤ c.toNat ∧ c.toNat ≤ 13)

/-- The sign in front of the digits, if there is one. -/
def readSign : List Char → Bool × List Char
  | [] => (false, [])
  | c :: cs => if c = '-' then (true, cs) else if c = '+' then (false, cs) else (false, c :: cs)

/-- `std::strtoll` with the base ten. The text ends at the first zero byte, and a number outside of
the range becomes its nearest bound. -/
def strtoll (s : String) : Int64 :=
  let p := readSign ((s.toList.takeWhile fun c => c.toNat ≠ 0).dropWhile isBlank)
  let n := Nat.ofDigitChars 10 (p.2.takeWhile Char.isDigit) 0
  if p.1 then
    if n ≤ 2 ^ 63 then Int64.ofInt (-n) else Int64.minValue
  else
    if n < 2 ^ 63 then Int64.ofInt n else Int64.maxValue

/-- A digit is no blank, no zero byte and no sign. -/
theorem digit_facts {c : Char} (h : c.isDigit = true) :
    c.toNat ≠ 0 ∧ isBlank c = false ∧ c ≠ '-' ∧ c ≠ '+' := by
  have hrange : 48 ≤ c.toNat ∧ c.toNat ≤ 57 := by
    unfold Char.isDigit at h
    simp only [Bool.and_eq_true, decide_eq_true_eq] at h
    exact ⟨h.1, h.2⟩
  have hne : ∀ k : Char, c = k → c.toNat = k.toNat := fun k hk => congrArg Char.toNat hk
  refine ⟨by omega, ?_, fun hc => ?_, fun hc => ?_⟩
  · unfold isBlank
    simp only [decide_eq_false_iff_not, not_or, not_and, not_le]
    refine ⟨fun hc => ?_, fun _ => by omega⟩
    have := hne _ hc
    have hblank : ' '.toNat = 32 := rfl
    omega
  · have := hne _ hc
    have hminus : '-'.toNat = 45 := rfl
    omega
  · have := hne _ hc
    have hplus : '+'.toNat = 43 := rfl
    omega

theorem isDigit_toDigits {n : ℕ} {c : Char} (h : c ∈ Nat.toDigits 10 n) : c.isDigit = true :=
  Nat.isDigit_of_mem_toDigits (by decide) (by decide) h

/-- There is no zero byte among the digits of a number. -/
theorem takeWhile_ne_zero_toDigits (n : ℕ) :
    (Nat.toDigits 10 n).takeWhile (fun c => decide (c.toNat ≠ 0)) = Nat.toDigits 10 n := by
  rw [List.takeWhile_eq_self_iff]
  exact fun c hc => decide_eq_true (digit_facts (isDigit_toDigits hc)).1

/-- The digits of a number have no blank and no sign in front. -/
theorem readSign_toDigits (n : ℕ) :
    readSign ((Nat.toDigits 10 n).dropWhile isBlank) = (false, Nat.toDigits 10 n) := by
  obtain ⟨c, cs, hcs⟩ := List.exists_cons_of_ne_nil (Nat.toDigits_ne_nil (n := n) (b := 10))
  have hc := digit_facts (isDigit_toDigits (n := n) (hcs ▸ List.mem_cons_self))
  rw [hcs, List.dropWhile_cons_of_neg (by rw [hc.2.1]; decide), readSign, if_neg hc.2.2.1,
    if_neg hc.2.2.2]

theorem takeWhile_toDigits (n : ℕ) :
    (Nat.toDigits 10 n).takeWhile Char.isDigit = Nat.toDigits 10 n := by
  rw [List.takeWhile_eq_self_iff]
  exact fun c hc => isDigit_toDigits hc

/-- `strtoll` reads back what `to_string` writes. -/
theorem strtoll_toString (i : Int64) : strtoll (int64ToString i) = i := by
  have hlow : -2 ^ 63 ≤ i.toInt := i.le_toInt
  have hhigh : i.toInt < 2 ^ 63 := i.toInt_lt
  unfold int64ToString
  by_cases hneg : i.toInt < 0
  · rw [if_pos hneg]
    have hread : readSign ((('-' :: Nat.toDigits 10 i.toInt.natAbs).takeWhile
        fun c => c.toNat ≠ 0).dropWhile isBlank) = (true, Nat.toDigits 10 i.toInt.natAbs) := by
      rw [List.takeWhile_cons_of_pos (by decide), takeWhile_ne_zero_toDigits,
        List.dropWhile_cons_of_neg (by decide), readSign, if_pos rfl]
    unfold strtoll
    dsimp only
    rw [String.toList_ofList, hread]
    dsimp only
    rw [takeWhile_toDigits, Nat.ofDigitChars_ten_toDigits, if_pos rfl, if_pos (by omega)]
    have hval : -(i.toInt.natAbs : ℤ) = i.toInt := by omega
    rw [hval, Int64.ofInt_toInt]
  · rw [if_neg hneg]
    unfold strtoll
    dsimp only
    rw [String.toList_ofList, takeWhile_ne_zero_toDigits, readSign_toDigits]
    dsimp only
    rw [takeWhile_toDigits, Nat.ofDigitChars_ten_toDigits, if_neg (by decide), if_pos (by omega)]
    have hval : (i.toInt.natAbs : ℤ) = i.toInt := by omega
    rw [hval, Int64.ofInt_toInt]

/-- Different integers have different texts. -/
theorem int64ToString_injective : Function.Injective int64ToString :=
  Function.LeftInverse.injective strtoll_toString

end Ailoy
