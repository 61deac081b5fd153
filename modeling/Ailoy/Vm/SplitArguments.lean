import Ailoy.Core.IntegerText
import Ailoy.Vm.SplitCover
import Ailoy.Vm.SplitTextOps

/-!
# Which arguments the text splitters accept

The two operators should refuse inputs that are `Refused`, or whose overlap is `TooLong`, or that
have no separator, with an error output, and split the text for all others (`Validates`). The
lengths are mathematical integers here, as the caller means them. Each check of an operator is an
`Except.Checks`, and the chain of them is one, so an operator makes its checks in full. What they
leave out is `Overlooked`: a negative length, which is a large number as a `size_t`, a long overlap,
and an array of separators that is empty. `arguments_validated_iff` says that the operators are
right unless one of these is all that is wrong.
-/

namespace Ailoy

namespace SplitText

open Except (Checks)

/-- The entries of the inputs. -/
abbrev Entries := List (String × Value)

/-! ## What the arguments mean -/

/-- The string that a value holds. -/
def stringIn : Value → String
  | .string s => s
  | _ => ""

/-- A length, or its default. -/
def lengthOf (default : ℤ) (name : String) (m : Entries) : ℤ :=
  ((m.lookup name).bind Value.integer?).getD default

/-- A string, or its default. -/
def stringOf (default : String) (name : String) (m : Entries) : String :=
  ((m.lookup name).map stringIn).getD default

/-- The separator, or its default. -/
def separatorOf (m : Entries) : Text := bytesOf (stringOf "\n\n" "separator" m)

/-- The separators, or their default. -/
def separatorsOf (m : Entries) : List Text :=
  match m.lookup "separators" with
  | some (.array vs) => vs.map fun sep => bytesOf (stringIn sep)
  | _ => defaultSeparators

/-- The arguments that the caller means. -/
def argumentsOf {σ : Type} (separators : Entries → σ) (m : Entries) : Arguments σ where
  text := bytesOf (stringOf "" "text" m)
  chunkSize := (lengthOf 4000 "chunk_size" m).toNat
  chunkOverlap := (lengthOf 200 "chunk_overlap" m).toNat
  separators := separators m
  lengthFunction := stringOf "default" "length_function" m

/-! ## What can be wrong -/

/-- An argument is given that is not a string. -/
def NotString (name : String) (m : Entries) : Prop :=
  ∃ v, m.lookup name = some v ∧ ∀ s, v ≠ .string s

/-- A length is given that is not an integer, or that is too low. -/
def WrongLength (low : ℤ → Prop) (name : String) (m : Entries) : Prop :=
  ∃ v, m.lookup name = some v ∧ ∀ n, v.integer? = some n → low n

/-- The separators are not an array of strings. -/
def WrongSeparators (m : Entries) : Prop :=
  ∃ v, m.lookup "separators" = some v ∧ ∀ vs, v = .array vs → ∃ sep ∈ vs, ∀ s, sep ≠ .string s

/-- The array of separators is empty. -/
def NoSeparators (m : Entries) : Prop := m.lookup "separators" = some (.array [])

/-- A length function is given that there is not. -/
def UnknownLengthFunction (m : Entries) : Prop :=
  ∃ v, m.lookup "length_function" = some v ∧ v ≠ .string "default" ∧ v ≠ .string "string"

/-- The overlap is longer than a chunk. -/
def TooLong (m : Entries) : Prop :=
  lengthOf 4000 "chunk_size" m < lengthOf 200 "chunk_overlap" m

/-- The inputs are not a map, or an entry of them is wrong, for a notion of what lengths are too low
and of what separators are wrong. -/
def Refused (low : ℤ → Prop) (wrong : Entries → Prop) : Value → Prop
  | .map m =>
    (m.lookup "text" = none ∨ NotString "text" m) ∨ WrongLength low "chunk_size" m ∨
      WrongLength low "chunk_overlap" m ∨ wrong m ∨ UnknownLengthFunction m
  | _ => True

section Validates

variable {σ : Type} (wrong missing : Entries → Prop) (separators : Entries → σ)
  (split : Arguments σ → Except Fault (List Text))
  (op : Value → Except Fault (Except ErrorOutput Value))

/-- The operator returns an error output when something is wrong with its inputs, and the chunks of
its splitting function otherwise. -/
def Validates (inputs : Value) : Prop :=
  (Refused (· < 1) (fun m => wrong m ∨ missing m) inputs ∨ (∃ m, inputs = .map m ∧ TooLong m) →
    ∃ e, op inputs = .ok (.error e)) ∧
  (¬ (Refused (· < 1) (fun m => wrong m ∨ missing m) inputs ∨ ∃ m, inputs = .map m ∧ TooLong m) →
    ∃ m chunks, inputs = .map m ∧ split (argumentsOf separators m) = .ok chunks ∧
      op inputs = .ok (.ok (chunksOutput chunks)))

/-- What the operators do not check: a length below zero, an overlap that is longer than a chunk, and
the lack of any separator. -/
def Overlooked (m : Entries) : Prop :=
  lengthOf 4000 "chunk_size" m < 0 ∨ lengthOf 200 "chunk_overlap" m < 0 ∨ TooLong m ∨ missing m

end Validates

/-! ## The checks -/

section Checks

variable (getType : Value → String) (m : Entries)

/-- An integer is read as a `size_t`, which is zero for zero only. -/
theorem parseInteger_cases (name : String) (v : Value) :
    (v.integer? = none ∧ ∃ e, parseInteger getType name v = .error e) ∨
      ∃ n, v.integer? = some n ∧ parseInteger getType name v = .ok (wrap n) ∧
        (wrap n < 1 ↔ n = 0) := by
  cases v with
  | uint n =>
    have hlt : n.toNat < 2 ^ 64 := n.toNat_lt
    refine .inr ⟨n.toNat, rfl, ?_, ?_⟩
    · rw [wrap_of_lt hlt]
      rfl
    · rw [wrap_of_lt hlt]
      omega
  | int n =>
    have hle : -2 ^ 63 ≤ n.toInt := n.le_toInt
    have hlt : n.toInt < 2 ^ 63 := n.toInt_lt
    refine .inr ⟨n.toInt, rfl, ?_, ?_⟩
    · rw [← toNat_toUInt64_eq]
      rfl
    · unfold wrap
      omega
  | _ => exact .inl ⟨rfl, _, rfl⟩

/-- A length, which is refused only when it is no integer or zero. -/
theorem checks_parseLength (name : String) {default : ℕ} (hdefault : default < 2 ^ 64) :
    Checks (WrongLength (· = 0) name m) (parseLength getType name default m)
      (wrap (lengthOf default name m)) := by
  unfold parseLength WrongLength lengthOf
  cases m.lookup name with
  | none => exact .inr ⟨fun ⟨v, hv, _⟩ => absurd hv.symm (Option.some_ne_none v),
      congrArg Except.ok (wrap_of_lt hdefault).symm⟩
  | some v =>
    dsimp only [Option.bind_some]
    rcases parseInteger_cases getType name v with ⟨hnone, e, herror⟩ | ⟨n, hn, hok, hzero⟩
    · rw [herror]
      refine .inl ⟨⟨v, rfl, fun n hn => ?_⟩, e, rfl⟩
      rw [hnone] at hn
      cases hn
    · rw [hok, hn, Except.ok_bind]
      by_cases hlow : n = 0
      · rw [if_pos (hzero.mpr hlow)]
        refine .inl ⟨⟨v, rfl, fun n' hn' => ?_⟩, _, rfl⟩
        rw [hn] at hn'
        rw [← Option.some.inj hn']
        exact hlow
      · -- Any other integer passes, modulo `2^64`.
        rw [if_neg fun hlt => hlow (hzero.mp hlt)]
        refine .inr ⟨fun ⟨v', hv', hbad⟩ => ?_, rfl⟩
        obtain rfl := Option.some.inj hv'
        exact hlow (hbad n hn)

/-- A value as a string. -/
theorem checks_parseString (name : String) (v : Value) :
    Checks (∀ s, v ≠ .string s) (parseString getType name v) (stringIn v) := by
  cases v with
  | string s => exact .inr ⟨fun h => h s rfl, rfl⟩
  | _ => exact .inl ⟨nofun, _, rfl⟩

/-- A property of the value that is found is one of the value under the name. -/
theorem exists_some_iff {v : Value} {p : Value → Prop} :
    (∃ v', some v = some v' ∧ p v') ↔ p v :=
  ⟨fun ⟨_, hv, hp⟩ => Option.some.inj hv ▸ hp, fun hp => ⟨v, rfl, hp⟩⟩

theorem checks_parseText :
    Checks (m.lookup "text" = none ∨ NotString "text" m) (parseText getType m)
      (bytesOf (stringOf "" "text" m)) := by
  unfold parseText NotString stringOf
  cases m.lookup "text" with
  | none => exact .inl ⟨.inl rfl, _, rfl⟩
  | some v =>
    rw [exists_some_iff]
    refine ((checks_parseString getType "text" v).map bytesOf).of_iff ?_
    simp

/-- The separator. -/
theorem checks_parseSeparator :
    Checks (NotString "separator" m) (parseSeparator getType m) (separatorOf m) := by
  unfold parseSeparator NotString separatorOf stringOf
  cases m.lookup "separator" with
  | none => exact .inr ⟨fun ⟨v, hv, _⟩ => absurd hv.symm (Option.some_ne_none v), rfl⟩
  | some v =>
    rw [exists_some_iff]
    exact (checks_parseString getType "separator" v).map bytesOf

/-- The elements of the array of separators. -/
theorem checks_mapM (vs : List Value) :
    Checks (∃ sep ∈ vs, ∀ s, sep ≠ .string s)
      (vs.mapM fun sep => do return bytesOf (← parseString getType "separators.*" sep))
      (vs.map fun sep => bytesOf (stringIn sep)) := by
  induction vs with
  | nil => exact .inr ⟨by simp, rfl⟩
  | cons v vs ih =>
    have hv := (checks_parseString getType "separators.*" v).map bytesOf
    rw [List.mapM_cons]
    refine (hv.bind (ih.map fun seps => bytesOf (stringIn v) :: seps)).of_iff ?_
    simp

/-- The separators. -/
theorem checks_parseSeparators :
    Checks (WrongSeparators m) (parseSeparators getType m) (separatorsOf m) := by
  unfold parseSeparators WrongSeparators separatorsOf
  cases m.lookup "separators" with
  | none => exact .inr ⟨fun ⟨v, hv, _⟩ => absurd hv.symm (Option.some_ne_none v), rfl⟩
  | some v =>
    rw [exists_some_iff]
    cases v with
    | array vs => exact (checks_mapM getType vs).of_iff (by simp)
    | _ => exact .inl ⟨nofun, _, rfl⟩

/-- The length function. -/
theorem checks_parseLengthFunction :
    Checks (UnknownLengthFunction m) (parseLengthFunction getType m)
      (stringOf "default" "length_function" m) := by
  unfold parseLengthFunction UnknownLengthFunction stringOf
  cases m.lookup "length_function" with
  | none => exact .inr ⟨fun ⟨v, hv, _⟩ => absurd hv.symm (Option.some_ne_none v), rfl⟩
  | some v =>
    rw [exists_some_iff]
    cases v with
    | string s =>
      by_cases hs : s = "default" ∨ s = "string"
      · refine .inr ⟨fun ⟨hdefault, hstring⟩ => ?_, if_pos hs⟩
        exact hs.elim (fun h => hdefault (h ▸ rfl)) fun h => hstring (h ▸ rfl)
      · obtain ⟨hdefault, hstring⟩ := not_or.mp hs
        exact .inl ⟨⟨fun h => hdefault (Value.string.inj h), fun h => hstring (Value.string.inj h)⟩,
          _, if_neg hs⟩
    | _ => exact .inl ⟨⟨nofun, nofun⟩, _, rfl⟩

variable {σ : Type} {wrong missing : Entries → Prop} {separators : Entries → σ}
  {parse : Entries → Except ErrorOutput σ}

/-- The arguments that an operator reads. -/
def readArguments (separators : Entries → σ) (m : Entries) : Arguments σ :=
  { argumentsOf separators m with
    chunkSize := wrap (lengthOf 4000 "chunk_size" m)
    chunkOverlap := wrap (lengthOf 200 "chunk_overlap" m) }

/-- All checks of an operator. -/
theorem checks_parseArguments (hsep : Checks (wrong m) (parse m) (separators m)) :
    Checks (Refused (· = 0) wrong (.map m)) (parseArguments getType parse (.map m))
      (readArguments separators m) :=
  (checks_parseText getType m).bind <|
    (checks_parseLength getType m "chunk_size" (by decide)).bind <|
      (checks_parseLength getType m "chunk_overlap" (by decide)).bind <|
        hsep.bind <| (checks_parseLengthFunction getType m).map (Arguments.mk _ _ _ _)

end Checks

/-! ## Lengths -/

section Lengths

variable {m : Entries} {name : String} {default : ℤ}

/-- A length is its default, or the integer that is given. -/
theorem lengthOf_cases (default : ℤ) (name : String) (m : Entries) :
    (lengthOf default name m = default ∧ ∀ v, m.lookup name = some v → v.integer? = none) ∨
      ∃ v, m.lookup name = some v ∧ v.integer? = some (lengthOf default name m) := by
  unfold lengthOf
  cases m.lookup name with
  | none => exact .inl ⟨rfl, fun v hv => absurd hv.symm (Option.some_ne_none v)⟩
  | some v =>
    cases hv : v.integer? with
    | none =>
      refine .inl ⟨by simp [hv], fun v' hv' => ?_⟩
      rwa [← Option.some.inj hv']
    | some n => exact .inr ⟨v, rfl, by simp [hv]⟩

/-- An integer of a value has at most 64 bits. -/
theorem integer_lt {v : Value} {n : ℤ} (h : v.integer? = some n) : n < 2 ^ 64 := by
  cases v with
  | uint k =>
    obtain rfl := Option.some.inj h
    have hlt : k.toNat < 2 ^ 64 := k.toNat_lt
    omega
  | int k =>
    obtain rfl := Option.some.inj h
    have hlt : k.toInt < 2 ^ 63 := k.toInt_lt
    omega
  | _ => cases h

/-- A length that is not negative is read as it is meant. -/
theorem wrap_lengthOf (hdefault : default < 2 ^ 64) (h : 0 ≤ lengthOf default name m) :
    wrap (lengthOf default name m) = (lengthOf default name m).toNat := by
  have hlt : lengthOf default name m < 2 ^ 64 := by
    rcases lengthOf_cases default name m with ⟨heq, -⟩ | ⟨v, -, hv⟩
    · omega
    · exact integer_lt hv
  unfold wrap
  omega

/-- A negative length is too low. -/
theorem wrongLength_of_neg (hdefault : 0 ≤ default) (h : lengthOf default name m < 0) :
    WrongLength (· < 1) name m := by
  rcases lengthOf_cases default name m with ⟨heq, -⟩ | ⟨v, hv, hn⟩
  · omega
  · refine ⟨v, hv, fun n hn' => ?_⟩
    rw [hn] at hn'
    have := Option.some.inj hn'
    omega

/-- A length that is too low and not negative is zero. -/
theorem wrongLength_zero (h : WrongLength (· < 1) name m) (hnonneg : 0 ≤ lengthOf default name m) :
    WrongLength (· = 0) name m := by
  obtain ⟨v, hv, hlow⟩ := h
  refine ⟨v, hv, fun n hn => ?_⟩
  have hlength : lengthOf default name m = n := by
    unfold lengthOf
    rw [hv, Option.bind_some, hn, Option.getD_some]
  have := hlow n hn
  omega

/-- A length that is not too low is at least one. -/
theorem one_le_lengthOf (hdefault : 1 ≤ default) (h : ¬ WrongLength (· < 1) name m) :
    1 ≤ lengthOf default name m := by
  rcases lengthOf_cases default name m with ⟨heq, -⟩ | ⟨v, hv, hn⟩
  · omega
  · by_contra hlow
    refine h ⟨v, hv, fun n hn' => ?_⟩
    rw [hn] at hn'
    have := Option.some.inj hn'
    omega

end Lengths

/-! ## The operators -/

section Operators

variable {σ : Type} {wrong missing : Entries → Prop} {separators : Entries → σ}
  {parse : Entries → Except ErrorOutput σ} {m : Entries}

/-- A name of a length function that is not unknown is one that there is. -/
theorem name_of_not_unknown (h : ¬ UnknownLengthFunction m) :
    stringOf "default" "length_function" m = "default" ∨
      stringOf "default" "length_function" m = "string" := by
  unfold UnknownLengthFunction at h
  unfold stringOf
  cases hv : m.lookup "length_function" with
  | none => exact .inl rfl
  | some v =>
    by_cases hdefault : v = .string "default"
    · exact .inl (by rw [hdefault]; rfl)
    · by_cases hstring : v = .string "string"
      · exact .inr (by rw [hstring]; rfl)
      · exact absurd ⟨v, hv, hdefault, hstring⟩ h

/-- Without separators in the inputs there are the default ones. -/
theorem separatorsOf_ne_nil (h : ¬ NoSeparators m) : separatorsOf m ≠ [] := by
  unfold NoSeparators at h
  unfold separatorsOf
  split
  next vs hvs =>
    rintro hnil
    rw [List.map_eq_nil_iff.mp hnil] at hvs
    exact h hvs
  next => decide

/-- Whatever the operators check is wrong. -/
theorem Refused.weaken (h : Refused (· = 0) wrong (.map m)) :
    Refused (· < 1) (fun m => wrong m ∨ missing m) (.map m) := by
  have hlength : ∀ name, WrongLength (· = 0) name m → WrongLength (· < 1) name m := by
    rintro name ⟨v, hv, hzero⟩
    refine ⟨v, hv, fun n hn => ?_⟩
    have := hzero n hn
    omega
  exact h.imp_right <| .imp (hlength _) <| .imp (hlength _) <| .imp_left .inl

/-- What the operators overlook is wrong. -/
theorem Overlooked.refused (h : Overlooked missing m) :
    Refused (· < 1) (fun m => wrong m ∨ missing m) (.map m) ∨
      ∃ m', Value.map m = .map m' ∧ TooLong m' := by
  rcases h with hsize | hoverlap | hlong | hmissing
  · exact .inl (.inr (.inl (wrongLength_of_neg (by decide) hsize)))
  · exact .inl (.inr (.inr (.inl (wrongLength_of_neg (by decide) hoverlap))))
  · exact .inr ⟨m, rfl, hlong⟩
  · exact .inl (.inr (.inr (.inr (.inl (.inr hmissing)))))

/-- What is wrong is overlooked or checked. -/
theorem Refused.checked (hoverlooked : ¬ Overlooked missing m)
    (h : Refused (· < 1) (fun m => wrong m ∨ missing m) (.map m)) :
    Refused (· = 0) wrong (.map m) := by
  obtain ⟨hsize, hrest⟩ := not_or.mp hoverlooked
  obtain ⟨hoverlap, hrest⟩ := not_or.mp hrest
  obtain ⟨-, hmissing⟩ := not_or.mp hrest
  rcases h with h | h | h | (h | h) | h
  · exact .inl h
  · exact .inr (.inl (wrongLength_zero h (Int.not_lt.mp hsize)))
  · exact .inr (.inr (.inl (wrongLength_zero h (Int.not_lt.mp hoverlap))))
  · exact .inr (.inr (.inr (.inl h)))
  · exact absurd h hmissing
  · exact .inr (.inr (.inr (.inr h)))

/-- An operator that reads its arguments, returns the first error, and splits the text otherwise, is
right unless something is wrong that is overlooked only. -/
theorem validates_iff (getType : Value → String) {split : Arguments σ → Except Fault (List Text)}
    {op : Value → Except Fault (Except ErrorOutput Value)} {inputs : Value}
    (hsep : ∀ m, Checks (wrong m) (parse m) (separators m))
    (herror : ∀ e, parseArguments getType parse inputs = .error e → op inputs = .ok (.error e))
    (hok : ∀ a, parseArguments getType parse inputs = .ok a →
      op inputs = split a >>= fun chunks => .ok (.ok (chunksOutput chunks)))
    (hsplit : ∀ m, ¬ missing m → ∀ name, name = "default" ∨ name = "string" →
      ∀ size overlap, 1 ≤ size → overlap ≤ size → ∀ text,
        ∃ chunks, split ⟨text, size, overlap, separators m, name⟩ = .ok chunks) :
    Validates wrong missing separators split op inputs ↔
      ∀ m, inputs = .map m → Overlooked missing m → Refused (· = 0) wrong (.map m) := by
  cases inputs with
  | map m =>
    rcases checks_parseArguments getType m (hsep m) with ⟨hbad, e, hparse⟩ | ⟨hgood, hparse⟩
    · -- A check of the operator fails.
      refine ⟨fun _ m' hm' _ => ?_, fun _ => ⟨fun _ => ⟨e, herror e hparse⟩, fun hnone => ?_⟩⟩
      · rwa [← Value.map.inj hm']
      · exact absurd (.inl hbad.weaken) hnone
    · have hop := hok _ hparse
      have hnoerror : ¬ ∃ e, op (.map m) = .ok (.error e) := by
        rintro ⟨e, he⟩
        rw [hop] at he
        obtain ⟨chunks, -, hchunks⟩ := Except.bind_eq_ok_iff.mp he
        cases Except.ok.inj hchunks
      constructor
      · rintro ⟨hrefuses, -⟩ m' hm' hoverlooked
        obtain rfl := Value.map.inj hm'
        exact absurd (hrefuses hoverlooked.refused) hnoerror
      · intro h
        have hoverlooked : ¬ Overlooked missing m := fun ho => hgood (h m rfl ho)
        have hnone : ¬ (Refused (· < 1) (fun m => wrong m ∨ missing m) (.map m) ∨
            ∃ m', Value.map m = .map m' ∧ TooLong m') := by
          rintro (hrefused | ⟨m', hm', hlong⟩)
          · exact hgood (hrefused.checked hoverlooked)
          · rw [← Value.map.inj hm'] at hlong
            exact hoverlooked (.inr (.inr (.inl hlong)))
        refine ⟨fun hsome => absurd hsome hnone, fun _ => ?_⟩
        -- All arguments are read as they are meant.
        obtain ⟨hrefused, hlong⟩ := not_or.mp hnone
        obtain ⟨-, hrefused⟩ := not_or.mp hrefused
        obtain ⟨hsize, hrefused⟩ := not_or.mp hrefused
        obtain ⟨hoverlap, hrefused⟩ := not_or.mp hrefused
        obtain ⟨hseparators, hname⟩ := not_or.mp hrefused
        have hone := one_le_lengthOf (show (1 : ℤ) ≤ 4000 by decide) hsize
        have hone' := one_le_lengthOf (show (1 : ℤ) ≤ 200 by decide) hoverlap
        have hle : lengthOf 200 "chunk_overlap" m ≤ lengthOf 4000 "chunk_size" m :=
          Int.not_lt.mp fun hlt => hlong ⟨m, rfl, hlt⟩
        have hread : readArguments separators m = argumentsOf separators m := by
          unfold readArguments
          rw [wrap_lengthOf (by decide) (by omega), wrap_lengthOf (by decide) (by omega)]
          rfl
        obtain ⟨chunks, hchunks⟩ := hsplit m (fun hm => hseparators (.inr hm)) _
          (name_of_not_unknown hname) (lengthOf 4000 "chunk_size" m).toNat
          (lengthOf 200 "chunk_overlap" m).toNat (by omega) (by omega)
          (bytesOf (stringOf "" "text" m))
        refine ⟨m, chunks, rfl, hchunks, ?_⟩
        have hchunks' : split (argumentsOf separators m) = .ok chunks := hchunks
        rw [hop, hread, hchunks', Except.ok_bind]
  | _ =>
    -- Nothing but a map has entries.
    refine ⟨fun _ m hm => Value.noConfusion hm, fun _ => ⟨fun _ => ⟨_, herror _ rfl⟩, ?_⟩⟩
    exact fun hnone => absurd (.inl trivial) hnone

end Operators

/-- `split_text_by_separator_op` validates its inputs. -/
def SeparatorOpValidates (getType : Value → String) (inputs : Value) : Prop :=
  Validates (NotString "separator") (fun _ => False) separatorOf
    (fun a => splitTextBySeparator a.text a.chunkSize a.chunkOverlap a.separators a.lengthFunction)
    (splitTextBySeparatorOp getType) inputs

/-- `split_text_by_separators_recursively_op` validates its inputs. -/
def RecursiveOpValidates (getType : Value → String) (inputs : Value) : Prop :=
  Validates WrongSeparators NoSeparators separatorsOf
    (fun a => splitTextBySeparatorsRecursively a.text a.chunkSize a.chunkOverlap a.separators
      a.lengthFunction)
    (splitTextBySeparatorsRecursivelyOp getType) inputs

/-- Both operators refuse all inputs that they should refuse and split the text for all others,
except where a length is negative, the overlap is longer than a chunk, or there are no separators,
and nothing is wrong that they check. -/
theorem arguments_validated_iff (getType : Value → String) (inputs : Value) :
    (SeparatorOpValidates getType inputs ↔
      ∀ m, inputs = .map m → Overlooked (fun _ => False) m →
        Refused (· = 0) (NotString "separator") (.map m)) ∧
    (RecursiveOpValidates getType inputs ↔
      ∀ m, inputs = .map m → Overlooked NoSeparators m →
        Refused (· = 0) WrongSeparators (.map m)) := by
  constructor
  · refine validates_iff getType (checks_parseSeparator getType) (fun e he => ?_) (fun a ha => ?_) ?_
    · unfold splitTextBySeparatorOp
      rw [he]
    · unfold splitTextBySeparatorOp
      rw [ha]
      rfl
    · intro m _ name hname size overlap _ hle text
      obtain ⟨placed, hsplit, -⟩ :=
        splitTextBySeparator_cover (fun _ _ _ => False) text (separatorOf m) hle hname
      exact ⟨_, hsplit⟩
  · refine validates_iff getType (checks_parseSeparators getType) (fun e he => ?_)
      (fun a ha => ?_) ?_
    · unfold splitTextBySeparatorsRecursivelyOp
      rw [he]
    · unfold splitTextBySeparatorsRecursivelyOp
      rw [ha]
      rfl
    · intro m hm name hname size overlap hsize hle text
      obtain ⟨placed, hsplit, -⟩ := splitTextBySeparatorsRecursively_cover text hsize hle
        (separatorsOf_ne_nil hm) hname
      exact ⟨_, hsplit⟩

/-- A size below zero is accepted. An overlap that is longer than the default size ends in an
exception, and an empty array of separators in a read outside of it. -/
theorem overlooked_arguments :
    (splitTextBySeparatorOp (fun _ => "")
        (.map [("text", .string "a"), ("chunk_size", .int (-1))]) =
          .ok (.ok (chunksOutput [[0x61]])) ∧
      ¬ SeparatorOpValidates (fun _ => "")
        (.map [("text", .string "a"), ("chunk_size", .int (-1))])) ∧
    (∃ what, splitTextBySeparatorOp (fun _ => "")
      (.map [("text", .string "a"), ("chunk_overlap", .uint 4001)]) = .error (.exception what)) ∧
    (splitTextBySeparatorsRecursivelyOp (fun _ => "")
        (.map [("text", .string "a"), ("separators", .array [])]) = .error .outOfBounds ∧
      ¬ RecursiveOpValidates (fun _ => "")
        (.map [("text", .string "a"), ("separators", .array [])])) := by
  have hsize : splitTextBySeparatorOp (fun _ => "")
      (.map [("text", .string "a"), ("chunk_size", .int (-1))]) =
        .ok (.ok (chunksOutput [[0x61]])) := rfl
  have hseparators : splitTextBySeparatorsRecursivelyOp (fun _ => "")
      (.map [("text", .string "a"), ("separators", .array [])]) = .error .outOfBounds := by
    show splitTextRecursive 4000 200 List.length [] [0x61] >>= _ = _
    rw [splitTextRecursive]
    rfl
  refine ⟨⟨hsize, fun h => ?_⟩, ⟨_, rfl⟩, hseparators, fun h => ?_⟩
  · have hlow : Overlooked (fun _ => False)
        [("text", .string "a"), ("chunk_size", .int (-1))] := .inl (by decide)
    obtain ⟨e, he⟩ := h.1 hlow.refused
    rw [hsize] at he
    cases Except.ok.inj he
  · have hnone : Overlooked NoSeparators [("text", .string "a"), ("separators", .array [])] :=
      .inr (.inr (.inr rfl))
    obtain ⟨e, he⟩ := h.1 hnone.refused
    rw [hseparators] at he
    cases he

end SplitText

end Ailoy
