import Ailoy.Core.IntegerText
import Ailoy.Core.ValueEncoding
import Mathlib.Data.List.Nodup

/-!
# The round trip of a value

What comes back from `decode` for the bytes of `encode`. The library's reader inverts its writer, so
the trip is `from_nlohmann_json` after `to_nlohmann_json`, with the changes of type that the wire
makes. `Value.norm` says what these are, and `Value.Same` when two values are equal: a map has no
order, and a NaN has no payload. The layout of an `ndarray_t` inverts as long as its rank and its
dimensions fit their four bytes (`trip_ndarray`), and otherwise does not (`smallNode_of_trip`). A
tree goes by induction (`received_of_small`, `small_of_same`), which also gives that a received
value is one that a second trip leaves alone.
-/

namespace Ailoy

namespace Value

/-! ## Trees -/

/-- What holds of a tree when it holds of its leaves, and of an array or a map when it holds of the
elements. -/
@[elab_as_elim]
theorem inductionOn {P : Value → Prop} (v : Value) (null : P .null) (bool : ∀ b, P (.bool b))
    (uint : ∀ n, P (.uint n)) (int : ∀ n, P (.int n)) (float : ∀ bits, P (.float bits))
    (double : ∀ bits, P (.double bits)) (string : ∀ s, P (.string s)) (bytes : ∀ bs, P (.bytes bs))
    (array : ∀ vs, (∀ v ∈ vs, P v) → P (.array vs))
    (map : ∀ kvs : List (String × Value), (∀ kv ∈ kvs, P kv.2) → P (.map kvs))
    (ndarray : ∀ shape dtype data, P (.ndarray shape dtype data)) : P v :=
  @Value.rec P (fun vs => ∀ v ∈ vs, P v) (fun kvs => ∀ kv ∈ kvs, P kv.2) (fun kv => P kv.2)
    null bool uint int float double string bytes array map ndarray
    (fun _ h => absurd h (by simp)) (fun _ _ hv hvs => List.forall_mem_cons.mpr ⟨hv, hvs⟩)
    (fun _ h => absurd h (by simp)) (fun _ _ hkv hkvs => List.forall_mem_cons.mpr ⟨hkv, hkvs⟩)
    (fun _ _ h => h) v

mutual

/-- A value with the types that the wire gives it: a non-negative integer is unsigned, and a `float`
is a `double`. -/
def norm : Value → Value
  | .int n => if 0 ≤ n then .uint n.toUInt64 else .int n
  | .float bits => .double (floatToDouble bits)
  | .array vs => .array (normArray vs)
  | .map kvs => .map (normEntries kvs)
  | .null => .null
  | .bool v => .bool v
  | .uint v => .uint v
  | .double bits => .double bits
  | .string v => .string v
  | .bytes v => .bytes v
  | .ndarray shape dtype data => .ndarray shape dtype data

/-- The elements of an array with the types that the wire gives them. -/
def normArray : List Value → List Value
  | [] => []
  | v :: vs => v.norm :: normArray vs

/-- The entries of a map with the types that the wire gives them. -/
def normEntries : List (String × Value) → List (String × Value)
  | [] => []
  | (key, v) :: kvs => (key, v.norm) :: normEntries kvs

end

theorem normArray_eq (vs : List Value) : normArray vs = vs.map norm := by
  induction vs with
  | nil => rfl
  | cons v vs ih => rw [normArray, ih, List.map_cons]

theorem normEntries_eq (kvs : List (String × Value)) :
    normEntries kvs = kvs.map fun kv => (kv.1, kv.2.norm) := by
  induction kvs with
  | nil => rfl
  | cons kv kvs ih => rw [normEntries, ih, List.map_cons]

/-- Two values are equal: they have the same types and the same contents, a map the same keys with
the same values, and any NaN is a NaN. -/
inductive Same : Value → Value → Prop
  | refl (v : Value) : Same v v
  | float {a b : UInt32} : BinaryFloat.binary32.isNan a.toNat = true →
      BinaryFloat.binary32.isNan b.toNat = true → Same (.float a) (.float b)
  | double {a b : UInt64} : BinaryFloat.binary64.isNan a.toNat = true →
      BinaryFloat.binary64.isNan b.toNat = true → Same (.double a) (.double b)
  | array {vs ws : List Value} : List.Forall₂ Same vs ws → Same (.array vs) (.array ws)
  | map {kvs kws : List (String × Value)} :
      (∀ key, key ∈ kvs.map Prod.fst ↔ key ∈ kws.map Prod.fst) →
      (∀ key v w, (key, v) ∈ kvs → (key, w) ∈ kws → Same v w) → Same (.map kvs) (.map kws)

/-- What is equal to an array is an array of equal elements. -/
theorem Same.array_right {w : Value} {us : List Value} (h : w.Same (.array us)) :
    ∃ ws, w = .array ws ∧ List.Forall₂ Same ws us := by
  cases h with
  | refl => exact ⟨us, rfl, List.forall₂_same.mpr fun u _ => .refl u⟩
  | array h => exact ⟨_, rfl, h⟩

/-- What is equal to a map is a map with the same keys and equal values. -/
theorem Same.map_right {w : Value} {kus : List (String × Value)} (hkeys : (kus.map Prod.fst).Nodup)
    (h : w.Same (.map kus)) : ∃ kws, w = .map kws ∧
      (∀ key, key ∈ kws.map Prod.fst ↔ key ∈ kus.map Prod.fst) ∧
      ∀ key v u, (key, v) ∈ kws → (key, u) ∈ kus → Same v u := by
  cases h with
  | refl =>
    refine ⟨kus, rfl, fun key => Iff.rfl, fun key v u hv hu => ?_⟩
    rw [(Prod.mk.inj (List.inj_on_of_nodup_map hkeys hv hu rfl)).2]
    exact .refl u
  | map hsame hvalues => exact ⟨_, rfl, hsame, hvalues⟩

/-- The value `u` is an element of an array or of a map. -/
def Child (u : Value) : Value → Prop
  | .array vs => u ∈ vs
  | .map kvs => u ∈ kvs.map Prod.snd
  | .null | .bool _ | .uint _ | .int _ | .float _ | .double _ | .string _ | .bytes _
  | .ndarray _ _ _ => False

/-- The property `P` holds of a value, of its elements, of their elements, and so on. -/
inductive Everywhere (P : Value → Prop) : Value → Prop
  | intro {v : Value} : P v → (∀ u, u.Child v → Everywhere P u) → Everywhere P v

theorem Everywhere.here {P : Value → Prop} {v : Value} (h : Everywhere P v) : P v := by
  cases h with
  | intro hv _ => exact hv

theorem Everywhere.child {P : Value → Prop} {u v : Value} (h : Everywhere P v) (hu : u.Child v) :
    Everywhere P u := by
  cases h with
  | intro _ hchildren => exact hchildren u hu

/-- What the types of the source give: the keys of an `unordered_map` are distinct, and a vector of
bytes has less than `2^63` of them. -/
def ValidNode : Value → Prop
  | .map kvs => (kvs.map Prod.fst).Nodup
  | .ndarray _ _ data => data.length < 2 ^ 63
  | _ => True

/-- A value as the source can have one. -/
def Valid : Value → Prop := Everywhere ValidNode

/-- The rank and the dimensions of an `ndarray_t` fit four bytes. -/
def SmallNode : Value → Prop
  | .ndarray shape _ _ => shape.length < 2 ^ 32 ∧ ∀ dim ∈ shape, dim.toNat < 2 ^ 32
  | _ => True

/-- The rank and the dimensions of every `ndarray_t` in a value fit four bytes. -/
def Small : Value → Prop := Everywhere SmallNode

/-! ## Numbers -/

/-- The `double` of a `float` stands for the same number. -/
theorem datum_floatToDouble (bits : UInt32) :
    BinaryFloat.binary64.datum (floatToDouble bits).toNat =
      BinaryFloat.binary32.datum bits.toNat := by
  have hlt := BinaryFloat.widen_lt bits.toNat
  unfold floatToDouble
  rw [UInt64.toNat_ofNat_of_lt' hlt, BinaryFloat.datum_widen]

/-- The unsigned integer of a non-negative one is the same number. -/
theorem toNat_toUInt64 {n : Int64} (h : 0 ≤ n) : ((n.toUInt64.toNat : ℕ) : Int) = n.toInt := by
  have hpos : 0 ≤ n.toInt := Int64.le_iff_toInt_le.mp h
  have hint := toInt_eq_toNat_toUInt64 n
  have hlt : n.toUInt64.toNat < 2 ^ 64 := n.toUInt64.toNat_lt
  split_ifs at hint <;> omega

/-- A double that has been read back is the same number. -/
theorem same_readBackFloat (bits : UInt64) : Same (.double (readBackFloat bits)) (.double bits) := by
  unfold readBackFloat
  split_ifs with h
  · exact .double (by decide) h
  · exact .refl _

/-! ## The trip and its steps -/

/-- What is decoded for a value, when the library inverts its writer. -/
def trip (v : Value) : Except Fault Value := fromNlohmannJson v.toNlohmannJson.readBack

/-- The elements of an array are decoded one by one. -/
theorem fromNlohmannArray_eq_ok_iff {js : List Json} {ws : List Value} :
    fromNlohmannArray js = .ok ws ↔ List.Forall₂ (fun j w => fromNlohmannJson j = .ok w) js ws := by
  induction js generalizing ws with
  | nil =>
    rw [List.forall₂_nil_left_iff]
    exact ⟨fun h => (Except.ok.inj h).symm, fun h => h ▸ rfl⟩
  | cons j js ih =>
    rw [fromNlohmannArray, Except.bind_eq_ok_iff, List.forall₂_cons_left_iff]
    constructor
    · rintro ⟨w, hw, hrest⟩
      obtain ⟨ws', hws', heq⟩ := Except.bind_eq_ok_iff.mp hrest
      exact ⟨w, ws', hw, ih.mp hws', (Except.ok.inj heq).symm⟩
    · rintro ⟨w, ws', hw, hws', rfl⟩
      exact ⟨w, hw, Except.bind_eq_ok_iff.mpr ⟨ws', ih.mpr hws', rfl⟩⟩

/-- The entries of an object are decoded one by one, each under its key. -/
theorem fromNlohmannObject_eq_ok_iff {kjs : List (String × Json)} {kws : List (String × Value)} :
    fromNlohmannObject kjs = .ok kws ↔ List.Forall₂
      (fun kj kw => kw.1 = kj.1 ∧ fromNlohmannJson kj.2 = .ok kw.2) kjs kws := by
  induction kjs generalizing kws with
  | nil =>
    rw [List.forall₂_nil_left_iff]
    exact ⟨fun h => (Except.ok.inj h).symm, fun h => h ▸ rfl⟩
  | cons kj kjs ih =>
    rw [fromNlohmannObject, Except.bind_eq_ok_iff, List.forall₂_cons_left_iff]
    constructor
    · rintro ⟨w, hw, hrest⟩
      obtain ⟨kws', hkws', heq⟩ := Except.bind_eq_ok_iff.mp hrest
      exact ⟨(kj.1, w), kws', ⟨rfl, hw⟩, ih.mp hkws', (Except.ok.inj heq).symm⟩
    · rintro ⟨⟨key, w⟩, kws', ⟨rfl, hw⟩, hkws', rfl⟩
      exact ⟨w, hw, Except.bind_eq_ok_iff.mpr ⟨kws', ih.mpr hkws', rfl⟩⟩

/-- The trip of an array is that of its elements. -/
theorem trip_array_iff {vs : List Value} {w : Value} : trip (.array vs) = .ok w ↔
    ∃ ws, w = .array ws ∧ List.Forall₂ (fun v w => v.trip = .ok w) vs ws := by
  have htrip : trip (.array vs) =
      (fromNlohmannArray (vs.map fun v => v.toNlohmannJson.readBack)).map .array := by
    rw [trip, toNlohmannJson, Json.readBack, fromNlohmannJson, toNlohmannArray_eq,
      Json.readBackArray_eq, List.map_map]
    rfl
  rw [htrip, Except.map_eq_ok_iff]
  constructor
  · rintro ⟨ws, hws, rfl⟩
    exact ⟨ws, rfl, List.forall₂_map_left_iff.mp (fromNlohmannArray_eq_ok_iff.mp hws)⟩
  · rintro ⟨ws, rfl, hall⟩
    exact ⟨ws, fromNlohmannArray_eq_ok_iff.mpr (List.forall₂_map_left_iff.mpr hall), rfl⟩

/-- The trip of a map is that of its entries, which come in the order of their keys. -/
theorem trip_map_iff {kvs : List (String × Value)} {w : Value} : trip (.map kvs) = .ok w ↔
    ∃ kws, w = .map kws ∧ List.Forall₂ (fun kv kw => kw.1 = kv.1 ∧ kv.2.trip = .ok kw.2)
      (OrderedMap.ofEntries kvs) kws := by
  have htrip : trip (.map kvs) = (fromNlohmannObject ((OrderedMap.ofEntries kvs).map fun kv =>
      (kv.1, kv.2.toNlohmannJson.readBack))).map .map := by
    rw [trip, toNlohmannJson, Json.readBack, fromNlohmannJson, toNlohmannEntries_eq,
      Json.readBackEntries_eq, ← OrderedMap.map_ofEntries, List.map_map]
    rfl
  rw [htrip, Except.map_eq_ok_iff]
  constructor
  · rintro ⟨kws, hkws, rfl⟩
    have hall := fromNlohmannObject_eq_ok_iff.mp hkws
    rw [List.forall₂_map_left_iff] at hall
    exact ⟨kws, rfl, hall⟩
  · rintro ⟨kws, rfl, hall⟩
    refine ⟨kws, fromNlohmannObject_eq_ok_iff.mpr ?_, rfl⟩
    rw [List.forall₂_map_left_iff]
    exact hall

/-! ## The layout of an `ndarray_t` -/

/-- The dimensions are read back behind their bytes. -/
theorem readShape_flatMap {shape : List UInt64} (h : ∀ v ∈ shape, v.toNat < 2 ^ 32)
    (rest : List UInt8) :
    readShape shape.length (shape.flatMap (fun v => leBytes 4 v.toNat) ++ rest) =
      .ok (shape, rest) := by
  induction shape with
  | nil => rfl
  | cons v shape ih =>
    obtain ⟨hv, hshape⟩ := List.forall_mem_cons.mp h
    rw [List.length_cons, List.flatMap_cons, List.append_assoc]
    unfold readShape
    refine Except.bind_eq_ok_iff.mpr ⟨_, readUint_leBytes (by omega) _, ?_⟩
    refine Except.bind_eq_ok_iff.mpr ⟨_, ih hshape, ?_⟩
    rw [UInt64.ofNat_toNat]
    rfl

/-- The layout of an `ndarray_t` whose data has `len` bytes, with `rest` behind the size of the
data. -/
def ndarrayLayout (shape : List UInt64) (dtype : DLDataType) (len : ℕ) (rest : List UInt8) :
    List UInt8 :=
  leBytes 4 shape.length ++ (shape.flatMap (fun v => leBytes 4 v.toNat) ++
    (leBytes 1 dtype.code.toNat ++ (leBytes 1 dtype.bits.toNat ++
      (leBytes 2 dtype.lanes.toNat ++ (leBytes 8 len ++ rest)))))

/-- The trip of an `ndarray_t` reads its layout. -/
theorem trip_ndarray_eq (shape : List UInt64) (dtype : DLDataType) (data : List UInt8) :
    trip (.ndarray shape dtype data) =
      ndarrayFromNlohmannJson (ndarrayLayout shape dtype data.length data) := rfl

/-- What is done behind the size of the data. -/
theorem ndarrayFromNlohmannJson_layout {shape : List UInt64} (hrank : shape.length < 2 ^ 32)
    (hshape : ∀ v ∈ shape, v.toNat < 2 ^ 32) (dtype : DLDataType) {len : ℕ} (hlen : len < 2 ^ 64)
    (rest : List UInt8) :
    ndarrayFromNlohmannJson (ndarrayLayout shape dtype len rest) =
      resizeBytes len >>= fun _ => readBytes len rest >>= fun p =>
        .ok (.ndarray shape dtype p.1) := by
  have hcode := dtype.code.toNat_lt
  have hbits := dtype.bits.toNat_lt
  have hlanes := dtype.lanes.toNat_lt
  unfold ndarrayFromNlohmannJson ndarrayLayout
  rw [readUint_leBytes (by omega), Except.ok_bind]
  dsimp only
  rw [readShape_flatMap hshape, Except.ok_bind]
  dsimp only
  rw [readUint_leBytes (by omega), Except.ok_bind]
  dsimp only
  rw [readUint_leBytes (by omega), Except.ok_bind]
  dsimp only
  rw [readUint_leBytes (by omega), Except.ok_bind]
  dsimp only
  rw [readUint_leBytes (by omega), Except.ok_bind]
  dsimp only
  rw [UInt8.ofNat_toNat, UInt8.ofNat_toNat, UInt16.ofNat_toNat]
  rfl

/-- An `ndarray_t` comes back from its layout. -/
theorem trip_ndarray {shape : List UInt64} {dtype : DLDataType} {data : List UInt8}
    (hrank : shape.length < 2 ^ 32) (hshape : ∀ v ∈ shape, v.toNat < 2 ^ 32)
    (hdata : data.length < 2 ^ 63) :
    trip (.ndarray shape dtype data) = .ok (.ndarray shape dtype data) := by
  have hend : readBytes data.length data = .ok (data, []) := by
    have hall := readBytes_append data []
    rwa [List.append_nil] at hall
  have hresize : resizeBytes data.length = .ok () := if_neg (by omega)
  rw [trip_ndarray_eq, ndarrayFromNlohmannJson_layout hrank hshape dtype (by omega), hresize,
    Except.ok_bind, hend, Except.ok_bind]

/-- The dimensions that are read are as many as asked for, and each fits four bytes. -/
theorem readShape_small {n : ℕ} {it rest : List UInt8} {dims : List UInt64}
    (h : readShape n it = .ok (dims, rest)) :
    dims.length = n ∧ ∀ dim ∈ dims, dim.toNat < 2 ^ 32 := by
  induction n generalizing it rest dims with
  | zero =>
    obtain ⟨rfl, -⟩ := Prod.mk.inj (Except.ok.inj h)
    simp
  | succ n ih =>
    obtain ⟨⟨k, it₁⟩, hk, hrest⟩ := Except.bind_eq_ok_iff.mp h
    obtain ⟨⟨dims', it₂⟩, hdims, heq⟩ := Except.bind_eq_ok_iff.mp hrest
    obtain ⟨rfl, -⟩ := Prod.mk.inj (Except.ok.inj heq)
    obtain ⟨hlen, hall⟩ := ih hdims
    obtain ⟨bytes, hbytes, -, rfl⟩ := readUint_eq_ok_iff.mp hk
    have hlt := leNat_lt bytes
    rw [hbytes] at hlt
    refine ⟨by rw [List.length_cons, hlen], List.forall_mem_cons.mpr ⟨?_, hall⟩⟩
    calc (UInt64.ofNat (leNat bytes)).toNat ≤ leNat bytes := by
          rw [UInt64.toNat_ofNat']
          exact Nat.mod_le _ _
      _ < 2 ^ 32 := by omega

/-- An `ndarray_t` that comes back has a small shape, since every shape that is read is small. -/
theorem smallNode_of_trip {shape : List UInt64} {dtype : DLDataType} {data : List UInt8}
    (h : trip (.ndarray shape dtype data) = .ok (.ndarray shape dtype data)) :
    SmallNode (.ndarray shape dtype data) := by
  rw [trip_ndarray_eq] at h
  obtain ⟨⟨rank, it⟩, hrank, h⟩ := Except.bind_eq_ok_iff.mp h
  obtain ⟨⟨dims, it₁⟩, hdims, h⟩ := Except.bind_eq_ok_iff.mp h
  obtain ⟨⟨code, it₂⟩, -, h⟩ := Except.bind_eq_ok_iff.mp h
  obtain ⟨⟨bits, it₃⟩, -, h⟩ := Except.bind_eq_ok_iff.mp h
  obtain ⟨⟨lanes, it₄⟩, -, h⟩ := Except.bind_eq_ok_iff.mp h
  obtain ⟨⟨len, it₅⟩, -, h⟩ := Except.bind_eq_ok_iff.mp h
  obtain ⟨_, -, h⟩ := Except.bind_eq_ok_iff.mp h
  obtain ⟨⟨data', it₆⟩, -, h⟩ := Except.bind_eq_ok_iff.mp h
  have hshape : dims = shape := (Value.ndarray.inj (Except.ok.inj h)).1
  obtain ⟨hlen, hsmall⟩ := readShape_small hdims
  obtain ⟨bytes, hbytes, -, hval⟩ := readUint_eq_ok_iff.mp hrank
  have hlt := leNat_lt bytes
  rw [hbytes] at hlt
  rw [← hshape]
  refine ⟨?_, hsmall⟩
  omega

/-! ## The trip of a tree -/

/-- What a received value has to do with the one that was sent. -/
structure Received (v w : Value) : Prop where
  /-- It is the normalised one. -/
  same : w.Same v.norm
  /-- It can be sent in its turn. -/
  valid : w.Valid
  small : w.Small
  /-- It is normalised itself. -/
  normal : w.norm = w

/-- A value without elements is valid or small if it is so itself. -/
theorem everywhere_leaf {P : Value → Prop} {v : Value} (h : P v) (hleaf : ∀ u : Value, ¬ u.Child v) :
    Everywhere P v := .intro h fun u hu => absurd hu (hleaf u)

/-- A value without elements that comes back as it was. -/
theorem received_self {v : Value} (hv : ValidNode v) (hs : SmallNode v)
    (hleaf : ∀ u : Value, ¬ u.Child v) (hnorm : v.norm = v) : Received v v := by
  refine ⟨?_, everywhere_leaf hv hleaf, everywhere_leaf hs hleaf, hnorm⟩
  rw [hnorm]
  exact .refl v

/-- The elements of two related lists. -/
theorem forall₂_mem_left {α β : Type*} {R : α → β → Prop} {l : List α} {l' : List β}
    (h : List.Forall₂ R l l') {a : α} (ha : a ∈ l) : ∃ b ∈ l', R a b := by
  induction h with
  | nil => cases ha
  | cons hab _ ih =>
    rcases List.mem_cons.mp ha with rfl | ha
    · exact ⟨_, List.mem_cons_self .., hab⟩
    · obtain ⟨b, hb, hR⟩ := ih ha
      exact ⟨b, List.mem_cons_of_mem _ hb, hR⟩

theorem forall₂_mem_right {α β : Type*} {R : α → β → Prop} {l : List α} {l' : List β}
    (h : List.Forall₂ R l l') {b : β} (hb : b ∈ l') : ∃ a ∈ l, R a b :=
  forall₂_mem_left (R := flip R) h.flip hb

/-- A list of which every element is related to something is related to a list. -/
theorem exists_forall₂ {α β : Type*} {R : α → β → Prop} {l : List α} (h : ∀ a ∈ l, ∃ b, R a b) :
    ∃ l', List.Forall₂ R l l' := by
  induction l with
  | nil => exact ⟨[], .nil⟩
  | cons a l ih =>
    obtain ⟨⟨b, hb⟩, hl⟩ := List.forall_mem_cons.mp h
    obtain ⟨l', hl'⟩ := ih hl
    exact ⟨b :: l', .cons hb hl'⟩

/-- The trip of an array whose elements are all received. -/
theorem received_array {vs : List Value} (h : ∀ v ∈ vs, ∃ w, v.trip = .ok w ∧ Received v w) :
    ∃ w, trip (.array vs) = .ok w ∧ Received (.array vs) w := by
  obtain ⟨ws, hall⟩ := exists_forall₂ h
  have hrec : ∀ w ∈ ws, ∃ v ∈ vs, v.trip = .ok w ∧ Received v w := fun w hw =>
    forall₂_mem_right hall hw
  have htrip : List.Forall₂ (fun v w => v.trip = .ok w) vs ws := hall.imp fun _ _ h => h.1
  refine ⟨.array ws, trip_array_iff.mpr ⟨ws, rfl, htrip⟩, ?_, ?_, ?_, ?_⟩
  · rw [norm, normArray_eq]
    refine .array (List.forall₂_map_right_iff.mpr ?_)
    exact (hall.imp (S := flip fun w v => Same w v.norm) fun _ _ h => h.2.same).flip
  · refine .intro trivial fun u hu => ?_
    obtain ⟨v, -, -, hv⟩ := hrec u hu
    exact hv.valid
  · refine .intro trivial fun u hu => ?_
    obtain ⟨v, -, -, hv⟩ := hrec u hu
    exact hv.small
  · have hnormal : ∀ w ∈ ws, w.norm = w := by
      intro w hw
      obtain ⟨v, -, -, hv⟩ := hrec w hw
      exact hv.normal
    rw [norm, normArray_eq, List.map_congr_left hnormal, List.map_id']

/-- Under one key, a map with distinct keys has one value. -/
theorem eq_of_mem_entries {kvs : List (String × Value)} (h : (kvs.map Prod.fst).Nodup)
    {key : String} {v v' : Value} (hv : (key, v) ∈ kvs) (hv' : (key, v') ∈ kvs) : v = v' :=
  (Prod.mk.inj (List.inj_on_of_nodup_map h hv hv' rfl)).2

theorem mem_normEntries {kvs : List (String × Value)} {key : String} {u : Value} :
    (key, u) ∈ normEntries kvs ↔ ∃ v, (key, v) ∈ kvs ∧ v.norm = u := by
  rw [normEntries_eq, List.mem_map]
  constructor
  · rintro ⟨⟨key', v⟩, hmem, heq⟩
    obtain ⟨rfl, rfl⟩ := Prod.mk.inj heq
    exact ⟨v, hmem, rfl⟩
  · rintro ⟨v, hmem, rfl⟩
    exact ⟨(key, v), hmem, rfl⟩

theorem keys_normEntries (kvs : List (String × Value)) :
    (normEntries kvs).map Prod.fst = kvs.map Prod.fst := by
  rw [normEntries_eq, List.map_map]
  rfl

/-- The trip of a map whose values are all received: the object holds the same entries, in the order
of their keys. -/
theorem received_map {kvs : List (String × Value)} (hkeys : (kvs.map Prod.fst).Nodup)
    (h : ∀ kv ∈ kvs, ∃ w, kv.2.trip = .ok w ∧ Received kv.2 w) :
    ∃ w, trip (.map kvs) = .ok w ∧ Received (.map kvs) w := by
  have hperm : (OrderedMap.ofEntries kvs).Perm kvs := OrderedMap.ofEntries_perm hkeys
  have hentry : ∀ kv ∈ OrderedMap.ofEntries kvs, ∃ kw : String × Value, kw.1 = kv.1 ∧
      kv.2.trip = .ok kw.2 ∧ Received kv.2 kw.2 := by
    intro kv hmem
    obtain ⟨w, hw, hrec⟩ := h kv (hperm.mem_iff.mp hmem)
    exact ⟨(kv.1, w), rfl, hw, hrec⟩
  obtain ⟨kws, hall⟩ := exists_forall₂ hentry
  have hrec : ∀ key w, (key, w) ∈ kws → ∃ v, (key, v) ∈ kvs ∧ Received v w := by
    intro key w hw
    obtain ⟨⟨key', v⟩, hmem, rfl, -, hv⟩ := forall₂_mem_right hall hw
    exact ⟨v, hperm.mem_iff.mp hmem, hv⟩
  have hfst : kws.map Prod.fst = (OrderedMap.ofEntries kvs).map Prod.fst := by
    rw [← List.forall₂_eq_eq_eq, List.forall₂_map_left_iff, List.forall₂_map_right_iff]
    exact (hall.imp (S := flip fun kw kv : String × Value => kw.1 = kv.1) fun _ _ h => h.1).flip
  have hchild : ∀ u : Value, u.Child (.map kws) → ∃ v, Received v u := by
    intro u hu
    obtain ⟨⟨key, w⟩, hmem, rfl⟩ := List.mem_map.mp hu
    obtain ⟨v, -, hv⟩ := hrec key w hmem
    exact ⟨v, hv⟩
  have htrip : List.Forall₂ (fun kv kw => kw.1 = kv.1 ∧ kv.2.trip = .ok kw.2)
      (OrderedMap.ofEntries kvs) kws := hall.imp fun _ _ h => ⟨h.1, h.2.1⟩
  refine ⟨.map kws, trip_map_iff.mpr ⟨kws, rfl, htrip⟩, ?_, ?_, ?_, ?_⟩
  · rw [norm]
    refine .map (fun key => ?_) fun key w u hw hu => ?_
    · rw [hfst, keys_normEntries]
      exact (hperm.map Prod.fst).mem_iff
    · obtain ⟨v, hv, hvw⟩ := hrec key w hw
      obtain ⟨v', hv', rfl⟩ := mem_normEntries.mp hu
      rw [eq_of_mem_entries hkeys hv' hv]
      exact hvw.same
  · refine .intro ?_ fun u hu => (hchild u hu).elim fun _ hv => hv.valid
    show (kws.map Prod.fst).Nodup
    rw [hfst]
    exact (hperm.map Prod.fst).nodup_iff.mpr hkeys
  · exact .intro trivial fun u hu => (hchild u hu).elim fun _ hv => hv.small
  · have hnormal : ∀ kw ∈ kws, (kw.1, kw.2.norm) = kw := by
      intro kw hmem
      obtain ⟨v, -, hv⟩ := hrec kw.1 kw.2 hmem
      rw [hv.normal]
    rw [norm, normEntries_eq, List.map_congr_left hnormal, List.map_id']

/-- Every small value is received. -/
theorem received_of_small (v : Value) (hv : v.Valid) (hs : v.Small) :
    ∃ w, v.trip = .ok w ∧ Received v w := by
  induction v using inductionOn with
  | null => exact ⟨_, rfl, received_self trivial trivial (fun _ => id) rfl⟩
  | bool b => exact ⟨_, rfl, received_self trivial trivial (fun _ => id) rfl⟩
  | uint n => exact ⟨_, rfl, received_self trivial trivial (fun _ => id) rfl⟩
  | string s => exact ⟨_, rfl, received_self trivial trivial (fun _ => id) rfl⟩
  | bytes bs => exact ⟨_, rfl, received_self trivial trivial (fun _ => id) rfl⟩
  | ndarray shape dtype data =>
    obtain ⟨hrank, hshape⟩ := hs.here
    exact ⟨_, trip_ndarray hrank hshape hv.here, received_self hv.here hs.here (fun _ => id) rfl⟩
  | int n =>
    have hint : norm (.int n) = if 0 ≤ n then .uint n.toUInt64 else .int n := rfl
    by_cases hn : 0 ≤ n
    · refine ⟨.uint n.toUInt64, ?_, ?_, ?_, ?_, rfl⟩
      · simp [trip, toNlohmannJson, Json.readBack, hn, fromNlohmannJson]
      · rw [hint, if_pos hn]
        exact .refl _
      · exact everywhere_leaf trivial fun _ => id
      · exact everywhere_leaf trivial fun _ => id
    · rw [if_neg hn] at hint
      refine ⟨.int n, ?_, received_self trivial trivial (fun _ => id) hint⟩
      simp [trip, toNlohmannJson, Json.readBack, hn, fromNlohmannJson]
  | float bits =>
    exact ⟨_, rfl, same_readBackFloat (floatToDouble bits), everywhere_leaf trivial fun _ => id,
      everywhere_leaf trivial fun _ => id, rfl⟩
  | double bits =>
    exact ⟨_, rfl, same_readBackFloat bits, everywhere_leaf trivial fun _ => id,
      everywhere_leaf trivial fun _ => id, rfl⟩
  | array vs ih =>
    exact received_array fun v hmem => ih v hmem (hv.child hmem) (hs.child hmem)
  | map kvs ih =>
    refine received_map hv.here fun kv hmem => ?_
    have hchild : kv.2.Child (.map kvs) := List.mem_map_of_mem hmem
    exact ih kv hmem (hv.child hchild) (hs.child hchild)

/-- A value that comes back as it should is small. -/
theorem small_of_same {v w : Value} (hv : v.Valid) (htrip : v.trip = .ok w)
    (hsame : w.Same v.norm) : v.Small := by
  induction v using inductionOn generalizing w with
  | ndarray shape dtype data =>
    have hw : w = .ndarray shape dtype data := by
      cases hsame
      rfl
    rw [hw] at htrip
    exact everywhere_leaf (smallNode_of_trip htrip) fun _ => id
  | array vs ih =>
    obtain ⟨ws, rfl, hall⟩ := trip_array_iff.mp htrip
    rw [norm, normArray_eq] at hsame
    obtain ⟨us, hus, hsames⟩ := hsame.array_right
    obtain rfl := Value.array.inj hus
    rw [List.forall₂_map_right_iff] at hsames
    have hpair : List.Forall₂ (fun v w => v.trip = .ok w ∧ Same w v.norm) vs ws :=
      .mp (fun _ _ h h' => ⟨h, h'⟩) hall (.flip hsames)
    refine .intro trivial fun u hu => ?_
    obtain ⟨w, -, hw, hs⟩ := forall₂_mem_left hpair hu
    exact ih u hu (hv.child hu) hw hs
  | map kvs ih =>
    obtain ⟨kws, rfl, hall⟩ := trip_map_iff.mp htrip
    have hkeys : (kvs.map Prod.fst).Nodup := hv.here
    have hperm : (OrderedMap.ofEntries kvs).Perm kvs := OrderedMap.ofEntries_perm hkeys
    rw [norm] at hsame
    obtain ⟨kus, hkus, -, hvalues⟩ := hsame.map_right (by rw [keys_normEntries]; exact hkeys)
    obtain rfl := Value.map.inj hkus
    refine .intro trivial fun u hu => ?_
    obtain ⟨⟨key, v⟩, hmem, rfl⟩ := List.mem_map.mp hu
    obtain ⟨⟨key', w⟩, hw, rfl, htripv⟩ := forall₂_mem_left hall (hperm.mem_iff.mpr hmem)
    exact ih _ hmem (hv.child hu) htripv
      (hvalues _ w _ hw (mem_normEntries.mpr ⟨v, hmem, rfl⟩))
  | _ => exact everywhere_leaf trivial fun _ => id

/-- Normalising twice is normalising once. -/
theorem norm_norm (v : Value) : v.norm.norm = v.norm := by
  induction v using inductionOn with
  | int n =>
    have hint : norm (.int n) = if 0 ≤ n then .uint n.toUInt64 else .int n := rfl
    by_cases hn : 0 ≤ n
    · rw [hint, if_pos hn]
      rfl
    · rw [hint, if_neg hn, hint, if_neg hn]
  | array vs ih =>
    rw [norm, norm, normArray_eq, normArray_eq, List.map_map]
    exact congrArg Value.array (List.map_congr_left ih)
  | map kvs ih =>
    rw [norm, norm, normEntries_eq, normEntries_eq, List.map_map]
    refine congrArg Value.map (List.map_congr_left fun kv hmem => ?_)
    show (kv.1, kv.2.norm.norm) = (kv.1, kv.2.norm)
    rw [ih kv hmem]
  | _ => rfl

/-- With a library that inverts its writer, `decode` after `encode` is the trip. -/
theorem decode_eq_trip {toCbor : Json → List UInt8} {fromCbor : List UInt8 → Except Fault Json}
    {v : Value} (h : Json.Inverts toCbor fromCbor v.toNlohmannJson) :
    decode fromCbor (v.encode toCbor) = v.trip := by
  unfold decode encode
  rw [h, Except.ok_bind]
  rfl

/-- `decode` gives back a value that `encode` has written, up to `norm`, and a second trip gives
back the same value; `norm` is idempotent and changes no number. -/
theorem decode_encode (toCbor : Json → List UInt8) (fromCbor : List UInt8 → Except Fault Json)
    (v : Value) (hv : v.Valid) (hs : v.Small)
    (hcbor : Json.Inverts toCbor fromCbor v.toNlohmannJson) :
    (∃ w, decode fromCbor (v.encode toCbor) = .ok w ∧ w.Same v.norm ∧
      (Json.Inverts toCbor fromCbor w.toNlohmannJson →
        ∃ w', decode fromCbor (w.encode toCbor) = .ok w' ∧ w'.Same w)) ∧
    v.norm.norm = v.norm ∧
    (∀ n : Int64, 0 ≤ n → ((n.toUInt64.toNat : ℕ) : Int) = n.toInt) ∧
    ∀ bits : UInt32, BinaryFloat.binary64.datum (floatToDouble bits).toNat =
      BinaryFloat.binary32.datum bits.toNat := by
  refine ⟨?_, norm_norm v, fun n hn => toNat_toUInt64 hn, datum_floatToDouble⟩
  obtain ⟨w, hw, hrec⟩ := received_of_small v hv hs
  refine ⟨w, (decode_eq_trip hcbor).trans hw, hrec.same, fun hagain => ?_⟩
  obtain ⟨w', hw', hrec'⟩ := received_of_small w hrec.valid hrec.small
  have hsame := hrec'.same
  rw [hrec.normal] at hsame
  exact ⟨w', (decode_eq_trip hagain).trans hw', hsame⟩

/-- A map with numbers whose types the wire changes and with an `ndarray_t`. -/
def sampleValue : Value :=
  .map [("b", .array [.int 1, .float 0x3F800000]), ("a", .ndarray [2] ⟨0, 8, 1⟩ [1, 2])]

/-- The CBOR encoding of `sampleValue`. -/
def sampleBytes : List UInt8 :=
  [0xA2, 0x61, 0x61, 0xD9, 0x07, 0x09, 0x56, 1, 0, 0, 0, 2, 0, 0, 0, 0, 8, 1, 0, 2, 0, 0, 0, 0, 0,
    0, 0, 1, 2, 0x61, 0x62, 0x82, 0x01, 0xFA, 0x3F, 0x80, 0x00, 0x00]

/-- `from_cbor` on `sampleBytes`, and an error elsewhere. -/
def sampleFromCbor (bytes : List UInt8) : Except Fault Json :=
  if bytes = sampleBytes then
    .ok (.object [
      ("a", .binary [1, 0, 0, 0, 2, 0, 0, 0, 0, 8, 1, 0, 2, 0, 0, 0, 0, 0, 0, 0, 1, 2] (some 1801)),
      ("b", .array [.numberUnsigned 1, .numberFloat 0x3FF0000000000000])])
  else
    .error (.exception "parse error")

theorem decode_encode_sampleValue :
    ∃ w, decode sampleFromCbor (sampleValue.encode fun _ => sampleBytes) = .ok w ∧
      w.Same sampleValue.norm := by
  have hall : ∀ P : Value → Prop, P sampleValue → P (.array [.int 1, .float 0x3F800000]) →
      P (.int 1) → P (.float 0x3F800000) → P (.ndarray [2] ⟨0, 8, 1⟩ [1, 2]) →
      Everywhere P sampleValue := by
    intro P hmap harray hint hfloat hndarray
    refine .intro hmap fun u hu => ?_
    obtain rfl | rfl : u = .array [.int 1, .float 0x3F800000] ∨
        u = .ndarray [2] ⟨0, 8, 1⟩ [1, 2] := by simpa [Child, sampleValue] using hu
    · refine .intro harray fun u hu => ?_
      obtain rfl | rfl : u = .int 1 ∨ u = .float 0x3F800000 := by simpa [Child] using hu
      · exact everywhere_leaf hint fun _ => id
      · exact everywhere_leaf hfloat fun _ => id
    · exact everywhere_leaf hndarray fun _ => id
  have hvalid : sampleValue.Valid := hall _ (by simp [ValidNode, sampleValue]) trivial trivial
    trivial (by simp [ValidNode])
  have hsmall : sampleValue.Small := hall _ trivial trivial trivial trivial (by simp [SmallNode])
  have hcbor : Json.Inverts (fun _ => sampleBytes) sampleFromCbor sampleValue.toNlohmannJson := rfl
  obtain ⟨⟨w, hw, hsame, -⟩, -⟩ :=
    decode_encode (fun _ => sampleBytes) sampleFromCbor sampleValue hvalid hsmall hcbor
  exact ⟨w, hw, hsame⟩

end Value

end Ailoy
