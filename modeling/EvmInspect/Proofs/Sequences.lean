import EvmInspect.Abi.Encode
import EvmInspect.Abi.Word.Sign
import EvmInspect.Proofs.Types

namespace EvmInspect.Abi

theorem encodeParts_nil (values : List AbiValue) : encodeParts [] values = .ok [] := by
  cases values <;> rfl

theorem encodeParts_cons_eq_ok {t : AbiType} {types : List AbiType} {v : AbiValue}
    {values : List AbiValue} {parts : List Part} :
    encodeParts (t :: types) (v :: values) = .ok parts ↔
      ∃ bytes rest, encodeValue t v = .ok bytes ∧ encodeParts types values = .ok rest ∧
        parts = ⟨t.isDynamic, bytes⟩ :: rest := by
  rw [encodeParts]
  simp only [bind_eq_ok, Except.ok.injEq]
  constructor
  · rintro ⟨bytes, hb, rest, hr, rfl⟩
    exact ⟨bytes, rest, hb, hr, rfl⟩
  · rintro ⟨bytes, rest, hb, hr, rfl⟩
    exact ⟨bytes, hb, rest, hr, rfl⟩

/-- The items of an array are as many values of one type. -/
theorem encodeParts_replicate (element : AbiType) (items : List AbiValue) :
    (items.mapM fun item => do
      let bytes ← encodeValue element item
      (pure ⟨element.isDynamic, bytes⟩ : Except AbiError Part)) =
      encodeParts (List.replicate items.length element) items := by
  induction items with
  | nil => rfl
  | cons item items ih =>
    rw [List.mapM_cons, ih, List.length_cons, List.replicate_succ, encodeParts]
    cases encodeValue element item with
    | error e => rfl
    | ok bytes => rfl

theorem encodeValue_tuple (members : List AbiType) (items : List AbiValue) :
    encodeValue (.tuple members) (.tuple items) = encode members items := by
  rw [encodeValue]
  rfl

theorem encodeValue_array (element : AbiType) (items : List AbiValue) :
    encodeValue (.array element) (.array items) = (do
      let bytes ← encode (List.replicate items.length element) items
      .ok ((Word.ofNat items.length).bytes ++ bytes)) := by
  rw [encodeValue, encodeParts_replicate, encode, if_pos (by simp)]
  cases headLength 0 (List.replicate items.length element) with
  | error e => rfl
  | ok length =>
    cases encodeParts (List.replicate items.length element) items with
    | error e => rfl
    | ok parts => rfl

theorem encodeValue_fixedArray {element : AbiType} {count : Nat} {items : List AbiValue}
    (h : items.length = count) :
    encodeValue (.fixedArray element count) (.fixedArray items) =
      encode (List.replicate count element) items := by
  subst count
  rw [encodeValue, encodeParts_replicate, encode, if_pos rfl, if_pos (by simp)]

-- what a type writes is seen from its constructor and that of the value
attribute [local simp] encodeValue

theorem encodeValue_uint_eq_ok {bits : Nat} {v : AbiValue} {data : Bytes} :
    encodeValue (.uint bits) v = .ok data ↔
      ∃ n, v = .uint n ∧ fitsUint bits n = true ∧ (Word.ofNat n).bytes = data := by
  cases v
  case uint n => by_cases h : fitsUint bits n = true <;> simp [h]
  all_goals simp

/-- The bytes that are looked at are those of the number's range. -/
theorem encodeValue_int_eq_ok {bits : Nat} (hb : (8 ≤ bits ∧ bits ≤ 256) ∧ bits % 8 = 0)
    {v : AbiValue} {data : Bytes} :
    encodeValue (.int bits) v = .ok data ↔
      ∃ n, v = .int n ∧ fitsInt bits n = true ∧ (Word.ofInt n).bytes = data := by
  cases v
  case int n =>
    rw [encodeValue, Word.continuesSign_ofInt hb]
    by_cases h : fitsInt bits n = true <;> simp [h]
  all_goals simp

theorem encodeValue_bool_eq_ok {v : AbiValue} {data : Bytes} :
    encodeValue .bool v = .ok data ↔ ∃ b, v = .bool b ∧ (Word.ofNat b.toNat).bytes = data := by
  cases v <;> simp

theorem encodeValue_address_eq_ok {v : AbiValue} {data : Bytes} :
    encodeValue .address v = .ok data ↔
      ∃ a, v = .address a ∧ List.replicate 12 0 ++ a.bytes = data := by
  cases v <;> simp

theorem encodeValue_fixedBytes_eq_ok {size : Nat} {v : AbiValue} {data : Bytes} :
    encodeValue (.fixedBytes size) v = .ok data ↔
      ∃ bytes, v = .fixedBytes bytes ∧ bytes.length = size ∧ padWords bytes = data := by
  cases v
  case fixedBytes bytes => by_cases h : bytes.length = size <;> simp [h]
  all_goals simp

theorem encodeValue_bytes_eq_ok {v : AbiValue} {data : Bytes} :
    encodeValue .bytes v = .ok data ↔ ∃ bytes, v = .bytes bytes ∧ payload bytes = data := by
  cases v <;> simp

theorem encodeValue_string_eq_ok {v : AbiValue} {data : Bytes} :
    encodeValue .string v = .ok data ↔
      ∃ text, v = .string text ∧ payload (Text.Utf8.encode text.toList) = data := by
  cases v <;> simp

/-- Only arrays are written as arrays: their number, and the sequence of their items. -/
theorem encodeValue_array_eq_ok {element : AbiType} {v : AbiValue} {data : Bytes} :
    encodeValue (.array element) v = .ok data ↔ ∃ items bytes, v = .array items ∧
      encode (List.replicate items.length element) items = .ok bytes ∧
      (Word.ofNat items.length).bytes ++ bytes = data := by
  cases v
  case array items =>
    rw [encodeValue_array, bind_eq_ok]
    constructor
    · rintro ⟨bytes, hb, hd⟩
      exact ⟨items, bytes, rfl, hb, Except.ok.inj hd⟩
    · rintro ⟨_, bytes, hv, hb, hd⟩
      cases hv
      exact ⟨bytes, hb, congrArg Except.ok hd⟩
  all_goals simp

theorem encodeValue_fixedArray_eq_ok {element : AbiType} {count : Nat} {v : AbiValue}
    {data : Bytes} :
    encodeValue (.fixedArray element count) v = .ok data ↔ ∃ items, v = .fixedArray items ∧
      items.length = count ∧ encode (List.replicate count element) items = .ok data := by
  cases v
  case fixedArray items =>
    by_cases hc : items.length = count
    · rw [encodeValue_fixedArray hc]
      constructor
      · intro h
        exact ⟨items, rfl, hc, h⟩
      · rintro ⟨_, hv, _, h⟩
        cases hv
        exact h
    · simp [hc]
  all_goals simp

theorem encodeValue_tuple_eq_ok {members : List AbiType} {v : AbiValue} {data : Bytes} :
    encodeValue (.tuple members) v = .ok data ↔
      ∃ items, v = .tuple items ∧ encode members items = .ok data := by
  cases v
  case tuple items =>
    rw [encodeValue_tuple]
    simp
  all_goals simp

theorem encode_eq_ok {types : List AbiType} {values : List AbiValue} {data : Bytes} :
    encode types values = .ok data ↔ values.length = types.length ∧
      ∃ length parts, headLength 0 types = .ok length ∧ encodeParts types values = .ok parts ∧
        data = Part.assemble length parts := by
  unfold encode
  split
  · rename_i h
    simp only [bind_eq_ok, Except.ok.injEq, h, true_and]
    constructor
    · rintro ⟨length, hl, parts, hp, rfl⟩
      exact ⟨length, parts, hl, hp, rfl⟩
    · rintro ⟨length, parts, hl, hp, rfl⟩
      exact ⟨length, hl, parts, hp, rfl⟩
  · rename_i h
    simp [h]

/-- The items of an array are read as a sequence of one type. -/
theorem readEach_eq_decodeSequence (element : AbiType) (base : Bytes) (count head : Nat) :
    readEach element (fun head => locate element base head >>= decodeValue element base)
      count head = decodeSequence (List.replicate count element) base head := by
  induction count generalizing head with
  | zero => rfl
  | succ count ih =>
    rw [readEach, List.replicate_succ, decodeSequence]
    cases locate element base head with
    | error e => rfl
    | ok pos =>
      cases hv : decodeValue element base pos with
      | error e => simp [hv]
      | ok value => simp [hv, ih]

end EvmInspect.Abi
