import EvmInspect.Proofs.HeadSizes

namespace EvmInspect.Abi

theorem readWord_eq_ok {base : Bytes} {pos : Nat} {w : Word} :
    readWord base pos = .ok w ↔ w.bytes <+: base.drop pos := by
  rw [List.prefix_iff_eq_take, w.length_bytes, readWord]
  constructor
  · intro h
    split at h
    · cases h
      rfl
    · cases h
  · intro h
    simp only [← h, w.length_bytes, ↓reduceDIte]

theorem readSize_eq_ok {base : Bytes} {pos n : Nat} :
    readSize base pos = .ok n ↔
      ∃ w, readWord base pos = .ok w ∧ w.toNat ≤ base.length ∧ w.toNat = n := by
  simp only [readSize, bind_eq_ok, ite_eq_ok, Except.ok.injEq]

/-- A word that is read lies in the data. -/
theorem add_wordSize_le_of_readSize {base : Bytes} {pos n : Nat} (h : readSize base pos = .ok n) :
    pos + wordSize ≤ base.length := by
  obtain ⟨w, hword, _, _⟩ := readSize_eq_ok.mp h
  have hle := (readWord_eq_ok.mp hword).length_le
  rw [w.length_bytes, List.length_drop] at hle
  unfold wordSize at hle ⊢
  omega

theorem sliceFrom_eq_ok {base rest : Bytes} {pos : Nat} :
    sliceFrom base pos = .ok rest ↔ pos ≤ base.length ∧ base.drop pos = rest := by
  simp only [sliceFrom, ite_eq_ok, Except.ok.injEq]

theorem length_of_sliceFrom {base rest : Bytes} {pos : Nat} (h : sliceFrom base pos = .ok rest) :
    rest.length ≤ base.length := by
  obtain ⟨_, rfl⟩ := sliceFrom_eq_ok.mp h
  rw [List.length_drop]
  exact Nat.sub_le _ _

theorem readPayload_eq_ok {base data : Bytes} {pos : Nat} :
    readPayload base pos = .ok data ↔ ∃ length, readSize base pos = .ok length ∧
      pos + wordSize + length ≤ base.length ∧ (base.drop (pos + wordSize)).take length = data := by
  simp only [readPayload, bind_eq_ok, ite_eq_ok, Except.ok.injEq]

section
variable {base : Bytes} {pos : Nat} {v : AbiValue}

-- how a value is read is seen from the type
attribute [local simp] decodeValue bind_eq_ok ite_eq_ok

theorem decodeValue_uint_eq_ok {bits : Nat} :
    decodeValue (.uint bits) base pos = .ok v ↔
      ∃ w, readWord base pos = .ok w ∧ fitsUint bits w.toNat = true ∧ .uint w.toNat = v := by
  simp

theorem decodeValue_int_eq_ok_bytes {bits : Nat} :
    decodeValue (.int bits) base pos = .ok v ↔
      ∃ w, readWord base pos = .ok w ∧ w.continuesSign bits = true ∧ .int w.toInt = v := by
  simp

theorem decodeValue_int_eq_ok {bits : Nat} (hb : (8 ≤ bits ∧ bits ≤ 256) ∧ bits % 8 = 0) :
    decodeValue (.int bits) base pos = .ok v ↔
      ∃ w, readWord base pos = .ok w ∧ fitsInt bits w.toInt = true ∧ .int w.toInt = v := by
  simp only [decodeValue_int_eq_ok_bytes, Word.continuesSign_eq hb]

theorem decodeValue_bool_eq_ok :
    decodeValue .bool base pos = .ok v ↔
      ∃ w, readWord base pos = .ok w ∧ w.toNat ≤ 1 ∧ .bool (w.toNat == 1) = v := by
  simp

theorem decodeValue_address_eq_ok :
    decodeValue .address base pos = .ok v ↔ ∃ (w : Word) (a : Address), readWord base pos = .ok w ∧
      w.bytes = List.replicate 12 0 ++ a.bytes ∧ .address a = v := by
  simp only [decodeValue, bind_eq_ok, ite_eq_ok, Except.ok.injEq]
  constructor
  · rintro ⟨w, hw, hz, rfl⟩
    refine ⟨w, _, hw, ?_, rfl⟩
    have hzero : w.bytes.take 12 = List.replicate 12 0 := by
      apply List.eq_replicate_iff.mpr
      constructor
      · simp [w.length_bytes, wordSize]
      · simpa using hz
    rw [← hzero, List.take_append_drop]
  · rintro ⟨w, a, hw, hb, rfl⟩
    refine ⟨w, hw, ?_, ?_⟩
    · simp [hb]
    · simp only [hb, List.length_replicate, List.drop_left']

theorem decodeValue_fixedBytes_eq_ok {size : Nat} :
    decodeValue (.fixedBytes size) base pos = .ok v ↔ ∃ w, readWord base pos = .ok w ∧
      (∀ b ∈ w.bytes.drop size, b = 0) ∧ .fixedBytes (w.bytes.take size) = v := by
  simp

theorem decodeValue_bytes_eq_ok :
    decodeValue .bytes base pos = .ok v ↔
      ∃ data, readPayload base pos = .ok data ∧ .bytes data = v := by
  simp

theorem decodeValue_string_eq_ok :
    decodeValue .string base pos = .ok v ↔ ∃ data text, readPayload base pos = .ok data ∧
      Text.Utf8.decode data = .ok text ∧ .string (String.ofList text) = v := by
  simp only [decodeValue, bind_eq_ok]
  constructor
  · rintro ⟨data, hd, h⟩
    split at h
    · rename_i text ht
      exact ⟨data, text, hd, ht, Except.ok.inj h⟩
    · cases h
  · rintro ⟨data, text, hd, ht, rfl⟩
    refine ⟨data, hd, ?_⟩
    rw [ht]

theorem decodeValue_array_eq_ok {element : AbiType} :
    decodeValue (.array element) base pos = .ok v ↔ ∃ count items size values,
      readSize base pos = .ok count ∧ sliceFrom base (pos + wordSize) = .ok items ∧
      element.headSize? = some size ∧ count * size < Size.limit ∧ count * size ≤ items.length ∧
      decodeSequence (List.replicate count element) items 0 = .ok values ∧ .array values = v := by
  simp only [decodeValue, bind_eq_ok, headSize_eq_ok, readEach_eq_decodeSequence]
  constructor
  · rintro ⟨count, hc, items, hi, size, hs, h⟩
    split at h
    · cases h
    · rename_i needed hn
      obtain ⟨hlt, rfl⟩ := Size.mul?_eq_some.mp hn
      obtain ⟨hle, h⟩ := ite_eq_ok.mp h
      obtain ⟨values, hv, h⟩ := bind_eq_ok.mp h
      exact ⟨count, items, size, values, hc, hi, hs, hlt, hle, hv, Except.ok.inj h⟩
  · rintro ⟨count, items, size, values, hc, hi, hs, hlt, hle, hv, rfl⟩
    refine ⟨count, hc, items, hi, size, hs, ?_⟩
    rw [Size.mul?_eq_some.mpr ⟨hlt, rfl⟩]
    exact ite_eq_ok.mpr ⟨hle, bind_eq_ok.mpr ⟨values, hv, rfl⟩⟩

theorem decodeValue_fixedArray_eq_ok {element : AbiType} {count : Nat} :
    decodeValue (.fixedArray element count) base pos = .ok v ↔ ∃ items size values,
      sliceFrom base pos = .ok items ∧ element.headSize? = some size ∧ size ≠ 0 ∧
      size * count < Size.limit ∧ size * count ≤ items.length ∧
      decodeSequence (List.replicate count element) items 0 = .ok values ∧
      .fixedArray values = v := by
  simp only [decodeValue, bind_eq_ok, headSize_eq_ok, readEach_eq_decodeSequence]
  constructor
  · rintro ⟨items, hi, size, hs, h⟩
    split at h
    · cases h
    · rename_i needed hn
      obtain ⟨hlt, rfl⟩ := Size.mul?_eq_some.mp hn
      split at h
      · cases h
      · rename_i hne
        obtain ⟨hle, h⟩ := ite_eq_ok.mp h
        obtain ⟨values, hv, h⟩ := bind_eq_ok.mp h
        exact ⟨items, size, values, hi, hs, hne, hlt, hle, hv, Except.ok.inj h⟩
  · rintro ⟨items, size, values, hi, hs, hne, hlt, hle, hv, rfl⟩
    refine ⟨items, hi, size, hs, ?_⟩
    rw [Size.mul?_eq_some.mpr ⟨hlt, rfl⟩]
    dsimp only
    rw [if_neg hne]
    exact ite_eq_ok.mpr ⟨hle, bind_eq_ok.mpr ⟨values, hv, rfl⟩⟩

theorem decodeValue_tuple_eq_ok {members : List AbiType} :
    decodeValue (.tuple members) base pos = .ok v ↔ ∃ items values,
      sliceFrom base pos = .ok items ∧ decodeSequence members items 0 = .ok values ∧
      .tuple values = v := by
  simp only [decodeValue, bind_eq_ok, Except.ok.injEq]
  constructor
  · rintro ⟨items, hi, values, hv, h⟩
    exact ⟨items, values, hi, hv, h⟩
  · rintro ⟨items, values, hi, hv, h⟩
    exact ⟨items, hi, values, hv, h⟩

end

theorem decodeSequence_cons_eq_ok {t : AbiType} {types : List AbiType} {base : Bytes} {head : Nat}
    {values : List AbiValue} :
    decodeSequence (t :: types) base head = .ok values ↔ ∃ pos v next rest,
      locate t base head = .ok pos ∧ decodeValue t base pos = .ok v ∧
      nextHead t head = .ok next ∧ decodeSequence types base next = .ok rest ∧
      values = v :: rest := by
  rw [decodeSequence]
  simp only [bind_eq_ok, Except.ok.injEq]
  constructor
  · rintro ⟨pos, hpos, v, hv, next, hn, rest, hr, rfl⟩
    exact ⟨pos, v, next, rest, hpos, hv, hn, hr, rfl⟩
  · rintro ⟨pos, v, next, rest, hpos, hv, hn, hr, rfl⟩
    exact ⟨pos, hpos, v, hv, next, hn, rest, hr, rfl⟩

theorem length_of_decodeSequence {types : List AbiType} {base : Bytes} {head : Nat}
    {values : List AbiValue} (h : decodeSequence types base head = .ok values) :
    values.length = types.length := by
  induction types generalizing head values with
  | nil =>
    cases h
    rfl
  | cons t types ih =>
    obtain ⟨_, _, _, _, _, _, _, hr, rfl⟩ := decodeSequence_cons_eq_ok.mp h
    rw [List.length_cons, List.length_cons, ih hr]

theorem length_of_decodeItems {element : AbiType} {count : Nat} {base : Bytes} {head : Nat}
    {items : List AbiValue}
    (h : decodeSequence (List.replicate count element) base head = .ok items) :
    items.length = count := by
  rw [length_of_decodeSequence h, List.length_replicate]

/-- Each value of a sequence was read somewhere. -/
theorem decodeValue_of_decodeSequence {types : List AbiType} {base : Bytes} {head : Nat}
    {values : List AbiValue} (h : decodeSequence types base head = .ok values) :
    ∀ p ∈ types.zip values, ∃ pos, decodeValue p.1 base pos = .ok p.2 := by
  induction types generalizing head values with
  | nil =>
    intro p hp
    cases hp
  | cons t types ih =>
    obtain ⟨pos, v, _, rest, _, hv, _, hr, rfl⟩ := decodeSequence_cons_eq_ok.mp h
    intro p hp
    rw [List.zip_cons_cons] at hp
    rcases List.mem_cons.mp hp with rfl | hp
    · exact ⟨pos, hv⟩
    · exact ih hr p hp

theorem decodeValue_of_decodeItems {element : AbiType} {count : Nat} {base : Bytes} {head : Nat}
    {items : List AbiValue}
    (h : decodeSequence (List.replicate count element) base head = .ok items) {item : AbiValue}
    (hi : item ∈ items) : ∃ pos, decodeValue element base pos = .ok item := by
  obtain ⟨i, hlt, rfl⟩ := List.mem_iff_getElem.mp hi
  have hlength := length_of_decodeItems h
  have hp : (element, items[i]) ∈ (List.replicate count element).zip items := by
    apply List.mem_iff_getElem.mpr
    exact ⟨i, by simpa [hlength] using hlt, by simp⟩
  exact decodeValue_of_decodeSequence h _ hp

theorem decode_of_ne_nil {types : List AbiType} {data : Bytes} (h : types ≠ [] → data ≠ []) :
    decode types data = decodeSequence types data 0 := by
  unfold decode
  split
  · rename_i hc
    simp only [Bool.and_eq_true, List.isEmpty_iff, Bool.not_eq_true', List.isEmpty_eq_false_iff]
      at hc
    exact absurd hc.1 (h hc.2)
  · rfl

theorem decode_nil {types : List AbiType} (h : types ≠ []) :
    decode types [] = .error (.emptyData types.length) := by
  rw [decode, if_pos (by simpa using h)]

/-- Only a parameter list without types is read from no data. -/
theorem decode_eq_ok {types : List AbiType} {data : Bytes} {values : List AbiValue} :
    decode types data = .ok values ↔
      (types ≠ [] → data ≠ []) ∧ decodeSequence types data 0 = .ok values := by
  constructor
  · intro h
    have hne : types ≠ [] → data ≠ [] := by
      rintro hne rfl
      rw [decode_nil hne] at h
      cases h
    exact ⟨hne, decode_of_ne_nil hne ▸ h⟩
  · rintro ⟨hne, h⟩
    rw [decode_of_ne_nil hne, h]

end EvmInspect.Abi
