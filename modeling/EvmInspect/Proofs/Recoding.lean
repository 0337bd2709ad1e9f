import EvmInspect.Abi.Conforms
import EvmInspect.Proofs.Decoding
import EvmInspect.Proofs.Reading

namespace EvmInspect.Abi

def AbiType.Typed (t : AbiType) : Prop :=
  ∀ ⦃base : Bytes⦄ ⦃pos : Nat⦄ ⦃v : AbiValue⦄, decodeValue t base pos = .ok v → t.admits v = true

theorem admitAll_of_decodeSequence {types : List AbiType} (typed : ∀ t ∈ types, t.Typed)
    {base : Bytes} {head : Nat} {values : List AbiValue}
    (h : decodeSequence types base head = .ok values) : admitAll types values = true := by
  induction types generalizing head values with
  | nil =>
    cases h
    rfl
  | cons t types ih =>
    obtain ⟨_, v, _, rest, _, hv, _, hr, rfl⟩ := decodeSequence_cons_eq_ok.mp h
    rw [admitAll, Bool.and_eq_true]
    exact ⟨typed t List.mem_cons_self hv, ih (fun u hu => typed u (List.mem_cons_of_mem t hu)) hr⟩

theorem admits_of_decodeItems {element : AbiType} (typed : element.Typed) {count : Nat}
    {base : Bytes} {head : Nat} {items : List AbiValue}
    (h : decodeSequence (List.replicate count element) base head = .ok items) :
    (items.all fun item => element.admits item) = true := by
  rw [List.all_eq_true]
  intro item hi
  obtain ⟨pos, hitem⟩ := decodeValue_of_decodeItems h hi
  exact typed hitem

theorem typed_of_wellFormed {t : AbiType} (hw : t.WellFormed) : t.Typed := by
  induction t with
  | uint bits =>
    intro base pos v h
    obtain ⟨w, _, hf, rfl⟩ := decodeValue_uint_eq_ok.mp h
    simpa [AbiType.admits] using fitsUint_iff.mp hf
  | int bits =>
    intro base pos v h
    obtain ⟨w, _, hf, rfl⟩ := (decodeValue_int_eq_ok hw.int_bits).mp h
    simpa [AbiType.admits] using fitsInt_iff.mp hf
  | bool =>
    intro base pos v h
    obtain ⟨w, _, _, rfl⟩ := decodeValue_bool_eq_ok.mp h
    rfl
  | address =>
    intro base pos v h
    obtain ⟨w, a, _, _, rfl⟩ := decodeValue_address_eq_ok.mp h
    rfl
  | fixedBytes size =>
    intro base pos v h
    obtain ⟨w, _, _, rfl⟩ := decodeValue_fixedBytes_eq_ok.mp h
    have hb := hw.fixedBytes_size
    simp [AbiType.admits, w.length_bytes, hb.2]
  | bytes =>
    intro base pos v h
    obtain ⟨data, _, rfl⟩ := decodeValue_bytes_eq_ok.mp h
    rfl
  | string =>
    intro base pos v h
    obtain ⟨data, text, _, _, rfl⟩ := decodeValue_string_eq_ok.mp h
    rfl
  | array element ih =>
    intro base pos v h
    obtain ⟨_, _, _, items, _, _, _, _, _, hitems, rfl⟩ := decodeValue_array_eq_ok.mp h
    exact admits_of_decodeItems (ih hw.element) hitems
  | fixedArray element count ih =>
    intro base pos v h
    obtain ⟨_, _, items, _, _, _, _, _, hitems, rfl⟩ := decodeValue_fixedArray_eq_ok.mp h
    have hlength := length_of_decodeItems hitems
    rw [AbiType.admits, Bool.and_eq_true, beq_iff_eq]
    exact ⟨hlength, admits_of_decodeItems (ih hw.fixedElement) hitems⟩
  | tuple members ih =>
    intro base pos v h
    obtain ⟨_, items, _, hitems, rfl⟩ := decodeValue_tuple_eq_ok.mp h
    exact admitAll_of_decodeSequence (fun m hm => ih m hm (hw.member m hm)) hitems

/-- What is read for a type can be written, and as it stood in the data unless it is dynamic. -/
def AbiType.Rewritten (t : AbiType) : Prop :=
  ∀ ⦃base : Bytes⦄ ⦃pos : Nat⦄ ⦃v : AbiValue⦄, decodeValue t base pos = .ok v →
    ∃ data, encodeValue t v = .ok data ∧ (t.isDynamic = false → data <+: base.drop pos)

theorem append_isPrefix_drop {front back base : Bytes} {pos : Nat} (hf : front <+: base.drop pos)
    (hb : back <+: base.drop (pos + front.length)) : front ++ back <+: base.drop pos := by
  obtain ⟨rest, hr⟩ := hf
  rw [← List.drop_drop, ← hr, List.drop_left] at hb
  rw [← hr]
  exact (List.prefix_append_right_inj front).mpr hb

/-- What is read as a sequence can be written as one. Without dynamic types its heads are the
data. -/
theorem encodeParts_of_decodeSequence {types : List AbiType} (sized : ∀ t ∈ types, t.Sized)
    (rewritten : ∀ t ∈ types, t.Rewritten) {base : Bytes} {head : Nat} {values : List AbiValue}
    (h : decodeSequence types base head = .ok values) :
    ∃ stop parts, AbiType.headSizes? head types = some stop ∧
      encodeParts types values = .ok parts ∧
      (AbiType.anyDynamic types = false →
        ∀ offset, Part.heads offset parts <+: base.drop head) := by
  induction types generalizing head values with
  | nil =>
    cases h
    exact ⟨head, [], rfl, rfl, fun _ _ => List.nil_prefix⟩
  | cons t types ih =>
    obtain ⟨pos, v, next, rest, hpos, hv, hn, hr, rfl⟩ := decodeSequence_cons_eq_ok.mp h
    obtain ⟨size, hs, hadd⟩ := nextHead_eq_ok.mp hn
    obtain ⟨hlimit, rfl⟩ := Size.add?_eq_some.mp hadd
    obtain ⟨stop, parts, hstop, hp, hheads⟩ :=
      ih (fun u hu => sized u (List.mem_cons_of_mem t hu))
        (fun u hu => rewritten u (List.mem_cons_of_mem t hu)) hr
    obtain ⟨data, hd, hdata⟩ := rewritten t List.mem_cons_self hv
    refine ⟨stop, ⟨t.isDynamic, data⟩ :: parts,
      headSizes?_cons_eq_some.mpr ⟨size, hs, hlimit, hstop⟩,
      encodeParts_cons_eq_ok.mpr ⟨data, parts, hd, hp, rfl⟩, ?_⟩
    intro hstatic offset
    rw [AbiType.anyDynamic, Bool.or_eq_false_iff] at hstatic
    obtain ⟨ht, htypes⟩ := hstatic
    -- a static value stands at its head, and the next head begins where the value ends
    rw [locate_static ht] at hpos
    cases hpos
    have hsize : size = data.length :=
      Option.some.inj (hs.symm.trans (sized t List.mem_cons_self ht hd))
    rw [Part.heads, if_neg (by simp [ht])]
    refine append_isPrefix_drop (hdata ht) ?_
    rw [← hsize]
    exact hheads htypes offset

theorem encode_of_decodeSequence {types : List AbiType} (sized : ∀ t ∈ types, t.Sized)
    (rewritten : ∀ t ∈ types, t.Rewritten) {base : Bytes} {values : List AbiValue}
    (h : decodeSequence types base 0 = .ok values) :
    ∃ data, encode types values = .ok data ∧
      (AbiType.anyDynamic types = false → data <+: base) := by
  obtain ⟨stop, parts, hstop, hp, hheads⟩ := encodeParts_of_decodeSequence sized rewritten h
  refine ⟨Part.assemble stop parts, encode_eq_ok.mpr ⟨length_of_decodeSequence h, stop, parts,
    headLength_eq_ok.mpr hstop, hp, rfl⟩, ?_⟩
  intro hstatic
  rw [Part.assemble, tails_eq_nil hstatic hp, List.append_nil]
  exact hheads hstatic stop

theorem encode_of_decodeItems {element : AbiType} (sized : element.Sized)
    (rewritten : element.Rewritten) {count : Nat} {base : Bytes} {items : List AbiValue}
    (h : decodeSequence (List.replicate count element) base 0 = .ok items) :
    items.length = count ∧ ∃ data, encode (List.replicate count element) items = .ok data ∧
      (element.isDynamic = false → data <+: base) := by
  have hlength := length_of_decodeItems h
  obtain ⟨data, hd, hdata⟩ := encode_of_decodeSequence
    (List.forall_mem_replicate.mpr (Or.inr sized))
    (List.forall_mem_replicate.mpr (Or.inr rewritten)) h
  exact ⟨hlength, data, hd, fun hs => hdata (anyDynamic_replicate hs count)⟩

/-- A word of a few bytes and zeros is what is written for these bytes. -/
theorem padWords_take {w : Word} {size : Nat} (hl : 1 ≤ size) (hu : size ≤ wordSize)
    (hz : ∀ b ∈ w.bytes.drop size, b = 0) : padWords (w.bytes.take size) = w.bytes := by
  have hlength : (w.bytes.take size).length = size := by simp [w.length_bytes, hu]
  have hpad : (wordSize - size % wordSize) % wordSize = wordSize - size := by
    unfold wordSize at hu ⊢
    omega
  have hdrop : w.bytes.drop size = List.replicate (wordSize - size) 0 :=
    List.eq_replicate_iff.mpr ⟨by rw [List.length_drop, w.length_bytes], hz⟩
  rw [padWords, hlength, hpad, ← hdrop, List.take_append_drop]

theorem rewritten_of_wellFormed {t : AbiType} (hw : t.WellFormed) : t.Rewritten := by
  induction t with
  | uint bits =>
    intro base pos v h
    obtain ⟨w, hword, hf, rfl⟩ := decodeValue_uint_eq_ok.mp h
    refine ⟨w.bytes, encodeValue_uint_eq_ok.mpr ⟨w.toNat, rfl, hf, ?_⟩,
      fun _ => readWord_eq_ok.mp hword⟩
    rw [Word.ofNat_toNat]
  | int bits =>
    intro base pos v h
    obtain ⟨w, hword, hf, rfl⟩ := (decodeValue_int_eq_ok hw.int_bits).mp h
    refine ⟨w.bytes, (encodeValue_int_eq_ok hw.int_bits).mpr ⟨w.toInt, rfl, hf, ?_⟩,
      fun _ => readWord_eq_ok.mp hword⟩
    rw [Word.ofInt_toInt]
  | bool =>
    intro base pos v h
    obtain ⟨w, hword, hle, rfl⟩ := decodeValue_bool_eq_ok.mp h
    refine ⟨w.bytes, encodeValue_bool_eq_ok.mpr ⟨_, rfl, ?_⟩, fun _ => readWord_eq_ok.mp hword⟩
    have hbit : (w.toNat == 1).toNat = w.toNat := by
      rcases Nat.le_one_iff_eq_zero_or_eq_one.mp hle with h0 | h1
      · simp [h0]
      · simp [h1]
    rw [hbit, Word.ofNat_toNat]
  | address =>
    intro base pos v h
    obtain ⟨w, a, hword, hb, rfl⟩ := decodeValue_address_eq_ok.mp h
    exact ⟨w.bytes, encodeValue_address_eq_ok.mpr ⟨a, rfl, hb.symm⟩,
      fun _ => readWord_eq_ok.mp hword⟩
  | fixedBytes size =>
    intro base pos v h
    obtain ⟨w, hword, hz, rfl⟩ := decodeValue_fixedBytes_eq_ok.mp h
    have hb := hw.fixedBytes_size
    refine ⟨w.bytes, encodeValue_fixedBytes_eq_ok.mpr ⟨_, rfl, ?_, padWords_take hb.1 hb.2 hz⟩,
      fun _ => readWord_eq_ok.mp hword⟩
    simp [w.length_bytes, hb.2]
  | bytes =>
    intro base pos v h
    obtain ⟨data, _, rfl⟩ := decodeValue_bytes_eq_ok.mp h
    exact ⟨_, encodeValue_bytes_eq_ok.mpr ⟨data, rfl, rfl⟩, by simp [AbiType.isDynamic]⟩
  | string =>
    intro base pos v h
    obtain ⟨data, text, _, _, rfl⟩ := decodeValue_string_eq_ok.mp h
    exact ⟨_, encodeValue_string_eq_ok.mpr ⟨_, rfl, rfl⟩, by simp [AbiType.isDynamic]⟩
  | array element ih =>
    intro base pos v h
    obtain ⟨_, _, _, items, _, _, _, _, _, hitems, rfl⟩ := decodeValue_array_eq_ok.mp h
    obtain ⟨rfl, data, hd, _⟩ :=
      encode_of_decodeItems (sized_of_wellFormed hw.element) (ih hw.element) hitems
    exact ⟨_, encodeValue_array_eq_ok.mpr ⟨items, data, rfl, hd, rfl⟩, by simp [AbiType.isDynamic]⟩
  | fixedArray element count ih =>
    intro base pos v h
    obtain ⟨_, _, items, hslice, _, _, _, _, hitems, rfl⟩ := decodeValue_fixedArray_eq_ok.mp h
    obtain ⟨_, rfl⟩ := sliceFrom_eq_ok.mp hslice
    obtain ⟨hlength, data, hd, hdata⟩ :=
      encode_of_decodeItems (sized_of_wellFormed hw.fixedElement) (ih hw.fixedElement) hitems
    exact ⟨data, encodeValue_fixedArray_eq_ok.mpr ⟨items, rfl, hlength, hd⟩, hdata⟩
  | tuple members ih =>
    intro base pos v h
    obtain ⟨_, items, hslice, hitems, rfl⟩ := decodeValue_tuple_eq_ok.mp h
    obtain ⟨_, rfl⟩ := sliceFrom_eq_ok.mp hslice
    obtain ⟨data, hd, hdata⟩ := encode_of_decodeSequence
      (fun m hm => sized_of_wellFormed (hw.member m hm))
      (fun m hm => ih m hm (hw.member m hm)) hitems
    exact ⟨data, encodeValue_tuple_eq_ok.mpr ⟨items, rfl, hd⟩, hdata⟩

end EvmInspect.Abi
