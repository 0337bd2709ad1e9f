import EvmInspect.Abi.Conforms
import EvmInspect.Proofs.Layouts
import EvmInspect.Proofs.Ranges

namespace EvmInspect.Abi

namespace Layout

/-- A head takes the same room wherever its tail is. -/
theorem length_head (slots : List Slot) (n : Nat) (slot : Slot) :
    (head slots n slot).length = slot.headLength := by
  rw [head, Slot.headLength]
  split
  · exact length_word _
  · rfl

theorem length_sequence (slots : List Slot) :
    (sequence slots).length =
      (slots.map Slot.headLength).sum + (slots.flatMap Slot.tail).length := by
  have hheads : (slots.mapIdx fun n slot => head slots n slot).map List.length =
      slots.map Slot.headLength := by
    apply List.ext_getElem
    · simp
    · intro i hi hj
      simp [length_head]
  rw [sequence, List.length_append, List.length_flatten, hheads]

/-- A sequence is not shorter than what stands in it. -/
theorem length_bytes_le {slots : List Slot} {slot : Slot} (h : slot ∈ slots) :
    slot.bytes.length ≤ (sequence slots).length := by
  rw [length_sequence]
  cases hd : slot.inTail with
  | true =>
    have htail : slot.tail.length ≤ (slots.flatMap Slot.tail).length := by
      rw [List.length_flatMap]
      exact List.le_sum_of_mem (List.mem_map_of_mem h)
    rw [Slot.tail, if_pos hd] at htail
    omega
  | false =>
    have hhead : slot.headLength ≤ (slots.map Slot.headLength).sum :=
      List.le_sum_of_mem (List.mem_map_of_mem h)
    rw [Slot.headLength, if_neg (by simp [hd])] at hhead
    omega

end Layout

/-- The items of an array are of its type if they are of as many copies of the type. -/
theorem admitAll_replicate (element : AbiType) (items : List AbiValue) :
    admitAll (List.replicate items.length element) items =
      items.all fun item => element.admits item := by
  induction items with
  | nil => rfl
  | cons item items ih => rw [List.length_cons, List.replicate_succ, admitAll, ih, List.all_cons]

theorem admitAll_iff {types : List AbiType} {values : List AbiValue} :
    admitAll types values = true ↔
      values.length = types.length ∧ ∀ p ∈ types.zip values, p.1.admits p.2 = true := by
  induction types generalizing values with
  | nil => cases values <;> simp [admitAll]
  | cons t types ih =>
    cases values with
    | nil => simp [admitAll]
    | cons v values =>
      simp only [admitAll, Bool.and_eq_true, ih, List.zip_cons_cons, List.forall_mem_cons,
        List.length_cons, Nat.add_right_cancel_iff]
      exact and_left_comm

theorem admits_int {bits : Nat} {n : Int} :
    (AbiType.int bits).admits (.int n) = fitsInt bits n := by
  rw [Bool.eq_iff_iff, fitsInt_iff]
  simp [AbiType.admits]

def AbiType.Guarded (t : AbiType) : Prop :=
  ∀ ⦃v : AbiValue⦄ ⦃data : Bytes⦄, encodeValue t v = .ok data → t.admits v = true

theorem admitAll_of_encodeParts {types : List AbiType} {values : List AbiValue} {parts : List Part}
    (guarded : ∀ t ∈ types, t.Guarded) (hl : values.length = types.length)
    (h : encodeParts types values = .ok parts) : admitAll types values = true := by
  induction types generalizing values parts with
  | nil =>
    obtain rfl := List.length_eq_zero_iff.mp hl
    rfl
  | cons t types ih =>
    cases values with
    | nil => simp at hl
    | cons v values =>
      obtain ⟨bytes, rest, hb, hr, rfl⟩ := encodeParts_cons_eq_ok.mp h
      rw [admitAll, Bool.and_eq_true]
      exact ⟨guarded t List.mem_cons_self hb,
        ih (fun u hu => guarded u (List.mem_cons_of_mem t hu)) (by simpa using hl) hr⟩

theorem admitAll_of_encode {types : List AbiType} {values : List AbiValue} {data : Bytes}
    (guarded : ∀ t ∈ types, t.Guarded) (h : encode types values = .ok data) :
    admitAll types values = true := by
  obtain ⟨hl, _, parts, _, hp, _⟩ := encode_eq_ok.mp h
  exact admitAll_of_encodeParts guarded hl hp

theorem guarded_of_wellFormed {t : AbiType} (hw : t.WellFormed) : t.Guarded := by
  induction t with
  | uint bits =>
    intro v data h
    obtain ⟨n, rfl, hf, _⟩ := encodeValue_uint_eq_ok.mp h
    exact admits_uint_iff.mpr ⟨n, rfl, fitsUint_iff.mp hf⟩
  | int bits =>
    intro v data h
    obtain ⟨n, rfl, hf, _⟩ := (encodeValue_int_eq_ok hw.int_bits).mp h
    rw [admits_int, hf]
  | bool =>
    intro v data h
    obtain ⟨b, rfl, _⟩ := encodeValue_bool_eq_ok.mp h
    rfl
  | address =>
    intro v data h
    obtain ⟨a, rfl, _⟩ := encodeValue_address_eq_ok.mp h
    rfl
  | fixedBytes size =>
    intro v data h
    obtain ⟨bytes, rfl, hl, _⟩ := encodeValue_fixedBytes_eq_ok.mp h
    simp [AbiType.admits, hl]
  | bytes =>
    intro v data h
    obtain ⟨bytes, rfl, _⟩ := encodeValue_bytes_eq_ok.mp h
    rfl
  | string =>
    intro v data h
    obtain ⟨text, rfl, _⟩ := encodeValue_string_eq_ok.mp h
    rfl
  | array element ih =>
    intro v data h
    obtain ⟨items, _, rfl, hb, _⟩ := encodeValue_array_eq_ok.mp h
    rw [AbiType.admits, ← admitAll_replicate]
    exact admitAll_of_encode (List.forall_mem_replicate.mpr (Or.inr (ih hw.element))) hb
  | fixedArray element count ih =>
    intro v data h
    obtain ⟨items, rfl, rfl, hb⟩ := encodeValue_fixedArray_eq_ok.mp h
    rw [AbiType.admits, beq_self_eq_true, Bool.true_and, ← admitAll_replicate]
    exact admitAll_of_encode (List.forall_mem_replicate.mpr (Or.inr (ih hw.fixedElement))) hb
  | tuple members ih =>
    intro v data h
    obtain ⟨items, rfl, hb⟩ := encodeValue_tuple_eq_ok.mp h
    rw [AbiType.admits]
    exact admitAll_of_encode (fun m hm => ih m hm (hw.member m hm)) hb

/-- Values of the type are written if their layout can be addressed. -/
def AbiType.Accepting (t : AbiType) : Prop :=
  ∀ ⦃v : AbiValue⦄, t.admits v = true → (Layout.value t v).length < Size.limit →
    ∃ data, encodeValue t v = .ok data

/-- The heads of values that were written can be counted if all of them can be addressed. -/
theorem headSizes?_of_encodeParts {types : List AbiType} {values : List AbiValue}
    {parts : List Part} (sized : ∀ t ∈ types, t.Sized) (hl : values.length = types.length)
    (hp : encodeParts types values = .ok parts) {total : Nat}
    (short : total + ((parts.map Part.slot).map Layout.Slot.headLength).sum < Size.limit) :
    ∃ stop, AbiType.headSizes? total types = some stop := by
  induction types generalizing values parts total with
  | nil => exact ⟨total, rfl⟩
  | cons t types ih =>
    cases values with
    | nil => simp at hl
    | cons v values =>
      obtain ⟨bytes, rest, hb, hr, rfl⟩ := encodeParts_cons_eq_ok.mp hp
      have hsize : t.headSize? = some (Part.slot ⟨t.isDynamic, bytes⟩).headLength := by
        cases hd : t.isDynamic with
        | true => exact headSize?_of_dynamic hd
        | false => exact sized t List.mem_cons_self hd hb
      rw [List.map_cons, List.map_cons, List.sum_cons, ← Nat.add_assoc] at short
      obtain ⟨stop, hstop⟩ := ih (fun u hu => sized u (List.mem_cons_of_mem t hu))
        (by simpa using hl) hr short
      exact ⟨stop, headSizes?_cons_eq_some.mpr
        ⟨_, hsize, Nat.lt_of_le_of_lt (Nat.le_add_right _ _) short, hstop⟩⟩

theorem encodeParts_of_admitAll {types : List AbiType} {values : List AbiValue}
    (accepting : ∀ t ∈ types, t.Accepting) (h : admitAll types values = true)
    (short : ∀ slot ∈ Layout.slots types values, slot.bytes.length < Size.limit) :
    ∃ parts, encodeParts types values = .ok parts := by
  induction types generalizing values with
  | nil => exact ⟨[], encodeParts_nil values⟩
  | cons t types ih =>
    cases values with
    | nil => simp [admitAll] at h
    | cons v values =>
      rw [admitAll, Bool.and_eq_true] at h
      rw [Layout.slots, List.forall_mem_cons] at short
      obtain ⟨bytes, hb⟩ := accepting t List.mem_cons_self h.1 short.1
      obtain ⟨rest, hr⟩ := ih (fun u hu => accepting u (List.mem_cons_of_mem t hu)) h.2 short.2
      exact ⟨_, encodeParts_cons_eq_ok.mpr ⟨bytes, rest, hb, hr, rfl⟩⟩

theorem encode_of_admitAll {types : List AbiType} {values : List AbiValue}
    (hw : ∀ t ∈ types, t.WellFormed) (accepting : ∀ t ∈ types, t.Accepting)
    (h : admitAll types values = true)
    (short : (Layout.sequence (Layout.slots types values)).length < Size.limit) :
    ∃ data, encode types values = .ok data := by
  have hl := length_of_admitAll h
  obtain ⟨parts, hp⟩ := encodeParts_of_admitAll accepting h
    (fun slot hs => Nat.lt_of_le_of_lt (Layout.length_bytes_le hs) short)
  rw [Layout.length_sequence,
    ← slots_of_encodeParts (fun t ht => laidOut_of_wellFormed (hw t ht)) hp] at short
  have hroom : 0 + ((parts.map Part.slot).map Layout.Slot.headLength).sum < Size.limit := by omega
  obtain ⟨stop, hstop⟩ :=
    headSizes?_of_encodeParts (fun t ht => sized_of_wellFormed (hw t ht)) hl hp hroom
  exact ⟨_, encode_eq_ok.mpr ⟨hl, stop, parts, headLength_eq_ok.mpr hstop, hp, rfl⟩⟩

/-- Items of one type are written if their layout can be addressed. -/
theorem encode_items {element : AbiType} (hw : element.WellFormed) (accepting : element.Accepting)
    {items : List AbiValue} (h : (items.all fun item => element.admits item) = true)
    (short : (Layout.sequence (items.map fun item =>
      ⟨Layout.Dynamic element, Layout.value element item⟩)).length < Size.limit) :
    ∃ data, encode (List.replicate items.length element) items = .ok data := by
  rw [← admitAll_replicate] at h
  rw [← slots_replicate] at short
  exact encode_of_admitAll (List.forall_mem_replicate.mpr (Or.inr hw))
    (List.forall_mem_replicate.mpr (Or.inr accepting)) h short

theorem accepting_of_wellFormed {t : AbiType} (hw : t.WellFormed) : t.Accepting := by
  induction t with
  | uint bits =>
    intro v h short
    obtain ⟨n, rfl, hn⟩ := admits_uint_iff.mp h
    exact ⟨_, encodeValue_uint_eq_ok.mpr ⟨n, rfl, fitsUint_iff.mpr hn, rfl⟩⟩
  | int bits =>
    intro v h short
    obtain ⟨n, rfl, _⟩ := admits_int_iff.mp h
    exact ⟨_, (encodeValue_int_eq_ok hw.int_bits).mpr ⟨n, rfl, admits_int ▸ h, rfl⟩⟩
  | bool =>
    intro v h short
    obtain ⟨b, rfl⟩ := admits_bool_iff.mp h
    exact ⟨_, encodeValue_bool_eq_ok.mpr ⟨b, rfl, rfl⟩⟩
  | address =>
    intro v h short
    obtain ⟨a, rfl⟩ := admits_address_iff.mp h
    exact ⟨_, encodeValue_address_eq_ok.mpr ⟨a, rfl, rfl⟩⟩
  | fixedBytes size =>
    intro v h short
    obtain ⟨bytes, rfl, hlength⟩ := admits_fixedBytes_iff.mp h
    exact ⟨_, encodeValue_fixedBytes_eq_ok.mpr ⟨bytes, rfl, hlength, rfl⟩⟩
  | bytes =>
    intro v h short
    obtain ⟨bytes, rfl⟩ := admits_bytes_iff.mp h
    exact ⟨_, encodeValue_bytes_eq_ok.mpr ⟨bytes, rfl, rfl⟩⟩
  | string =>
    intro v h short
    obtain ⟨text, rfl⟩ := admits_string_iff.mp h
    exact ⟨_, encodeValue_string_eq_ok.mpr ⟨text, rfl, rfl⟩⟩
  | array element ih =>
    intro v h short
    obtain ⟨items, rfl, hitems⟩ := admits_array_iff.mp h
    rw [Layout.value, List.length_append] at short
    obtain ⟨data, hd⟩ := encode_items hw.element (ih hw.element) hitems (by omega)
    exact ⟨_, encodeValue_array_eq_ok.mpr ⟨items, data, rfl, hd, rfl⟩⟩
  | fixedArray element count ih =>
    intro v h short
    obtain ⟨items, rfl, hlength, hitems⟩ := admits_fixedArray_iff.mp h
    rw [Layout.value] at short
    obtain ⟨data, hd⟩ := encode_items hw.fixedElement (ih hw.fixedElement) hitems short
    exact ⟨data, encodeValue_fixedArray_eq_ok.mpr ⟨items, rfl, hlength, hlength ▸ hd⟩⟩
  | tuple members ih =>
    intro v h short
    obtain ⟨items, rfl, hitems⟩ := admits_tuple_iff.mp h
    rw [Layout.value] at short
    obtain ⟨data, hd⟩ := encode_of_admitAll hw.member (fun m hm => ih m hm (hw.member m hm)) hitems
      short
    exact ⟨_, encodeValue_tuple_eq_ok.mpr ⟨items, rfl, hd⟩⟩

/-- Types that can be read are written for as many values as there are types, each of its type, and
for no others. For a signed number the bytes of its word decide, and they tell its range. -/
theorem encode_accepts_iff {types : List AbiType} {values : List AbiValue}
    (readable : ∀ t ∈ types, ∃ text, AbiType.ofText text = .ok t)
    (short : admitAll types values = true → (Layout.arguments types values).length < 2 ^ 63) :
    ((∃ data, encode types values = .ok data) ↔
      values.length = types.length ∧ ∀ p ∈ types.zip values, p.1.admits p.2 = true) ∧
    ((∃ e, encode types values = .error e) ↔
      ¬ (values.length = types.length ∧ ∀ p ∈ types.zip values, p.1.admits p.2 = true)) ∧
    ∀ (bits : Nat) (n : Int), (AbiType.int bits).WellFormed → -2 ^ 255 ≤ n → n < 2 ^ 255 →
      Ranged.continuesSign bits (Word.ofInt n) = .ok ((Word.ofInt n).continuesSign bits) ∧
      Ranged.continuesSign bits (Word.ofInt n) =
        .ok (decide (-2 ^ (bits - 1) ≤ n ∧ n < 2 ^ (bits - 1))) := by
  have hw := AbiType.wellFormed_of_readable readable
  have hok : (∃ data, encode types values = .ok data) ↔
      values.length = types.length ∧ ∀ p ∈ types.zip values, p.1.admits p.2 = true := by
    rw [← admitAll_iff]
    constructor
    · rintro ⟨data, h⟩
      exact admitAll_of_encode (fun t ht => guarded_of_wellFormed (hw t ht)) h
    · intro h
      exact encode_of_admitAll hw (fun t ht => accepting_of_wellFormed (hw t ht)) h
        (Ranged.lt_limit (short h))
  refine ⟨hok, ?_, ?_⟩
  · rw [← hok]
    cases encode types values with
    | ok data => simp
    | error e => simp
  · intro bits n hsound hl hu
    have hbytes := Ranged.continuesSign_eq hsound.int_bits (Word.ofInt n)
    refine ⟨hbytes, ?_⟩
    rw [hbytes, Word.continuesSign_eq hsound.int_bits, Word.toInt_ofInt hl hu, ← admits_int,
      AbiType.admits, Bool.decide_and]

/-- Numbers of two bytes beside strings: the least number is written, and the one behind the largest
is not. -/
theorem encode_accepts_iff_least :
    (∃ data, encode [.array (.tuple [.int 16, .string])]
      [.array [.tuple [.int (-32768), .string "a"], .tuple [.int 32767, .string ""]]] = .ok data) ∧
    ∃ e, encode [.array (.tuple [.int 16, .string])]
      [.array [.tuple [.int (-32768), .string "a"], .tuple [.int 32768, .string ""]]] =
        .error e := by
  have readable : ∀ t ∈ [AbiType.array (.tuple [.int 16, .string])],
      ∃ text, AbiType.ofText text = .ok t := by
    intro t ht
    rw [List.mem_singleton.mp ht]
    exact ⟨"(int16,string)[]", by cbv⟩
  constructor
  · refine (encode_accepts_iff readable ?_).1.mpr (admitAll_iff.mp rfl)
    intro _
    decide +kernel
  · refine (encode_accepts_iff readable ?_).2.1.mpr (mt admitAll_iff.mpr ?_)
    · intro h
      exact absurd h (by decide +kernel)
    · decide +kernel

end EvmInspect.Abi
