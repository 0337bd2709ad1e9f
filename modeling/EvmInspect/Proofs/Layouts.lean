import EvmInspect.Abi.Layout
import EvmInspect.Abi.Word.Lemmas
import EvmInspect.Proofs.HeadSizes

namespace EvmInspect.Abi

/-- Every byte of a number is the rest by 256 of what is left after the bytes below it. -/
theorem numberBytes_eq_map (count n : Nat) :
    numberBytes count n =
      (List.range count).map fun i => UInt8.ofNat (n / 256 ^ (count - 1 - i) % 256) := by
  induction count generalizing n with
  | zero => rfl
  | succ count ih =>
    have hhigh : ∀ i ∈ List.range count,
        UInt8.ofNat (n / 256 / 256 ^ (count - 1 - i) % 256) =
          UInt8.ofNat (n / 256 ^ (count + 1 - 1 - i) % 256) := by
      intro i hi
      have hexp : count + 1 - 1 - i = count - 1 - i + 1 := by
        have := List.mem_range.mp hi
        omega
      rw [hexp, Nat.pow_succ', Nat.div_div_eq_div_mul]
    have hlast : n / 256 ^ (count + 1 - 1 - count) = n := by simp
    rw [numberBytes, ih, List.range_succ, List.map_append, List.map_congr_left hhigh,
      List.map_singleton, hlast]

theorem Word.bytes_ofNat (n : Nat) : (Word.ofNat n).bytes = Layout.word n :=
  numberBytes_eq_map wordSize n

namespace Part

def slot (part : Part) : Layout.Slot :=
  ⟨part.isDynamic, part.bytes⟩

theorem tails_eq (parts : List Part) : tails parts = (parts.map slot).flatMap Layout.Slot.tail := by
  induction parts with
  | nil => rfl
  | cons part parts ih =>
    rw [tails, List.map_cons, List.flatMap_cons, ← ih]
    cases hd : part.isDynamic <;> simp [slot, Layout.Slot.tail, hd]

theorem length_heads_eq (parts : List Part) (offset : Nat) :
    (heads offset parts).length = ((parts.map slot).map Layout.Slot.headLength).sum := by
  induction parts generalizing offset with
  | nil => rfl
  | cons part parts ih =>
    rw [heads, List.map_cons, List.map_cons, List.sum_cons]
    cases hd : part.isDynamic <;>
      simp [slot, Layout.Slot.headLength, hd, ih, Word.length_bytes, wordSize]

end Part

namespace Layout

/-- What stands before a tail grows by the tails passed. -/
theorem before_succ {done rest : List Slot} (slot : Slot) :
    before (done ++ slot :: rest) (done.length + 1) =
      before (done ++ slot :: rest) done.length + slot.tail.length := by
  have hdone : (done ++ slot :: rest).take done.length = done := by simp
  have hnext : (done ++ slot :: rest).take (done.length + 1) = done ++ [slot] := by
    rw [List.take_length_add_append]
    rfl
  rw [before, before, hdone, hnext, List.flatMap_append, List.length_append, ← Nat.add_assoc,
    List.flatMap_singleton]

end Layout

namespace Part

/-- The offsets that are counted on are the measured ones. `done` are the slots passed. -/
theorem heads_eq (done : List Layout.Slot) (parts : List Part) :
    let slots := done ++ parts.map slot
    heads (Layout.before slots done.length) parts =
      ((parts.map slot).mapIdx fun n slot => Layout.head slots (done.length + n) slot).flatten := by
  induction parts generalizing done with
  | nil => rfl
  | cons part parts ih =>
    intro slots
    have ih := ih (done ++ [part.slot])
    dsimp only at ih
    have hslots : done ++ [part.slot] ++ parts.map slot = slots := by simp [slots]
    rw [hslots, List.length_append, List.length_singleton] at ih
    rw [List.map_cons, List.mapIdx_cons, List.flatten_cons, heads]
    have hnext : Layout.before slots (done.length + 1) =
        Layout.before slots done.length + part.slot.tail.length := Layout.before_succ part.slot
    rw [hnext] at ih
    have hindex : (fun n slot => Layout.head slots (done.length + (n + 1)) slot) =
        fun n slot => Layout.head slots (done.length + 1 + n) slot := by
      funext n slot
      rw [Nat.add_right_comm, Nat.add_assoc]
    rw [hindex, ← ih, Layout.head, ← Word.bytes_ofNat]
    cases hd : part.isDynamic <;> simp [slot, Layout.Slot.tail, hd]

/-- A sequence whose heads take the room that was counted is laid out as specified. -/
theorem assemble_eq_sequence {length : Nat} {parts : List Part}
    (h : (heads length parts).length = length) :
    assemble length parts = Layout.sequence (parts.map slot) := by
  have hbefore : Layout.before (parts.map slot) 0 = length := by
    rw [Layout.before, ← length_heads_eq parts length, h]
    rfl
  have heads := heads_eq [] parts
  simp only [List.nil_append, List.length_nil, Nat.zero_add, hbefore] at heads
  rw [assemble, Layout.sequence, heads, tails_eq]

end Part

theorem padWords_eq_padded (bytes : Bytes) : padWords bytes = Layout.padded bytes := by
  have hpad : (wordSize - bytes.length % wordSize) % wordSize =
      (bytes.length + 31) / 32 * 32 - bytes.length := by
    unfold wordSize
    omega
  rw [padWords, Layout.padded, hpad]

theorem payload_eq_counted (bytes : Bytes) : payload bytes = Layout.counted bytes := by
  rw [payload, Layout.counted, padWords_eq_padded, Word.bytes_ofNat]

def AbiType.LaidOut (t : AbiType) : Prop :=
  ∀ ⦃v : AbiValue⦄ ⦃data : Bytes⦄, encodeValue t v = .ok data → data = Layout.value t v

theorem slots_replicate (element : AbiType) (items : List AbiValue) :
    Layout.slots (List.replicate items.length element) items =
      items.map fun item => ⟨Layout.Dynamic element, Layout.value element item⟩ := by
  induction items with
  | nil => rfl
  | cons item items ih =>
    rw [List.length_cons, List.replicate_succ, Layout.slots, ih, List.map_cons]

/-- The parts of a sequence fill the slots of its values. -/
theorem slots_of_encodeParts {types : List AbiType} {values : List AbiValue} {parts : List Part}
    (laidOut : ∀ t ∈ types, t.LaidOut) (h : encodeParts types values = .ok parts) :
    parts.map Part.slot = Layout.slots types values := by
  induction types generalizing values parts with
  | nil =>
    rw [encodeParts_nil] at h
    cases h
    rw [Layout.slots]
    · rfl
    · simp
  | cons t types ih =>
    cases values with
    | nil =>
      cases h
      rfl
    | cons v values =>
      obtain ⟨bytes, rest, hb, hr, rfl⟩ := encodeParts_cons_eq_ok.mp h
      rw [List.map_cons, Layout.slots, Part.slot, ← laidOut t List.mem_cons_self hb,
        Layout.decide_dynamic, ih (fun u hu => laidOut u (List.mem_cons_of_mem t hu)) hr]

/-- A sequence of values is laid out as their slots are. -/
theorem sequence_of_encode {types : List AbiType} {values : List AbiValue} {data : Bytes}
    (sized : ∀ t ∈ types, t.Sized) (laidOut : ∀ t ∈ types, t.LaidOut)
    (h : encode types values = .ok data) : data = Layout.sequence (Layout.slots types values) := by
  obtain ⟨hl, length, parts, hn, hp, rfl⟩ := encode_eq_ok.mp h
  rw [headLength_eq_ok] at hn
  have hlength := length_heads sized hl hp hn length
  rw [Nat.zero_add] at hlength
  rw [Part.assemble_eq_sequence hlength, slots_of_encodeParts laidOut hp]

theorem laidOut_of_wellFormed {t : AbiType} (hw : t.WellFormed) : t.LaidOut := by
  induction t with
  | uint bits =>
    intro v data h
    obtain ⟨n, rfl, _, hd⟩ := encodeValue_uint_eq_ok.mp h
    rw [← hd, Layout.value, Word.bytes_ofNat]
  | int bits =>
    intro v data h
    obtain ⟨n, rfl, _, hd⟩ := (encodeValue_int_eq_ok hw.int_bits).mp h
    rw [← hd, Layout.value, Word.ofInt, Word.limit_eq, Word.bytes_ofNat]
    rfl
  | bool =>
    intro v data h
    obtain ⟨b, rfl, hd⟩ := encodeValue_bool_eq_ok.mp h
    rw [← hd, Layout.value, ← Word.bytes_ofNat]
    cases b <;> rfl
  | address =>
    intro v data h
    obtain ⟨a, rfl, hd⟩ := encodeValue_address_eq_ok.mp h
    rw [← hd, Layout.value, a.length_bytes]
  | fixedBytes size =>
    intro v data h
    obtain ⟨bytes, rfl, _, hd⟩ := encodeValue_fixedBytes_eq_ok.mp h
    rw [← hd, Layout.value, padWords_eq_padded]
  | bytes =>
    intro v data h
    obtain ⟨bytes, rfl, hd⟩ := encodeValue_bytes_eq_ok.mp h
    rw [← hd, Layout.value, payload_eq_counted]
  | string =>
    intro v data h
    obtain ⟨text, rfl, hd⟩ := encodeValue_string_eq_ok.mp h
    rw [← hd, Layout.value, payload_eq_counted, Text.Utf8.encode]
  | array element ih =>
    intro v data h
    obtain ⟨items, bytes, rfl, hb, hd⟩ := encodeValue_array_eq_ok.mp h
    have hsequence := sequence_of_encode
      (List.forall_mem_replicate.mpr (Or.inr (sized_of_wellFormed hw.element)))
      (List.forall_mem_replicate.mpr (Or.inr (ih hw.element))) hb
    rw [← hd, hsequence, slots_replicate, Layout.value, Word.bytes_ofNat]
  | fixedArray element count ih =>
    intro v data h
    obtain ⟨items, rfl, hc, hb⟩ := encodeValue_fixedArray_eq_ok.mp h
    subst hc
    have hsequence := sequence_of_encode
      (List.forall_mem_replicate.mpr (Or.inr (sized_of_wellFormed hw.fixedElement)))
      (List.forall_mem_replicate.mpr (Or.inr (ih hw.fixedElement))) hb
    rw [hsequence, slots_replicate, Layout.value]
  | tuple members ih =>
    intro v data h
    obtain ⟨items, rfl, hb⟩ := encodeValue_tuple_eq_ok.mp h
    rw [Layout.value]
    exact sequence_of_encode (fun m hm => sized_of_wellFormed (hw.member m hm))
      (fun m hm => ih m hm (hw.member m hm)) hb

/-- What is written for the values of a parameter list, of types that can be read, is the layout
that is specified for them. -/
theorem encode_eq_layout {types : List AbiType} {values : List AbiValue} {data : Bytes}
    (readable : ∀ t ∈ types, ∃ text, AbiType.ofText text = .ok t)
    (accepted : encode types values = .ok data) : data = Layout.arguments types values := by
  have hw := AbiType.wellFormed_of_readable readable
  exact sequence_of_encode (fun t ht => sized_of_wellFormed (hw t ht))
    (fun t ht => laidOut_of_wellFormed (hw t ht)) accepted

/-- Signed numbers in pairs, each beside a string, and a short word of bytes. -/
theorem encode_eq_layout_pairs :
    ∃ (types : List AbiType) (values : List AbiValue) (data : Bytes),
      types = [.array (.tuple [.fixedArray (.int 16) 2, .string]), .fixedBytes 3] ∧
      values = [.array [.tuple [.fixedArray [.int (-1), .int 2], .string "a"],
        .tuple [.fixedArray [.int 3, .int (-4)], .string ""]], .fixedBytes [1, 2, 3]] ∧
      data = [List.replicate 31 0 ++ [0x40], [1, 2, 3] ++ List.replicate 29 0,
        List.replicate 31 0 ++ [2], List.replicate 31 0 ++ [0x40], List.replicate 31 0 ++ [0xe0],
        List.replicate 32 0xff, List.replicate 31 0 ++ [2], List.replicate 31 0 ++ [0x60],
        List.replicate 31 0 ++ [1], [0x61] ++ List.replicate 31 0,
        List.replicate 31 0 ++ [3], List.replicate 31 0xff ++ [0xfc],
        List.replicate 31 0 ++ [0x60], List.replicate 32 0].flatten ∧
      encode types values = .ok data ∧ data = Layout.arguments types values := by
  refine ⟨_, _, _, rfl, rfl, ?_, rfl, encode_eq_layout ?_ rfl⟩
  · decide +kernel
  intro t ht
  simp only [List.mem_cons, List.not_mem_nil, or_false] at ht
  rcases ht with rfl | rfl
  · exact ⟨"(int16[2],string)[]", by cbv⟩
  · exact ⟨"bytes3", by cbv⟩

end EvmInspect.Abi
