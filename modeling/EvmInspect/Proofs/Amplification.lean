import EvmInspect.Proofs.Obstacles
import EvmInspect.Proofs.Recoding

namespace EvmInspect.Abi

namespace AbiType

mutual
/-- The most leaves that a value of a type has when it is read from some words. Dynamic items of an
array may all be read from the same words. -/
def capacity (words : Nat) : AbiType → Nat
  | .array element => if element.isDynamic then words * element.capacity words else words
  | .fixedArray element count => count * element.capacity words
  | .tuple members => capacities words members
  | _ => 1

def capacities (words : Nat) : List AbiType → Nat
  | [] => 0
  | t :: types => t.capacity words + capacities words types
end

theorem capacities_replicate (words count : Nat) (t : AbiType) :
    capacities words (List.replicate count t) = count * t.capacity words := by
  induction count with
  | zero => rw [List.replicate_zero, capacities, Nat.zero_mul]
  | succ count ih => rw [List.replicate_succ, capacities, ih, Nat.succ_mul, Nat.add_comm]

theorem capacities_mono_of {words more : Nat} {types : List AbiType}
    (h : ∀ t ∈ types, t.capacity words ≤ t.capacity more) :
    capacities words types ≤ capacities more types := by
  induction types with
  | nil => exact Nat.le_refl _
  | cons t types ih =>
    rw [capacities, capacities]
    exact Nat.add_le_add (h t List.mem_cons_self) (ih fun u hu => h u (List.mem_cons_of_mem t hu))

theorem capacity_mono {words more : Nat} (h : words ≤ more) (t : AbiType) :
    t.capacity words ≤ t.capacity more := by
  induction t with
  | array element ih =>
    rw [capacity, capacity]
    split
    · exact Nat.mul_le_mul h ih
    · exact h
  | fixedArray element count ih =>
    rw [capacity, capacity]
    exact Nat.mul_le_mul_left count ih
  | tuple members ih =>
    rw [capacity, capacity]
    exact capacities_mono_of ih
  | _ => exact Nat.le_refl _

end AbiType

def AbiType.Weighs (t : AbiType) : Prop :=
  ∀ ⦃v : AbiValue⦄ ⦃data : Bytes⦄, encodeValue t v = .ok data → wordSize * v.leaves ≤ data.length

theorem Part.sum_le_length_assemble (offset : Nat) (parts : List Part) :
    (parts.map fun part => part.bytes.length).sum ≤ (assemble offset parts).length := by
  rw [assemble, List.length_append]
  induction parts generalizing offset with
  | nil => exact Nat.zero_le _
  | cons part parts ih =>
    rw [List.map_cons, List.sum_cons, heads, tails]
    split
    · have := ih (offset + part.bytes.length)
      simp only [List.length_append]
      omega
    · have := ih offset
      simp only [List.length_append]
      omega

theorem leavesOf_le_of_encodeParts {types : List AbiType} {values : List AbiValue}
    {parts : List Part} (weighs : ∀ t ∈ types, t.Weighs) (hl : values.length = types.length)
    (h : encodeParts types values = .ok parts) :
    wordSize * leavesOf values ≤ (parts.map fun part => part.bytes.length).sum := by
  induction types generalizing values parts with
  | nil =>
    obtain rfl := List.length_eq_zero_iff.mp hl
    exact Nat.zero_le _
  | cons t types ih =>
    cases values with
    | nil => simp at hl
    | cons v values =>
      obtain ⟨bytes, rest, hb, hr, rfl⟩ := encodeParts_cons_eq_ok.mp h
      have hv := weighs t List.mem_cons_self hb
      have hvalues := ih (fun u hu => weighs u (List.mem_cons_of_mem t hu)) (by simpa using hl) hr
      rw [leavesOf, Nat.mul_add, List.map_cons, List.sum_cons]
      exact Nat.add_le_add hv hvalues

theorem leavesOf_le_of_encode {types : List AbiType} {values : List AbiValue} {data : Bytes}
    (weighs : ∀ t ∈ types, t.Weighs) (h : encode types values = .ok data) :
    wordSize * leavesOf values ≤ data.length := by
  obtain ⟨hl, length, parts, _, hp, rfl⟩ := encode_eq_ok.mp h
  exact (leavesOf_le_of_encodeParts weighs hl hp).trans (Part.sum_le_length_assemble length parts)

theorem wordSize_le_length_payload (data : Bytes) : wordSize ≤ (payload data).length := by
  rw [payload, List.length_append, Word.length_bytes]
  exact Nat.le_add_right _ _

theorem weighs_of_wellFormed {t : AbiType} (hw : t.WellFormed) : t.Weighs := by
  induction t with
  | uint bits =>
    intro v data h
    obtain ⟨n, rfl, _, rfl⟩ := encodeValue_uint_eq_ok.mp h
    rw [Word.length_bytes]
    rfl
  | int bits =>
    intro v data h
    obtain ⟨n, rfl, _, rfl⟩ := (encodeValue_int_eq_ok hw.int_bits).mp h
    rw [Word.length_bytes]
    rfl
  | bool =>
    intro v data h
    obtain ⟨b, rfl, rfl⟩ := encodeValue_bool_eq_ok.mp h
    rw [Word.length_bytes]
    rfl
  | address =>
    intro v data h
    obtain ⟨a, rfl, rfl⟩ := encodeValue_address_eq_ok.mp h
    rw [List.length_append, List.length_replicate, a.length_bytes]
    rfl
  | fixedBytes size =>
    intro v data h
    obtain ⟨bytes, rfl, rfl, rfl⟩ := encodeValue_fixedBytes_eq_ok.mp h
    have hb := hw.fixedBytes_size
    rw [length_padWords_of_le (by omega) hb.2]
    rfl
  | bytes =>
    intro v data h
    obtain ⟨bytes, rfl, rfl⟩ := encodeValue_bytes_eq_ok.mp h
    exact wordSize_le_length_payload bytes
  | string =>
    intro v data h
    obtain ⟨text, rfl, rfl⟩ := encodeValue_string_eq_ok.mp h
    exact wordSize_le_length_payload _
  | array element ih =>
    intro v data h
    obtain ⟨items, bytes, rfl, hb, rfl⟩ := encodeValue_array_eq_ok.mp h
    have hitems := leavesOf_le_of_encode
      (List.forall_mem_replicate.mpr (Or.inr (ih hw.element))) hb
    rw [AbiValue.leaves, List.length_append]
    exact hitems.trans (Nat.le_add_left _ _)
  | fixedArray element count ih =>
    intro v data h
    obtain ⟨items, rfl, _, hb⟩ := encodeValue_fixedArray_eq_ok.mp h
    rw [AbiValue.leaves]
    exact leavesOf_le_of_encode (List.forall_mem_replicate.mpr (Or.inr (ih hw.fixedElement))) hb
  | tuple members ih =>
    intro v data h
    obtain ⟨items, rfl, hb⟩ := encodeValue_tuple_eq_ok.mp h
    rw [AbiValue.leaves]
    exact leavesOf_le_of_encode (fun m hm => ih m hm (hw.member m hm)) hb

/-- A value that is read in a head takes its room in it, and has no more leaves than words. -/
theorem leaves_le_of_static {t : AbiType} (hw : t.WellFormed) (hd : t.isDynamic = false)
    {base : Bytes} {pos : Nat} {v : AbiValue} (h : decodeValue t base pos = .ok v) :
    ∃ size, t.headSize? = some size ∧ wordSize * v.leaves ≤ size ∧
      (pos ≤ base.length → pos + size ≤ base.length) := by
  obtain ⟨data, he, hdata⟩ := rewritten_of_wellFormed hw h
  refine ⟨data.length, sized_of_wellFormed hw hd he, weighs_of_wellFormed hw he, ?_⟩
  intro hpos
  have hle := (hdata hd).length_le
  rw [List.length_drop] at hle
  omega

/-- Types whose values have no more leaves than words in their heads: those of fixed size, and bytes
and strings, which are one leaf behind an offset. -/
def AbiType.Flat (t : AbiType) : Prop :=
  t.isDynamic = false ∨ t = .bytes ∨ t = .string

theorem leaves_le_of_flat {t : AbiType} (hw : t.WellFormed) (hf : t.Flat) {base : Bytes}
    {head pos : Nat} {v : AbiValue} (hhead : head ≤ base.length)
    (hpos : locate t base head = .ok pos) (h : decodeValue t base pos = .ok v) :
    ∃ size, t.headSize? = some size ∧ wordSize * v.leaves ≤ size ∧ head + size ≤ base.length := by
  rcases hf with hd | rfl | rfl
  · rw [locate_static hd] at hpos
    cases hpos
    obtain ⟨size, hs, hv, hle⟩ := leaves_le_of_static hw hd h
    exact ⟨size, hs, hv, hle hhead⟩
  · obtain ⟨data, _, rfl⟩ := decodeValue_bytes_eq_ok.mp h
    exact ⟨wordSize, rfl, Nat.le_refl _, add_wordSize_le_of_readSize hpos⟩
  · obtain ⟨data, text, _, _, rfl⟩ := decodeValue_string_eq_ok.mp h
    exact ⟨wordSize, rfl, Nat.le_refl _, add_wordSize_le_of_readSize hpos⟩

/-- Values of flat types have no more leaves than the data has words. -/
theorem leavesOf_le_of_flat {types : List AbiType} (hw : ∀ t ∈ types, t.WellFormed)
    (flat : ∀ t ∈ types, t.Flat) {base : Bytes} {head : Nat} {values : List AbiValue}
    (hhead : head ≤ base.length) (h : decodeSequence types base head = .ok values) :
    head + wordSize * leavesOf values ≤ base.length := by
  induction types generalizing head values with
  | nil =>
    cases h
    exact hhead
  | cons t types ih =>
    obtain ⟨pos, v, next, rest, hpos, hv, hn, hr, rfl⟩ := decodeSequence_cons_eq_ok.mp h
    obtain ⟨size, hs, hleaves, hle⟩ := leaves_le_of_flat (hw t List.mem_cons_self)
      (flat t List.mem_cons_self) hhead hpos hv
    obtain ⟨size', hs', hadd⟩ := nextHead_eq_ok.mp hn
    obtain rfl := Option.some.inj (hs.symm.trans hs')
    obtain ⟨_, rfl⟩ := Size.add?_eq_some.mp hadd
    have hrest := ih (fun u hu => hw u (List.mem_cons_of_mem t hu))
      (fun u hu => flat u (List.mem_cons_of_mem t hu)) hle hr
    rw [leavesOf, Nat.mul_add]
    omega

/-- Values that are read have no more leaves than the words of the data allow for the type. -/
def AbiType.Bounded (t : AbiType) : Prop :=
  ∀ ⦃base : Bytes⦄ ⦃pos : Nat⦄ ⦃v : AbiValue⦄, decodeValue t base pos = .ok v →
    v.leaves ≤ t.capacity (base.length / wordSize)

theorem leavesOf_le_of_decodeSequence {types : List AbiType} (bounded : ∀ t ∈ types, t.Bounded)
    {base : Bytes} {head : Nat} {values : List AbiValue}
    (h : decodeSequence types base head = .ok values) :
    leavesOf values ≤ AbiType.capacities (base.length / wordSize) types := by
  induction types generalizing head values with
  | nil =>
    cases h
    exact Nat.zero_le _
  | cons t types ih =>
    obtain ⟨_, v, _, rest, _, hv, _, hr, rfl⟩ := decodeSequence_cons_eq_ok.mp h
    rw [leavesOf, AbiType.capacities]
    exact Nat.add_le_add (bounded t List.mem_cons_self hv)
      (ih (fun u hu => bounded u (List.mem_cons_of_mem t hu)) hr)

theorem leavesOf_le_of_decodeItems {element : AbiType} (bounded : element.Bounded) {count : Nat}
    {items : Bytes} {values : List AbiValue}
    (h : decodeSequence (List.replicate count element) items 0 = .ok values) :
    leavesOf values ≤ count * element.capacity (items.length / wordSize) := by
  rw [← AbiType.capacities_replicate]
  exact leavesOf_le_of_decodeSequence (List.forall_mem_replicate.mpr (Or.inr bounded)) h

theorem bounded_array {element : AbiType} (hw : element.WellFormed) (bounded : element.Bounded) :
    (AbiType.array element).Bounded := by
  intro base pos v h
  obtain ⟨count, items, size, values, _, hslice, hs, _, hle, hvalues, rfl⟩ :=
    decodeValue_array_eq_ok.mp h
  have hwords : items.length / wordSize ≤ base.length / wordSize :=
    Nat.div_le_div_right (length_of_sliceFrom hslice)
  rw [AbiValue.leaves, AbiType.capacity]
  cases hd : element.isDynamic with
  | true =>
    -- each item has an offset of its own, so there are no more items than words
    rw [headSize?_of_dynamic hd] at hs
    cases hs
    have hcount : count ≤ items.length / wordSize := (Nat.le_div_iff_mul_le (by decide)).mpr hle
    calc leavesOf values
        ≤ count * element.capacity (items.length / wordSize) :=
          leavesOf_le_of_decodeItems bounded hvalues
      _ ≤ base.length / wordSize * element.capacity (base.length / wordSize) :=
          Nat.mul_le_mul (hcount.trans hwords) (element.capacity_mono hwords)
  | false =>
    -- the items stand side by side, so what is written for them is part of the data
    obtain ⟨_, data, hdata, hpart⟩ :=
      encode_of_decodeItems (sized_of_wellFormed hw) (rewritten_of_wellFormed hw) hvalues
    have hleaves : wordSize * leavesOf values ≤ data.length := leavesOf_le_of_encode
      (List.forall_mem_replicate.mpr (Or.inr (weighs_of_wellFormed hw))) hdata
    refine Nat.le_trans ?_ hwords
    apply (Nat.le_div_iff_mul_le (by decide)).mpr
    rw [Nat.mul_comm]
    exact hleaves.trans (hpart hd).length_le

theorem bounded_of_wellFormed {t : AbiType} (hw : t.WellFormed) : t.Bounded := by
  induction t with
  | uint bits =>
    intro base pos v h
    obtain ⟨w, _, _, rfl⟩ := decodeValue_uint_eq_ok.mp h
    exact Nat.le_refl _
  | int bits =>
    intro base pos v h
    obtain ⟨w, _, _, rfl⟩ := (decodeValue_int_eq_ok hw.int_bits).mp h
    exact Nat.le_refl _
  | bool =>
    intro base pos v h
    obtain ⟨w, _, _, rfl⟩ := decodeValue_bool_eq_ok.mp h
    exact Nat.le_refl _
  | address =>
    intro base pos v h
    obtain ⟨w, a, _, _, rfl⟩ := decodeValue_address_eq_ok.mp h
    exact Nat.le_refl _
  | fixedBytes size =>
    intro base pos v h
    obtain ⟨w, _, _, rfl⟩ := decodeValue_fixedBytes_eq_ok.mp h
    exact Nat.le_refl _
  | bytes =>
    intro base pos v h
    obtain ⟨data, _, rfl⟩ := decodeValue_bytes_eq_ok.mp h
    exact Nat.le_refl _
  | string =>
    intro base pos v h
    obtain ⟨data, text, _, _, rfl⟩ := decodeValue_string_eq_ok.mp h
    exact Nat.le_refl _
  | array element ih => exact bounded_array hw.element (ih hw.element)
  | fixedArray element count ih =>
    intro base pos v h
    obtain ⟨items, _, values, hslice, _, _, _, _, hvalues, rfl⟩ :=
      decodeValue_fixedArray_eq_ok.mp h
    have hwords : items.length / wordSize ≤ base.length / wordSize :=
      Nat.div_le_div_right (length_of_sliceFrom hslice)
    rw [AbiValue.leaves, AbiType.capacity]
    exact (leavesOf_le_of_decodeItems (ih hw.fixedElement) hvalues).trans
      (Nat.mul_le_mul_left count (element.capacity_mono hwords))
  | tuple members ih =>
    intro base pos v h
    obtain ⟨items, values, hslice, hvalues, rfl⟩ := decodeValue_tuple_eq_ok.mp h
    have hwords : items.length / wordSize ≤ base.length / wordSize :=
      Nat.div_le_div_right (length_of_sliceFrom hslice)
    rw [AbiValue.leaves, AbiType.capacity]
    exact (leavesOf_le_of_decodeSequence (fun m hm => ih m hm (hw.member m hm)) hvalues).trans
      (AbiType.capacities_mono_of fun m _ => m.capacity_mono hwords)

/-- The items of an array that is read take, with their heads, no more room than there is data. -/
theorem length_mul_le_of_occurs {t element : AbiType} {v : AbiValue} {items : List AbiValue}
    {size : Nat} (hs : element.headSize? = some size)
    (ho : Occurs (.array element) (.array items) t v ∨
      ∃ count, Occurs (.fixedArray element count) (.fixedArray items) t v)
    {base : Bytes} {pos : Nat} (h : decodeValue t base pos = .ok v) :
    items.length * size ≤ base.length := by
  rcases ho with ho | ⟨count, ho⟩
  · obtain ⟨inner, start, hinner, ha⟩ := decodeValue_of_occurs ho h
    obtain ⟨n, rest, size', _, _, hslice, hs', _, hle, hitems, hv⟩ := decodeValue_array_eq_ok.mp ha
    cases hv
    obtain rfl := Option.some.inj (hs.symm.trans hs')
    rw [length_of_decodeItems hitems]
    exact hle.trans ((length_of_sliceFrom hslice).trans hinner)
  · obtain ⟨inner, start, hinner, ha⟩ := decodeValue_of_occurs ho h
    obtain ⟨_, size', _, hslice, hs', _, _, hle, hitems, hv⟩ := decodeValue_fixedArray_eq_ok.mp ha
    cases hv
    obtain rfl := Option.some.inj (hs.symm.trans hs')
    rw [length_of_decodeItems hitems, Nat.mul_comm]
    exact hle.trans ((length_of_sliceFrom hslice).trans hinner)

/-- What is read has no more leaves than there are words in what would be written for it, and no
more than the data allows for the types. For flat types that is the number of its words. -/
theorem decode_leaves_le {types : List AbiType} {data : Bytes} {values : List AbiValue}
    (readable : ∀ t ∈ types, ∃ text, AbiType.ofText text = .ok t)
    (read : decode types data = .ok values) :
    (∃ again, encode types values = .ok again ∧ wordSize * leavesOf values ≤ again.length) ∧
    ((∀ t ∈ types, t.Flat) → wordSize * leavesOf values ≤ data.length) ∧
    leavesOf values ≤ AbiType.capacities (data.length / wordSize) types ∧
    ∀ p ∈ types.zip values, ∀ element items size, element.headSize? = some size →
      (Occurs (.array element) (.array items) p.1 p.2 ∨
        ∃ count, Occurs (.fixedArray element count) (.fixedArray items) p.1 p.2) →
      items.length * size ≤ data.length := by
  have hw := AbiType.wellFormed_of_readable readable
  obtain ⟨_, hd⟩ := decode_eq_ok.mp read
  refine ⟨?_, ?_, ?_, ?_⟩
  · obtain ⟨again, he, _⟩ := encode_of_decodeSequence (fun t ht => sized_of_wellFormed (hw t ht))
      (fun t ht => rewritten_of_wellFormed (hw t ht)) hd
    exact ⟨again, he, leavesOf_le_of_encode (fun t ht => weighs_of_wellFormed (hw t ht)) he⟩
  · intro flat
    have hle := leavesOf_le_of_flat hw flat (Nat.zero_le _) hd
    rwa [Nat.zero_add] at hle
  · exact leavesOf_le_of_decodeSequence (fun t ht => bounded_of_wellFormed (hw t ht)) hd
  · intro p hp element items size hs ho
    obtain ⟨pos, hv⟩ := decodeValue_of_decodeSequence hd p hp
    exact length_mul_le_of_occurs hs ho hv

/-- Four rows of four numbers, all of which are read from the same place. -/
def sharedRows : Bytes :=
  (Word.ofNat 32).bytes ++ (Word.ofNat 4).bytes ++
    (List.replicate 4 (Word.ofNat 128).bytes).flatten ++
    (Word.ofNat 4).bytes ++ [1, 2, 3, 4].flatMap fun n => (Word.ofNat n).bytes

theorem length_sharedRows : sharedRows.length = 352 := by
  simp [sharedRows, Word.length_bytes, wordSize]

def rows : List AbiValue :=
  [.array (List.replicate 4 (.array [.uint 1, .uint 2, .uint 3, .uint 4]))]

theorem readable_rows :
    ∀ t ∈ [AbiType.array (.array (.uint 256))], ∃ text, AbiType.ofText text = .ok t := by
  intro t ht
  rw [List.mem_singleton.mp ht]
  exact ⟨"uint256[][]", by cbv⟩

set_option maxRecDepth 4000 in
theorem decode_sharedRows : decode [.array (.array (.uint 256))] sharedRows = .ok rows := by
  cbv

/-- They are within the bounds for eleven words. -/
theorem decode_leaves_le_rows :
    (∀ t ∈ [AbiType.array (.array (.uint 256))], ∃ text, AbiType.ofText text = .ok t) ∧
    decode [.array (.array (.uint 256))] sharedRows = .ok rows ∧ leavesOf rows = 16 ∧
    (∃ again, encode [.array (.array (.uint 256))] rows = .ok again ∧ 512 ≤ again.length) ∧
    leavesOf rows ≤ 11 * 11 := by
  obtain ⟨hagain, _, hbound, _⟩ := decode_leaves_le readable_rows decode_sharedRows
  rw [length_sharedRows] at hbound
  exact ⟨readable_rows, decode_sharedRows, rfl, hagain, hbound⟩

/-- And they have more leaves than the data has words. -/
theorem leaves_of_sharedRows :
    (∀ t ∈ [AbiType.array (.array (.uint 256))], ∃ text, AbiType.ofText text = .ok t) ∧
    decode [.array (.array (.uint 256))] sharedRows = .ok rows ∧
    sharedRows.length = 352 ∧ wordSize * leavesOf rows = 512 ∧
    ¬ wordSize * leavesOf rows ≤ sharedRows.length := by
  refine ⟨readable_rows, decode_sharedRows, length_sharedRows, rfl, ?_⟩
  rw [length_sharedRows]
  decide

end EvmInspect.Abi
