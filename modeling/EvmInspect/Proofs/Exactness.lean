import EvmInspect.Proofs.Recoding

namespace EvmInspect.Abi

/-- Something is wrong with a value of a static type that stands at the beginning of some bytes, or
with an item of it. -/
inductive Fault : AbiType → Bytes → Prop
  | missing {t : AbiType} {size : Nat} {data : Bytes} :
    t.headSize? = some size → data.length < size → Fault t data
  | uint {bits : Nat} {w : Word} {rest : Bytes} :
    2 ^ bits ≤ w.toNat → Fault (.uint bits) (w.bytes ++ rest)
  | int {bits : Nat} {w : Word} {rest : Bytes} :
    w.toInt < -(2 ^ (bits - 1)) ∨ 2 ^ (bits - 1) ≤ w.toInt → Fault (.int bits) (w.bytes ++ rest)
  | sign {bits i : Nat} {w : Word} {rest : Bytes} :
    bits ≤ i → i < 256 → w.toNat.testBit i ≠ w.toNat.testBit (bits - 1) →
      Fault (.int bits) (w.bytes ++ rest)
  | bool {w : Word} {rest : Bytes} : 1 < w.toNat → Fault .bool (w.bytes ++ rest)
  | address {b : UInt8} {w : Word} {rest : Bytes} :
    b ∈ w.bytes.take 12 → b ≠ 0 → Fault .address (w.bytes ++ rest)
  | fixedBytes {size : Nat} {b : UInt8} {w : Word} {rest : Bytes} :
    b ∈ w.bytes.drop size → b ≠ 0 → Fault (.fixedBytes size) (w.bytes ++ rest)
  | fixedArray {element : AbiType} {count size i : Nat} {data : Bytes} :
    element.headSize? = some size → i < count → Fault element (data.drop (i * size)) →
      Fault (.fixedArray element count) data
  | tuple {members before after : List AbiType} {member : AbiType} {start : Nat} {data : Bytes} :
    members = before ++ member :: after → AbiType.headSizes? 0 before = some start →
      Fault member (data.drop start) → Fault (.tuple members) data

/-- A signed number that fits some bits is continued with its sign. -/
theorem testBit_of_fitsInt {bits i : Nat} {w : Word} (hf : fitsInt bits w.toInt)
    (hl : bits - 1 ≤ i) (hu : i < 256) : w.toNat.testBit i = !decide (w.toNat < 2 ^ 255) := by
  obtain ⟨hlow, hhigh⟩ := fitsInt_iff.mp hf
  have hlt := w.toNat_lt
  unfold Word.toInt at hlow hhigh
  rw [Word.limit_eq] at hlow hhigh
  split at hlow
  · rename_i hpos
    rw [if_pos hpos] at hhigh
    have hn : w.toNat < 2 ^ i :=
      Nat.lt_of_lt_of_le (by omega) (Nat.pow_le_pow_right (by decide) hl)
    rw [Nat.testBit_lt_two_pow hn]
    simp
    omega
  · rename_i hneg
    rw [if_neg hneg] at hhigh
    -- a negative number is all ones, less a number that has none of these bits
    obtain ⟨m, hm⟩ : ∃ m, w.toNat = 2 ^ 256 - (m + 1) := ⟨2 ^ 256 - w.toNat - 1, by omega⟩
    have hbound : m < 2 ^ (bits - 1) := by omega
    have hn : m < 2 ^ i := Nat.lt_of_lt_of_le hbound (Nat.pow_le_pow_right (by decide) hl)
    have hmore : ¬ 2 ^ 256 - (m + 1) < 2 ^ 255 := by omega
    rw [hm, Nat.testBit_two_pow_sub_succ (by omega), Nat.testBit_lt_two_pow hn]
    simp only [hu, hmore, decide_true, decide_false, Bool.not_false, Bool.and_self]

/-- A static value in a sequence is read where the heads before it end. -/
theorem decodeValue_of_split {before after : List AbiType} {t : AbiType} {base : Bytes} {head : Nat}
    {values : List AbiValue} (hs : t.isDynamic = false)
    (h : decodeSequence (before ++ t :: after) base head = .ok values) :
    ∃ start v, AbiType.headSizes? head before = some start ∧ decodeValue t base start = .ok v := by
  induction before generalizing head values with
  | nil =>
    obtain ⟨pos, v, _, _, hpos, hv, _⟩ := decodeSequence_cons_eq_ok.mp h
    rw [locate_static hs] at hpos
    cases hpos
    exact ⟨head, v, rfl, hv⟩
  | cons u before ih =>
    obtain ⟨_, _, next, _, _, _, hn, hr, _⟩ := decodeSequence_cons_eq_ok.mp h
    obtain ⟨size, hsize, hadd⟩ := nextHead_eq_ok.mp hn
    obtain ⟨hlimit, rfl⟩ := Size.add?_eq_some.mp hadd
    obtain ⟨start, v, hstart, hv⟩ := ih hr
    exact ⟨start, v, headSizes?_cons_eq_some.mpr ⟨size, hsize, hlimit, hstart⟩, hv⟩

/-- The item with a number stands behind as many items. -/
theorem decodeValue_of_item {element : AbiType} {count size i : Nat} {base : Bytes}
    {values : List AbiValue} (hs : element.isDynamic = false)
    (hsize : element.headSize? = some size) (hi : i < count)
    (h : decodeSequence (List.replicate count element) base 0 = .ok values) :
    ∃ v, decodeValue element base (i * size) = .ok v := by
  have hsplit : List.replicate count element =
      List.replicate i element ++ element :: List.replicate (count - i - 1) element := by
    rw [← List.replicate_succ, List.replicate_append_replicate]
    congr 1
    omega
  rw [hsplit] at h
  obtain ⟨start, v, hstart, hv⟩ := decodeValue_of_split hs h
  obtain ⟨he, _⟩ := headSizes?_replicate hsize hstart
  rw [Nat.zero_add] at he
  exact ⟨v, he ▸ hv⟩

/-- The word that is read is the one that stands there. -/
theorem eq_of_readWord {base rest : Bytes} {pos : Nat} {w word : Word}
    (hb : base.drop pos = w.bytes ++ rest) (h : readWord base pos = .ok word) : w = word := by
  have hw : readWord base pos = .ok w := readWord_eq_ok.mpr (hb ▸ List.prefix_append _ _)
  exact Except.ok.inj (hw.symm.trans h)

/-- A value with a fault is not read. -/
theorem decodeValue_ne_ok_of_fault {t : AbiType} {data : Bytes} (h : Fault t data)
    (hw : t.WellFormed) (hs : t.isDynamic = false) {base : Bytes} {pos : Nat}
    (hb : base.drop pos = data) (v : AbiValue) : decodeValue t base pos ≠ .ok v := by
  intro hv
  induction h generalizing base pos v with
  | missing hsize hlt =>
    obtain ⟨bytes, he, hbegins⟩ := rewritten_of_wellFormed hw hv
    have hle := (hbegins hs).length_le
    rw [sized_of_wellFormed hw hs he] at hsize
    obtain rfl := Option.some.inj hsize
    rw [hb] at hle
    omega
  | uint hover =>
    obtain ⟨w, hword, hf, _⟩ := decodeValue_uint_eq_ok.mp hv
    obtain rfl := eq_of_readWord hb hword
    have := fitsUint_iff.mp hf
    omega
  | int hover =>
    obtain ⟨w, hword, hf, _⟩ := (decodeValue_int_eq_ok hw.int_bits).mp hv
    obtain rfl := eq_of_readWord hb hword
    have := fitsInt_iff.mp hf
    push_cast at this
    omega
  | sign hl hu hne =>
    obtain ⟨w, hword, hf, _⟩ := (decodeValue_int_eq_ok hw.int_bits).mp hv
    obtain rfl := eq_of_readWord hb hword
    have hbits := hw.isSound
    simp only [AbiType.isSound, Bool.and_eq_true, decide_eq_true_eq] at hbits
    refine hne ?_
    rw [testBit_of_fitsInt hf (by omega) hu, testBit_of_fitsInt hf (Nat.le_refl _) (by omega)]
  | bool hover =>
    obtain ⟨w, hword, hle, _⟩ := decodeValue_bool_eq_ok.mp hv
    obtain rfl := eq_of_readWord hb hword
    omega
  | address hmem hne =>
    obtain ⟨w, a, hword, hbytes, _⟩ := decodeValue_address_eq_ok.mp hv
    obtain rfl := eq_of_readWord hb hword
    rw [hbytes, List.take_left' (List.length_replicate ..)] at hmem
    exact hne (List.eq_of_mem_replicate hmem)
  | fixedBytes hmem hne =>
    obtain ⟨w, hword, hz, _⟩ := decodeValue_fixedBytes_eq_ok.mp hv
    obtain rfl := eq_of_readWord hb hword
    exact hne (hz _ hmem)
  | fixedArray hsize hi _ ih =>
    obtain ⟨_, _, items, hslice, _, _, _, _, hitems, _⟩ := decodeValue_fixedArray_eq_ok.mp hv
    obtain ⟨_, rfl⟩ := sliceFrom_eq_ok.mp hslice
    rw [AbiType.isDynamic] at hs
    obtain ⟨item, hitem⟩ := decodeValue_of_item hs hsize hi hitems
    exact ih hw.fixedElement hs (by rw [hb]) item hitem
  | tuple hsplit hstart _ ih =>
    subst hsplit
    obtain ⟨_, items, hslice, hitems, _⟩ := decodeValue_tuple_eq_ok.mp hv
    obtain ⟨_, rfl⟩ := sliceFrom_eq_ok.mp hslice
    rw [AbiType.isDynamic, anyDynamic_eq_any, List.any_append, List.any_cons, Bool.or_eq_false_iff,
      Bool.or_eq_false_iff] at hs
    obtain ⟨start, item, hstart', hitem⟩ := decodeValue_of_split hs.2.1 hitems
    obtain rfl := Option.some.inj (hstart.symm.trans hstart')
    exact ih (hw.member _ (by simp)) hs.2.1 (by rw [hb]) item hitem

/-- What is read of static types is what would be written, up to the end of the head. -/
theorem encode_of_decode_static {types : List AbiType} {values : List AbiValue} {data : Bytes}
    (hw : ∀ t ∈ types, t.WellFormed) (hs : AbiType.anyDynamic types = false)
    (h : decode types data = .ok values) :
    ∃ size, AbiType.headSizes? 0 types = some size ∧ size ≤ data.length ∧
      encode types values = .ok (data.take size) := by
  have sized : ∀ t ∈ types, t.Sized := fun t ht => sized_of_wellFormed (hw t ht)
  obtain ⟨_, hd⟩ := decode_eq_ok.mp h
  obtain ⟨written, he, hbegins⟩ :=
    encode_of_decodeSequence sized (fun t ht => rewritten_of_wellFormed (hw t ht)) hd
  have hp := hbegins hs
  refine ⟨written.length, headSizes?_of_encode sized hs he, hp.length_le, ?_⟩
  rw [he, ← List.prefix_iff_eq_take.mp hp]

/-- A parameter list with a fault, seen as a tuple, is not read. -/
theorem decode_of_fault {types : List AbiType} {data : Bytes} (hw : ∀ t ∈ types, t.WellFormed)
    (hs : AbiType.anyDynamic types = false) (h : Fault (.tuple types) data) :
    ∃ e, decode types data = .error e := by
  cases hd : decode types data with
  | error e => exact ⟨e, rfl⟩
  | ok values =>
    obtain ⟨_, hd⟩ := decode_eq_ok.mp hd
    have hv : decodeValue (.tuple types) data 0 = .ok (.tuple values) :=
      decodeValue_tuple_eq_ok.mpr
        ⟨data, values, sliceFrom_eq_ok.mpr ⟨Nat.zero_le _, rfl⟩, hd, rfl⟩
    have htuple : (AbiType.tuple types).WellFormed := by
      refine AbiType.WellFormed.tuple hw ?_
      cases types with
      | cons t types => rfl
      | nil =>
        -- without types there is no byte to be missing and no value to be wrong
        cases h with
        | missing hsize hlt =>
          cases hsize
          cases hlt
        | tuple hsplit => simp at hsplit
    exact absurd hv (decodeValue_ne_ok_of_fault h htuple hs rfl _)

/-- Data of static types is read without loss: its head is what is written for the values, and any
other data that is read as the same values has the same head. A head with a fault is refused. -/
theorem decode_static_exact {types : List AbiType}
    (readable : ∀ t ∈ types, ∃ text, AbiType.ofText text = .ok t)
    (static : ∀ t ∈ types, t.isDynamic = false) (data : Bytes) :
    (∀ values, decode types data = .ok values →
      ∃ size, AbiType.headSizes? 0 types = some size ∧ size ≤ data.length ∧
        encode types values = .ok (data.take size) ∧
        ∀ other, decode types other = .ok values → other.take size = data.take size) ∧
    (Fault (.tuple types) data → ∃ e, decode types data = .error e) := by
  have hw := AbiType.wellFormed_of_readable readable
  have hs : AbiType.anyDynamic types = false := by
    rw [anyDynamic_eq_any, List.any_eq_false]
    intro t ht
    simp [static t ht]
  refine ⟨?_, decode_of_fault hw hs⟩
  intro values read
  obtain ⟨size, hsize, hle, he⟩ := encode_of_decode_static hw hs read
  refine ⟨size, hsize, hle, he, ?_⟩
  intro other again
  obtain ⟨size', hsize', _, he'⟩ := encode_of_decode_static hw hs again
  obtain rfl := Option.some.inj (hsize.symm.trans hsize')
  exact Except.ok.inj (he'.symm.trans he)

def pairAndBytes : List AbiType :=
  [.tuple [.int 16, .bool], .fixedArray (.fixedBytes 3) 2]

/-- Data for them, with a number in place of the boolean and a byte behind the head. -/
def pairData (bit : Nat) : Bytes :=
  (Word.ofInt (-2)).bytes ++ ((Word.ofNat bit).bytes ++
    (padWords [1, 2, 3] ++ (padWords [4, 5, 6] ++ [0xff])))

theorem decode_static_exact_pair :
    ∃ values : List AbiValue,
      values = [.tuple [.int (-2), .bool true],
        .fixedArray [.fixedBytes [1, 2, 3], .fixedBytes [4, 5, 6]]] ∧
      decode pairAndBytes (pairData 1) = .ok values ∧
      encode pairAndBytes values = .ok ((pairData 1).take 128) ∧
      ∃ e, decode pairAndBytes (pairData 2) = .error e := by
  have readable : ∀ t ∈ pairAndBytes, ∃ text, AbiType.ofText text = .ok t := by
    intro t ht
    simp only [pairAndBytes, List.mem_cons, List.not_mem_nil, or_false] at ht
    rcases ht with rfl | rfl
    · exact ⟨"(int16,bool)", by cbv⟩
    · exact ⟨"bytes3[2]", by cbv⟩
  have static : ∀ t ∈ pairAndBytes, t.isDynamic = false := by decide
  have read : decode pairAndBytes (pairData 1) = .ok [.tuple [.int (-2), .bool true],
      .fixedArray [.fixedBytes [1, 2, 3], .fixedBytes [4, 5, 6]]] := by
    cbv
  obtain ⟨size, hsize, _, he, _⟩ := (decode_static_exact readable static (pairData 1)).1 _ read
  obtain rfl : 128 = size := Option.some.inj hsize
  -- the word behind the first is two, which is no boolean
  have two : Fault .bool ((pairData 2).drop 32) := .bool (w := Word.ofNat 2) (by decide)
  have members : [AbiType.int 16, .bool] = [.int 16] ++ .bool :: [] := rfl
  have types : pairAndBytes =
    [] ++ .tuple [.int 16, .bool] :: [.fixedArray (.fixedBytes 3) 2] := rfl
  have fault : Fault (.tuple pairAndBytes) (pairData 2) :=
    .tuple types rfl (.tuple members rfl two)
  exact ⟨_, rfl, read, he, (decode_static_exact readable static (pairData 2)).2 fault⟩

end EvmInspect.Abi
