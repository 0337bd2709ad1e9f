import EvmInspect.Proofs.Decoding
import Mathlib.Tactic

namespace EvmInspect.Abi

section
variable {base more : Bytes} {pos : Nat}

theorem readWord_of_isPrefix {w : Word} (hp : base <+: more) (h : readWord base pos = .ok w) :
    readWord more pos = .ok w :=
  readWord_eq_ok.mpr ((readWord_eq_ok.mp h).trans (hp.drop pos))

theorem readSize_of_isPrefix {n : Nat} (hp : base <+: more) (h : readSize base pos = .ok n) :
    readSize more pos = .ok n := by
  obtain ⟨w, hw, hle, hn⟩ := readSize_eq_ok.mp h
  exact readSize_eq_ok.mpr ⟨w, readWord_of_isPrefix hp hw, hle.trans hp.length_le, hn⟩

theorem sliceFrom_of_isPrefix {rest : Bytes} (hp : base <+: more)
    (h : sliceFrom base pos = .ok rest) :
    ∃ longer, sliceFrom more pos = .ok longer ∧ rest <+: longer := by
  obtain ⟨hle, rfl⟩ := sliceFrom_eq_ok.mp h
  exact ⟨_, sliceFrom_eq_ok.mpr ⟨hle.trans hp.length_le, rfl⟩, hp.drop pos⟩

theorem readPayload_of_isPrefix {data : Bytes} (hp : base <+: more)
    (h : readPayload base pos = .ok data) : readPayload more pos = .ok data := by
  obtain ⟨length, hl, hle, rfl⟩ := readPayload_eq_ok.mp h
  refine readPayload_eq_ok.mpr ⟨length, readSize_of_isPrefix hp hl, hle.trans hp.length_le, ?_⟩
  obtain ⟨rest, rfl⟩ := hp
  have hstart : pos + wordSize ≤ base.length := by omega
  rw [List.drop_append_of_le_length hstart, List.take_append_of_le_length]
  rw [List.length_drop]
  omega

theorem locate_of_isPrefix {t : AbiType} {head : Nat} (hp : base <+: more)
    (h : locate t base head = .ok pos) : locate t more head = .ok pos := by
  unfold locate at h ⊢
  split
  · rename_i hd
    rw [if_pos hd] at h
    exact readSize_of_isPrefix hp h
  · rename_i hd
    rwa [if_neg hd] at h

end

/-- A value that is read is read as well if there is more data. -/
def AbiType.Stable (t : AbiType) : Prop :=
  ∀ ⦃base more : Bytes⦄ ⦃pos : Nat⦄ ⦃v : AbiValue⦄, base <+: more →
    decodeValue t base pos = .ok v → decodeValue t more pos = .ok v

theorem decodeSequence_of_isPrefix {types : List AbiType} (stable : ∀ t ∈ types, t.Stable)
    {base more : Bytes} {head : Nat} {values : List AbiValue} (hp : base <+: more)
    (h : decodeSequence types base head = .ok values) :
    decodeSequence types more head = .ok values := by
  induction types generalizing head values with
  | nil => exact h
  | cons t types ih =>
    obtain ⟨pos, v, next, rest, hpos, hv, hn, hr, rfl⟩ := decodeSequence_cons_eq_ok.mp h
    have hrest := ih (fun u hu => stable u (List.mem_cons_of_mem t hu)) hr
    exact decodeSequence_cons_eq_ok.mpr ⟨pos, v, next, rest, locate_of_isPrefix hp hpos,
      stable t List.mem_cons_self hp hv, hn, hrest, rfl⟩

/-- The items of an array, whose element type is stable. -/
theorem decodeItems_of_isPrefix {element : AbiType} (stable : element.Stable) {count : Nat}
    {base more : Bytes} {head : Nat} {values : List AbiValue} (hp : base <+: more)
    (h : decodeSequence (List.replicate count element) base head = .ok values) :
    decodeSequence (List.replicate count element) more head = .ok values :=
  decodeSequence_of_isPrefix (List.forall_mem_replicate.mpr (Or.inr stable)) hp h

theorem stable_array {element : AbiType} (stable : element.Stable) :
    (AbiType.array element).Stable := by
  intro base more pos v hp h
  obtain ⟨count, items, size, values, hc, hi, hs, hlt, hle, hv, rfl⟩ := decodeValue_array_eq_ok.mp h
  obtain ⟨longer, hl, hp'⟩ := sliceFrom_of_isPrefix hp hi
  exact decodeValue_array_eq_ok.mpr ⟨count, longer, size, values, readSize_of_isPrefix hp hc, hl,
    hs, hlt, hle.trans hp'.length_le, decodeItems_of_isPrefix stable hp' hv, rfl⟩

theorem stable_fixedArray {element : AbiType} {count : Nat} (stable : element.Stable) :
    (AbiType.fixedArray element count).Stable := by
  intro base more pos v hp h
  obtain ⟨items, size, values, hi, hs, hne, hlt, hle, hv, rfl⟩ := decodeValue_fixedArray_eq_ok.mp h
  obtain ⟨longer, hl, hp'⟩ := sliceFrom_of_isPrefix hp hi
  exact decodeValue_fixedArray_eq_ok.mpr ⟨longer, size, values, hl, hs, hne, hlt,
    hle.trans hp'.length_le, decodeItems_of_isPrefix stable hp' hv, rfl⟩

theorem stable_tuple {members : List AbiType} (stable : ∀ m ∈ members, m.Stable) :
    (AbiType.tuple members).Stable := by
  intro base more pos v hp h
  obtain ⟨items, values, hi, hv, rfl⟩ := decodeValue_tuple_eq_ok.mp h
  obtain ⟨longer, hl, hp'⟩ := sliceFrom_of_isPrefix hp hi
  exact decodeValue_tuple_eq_ok.mpr
    ⟨longer, values, hl, decodeSequence_of_isPrefix stable hp' hv, rfl⟩

/-- A type is stable if its values are seen from one word. -/
theorem stable_of_readWord {t : AbiType} {Seen : Word → AbiValue → Prop}
    (h : ∀ base pos v, decodeValue t base pos = .ok v ↔
      ∃ w, readWord base pos = .ok w ∧ Seen w v) : t.Stable := by
  intro base more pos v hp hv
  obtain ⟨w, hw, hseen⟩ := (h base pos v).mp hv
  exact (h more pos v).mpr ⟨w, readWord_of_isPrefix hp hw, hseen⟩

theorem AbiType.stable (t : AbiType) : t.Stable := by
  induction t with
  | uint bits => exact stable_of_readWord fun _ _ _ => decodeValue_uint_eq_ok
  | int bits => exact stable_of_readWord fun _ _ _ => decodeValue_int_eq_ok_bytes
  | bool => exact stable_of_readWord fun _ _ _ => decodeValue_bool_eq_ok
  | fixedBytes size => exact stable_of_readWord fun _ _ _ => decodeValue_fixedBytes_eq_ok
  | address =>
    intro base more pos v hp h
    obtain ⟨w, a, hw, hv⟩ := decodeValue_address_eq_ok.mp h
    exact decodeValue_address_eq_ok.mpr ⟨w, a, readWord_of_isPrefix hp hw, hv⟩
  | bytes =>
    intro base more pos v hp h
    obtain ⟨data, hd, hv⟩ := decodeValue_bytes_eq_ok.mp h
    exact decodeValue_bytes_eq_ok.mpr ⟨data, readPayload_of_isPrefix hp hd, hv⟩
  | string =>
    intro base more pos v hp h
    obtain ⟨data, text, hd, hv⟩ := decodeValue_string_eq_ok.mp h
    exact decodeValue_string_eq_ok.mpr ⟨data, text, readPayload_of_isPrefix hp hd, hv⟩
  | array element ih => exact stable_array ih
  | fixedArray element count ih => exact stable_fixedArray ih
  | tuple members ih => exact stable_tuple ih

/-- Bytes behind the data change none of the values that are read. -/
theorem decode_append {types : List AbiType} {values : List AbiValue} {data : Bytes}
    (read : decode types data = .ok values) (extra : Bytes) :
    decode types (data ++ extra) = .ok values := by
  obtain ⟨hne, hs⟩ := decode_eq_ok.mp read
  refine decode_eq_ok.mpr ⟨?_, ?_⟩
  · intro ht h
    exact hne ht (List.append_eq_nil_iff.mp h).1
  · exact decodeSequence_of_isPrefix (fun t _ => t.stable) (List.prefix_append data extra) hs

/-- An array of two byte strings in one place, the end of the data, beside a number. -/
def sharedTail : Bytes :=
  (Word.ofNat 64).bytes ++ (Word.ofNat 7).bytes ++ (Word.ofNat 2).bytes ++ (Word.ofNat 64).bytes ++
    (Word.ofNat 64).bytes ++ (Word.ofNat 2).bytes ++ [0x68, 0x69]

theorem decode_append_shared :
    ∃ values : List AbiValue,
      values = [.array [.bytes [0x68, 0x69], .bytes [0x68, 0x69]], .uint 7] ∧
      decode [.array .bytes, .uint 8] sharedTail = .ok values ∧
      decode [.array .bytes, .uint 8] (sharedTail ++ [0xff, 0x00]) = .ok values := by
  have read : decode [.array .bytes, .uint 8] sharedTail =
      .ok [.array [.bytes [0x68, 0x69], .bytes [0x68, 0x69]], .uint 7] := by
    cbv
  exact ⟨_, rfl, read, decode_append read _⟩

end EvmInspect.Abi
