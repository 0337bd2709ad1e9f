import EvmInspect.Abi.Word.Lemmas
import EvmInspect.Proofs.HeadSizes
import EvmInspect.Text.Utf8.Lemmas

namespace EvmInspect.Abi

theorem take_drop_append (front middle rest : Bytes) :
    ((front ++ (middle ++ rest)).drop front.length).take middle.length = middle := by
  simp

theorem readWord_append (front : Bytes) (w : Word) (rest : Bytes) :
    readWord (front ++ (w.bytes ++ rest)) front.length = .ok w := by
  have hw : ((front ++ (w.bytes ++ rest)).drop front.length).take wordSize = w.bytes := by
    rw [← w.length_bytes, take_drop_append]
  simp only [readWord, hw, w.length_bytes, ↓reduceDIte]

/-- A number is read back as an offset or a length if it stays within the data. -/
theorem readSize_append {n : Nat} (front rest : Bytes) (hn : n < 2 ^ 256)
    (hle : n ≤ (front ++ ((Word.ofNat n).bytes ++ rest)).length) :
    readSize (front ++ ((Word.ofNat n).bytes ++ rest)) front.length = .ok n := by
  rw [readSize, readWord_append, except_bind_ok, Word.toNat_ofNat hn, if_pos hle]

theorem sliceFrom_append (front rest : Bytes) :
    sliceFrom (front ++ rest) front.length = .ok rest := by
  simp [sliceFrom]

theorem readPayload_append (front data rest : Bytes)
    (hlt : (front ++ (payload data ++ rest)).length < 2 ^ 256) :
    readPayload (front ++ (payload data ++ rest)) front.length = .ok data := by
  have hsize : (padWords data).length = data.length +
      (wordSize - data.length % wordSize) % wordSize := by simp [padWords]
  have htotal : (front ++ (payload data ++ rest)).length =
      front.length + (wordSize + (padWords data).length + rest.length) := by
    simp only [payload, List.length_append, Word.length_bytes]
  have hread : readSize (front ++ (payload data ++ rest)) front.length = .ok data.length := by
    have hle : data.length ≤ (front ++ (payload data ++ rest)).length := by omega
    rw [payload, List.append_assoc] at hle hlt ⊢
    exact readSize_append front (padWords data ++ rest) (by omega) hle
  rw [readPayload, hread, except_bind_ok]
  dsimp only
  rw [if_pos (by omega)]
  have hdata : front ++ (payload data ++ rest) =
      (front ++ (Word.ofNat data.length).bytes) ++ (data ++ (List.replicate
        ((wordSize - data.length % wordSize) % wordSize) 0 ++ rest)) := by
    simp only [payload, padWords, List.append_assoc]
  have hstart : front.length + wordSize = (front ++ (Word.ofNat data.length).bytes).length := by
    rw [List.length_append, Word.length_bytes]
  rw [hdata, hstart, take_drop_append]

/-- What is written for a value is read back wherever it stands. -/
def AbiType.Reads (t : AbiType) : Prop :=
  ∀ ⦃v : AbiValue⦄ ⦃data : Bytes⦄, encodeValue t v = .ok data → ∀ front rest : Bytes,
    (front ++ (data ++ rest)).length < 2 ^ 256 →
      decodeValue t (front ++ (data ++ rest)) front.length = .ok v

theorem reads_uint {bits : Nat} (hb : bits ≤ 256) : (AbiType.uint bits).Reads := by
  intro v data h front rest _
  obtain ⟨n, hv, hf, hd⟩ := encodeValue_uint_eq_ok.mp h
  have hn : n < 2 ^ 256 :=
    Nat.lt_of_lt_of_le (fitsUint_iff.mp hf) (Nat.pow_le_pow_right (by decide) hb)
  rw [hv, ← hd, decodeValue, readWord_append, except_bind_ok, Word.toNat_ofNat hn, if_pos hf]

theorem reads_int {bits : Nat} (hb : (8 ≤ bits ∧ bits ≤ 256) ∧ bits % 8 = 0) :
    (AbiType.int bits).Reads := by
  intro v data h front rest _
  obtain ⟨n, hv, hf, hd⟩ := (encodeValue_int_eq_ok hb).mp h
  obtain ⟨hl, hu⟩ := fitsInt_iff.mp hf
  have hpow : 2 ^ (bits - 1) ≤ 2 ^ 255 := Nat.pow_le_pow_right (by decide) (by omega)
  have hn : (Word.ofInt n).toInt = n := Word.toInt_ofInt (by omega) (by omega)
  rw [hv, ← hd, decodeValue, readWord_append, except_bind_ok, Word.continuesSign_eq hb, hn,
    if_pos hf]

theorem reads_bool : AbiType.bool.Reads := by
  intro v data h front rest _
  obtain ⟨b, hv, hd⟩ := encodeValue_bool_eq_ok.mp h
  have hb : b.toNat ≤ 1 := Bool.toNat_le b
  have hn : (Word.ofNat b.toNat).toNat = b.toNat := Word.toNat_ofNat (by omega)
  rw [hv, ← hd, decodeValue, readWord_append, except_bind_ok, hn, if_pos hb]
  cases b <;> rfl

theorem reads_address : AbiType.address.Reads := by
  intro v data h front rest _
  obtain ⟨a, hv, hd⟩ := encodeValue_address_eq_ok.mp h
  let w : Word := ⟨List.replicate 12 0 ++ a.bytes, by simp [a.length_bytes, wordSize]⟩
  have hw : data = w.bytes := hd.symm
  have hzero : (w.bytes.take 12).all (· == 0) = true := by simp [w]
  have hrest : w.bytes.drop 12 = a.bytes := by simp [w]
  rw [hv, hw, decodeValue, readWord_append, except_bind_ok, if_pos hzero]
  simp only [hrest]

theorem reads_fixedBytes {size : Nat} (hl : 1 ≤ size) (hu : size ≤ wordSize) :
    (AbiType.fixedBytes size).Reads := by
  intro v data h front rest _
  obtain ⟨bytes, hv, hs, hd⟩ := encodeValue_fixedBytes_eq_ok.mp h
  let w : Word := ⟨padWords bytes, length_padWords_of_le (by omega) (by omega)⟩
  have hw : data = w.bytes := hd.symm
  have hzero : (w.bytes.drop size).all (· == 0) = true := by simp [w, padWords, ← hs]
  have hfront : w.bytes.take size = bytes := by simp [w, padWords, ← hs]
  rw [hv, hw, decodeValue, readWord_append, except_bind_ok, if_pos hzero, hfront]

theorem reads_bytes : AbiType.bytes.Reads := by
  intro v data h front rest hlt
  obtain ⟨bytes, hv, hd⟩ := encodeValue_bytes_eq_ok.mp h
  subst hd
  rw [hv, decodeValue, readPayload_append front bytes rest hlt, except_bind_ok]

theorem reads_string : AbiType.string.Reads := by
  intro v data h front rest hlt
  obtain ⟨text, hv, hd⟩ := encodeValue_string_eq_ok.mp h
  subst hd
  rw [hv, decodeValue, readPayload_append front _ rest hlt, except_bind_ok,
    Text.Utf8.decode_encode]
  simp

end EvmInspect.Abi
