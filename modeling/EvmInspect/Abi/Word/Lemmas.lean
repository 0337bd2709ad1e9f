import EvmInspect.Abi.Word
import Mathlib.Tactic

namespace EvmInspect.Abi

theorem numberOf_append (high low : Bytes) :
    numberOf (high ++ low) = numberOf high * 256 ^ low.length + numberOf low := by
  unfold numberOf
  rw [List.foldl_append]
  generalize List.foldl (fun n (b : UInt8) => n * 256 + b.toNat) 0 high = start
  induction low generalizing start with
  | nil => simp
  | cons b low ih =>
    simp only [List.foldl_cons, List.length_cons]
    rw [ih, ih (0 * 256 + b.toNat)]
    simp only [Nat.pow_succ, Nat.add_mul, Nat.zero_mul, Nat.zero_add]
    rw [Nat.mul_assoc start, Nat.mul_comm 256, Nat.add_assoc]

/-- The number of the last bytes of a number is what is left of it. -/
theorem numberOf_numberBytes (count n : Nat) :
    numberOf (numberBytes count n) = n % 256 ^ count := by
  induction count generalizing n with
  | zero => simp [numberBytes, numberOf, Nat.mod_one]
  | succ count ih =>
    rw [numberBytes, numberOf_append, ih]
    have hlow : numberOf [UInt8.ofNat (n % 256)] = n % 256 := by simp [numberOf]
    rw [hlow, Nat.pow_succ, Nat.mul_comm (256 ^ count) 256, Nat.mod_mul]
    simp only [List.length_cons, List.length_nil]
    omega

/-- The number that bytes denote has these bytes. -/
theorem numberBytes_numberOf (bytes : Bytes) :
    numberBytes bytes.length (numberOf bytes) = bytes := by
  rw [← bytes.reverse_reverse]
  generalize bytes.reverse = low
  induction low with
  | nil => rfl
  | cons b low ih =>
    have hb := b.toNat_lt
    have hlast : numberOf [b] = b.toNat := by simp [numberOf]
    rw [List.reverse_cons, numberOf_append, hlast, List.length_append, List.length_singleton,
      numberBytes]
    have hdiv : (numberOf low.reverse * 256 ^ 1 + b.toNat) / 256 = numberOf low.reverse := by omega
    have hmod : (numberOf low.reverse * 256 ^ 1 + b.toNat) % 256 = b.toNat := by omega
    rw [hdiv, hmod, ih, UInt8.ofNat_toNat]

theorem numberOf_lt (bytes : Bytes) : numberOf bytes < 256 ^ bytes.length := by
  rw [← bytes.reverse_reverse]
  generalize bytes.reverse = low
  induction low with
  | nil => simp [numberOf]
  | cons b low ih =>
    have hb := b.toNat_lt
    rw [List.reverse_cons, numberOf_append]
    simp only [List.length_append, List.length_cons, List.length_nil, Nat.pow_succ, numberOf,
      List.foldl_cons, List.foldl_nil] at ih ⊢
    omega

theorem numberOf_cons (b : UInt8) (rest : Bytes) :
    numberOf (b :: rest) = b.toNat * 256 ^ rest.length + numberOf rest := by
  have h := numberOf_append [b] rest
  have hb : numberOf [b] = b.toNat := by simp [numberOf]
  rwa [List.singleton_append, hb] at h

theorem numberOf_eq_zero {bytes : Bytes} : numberOf bytes = 0 ↔ ∀ b ∈ bytes, b = 0 := by
  induction bytes with
  | nil => simp [numberOf]
  | cons b rest ih =>
    rw [numberOf_cons, List.forall_mem_cons, Nat.add_eq_zero_iff, ih, Nat.mul_eq_zero,
      ← UInt8.toNat_inj]
    simp

/-- Only bytes that are all ones denote the last number of their length. -/
theorem numberOf_eq_last {bytes : Bytes} :
    numberOf bytes + 1 = 256 ^ bytes.length ↔ ∀ b ∈ bytes, b = 0xff := by
  induction bytes with
  | nil => simp [numberOf]
  | cons b rest ih =>
    have hlt := numberOf_lt rest
    have hbyte := b.toNat_lt
    have hff : b = 0xff ↔ b.toNat = 255 := by
      rw [← UInt8.toNat_inj]
      rfl
    rw [List.forall_mem_cons, ← ih, hff, numberOf_cons, List.length_cons, Nat.pow_succ]
    generalize 256 ^ rest.length = room at hlt ⊢
    constructor
    · intro h
      have hb : b.toNat = 255 := by
        by_contra hne
        have : b.toNat * room ≤ 254 * room := Nat.mul_le_mul_right _ (by omega)
        omega
      rw [hb] at h
      omega
    · rintro ⟨hb, hrest⟩
      rw [hb]
      omega

/-- The highest bit of some bytes is that of the first one. -/
theorem le_numberOf_iff {b : UInt8} {rest : Bytes} :
    2 ^ (8 * (b :: rest).length - 1) ≤ numberOf (b :: rest) ↔ 128 ≤ b.toNat := by
  have hlt := numberOf_lt rest
  have hpow : 2 ^ (8 * (b :: rest).length - 1) = 128 * 256 ^ rest.length := by
    have hexp : 8 * (b :: rest).length - 1 = 7 + 8 * rest.length := by
      rw [List.length_cons]
      omega
    rw [hexp, Nat.pow_add, Nat.pow_mul]
  rw [hpow, numberOf_cons]
  generalize 256 ^ rest.length = room at hlt ⊢
  constructor
  · intro h
    by_contra hb
    have : b.toNat * room ≤ 127 * room := Nat.mul_le_mul_right _ (by omega)
    omega
  · intro hb
    have : 128 * room ≤ b.toNat * room := Nat.mul_le_mul_right _ hb
    omega

theorem fitsUint_iff {bits n : Nat} : fitsUint bits n = true ↔ n < 2 ^ bits := by
  simp [fitsUint, Nat.one_shiftLeft]

theorem fitsInt_iff {bits : Nat} {n : Int} :
    fitsInt bits n = true ↔ -(2 ^ (bits - 1) : Nat) ≤ n ∧ n < (2 ^ (bits - 1) : Nat) := by
  simp [fitsInt, Nat.one_shiftLeft, and_comm]

namespace Word

theorem limit_eq : limit = 2 ^ 256 :=
  Nat.one_shiftLeft 256

theorem exists_split (w : Word) {n : Nat} (h : n < wordSize) :
    ∃ high b low, w.bytes = high ++ b :: low ∧ high.length = n ∧ low.length + n + 1 = wordSize := by
  have hlt : n < w.bytes.length := w.length_bytes ▸ h
  refine ⟨w.bytes.take n, w.bytes[n], w.bytes.drop (n + 1), ?_, ?_, ?_⟩
  · rw [← List.drop_eq_getElem_cons hlt, List.take_append_drop]
  · rw [List.length_take]
    omega
  · rw [List.length_drop, w.length_bytes]
    omega

/-- A word that was made of a number gives it back, if it is not too large. -/
theorem toNat_ofNat {n : Nat} (h : n < 2 ^ 256) : (ofNat n).toNat = n := by
  unfold toNat ofNat
  rw [numberOf_numberBytes]
  exact Nat.mod_eq_of_lt h

/-- The number of a word is made into that word. -/
theorem ofNat_toNat (w : Word) : ofNat w.toNat = w := by
  have h := numberBytes_numberOf w.bytes
  rw [w.length_bytes] at h
  cases w
  simp only [ofNat, toNat, mk.injEq]
  exact h

theorem toNat_lt (w : Word) : w.toNat < 2 ^ 256 := by
  have h := numberOf_lt w.bytes
  rw [w.length_bytes] at h
  exact h

/-- The signed number of a word is made into that word. -/
theorem ofInt_toInt (w : Word) : ofInt w.toInt = w := by
  have hlt := w.toNat_lt
  have hmod : (w.toInt % limit).toNat = w.toNat := by
    unfold toInt
    rw [limit_eq]
    split
    · omega
    · omega
  rw [ofInt, hmod, ofNat_toNat]

/-- A word gives back the signed number that it was made of, if it is not too large. -/
theorem toInt_ofInt {n : Int} (hl : -(2 ^ 255 : Int) ≤ n) (hu : n < (2 ^ 255 : Int)) :
    (ofInt n).toInt = n := by
  have hlt : (n % limit).toNat < 2 ^ 256 := by
    rw [limit_eq]
    omega
  unfold toInt ofInt
  rw [toNat_ofNat hlt, limit_eq]
  split <;> omega

end Word
end EvmInspect.Abi
