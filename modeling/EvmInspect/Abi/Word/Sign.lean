import EvmInspect.Abi.Word.Lemmas

namespace EvmInspect.Abi

/-- A number in two parts, of which the low one has a sign, is in the range of the low part exactly
if the high part is all zeros or all ones, as the sign is. -/
theorem signed_range_iff {high low half room : Nat} (hhigh : high < room) (hlow : low < 2 * half)
    (hroom : 256 ≤ room) (hall : room * (2 * half) = 2 ^ 256) {n : Int}
    (hn : n = if high * (2 * half) + low < 2 ^ 256 / 2 then ((high * (2 * half) + low : Nat) : Int)
      else ((high * (2 * half) + low : Nat) : Int) - (2 ^ 256 : Nat)) :
    (-(half : Int) ≤ n ∧ n < half) ↔ if half ≤ low then high + 1 = room else high = 0 := by
  have hmost : 256 * (2 * half) ≤ 2 ^ 256 := hall ▸ Nat.mul_le_mul_right _ hroom
  have hzeros : high = 0 → high * (2 * half) = 0 := by
    rintro rfl
    exact Nat.zero_mul _
  have hones : high + 1 = room → high * (2 * half) + 2 * half = 2 ^ 256 := by
    intro h
    rw [← hall, ← h, Nat.add_mul high 1, Nat.one_mul]
  -- anything between is a whole low part away from both ends
  have hbetween : high ≠ 0 → high + 1 ≠ room →
      2 * half ≤ high * (2 * half) ∧ high * (2 * half) + 2 * (2 * half) ≤ 2 ^ 256 := by
    intro h0 h1
    constructor
    · exact Nat.le_mul_of_pos_left _ (Nat.pos_of_ne_zero h0)
    · rw [← hall, ← Nat.add_mul]
      exact Nat.mul_le_mul_right _ (by omega)
  generalize high * (2 * half) = upper at *
  split at hn <;> split <;> omega

/-- A word holds a signed number of some bits if the bytes above them continue its sign. -/
theorem fitsInt_toInt_iff {w : Word} {high low : Bytes} (hw : w.bytes = high ++ low)
    (hh : high ≠ []) (hl : low ≠ []) :
    fitsInt (8 * low.length) w.toInt = true ↔
      ∀ b ∈ high, b = if 2 ^ (8 * low.length - 1) ≤ numberOf low then 0xff else 0 := by
  have hpos : 0 < high.length ∧ 0 < low.length :=
    ⟨List.length_pos_iff.mpr hh, List.length_pos_iff.mpr hl⟩
  have hhalf : 256 ^ low.length = 2 * 2 ^ (8 * low.length - 1) := by
    rw [← Nat.pow_succ', show (256 : Nat) = 2 ^ 8 from rfl, ← Nat.pow_mul]
    congr 1
    omega
  have hall : 256 ^ high.length * 256 ^ low.length = 2 ^ 256 := by
    rw [← Nat.pow_add, ← List.length_append, ← hw, w.length_bytes]
    rfl
  have hlow := numberOf_lt low
  rw [hhalf] at hall hlow
  have hn : w.toNat = numberOf high * (2 * 2 ^ (8 * low.length - 1)) + numberOf low := by
    rw [Word.toNat, hw, numberOf_append, hhalf]
  have hroom : 256 ≤ 256 ^ high.length := Nat.le_self_pow (by omega) 256
  rw [fitsInt_iff, signed_range_iff (numberOf_lt high) hlow hroom hall (by
    rw [Word.toInt, Word.limit_eq, hn])]
  split
  · exact numberOf_eq_last
  · exact numberOf_eq_zero

theorem and_sign_iff {b : UInt8} : (b &&& 0x80 != 0) = true ↔ 128 ≤ b.toNat := by
  have h : ∀ x : BitVec 8, x &&& 0x80#8 ≠ 0#8 ↔ 128 ≤ x.toNat := by decide +kernel
  rw [bne_iff_ne, Ne, ← UInt8.toBitVec_inj]
  exact h b.toBitVec

namespace Word

/-- A word splits where its low bytes begin. -/
theorem continuesSign_split {w : Word} {high rest : Bytes} {first : UInt8}
    (hw : w.bytes = high ++ first :: rest) :
    w.continuesSign (8 * (first :: rest).length) =
      high.all (· == if first &&& 0x80 != 0 then 0xff else 0) := by
  have habove : wordSize - 8 * (first :: rest).length / 8 = high.length := by
    rw [Nat.mul_div_cancel_left _ (by decide), ← w.length_bytes, hw, List.length_append,
      Nat.add_sub_cancel]
  rw [continuesSign, habove, hw, List.take_left]
  simp

theorem fitsInt_toInt (w : Word) : fitsInt 256 w.toInt = true := by
  have hlt := w.toNat_lt
  rw [fitsInt_iff, toInt, limit_eq]
  split <;> omega

/-- For the widths that numbers can have, the bytes tell the range. -/
theorem continuesSign_eq {bits : Nat} (hb : (8 ≤ bits ∧ bits ≤ 256) ∧ bits % 8 = 0) (w : Word) :
    w.continuesSign bits = fitsInt bits w.toInt := by
  obtain ⟨width, rfl⟩ : ∃ width, bits = 8 * width := ⟨bits / 8, by omega⟩
  by_cases hfull : wordSize ≤ width
  · obtain rfl : width = 32 := by
      unfold wordSize at hfull
      omega
    rw [w.fitsInt_toInt]
    rfl
  · obtain ⟨high, first, rest, hw, hhigh, hrest⟩ := w.exists_split
      (show wordSize - width < wordSize by omega)
    obtain rfl : width = (first :: rest).length := by
      rw [List.length_cons]
      omega
    have hne : high ≠ [] := by
      rw [← List.length_pos_iff]
      omega
    rw [continuesSign_split hw, Bool.eq_iff_iff, List.all_eq_true,
      fitsInt_toInt_iff hw hne (List.cons_ne_nil first rest)]
    simp only [and_sign_iff, le_numberOf_iff, beq_iff_eq]

/-- A number is in range exactly if it has a word at all and the bytes of the word say so. -/
theorem continuesSign_ofInt {bits : Nat} (hb : (8 ≤ bits ∧ bits ≤ 256) ∧ bits % 8 = 0) (n : Int) :
    (fitsInt 256 n && (ofInt n).continuesSign bits) = fitsInt bits n := by
  rw [continuesSign_eq hb, Bool.eq_iff_iff, Bool.and_eq_true]
  have hpow : 2 ^ (bits - 1) ≤ 2 ^ 255 := Nat.pow_le_pow_right (by decide) (by omega)
  constructor
  · rintro ⟨hword, hbits⟩
    obtain ⟨hl, hu⟩ := fitsInt_iff.mp hword
    rwa [toInt_ofInt (by omega) (by omega)] at hbits
  · intro hbits
    obtain ⟨hl, hu⟩ := fitsInt_iff.mp hbits
    have hword : fitsInt 256 n = true := fitsInt_iff.mpr ⟨by omega, by omega⟩
    rw [toInt_ofInt (by omega) (by omega)]
    exact ⟨hword, hbits⟩

end Word

end EvmInspect.Abi
