import EvmInspect.Abi.Decode.Ranged
import EvmInspect.Proofs.Decoding

namespace EvmInspect.Abi

namespace Ranged

theorem report_ok {α : Type} (a : α) : report (.ok a) = .ok a :=
  rfl

theorem report_ne_crashed {α : Type} (x : Except AbiError α) (c : Crash) :
    report x ≠ .error (.crashed c) := by
  intro h
  cases x with
  | ok a => cases h
  | error e => cases h

/-- What follows a computation may count on its having succeeded. -/
theorem report_bind {α β : Type} {x : Except AbiError α} {f : α → Except Halt β}
    {g : α → Except AbiError β} (h : ∀ a, x = .ok a → f a = report (g a)) :
    report x >>= f = report (x >>= g) := by
  cases x with
  | error e => rfl
  | ok a => exact h a rfl

theorem report_ite {α : Type} {c : Prop} [Decidable c] {x : Except Halt α} {y : Except AbiError α}
    {e : AbiError} (h : c → x = report y) :
    (if c then x else report (.error e)) = report (if c then y else .error e) := by
  split
  · exact h (by assumption)
  · rfl

theorem add_of_lt {a b : Nat} (h : a + b < Size.limit) : add a b = .ok (a + b) := by
  rw [add, if_pos h]

theorem sub_of_le {a b : Nat} (h : b ≤ a) : sub a b = .ok (a - b) := by
  rw [sub, if_pos h]

theorem byteAt_append (front : Bytes) (b : UInt8) (rest : Bytes) :
    byteAt (front ++ b :: rest) front.length = .ok b := by
  simp [byteAt]

theorem copy_of_length {room : Nat} {bytes : Bytes} (h : bytes.length = room) :
    copy room bytes = .ok ⟨bytes, h⟩ := by
  rw [copy, dif_pos h]

theorem slice?_of_le {bytes : Bytes} {first stop : Nat} (hf : first ≤ stop)
    (hs : stop ≤ bytes.length) :
    slice? bytes first stop = some ((bytes.drop first).take (stop - first)) := by
  rw [slice?, if_pos ⟨hf, hs⟩, List.drop_take]

theorem slice_of_le {bytes : Bytes} {first stop : Nat} (hf : first ≤ stop)
    (hs : stop ≤ bytes.length) :
    slice bytes first stop = .ok ((bytes.drop first).take (stop - first)) := by
  rw [slice, slice?_of_le hf hs]

theorem lt_limit {n : Nat} (h : n < 2 ^ 63) : n < Size.limit :=
  Nat.lt_trans h (by decide)

/-- The first bytes of a word. -/
theorem slice_take (w : Word) {stop : Nat} (hs : stop ≤ wordSize) :
    slice w.bytes 0 stop = .ok (w.bytes.take stop) := by
  rw [slice_of_le (Nat.zero_le _) (by rw [w.length_bytes]; exact hs)]
  rfl

/-- The last bytes of a word. -/
theorem slice_drop (w : Word) {first : Nat} (hf : first ≤ wordSize) :
    slice w.bytes first wordSize = .ok (w.bytes.drop first) := by
  rw [slice_of_le hf (by rw [w.length_bytes])]
  rw [List.take_of_length_le (by rw [List.length_drop, w.length_bytes])]

/-- A slice whose end is a checked sum. -/
theorem slice?_of_add? {base : Bytes} {pos count : Nat} (short : base.length < Size.limit) :
    (Size.add? pos count >>= slice? base pos) =
      if pos + count ≤ base.length then some ((base.drop pos).take count) else none := by
  by_cases h : pos + count ≤ base.length
  · have hadd : Size.add? pos count = some (pos + count) := Size.add?_eq_some.mpr ⟨by omega, rfl⟩
    rw [if_pos h, hadd]
    show slice? base pos (pos + count) = _
    rw [slice?_of_le (by omega) h, Nat.add_sub_cancel_left]
  · rw [if_neg h]
    cases hadd : Size.add? pos count with
    | none => rfl
    | some stop =>
      obtain ⟨_, rfl⟩ := Size.add?_eq_some.mp hadd
      show slice? base pos (pos + count) = none
      rw [slice?, if_neg (fun hs => h hs.2)]

theorem any_ne_zero {bytes : Bytes} : bytes.any (· != 0) = true ↔ numberOf bytes ≠ 0 := by
  rw [Ne, numberOf_eq_zero]
  simp

theorem any_eq_not_all (bytes : Bytes) : bytes.any (· != 0) = !bytes.all (· == 0) := by
  rw [List.not_all_eq_any_not]
  rfl

/-- The sign of a number of a width that is allowed can be looked up. -/
theorem continuesSign_eq {bits : Nat} (hb : (8 ≤ bits ∧ bits ≤ 256) ∧ bits % 8 = 0) (w : Word) :
    continuesSign bits w = .ok (w.continuesSign bits) := by
  have hlength : w.bytes.length = 32 := w.length_bytes
  rw [continuesSign, Word.continuesSign]
  by_cases hfull : wordSize ≤ bits / 8
  · rw [if_pos hfull, Nat.sub_eq_zero_of_le hfull]
    rfl
  · have habove : wordSize - bits / 8 < w.bytes.length := by
      unfold wordSize at hfull ⊢
      omega
    have hfirst : byteAt w.bytes (wordSize - bits / 8) =
        .ok (w.bytes.getD (wordSize - bits / 8) 0) := by
      simp only [byteAt, List.getD_eq_getElem?_getD, List.getElem?_eq_getElem habove,
        Option.getD_some]
    rw [if_neg hfull, sub_of_le (by omega), except_bind_ok, hfirst, except_bind_ok,
      slice_take w (Nat.sub_le _ _), except_bind_ok]

theorem sliceFrom_eq (base : Bytes) (pos : Nat) :
    sliceFrom base pos = report (Abi.sliceFrom base pos) := by
  rw [sliceFrom, Abi.sliceFrom]
  by_cases h : pos ≤ base.length
  · have hall : (base.drop pos).take (base.length - pos) = base.drop pos :=
      List.take_of_length_le (by rw [List.length_drop])
    rw [slice?_of_le h (Nat.le_refl _), hall, if_pos h]
    rfl
  · rw [slice?, if_neg (fun hs => h hs.1), if_neg h]

section
variable {base : Bytes} (short : base.length < 2 ^ 63) (pos : Nat)
include short

theorem readWord_eq : readWord base pos = report (Abi.readWord base pos) := by
  have hlength : ((base.drop pos).take wordSize).length = wordSize ↔
      pos + wordSize ≤ base.length := by
    rw [List.length_take, List.length_drop]
    unfold wordSize
    omega
  rw [readWord, slice?_of_add? (lt_limit short), Abi.readWord]
  by_cases h : pos + wordSize ≤ base.length
  · have hw := hlength.mpr h
    simp only [if_pos h, copy_of_length hw, hw, ↓reduceDIte, except_bind_ok, report_ok]
  · have hw := mt hlength.mp h
    simp only [if_neg h, hw, ↓reduceDIte]

/-- A number whose high bytes count points outside any data. -/
theorem readSize_eq : readSize base pos = report (Abi.readSize base pos) := by
  rw [readSize, readWord_eq short, Abi.readSize]
  apply report_bind
  intro w _
  have hlow : (w.bytes.drop (wordSize - 8)).length = 8 := by
    rw [List.length_drop, w.length_bytes]
    rfl
  have hn : w.toNat = numberOf (w.bytes.take (wordSize - 8)) * 2 ^ 64 +
      numberOf (w.bytes.drop (wordSize - 8)) := by
    have h := numberOf_append (w.bytes.take (wordSize - 8)) (w.bytes.drop (wordSize - 8))
    rwa [List.take_append_drop, hlow] at h
  rw [slice_take w (by decide), except_bind_ok, slice_drop w (by decide)]
  split
  · rename_i hany
    have hne := any_ne_zero.mp hany
    rw [if_neg]
    omega
  · rename_i hany
    have hzero : numberOf (w.bytes.take (wordSize - 8)) = 0 := by
      by_contra hne
      exact hany (any_ne_zero.mpr hne)
    rw [hzero, Nat.zero_mul, Nat.zero_add] at hn
    simp only [except_bind_ok, copy_of_length hlow, ← hn]
    exact report_ite fun _ => rfl

/-- Behind a word that was read there is a position. -/
theorem add_of_readSize {n : Nat} (h : Abi.readSize base pos = .ok n) :
    add pos wordSize = .ok (pos + wordSize) := by
  apply add_of_lt
  exact Nat.lt_of_le_of_lt (add_wordSize_le_of_readSize h) (lt_limit short)

theorem readPayload_eq : readPayload base pos = report (Abi.readPayload base pos) := by
  rw [readPayload, readSize_eq short, Abi.readPayload]
  apply report_bind
  intro length hl
  rw [add_of_readSize short pos hl, except_bind_ok, slice?_of_add? (lt_limit short)]
  dsimp only
  by_cases h : pos + wordSize + length ≤ base.length
  · rw [if_pos h, if_pos h]
    rfl
  · rw [if_neg h, if_neg h]

theorem locate_eq (t : AbiType) : locate t base pos = report (Abi.locate t base pos) := by
  rw [locate, Abi.locate]
  split
  · exact readSize_eq short pos
  · rfl

end

theorem readEach_eq {t : AbiType} {valueAt : Nat → Except AbiError AbiValue}
    {valueAt' : Nat → Except Halt AbiValue} (h : ∀ head, valueAt' head = report (valueAt head))
    (count head : Nat) :
    readEach t valueAt' count head = report (Abi.readEach t valueAt count head) := by
  induction count generalizing head with
  | zero => rfl
  | succ count ih =>
    rw [readEach, Abi.readEach, h]
    apply report_bind
    intro value _
    apply report_bind
    intro next _
    rw [ih]
    exact report_bind fun _ _ => rfl

end Ranged

/-- No step of reading a value of the type leaves its range. -/
def AbiType.InRange (t : AbiType) : Prop :=
  ∀ ⦃base : Bytes⦄ ⦃pos : Nat⦄, base.length < 2 ^ 63 →
    Ranged.decodeValue t base pos = Ranged.report (decodeValue t base pos)

namespace Ranged

theorem decodeSequence_eq {types : List AbiType} (inRange : ∀ t ∈ types, t.InRange) {base : Bytes}
    (short : base.length < 2 ^ 63) (head : Nat) :
    decodeSequence types base head = report (Abi.decodeSequence types base head) := by
  induction types generalizing head with
  | nil => rfl
  | cons t types ih =>
    have ih := ih (fun u hu => inRange u (List.mem_cons_of_mem t hu))
    rw [decodeSequence, Abi.decodeSequence, locate_eq short]
    apply report_bind
    intro pos _
    rw [inRange t List.mem_cons_self short]
    apply report_bind
    intro value _
    apply report_bind
    intro next _
    rw [ih next]
    exact report_bind fun _ _ => rfl

/-- The items of an array, whose slice is not longer than the data. -/
theorem readItems_eq {element : AbiType} (inRange : element.InRange) {items : Bytes}
    (short : items.length < 2 ^ 63) (count : Nat) :
    readEach element (fun head => locate element items head >>= decodeValue element items) count 0 =
      report (Abi.readEach element
        (fun head => Abi.locate element items head >>= Abi.decodeValue element items) count 0) := by
  apply readEach_eq
  intro head
  rw [locate_eq short]
  exact report_bind fun pos _ => inRange short

theorem inRange_bool : AbiType.bool.InRange := by
  intro base pos short
  rw [decodeValue, readWord_eq short, Abi.decodeValue]
  apply report_bind
  intro w _
  have hwidth : wordSize - 1 < wordSize := by decide
  obtain ⟨high, last, low, hw, hhigh, hlow⟩ := w.exists_split hwidth
  obtain rfl : low = [] := by
    rw [← List.length_eq_zero_iff]
    omega
  have hn : w.toNat = numberOf high * 256 + last.toNat := by
    have hlast : numberOf [last] = last.toNat := by simp [numberOf]
    rw [Word.toNat, hw, numberOf_append, hlast]
    rfl
  have hslice : slice w.bytes 0 (wordSize - 1) = .ok high := by
    rw [slice_take w (by decide), hw, ← hhigh, List.take_left]
  have hbyte : byteAt w.bytes (wordSize - 1) = .ok last := by
    rw [hw, ← hhigh, byteAt_append]
  rw [hslice, except_bind_ok, hbyte, except_bind_ok]
  have hbad : (high.any (· != 0) || decide (1 < last)) = true ↔ ¬ w.toNat ≤ 1 := by
    have hlast : 1 < last ↔ 1 < last.toNat := UInt8.lt_iff_toNat_lt
    rw [Bool.or_eq_true, any_ne_zero, decide_eq_true_iff, hlast]
    omega
  by_cases hle : w.toNat ≤ 1
  · rw [if_neg (fun h => hbad.mp h hle), if_pos hle]
    have hone : (last == 1) = (w.toNat == 1) := by
      rw [Bool.eq_iff_iff, beq_iff_eq, beq_iff_eq, ← UInt8.toNat_inj]
      show last.toNat = 1 ↔ _
      omega
    rw [hone]
    rfl
  · rw [if_pos (hbad.mpr hle), if_neg hle]

theorem inRange_address : AbiType.address.InRange := by
  intro base pos short
  rw [decodeValue, readWord_eq short, Abi.decodeValue]
  apply report_bind
  intro w _
  have hlength : (w.bytes.drop 12).length = 20 := by
    rw [List.length_drop, w.length_bytes]
    rfl
  rw [slice_take w (by decide), except_bind_ok, any_eq_not_all]
  by_cases hclean : (w.bytes.take 12).all (· == 0) = true
  · simp only [hclean, Bool.not_true, Bool.false_eq_true, ↓reduceIte, except_bind_ok,
      slice_drop w (show 12 ≤ wordSize by decide), copy_of_length hlength, report_ok]
  · simp only [hclean, Bool.not_false, Bool.false_eq_true, ↓reduceIte]

theorem inRange_fixedBytes {size : Nat} (hs : size ≤ wordSize) :
    (AbiType.fixedBytes size).InRange := by
  intro base pos short
  rw [decodeValue, readWord_eq short, Abi.decodeValue]
  apply report_bind
  intro w _
  rw [slice_drop w hs, except_bind_ok, any_eq_not_all]
  by_cases hclean : (w.bytes.drop size).all (· == 0) = true
  · simp only [hclean, Bool.not_true, Bool.false_eq_true, ↓reduceIte, except_bind_ok,
      slice_take w hs, report_ok]
  · simp only [hclean, Bool.not_false, Bool.false_eq_true, ↓reduceIte]

theorem inRange_array {element : AbiType} (inRange : element.InRange) :
    (AbiType.array element).InRange := by
  intro base pos short
  rw [decodeValue, readSize_eq short, Abi.decodeValue]
  apply report_bind
  intro length hl
  rw [add_of_readSize short pos hl, except_bind_ok, sliceFrom_eq]
  apply report_bind
  intro items hi
  obtain ⟨_, rfl⟩ := sliceFrom_eq_ok.mp hi
  apply report_bind
  intro size _
  cases Size.mul? length size with
  | none => rfl
  | some needed =>
    dsimp only
    rw [except_bind_ok, readItems_eq inRange (by rw [List.length_drop]; omega)]
    exact report_ite fun _ => report_bind fun _ _ => rfl

theorem inRange_fixedArray {element : AbiType} {count : Nat} (inRange : element.InRange) :
    (AbiType.fixedArray element count).InRange := by
  intro base pos short
  rw [decodeValue, sliceFrom_eq, Abi.decodeValue]
  apply report_bind
  intro items hi
  obtain ⟨_, rfl⟩ := sliceFrom_eq_ok.mp hi
  apply report_bind
  intro size _
  by_cases hz : size = 0
  · rw [if_pos hz]
    cases Size.mul? size count with
    | none => rfl
    | some needed => simp only [if_pos hz]
  · rw [if_neg hz]
    cases Size.mul? size count with
    | none => rfl
    | some needed =>
      dsimp only
      rw [if_neg hz, readItems_eq inRange (by rw [List.length_drop]; omega)]
      exact report_ite fun _ => report_bind fun _ _ => rfl

theorem inRange_of_wellFormed {t : AbiType} (hw : t.WellFormed) : t.InRange := by
  induction t with
  | uint bits =>
    intro base pos short
    rw [decodeValue, readWord_eq short, Abi.decodeValue]
    exact report_bind fun w _ => report_ite fun _ => rfl
  | int bits =>
    intro base pos short
    rw [decodeValue, readWord_eq short, Abi.decodeValue]
    apply report_bind
    intro w _
    rw [continuesSign_eq hw.int_bits, except_bind_ok]
    exact report_ite fun _ => rfl
  | bool => exact inRange_bool
  | address => exact inRange_address
  | fixedBytes size => exact inRange_fixedBytes hw.fixedBytes_size.2
  | bytes =>
    intro base pos short
    rw [decodeValue, readPayload_eq short, Abi.decodeValue]
    exact report_bind fun _ _ => rfl
  | string =>
    intro base pos short
    rw [decodeValue, readPayload_eq short, Abi.decodeValue]
    apply report_bind
    intro payload _
    cases Text.Utf8.decode payload with
    | error fault => rfl
    | ok text => rfl
  | array element ih => exact inRange_array (ih hw.element)
  | fixedArray element count ih => exact inRange_fixedArray (ih hw.fixedElement)
  | tuple members ih =>
    intro base pos short
    rw [decodeValue, sliceFrom_eq, Abi.decodeValue]
    apply report_bind
    intro items hi
    obtain ⟨_, rfl⟩ := sliceFrom_eq_ok.mp hi
    rw [decodeSequence_eq (fun m hm => ih m hm (hw.member m hm)) (by rw [List.length_drop]; omega)]
    exact report_bind fun _ _ => rfl

end Ranged

/-- Data of types that can be read is decoded without a step outside its range: the run ends with
the values, or with an error that it reports. -/
theorem decode_steps_in_range {types : List AbiType} {data : Bytes}
    (readable : ∀ t ∈ types, ∃ text, AbiType.ofText text = .ok t) (short : data.length < 2 ^ 63) :
    Ranged.decode types data = Ranged.report (decode types data) ∧
    ∀ c, Ranged.decode types data ≠ .error (.crashed c) := by
  have hw := AbiType.wellFormed_of_readable readable
  have hsame : Ranged.decode types data = Ranged.report (decode types data) := by
    rw [Ranged.decode, decode]
    split
    · rfl
    · exact Ranged.decodeSequence_eq
        (fun t ht => Ranged.inRange_of_wellFormed (hw t ht)) short 0
  refine ⟨hsame, ?_⟩
  intro c
  rw [hsame]
  exact Ranged.report_ne_crashed _ c

def signedAndBytes : Bytes :=
  (Word.ofInt (-5)).bytes ++ (Word.ofNat 64).bytes ++ (Word.ofNat 2).bytes ++ [0x68, 0x69]

theorem decode_steps_in_range_signed :
    (∀ t ∈ [AbiType.int 8, .bytes], ∃ text, AbiType.ofText text = .ok t) ∧
    signedAndBytes.length < 2 ^ 63 ∧
    Ranged.decode [.int 8, .bytes] signedAndBytes = .ok [.int (-5), .bytes [0x68, 0x69]] := by
  have readable : ∀ t ∈ [AbiType.int 8, .bytes], ∃ text, AbiType.ofText text = .ok t := by
    intro t ht
    simp only [List.mem_cons, List.not_mem_nil, or_false] at ht
    rcases ht with rfl | rfl
    · exact ⟨"int8", by cbv⟩
    · exact ⟨"bytes", by cbv⟩
  have short : signedAndBytes.length < 2 ^ 63 := by decide
  have read : decode [.int 8, .bytes] signedAndBytes = .ok [.int (-5), .bytes [0x68, 0x69]] := by
    cbv
  refine ⟨readable, short, ?_⟩
  rw [(decode_steps_in_range readable short).1, read]
  rfl

/-- Types of other widths than those that can be read do lead outside. -/
example : Ranged.decode [.fixedBytes 33] (List.replicate 32 0) =
    .error (.crashed (.slice 33 32 32)) := by
  rfl

end EvmInspect.Abi
