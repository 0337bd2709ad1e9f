import EvmInspect.Hex
import Mathlib.Tactic.Common

namespace EvmInspect.Hex

def isDigit (c : Char) : Bool :=
  c.isDigit || ('a' ≤ c && c ≤ 'f') || ('A' ≤ c && c ≤ 'F')

/-- The text is that of the bytes, with digits in either case. -/
def Denotes (text : List Char) (bytes : Bytes) : Prop :=
  text.map Char.toLower = encode bytes

/-- An even number of digits and nothing else. -/
structure Legible (text : List Char) : Prop where
  even : text.length % 2 = 0
  digits : ∀ c ∈ text, isDigit c = true

/-- What holds of the sixteen digits holds of all that is written. -/
theorem forall_mem_encode {P : Char → Prop} (h : ∀ n : Fin 16, P (digit (UInt8.ofNat n)))
    (bytes : Bytes) : ∀ c ∈ encode bytes, P c := by
  have hdigit : ∀ n : UInt8, n < 16 → P (digit n) := by
    intro n hn
    have hfin := h ⟨n.toNat, by simpa [UInt8.lt_iff_toNat_lt] using hn⟩
    simpa using hfin
  intro c hc
  obtain ⟨b, _, hc⟩ := List.mem_flatMap.mp hc
  simp only [pair, List.mem_cons, List.not_mem_nil, or_false] at hc
  rcases hc with rfl | rfl
  · exact hdigit _ (high_lt b)
  · exact hdigit _ (low_lt b)

theorem isAlphanum_of_mem_encode {bytes : Bytes} {c : Char} (h : c ∈ encode bytes) :
    c.isAlphanum = true :=
  forall_mem_encode (P := fun c => c.isAlphanum = true) (by decide) bytes c h

theorem isDigit_of_mem_encode {bytes : Bytes} {c : Char} (h : c ∈ encode bytes) :
    isDigit c = true :=
  forall_mem_encode (P := fun c => isDigit c = true) (by decide) bytes c h

theorem length_encode (bytes : Bytes) : (encode bytes).length = 2 * bytes.length := by
  induction bytes with
  | nil => rfl
  | cons b bytes ih =>
    have hcons : encode (b :: bytes) = pair b ++ encode bytes := rfl
    rw [hcons, List.length_append, ih]
    simp only [pair, List.length_cons, List.length_nil]
    omega

theorem encode_injective : Function.Injective encode := by
  intro x y h
  have hread := congrArg decodeText h
  rw [decodeText_encode, decodeText_encode] at hread
  exact Except.ok.inj hread

/-- The characters of one byte. -/
theorem ascii_reading : ∀ n : Fin 128,
    String.utf8EncodeChar (Char.ofNat n) = [UInt8.ofNat n] ∧
    isDigit (Char.ofNat n) = (value? (UInt8.ofNat n)).isSome ∧
    isDigit (Char.ofNat n).toLower = isDigit (Char.ofNat n) ∧
    ∀ v ∈ value? (UInt8.ofNat n), v < 16 ∧ (Char.ofNat n).toLower = digit v := by
  decide +kernel

theorem value?_of_wide {b : UInt8} (h : 128 ≤ b.toNat) : value? b = none := by
  unfold value?
  simp only [UInt8.le_iff_toNat_le, UInt8.reduceToNat]
  rw [if_neg (by omega), if_neg (by omega), if_neg (by omega)]

/-- Every other character is no digit, whatever its case, and begins with a byte of no value. -/
theorem wide_reading {c : Char} (h : 128 ≤ c.toNat) :
    isDigit c = false ∧ c.toLower = c ∧ ∃ b ∈ String.utf8EncodeChar c, value? b = none := by
  have hval : c.val.toNat = c.toNat := rfl
  refine ⟨?_, ?_, ?_⟩
  · simp only [isDigit, Char.isDigit, Bool.or_eq_false_iff, Bool.and_eq_false_iff,
      decide_eq_false_iff_not, Char.le_def, UInt32.le_iff_toNat_le, hval, ge_iff_le,
      Char.reduceVal, UInt32.reduceToNat]
    omega
  · have hupper : ¬ (c.val ≥ 'A'.val ∧ c.val ≤ 'Z'.val) := by
      simp only [UInt32.le_iff_toNat_le, hval, ge_iff_le, Char.reduceVal, UInt32.reduceToNat]
      omega
    unfold Char.toLower
    exact dif_neg hupper
  · have first : ∀ (n : Nat) (more : Bytes), 128 ≤ n → n < 256 →
        ∃ b ∈ UInt8.ofNat n :: more, value? b = none := by
      intro n more hlow hhigh
      refine ⟨_, List.mem_cons_self, value?_of_wide ?_⟩
      rw [UInt8.toNat_ofNat', Nat.mod_eq_of_lt hhigh]
      exact hlow
    unfold String.utf8EncodeChar
    simp only [hval]
    split
    · omega
    · split
      · exact first _ _ (by omega) (by omega)
      · split
        · exact first _ _ (by omega) (by omega)
        · exact first _ _ (by omega) (by omega)

/-- What is known of the characters of one byte, and of all others, is known of all. -/
theorem char_cases {P : Char → Prop} (ascii : ∀ n : Fin 128, P (Char.ofNat n))
    (wide : ∀ c : Char, 128 ≤ c.toNat → P c) (c : Char) : P c := by
  by_cases h : c.toNat < 128
  · have hc := ascii ⟨c.toNat, h⟩
    rwa [Char.ofNat_toNat] at hc
  · exact wide c (by omega)

theorem isDigit_toLower (c : Char) : isDigit c.toLower = isDigit c := by
  induction c using char_cases with
  | ascii n => exact (ascii_reading n).2.2.1
  | wide c h => rw [(wide_reading h).2.1]

/-- A digit is a byte of the value that the digit has in lower case. -/
theorem exists_value {c : Char} (h : isDigit c = true) : ∃ b v,
    String.utf8EncodeChar c = [b] ∧ value? b = some v ∧ v < 16 ∧ c.toLower = digit v := by
  induction c using char_cases with
  | ascii n =>
    obtain ⟨hbyte, hvalue, _, hdigit⟩ := ascii_reading n
    obtain ⟨v, hv⟩ := Option.isSome_iff_exists.mp (hvalue ▸ h)
    exact ⟨_, v, hbyte, hv, hdigit v hv⟩
  | wide c hc =>
    rw [(wide_reading hc).1] at h
    cases h

theorem exists_invalid {c : Char} (h : isDigit c = false) :
    ∃ b ∈ String.utf8EncodeChar c, value? b = none := by
  induction c using char_cases with
  | ascii n =>
    obtain ⟨hbyte, hvalue, _, _⟩ := ascii_reading n
    rw [hvalue, Option.isSome_eq_false_iff, Option.isNone_iff_eq_none] at h
    exact ⟨_, by rw [hbyte]; exact List.mem_singleton_self _, h⟩
  | wide c hc => exact (wide_reading hc).2.2

theorem pair_of_lt {v w : UInt8} (hv : v < 16) (hw : w < 16) :
    pair (v * 16 + w) = [digit v, digit w] := by
  simp only [UInt8.lt_iff_toNat_lt, UInt8.reduceToNat] at hv hw
  have hhigh : (v * 16 + w) / 16 = v := by
    apply UInt8.toNat_inj.mp
    simp only [UInt8.toNat_div, UInt8.toNat_add, UInt8.toNat_mul, UInt8.reduceToNat]
    omega
  have hlow : (v * 16 + w) % 16 = w := by
    apply UInt8.toNat_inj.mp
    simp only [UInt8.toNat_mod, UInt8.toNat_add, UInt8.toNat_mul, UInt8.reduceToNat]
    omega
  rw [pair, hhigh, hlow]

theorem Denotes.legible {text : List Char} {bytes : Bytes} (h : Denotes text bytes) :
    Legible text := by
  constructor
  case even =>
    have hlength := congrArg List.length h
    rw [List.length_map, length_encode] at hlength
    omega
  case digits =>
    intro c hc
    rw [← isDigit_toLower]
    exact isDigit_of_mem_encode (h ▸ List.mem_map_of_mem hc)

theorem Denotes.unique {text : List Char} {x y : Bytes} (hx : Denotes text x)
    (hy : Denotes text y) : x = y :=
  encode_injective (hx.symm.trans hy)

theorem denotes_encode (bytes : Bytes) : Denotes (encode bytes) bytes := by
  refine (List.map_congr_left ?_).trans (List.map_id _)
  exact forall_mem_encode (P := fun c => c.toLower = id c) (by decide) bytes

/-- Digits are read two at a time. -/
theorem denotes_join {text : List Char} (h : Legible text) :
    Denotes text (join (Text.Utf8.encode text)) := by
  match text, h with
  | [], _ => rfl
  | [_], h => exact absurd h.even (by simp)
  | c :: d :: rest, h =>
    have hrest : Legible rest := by
      constructor
      case even =>
        have heven := h.even
        rw [List.length_cons, List.length_cons] at heven
        omega
      case digits =>
        exact fun e he => h.digits e (List.mem_cons_of_mem _ (List.mem_cons_of_mem _ he))
    obtain ⟨b, v, hb, hv, hlow, hc⟩ := exists_value (h.digits c (by simp))
    obtain ⟨e, w, he, hw, hlow', hd⟩ := exists_value (h.digits d (by simp))
    have hbytes : Text.Utf8.encode (c :: d :: rest) = b :: e :: Text.Utf8.encode rest := by
      simp only [Text.Utf8.encode, List.flatMap_cons, hb, he, List.cons_append, List.nil_append]
    have hencode : encode (join (Text.Utf8.encode (c :: d :: rest))) =
        digit v :: digit w :: encode (join (Text.Utf8.encode rest)) := by
      rw [hbytes, join, hv, hw, Option.getD_some, Option.getD_some, encode, List.flatMap_cons,
        pair_of_lt hlow hlow']
      rfl
    have hrest' := denotes_join hrest
    rw [Denotes] at hrest' ⊢
    rw [hencode, List.map_cons, List.map_cons, hc, hd, hrest']

theorem badDigit?_eq_none_iff {bytes : Bytes} {n : Nat} :
    badDigit? n bytes = none ↔ ∀ b ∈ bytes, (value? b).isSome = true := by
  induction bytes generalizing n with
  | nil => simp [badDigit?]
  | cons b bytes ih =>
    cases hv : value? b with
    | none => simp [badDigit?, hv]
    | some v => simp [badDigit?, hv, ih]

theorem length_utf8_of_digits {text : List Char} (h : ∀ c ∈ text, isDigit c = true) :
    (Text.Utf8.encode text).length = text.length := by
  induction text with
  | nil => rfl
  | cons c text ih =>
    obtain ⟨hc, htext⟩ := List.forall_mem_cons.mp h
    obtain ⟨b, _, hb, _⟩ := exists_value hc
    have hcons : Text.Utf8.encode (c :: text) = b :: Text.Utf8.encode text := by
      simp only [Text.Utf8.encode, List.flatMap_cons, hb, List.cons_append, List.nil_append]
    rw [hcons, List.length_cons, ih htext, List.length_cons]

theorem badDigit?_utf8 {text : List Char} {n : Nat} :
    badDigit? n (Text.Utf8.encode text) = none ↔ ∀ c ∈ text, isDigit c = true := by
  rw [badDigit?_eq_none_iff]
  constructor
  · intro h c hc
    by_contra hdigit
    obtain ⟨b, hb, hnone⟩ := exists_invalid (eq_false_of_ne_true hdigit)
    have hsome := h b (List.mem_flatMap.mpr ⟨c, hc, hb⟩)
    rw [hnone] at hsome
    cases hsome
  · intro h b hb
    obtain ⟨c, hc, hb⟩ := List.mem_flatMap.mp hb
    obtain ⟨e, v, he, hv, _⟩ := exists_value (h c hc)
    rw [he, List.mem_singleton] at hb
    rw [hb, hv]
    rfl

/-- An even number of digits is read, in whatever case they are. -/
theorem decodeText_of_legible {text : List Char} (h : Legible text) :
    decodeText text = .ok (join (Text.Utf8.encode text)) := by
  have heven := h.even
  rw [decodeText, decode, length_utf8_of_digits h.digits, if_neg (by omega),
    badDigit?_utf8.mpr h.digits]

/-- Nothing else is read. -/
theorem exists_fault {text : List Char} (h : ¬ Legible text) :
    ∃ fault, decodeText text = .error fault := by
  rw [decodeText, decode]
  split
  · exact ⟨_, rfl⟩
  · rename_i heven
    cases hbad : badDigit? 0 (Text.Utf8.encode text) with
    | some fault => exact ⟨fault, rfl⟩
    | none =>
      have hdigits := badDigit?_utf8.mp hbad
      rw [length_utf8_of_digits hdigits] at heven
      exact absurd ⟨by omega, hdigits⟩ h

/-- A text denotes bytes exactly if it has an even number of digits and nothing else. -/
theorem legible_iff {text : List Char} : Legible text ↔ ∃ bytes, Denotes text bytes :=
  ⟨fun h => ⟨_, denotes_join h⟩, fun ⟨_, h⟩ => h.legible⟩

theorem Denotes.decodeText {text : List Char} {bytes : Bytes} (h : Denotes text bytes) :
    decodeText text = .ok bytes := by
  rw [decodeText_of_legible h.legible, (denotes_join h.legible).unique h]

end EvmInspect.Hex
