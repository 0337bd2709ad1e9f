import EvmInspect.Text.Utf8

namespace EvmInspect.Text.Utf8

theorem toNat_ofNat_of_lt {n : Nat} (h : n < 256) : (UInt8.ofNat n).toNat = n := by
  simp [UInt8.toNat_ofNat', Nat.mod_eq_of_lt h]

/-- A character is no surrogate, and its number is at most U+10FFFF. -/
theorem toNat_bounds (c : Char) : c.toNat < 0xd800 ∨ 0xdfff < c.toNat ∧ c.toNat < 0x110000 :=
  c.valid

theorem isContinuation_iff {b : UInt8} :
    isContinuation b = true ↔ 0x80 ≤ b.toNat ∧ b.toNat ≤ 0xbf := by
  simp [isContinuation]

/-- A sequence of two bytes. -/
theorem next_two {first second : UInt8} {start low high : Nat} (rest : Bytes)
    (hf : 0x80 ≤ first.toNat) (hs : shape? first.toNat = some ⟨start, 1, low, high⟩)
    (hl : low ≤ second.toNat) (hh : second.toNat ≤ high) :
    next first (second :: rest) = (.char (Char.ofNat (push start second)), rest) := by
  simp only [next, hs, if_neg (Nat.not_lt.mpr hf), if_pos (And.intro hl hh)]
  rfl

/-- A sequence of three bytes. -/
theorem next_three {first second third : UInt8} {start low high : Nat} (rest : Bytes)
    (hf : 0x80 ≤ first.toNat) (hs : shape? first.toNat = some ⟨start, 2, low, high⟩)
    (hl : low ≤ second.toNat) (hh : second.toNat ≤ high) (ht : isContinuation third) :
    next first (second :: third :: rest) =
      (.char (Char.ofNat (push (push start second) third)), rest) := by
  simp only [next, hs, if_neg (Nat.not_lt.mpr hf), if_pos (And.intro hl hh), finish, ht, if_true]

/-- A sequence of four bytes. -/
theorem next_four {first second third fourth : UInt8} {start low high : Nat} (rest : Bytes)
    (hf : 0x80 ≤ first.toNat) (hs : shape? first.toNat = some ⟨start, 3, low, high⟩)
    (hl : low ≤ second.toNat) (hh : second.toNat ≤ high) (ht : isContinuation third)
    (hu : isContinuation fourth) :
    next first (second :: third :: fourth :: rest) =
      (.char (Char.ofNat (push (push (push start second) third) fourth)), rest) := by
  simp only [next, hs, if_neg (Nat.not_lt.mpr hf), if_pos (And.intro hl hh), finish, ht, hu,
    if_true]

/-- The bytes of a character are read as that character. -/
theorem next_utf8EncodeChar (c : Char) (rest : Bytes) : ∃ first more,
    String.utf8EncodeChar c = first :: more ∧ next first (more ++ rest) = (.char c, rest) := by
  have hv := toNat_bounds c
  have hc := Char.ofNat_toNat c
  have he : c.val.toNat = c.toNat := rfl
  unfold String.utf8EncodeChar
  simp only [he]
  generalize c.toNat = v at hv hc
  split
  · have hf : (UInt8.ofNat v).toNat = v := toNat_ofNat_of_lt (by omega)
    refine ⟨_, [], rfl, ?_⟩
    have hlt : (UInt8.ofNat v).toNat < 0x80 := by omega
    unfold next
    rw [if_pos hlt, hf, hc, List.nil_append]
  · split
    · have hf : (UInt8.ofNat (v / 64 % 32 + 192)).toNat = v / 64 + 192 := by
        rw [toNat_ofNat_of_lt (by omega)]
        omega
      have hs : (UInt8.ofNat (v % 64 + 128)).toNat = v % 64 + 128 := toNat_ofNat_of_lt (by omega)
      have hshape : shape? (v / 64 + 192) = some ⟨v / 64, 1, 0x80, 0xbf⟩ := by
        unfold shape?
        rw [if_neg (by omega), if_pos (by omega), Nat.add_sub_cancel]
      refine ⟨_, [_], rfl, ?_⟩
      rw [List.cons_append, List.nil_append,
        next_two rest (by omega) (hf ▸ hshape) (by omega) (by omega)]
      rw [push, hs, show v / 64 * 64 + (v % 64 + 128) % 64 = v by omega, hc]
    · split
      · have hf : (UInt8.ofNat (v / 4096 % 16 + 224)).toNat = v / 4096 + 224 := by
          rw [toNat_ofNat_of_lt (by omega)]
          omega
        have hs : (UInt8.ofNat (v / 64 % 64 + 128)).toNat = v / 64 % 64 + 128 :=
          toNat_ofNat_of_lt (by omega)
        have ht : (UInt8.ofNat (v % 64 + 128)).toNat = v % 64 + 128 := toNat_ofNat_of_lt (by omega)
        obtain ⟨start, low, high, hshape, hstart, hlow, hhigh⟩ : ∃ start low high,
            shape? (v / 4096 + 224) = some ⟨start, 2, low, high⟩ ∧ start = v / 4096 ∧
              low ≤ v / 64 % 64 + 128 ∧ v / 64 % 64 + 128 ≤ high := by
          unfold shape?
          rw [if_neg (by omega), if_neg (by omega)]
          split
          · exact ⟨_, _, _, rfl, by omega, by omega, by omega⟩
          · split
            · exact ⟨_, _, _, rfl, by omega, by omega, by omega⟩
            · rw [if_pos (by omega)]
              exact ⟨_, _, _, rfl, by omega, by omega, by omega⟩
        refine ⟨_, [_, _], rfl, ?_⟩
        rw [List.cons_append, List.cons_append, List.nil_append,
          next_three rest (by omega) (hf ▸ hshape) (by omega) (by omega)
            (isContinuation_iff.mpr (by omega))]
        rw [push, push, hstart, hs, ht,
          show (v / 4096 * 64 + (v / 64 % 64 + 128) % 64) * 64 + (v % 64 + 128) % 64 = v by omega,
          hc]
      · have hf : (UInt8.ofNat (v / 262144 % 8 + 240)).toNat = v / 262144 + 240 := by
          rw [toNat_ofNat_of_lt (by omega)]
          omega
        have hs : (UInt8.ofNat (v / 4096 % 64 + 128)).toNat = v / 4096 % 64 + 128 :=
          toNat_ofNat_of_lt (by omega)
        have ht : (UInt8.ofNat (v / 64 % 64 + 128)).toNat = v / 64 % 64 + 128 :=
          toNat_ofNat_of_lt (by omega)
        have hu : (UInt8.ofNat (v % 64 + 128)).toNat = v % 64 + 128 := toNat_ofNat_of_lt (by omega)
        obtain ⟨start, low, high, hshape, hstart, hlow, hhigh⟩ : ∃ start low high,
            shape? (v / 262144 + 240) = some ⟨start, 3, low, high⟩ ∧ start = v / 262144 ∧
              low ≤ v / 4096 % 64 + 128 ∧ v / 4096 % 64 + 128 ≤ high := by
          unfold shape?
          rw [if_neg (by omega), if_neg (by omega), if_neg (by omega), if_neg (by omega),
            if_neg (by omega)]
          split
          · exact ⟨_, _, _, rfl, by omega, by omega, by omega⟩
          · split
            · exact ⟨_, _, _, rfl, by omega, by omega, by omega⟩
            · rw [if_pos (by omega)]
              exact ⟨_, _, _, rfl, by omega, by omega, by omega⟩
        refine ⟨_, [_, _, _], rfl, ?_⟩
        rw [List.cons_append, List.cons_append, List.cons_append, List.nil_append,
          next_four rest (by omega) (hf ▸ hshape) (by omega) (by omega)
            (isContinuation_iff.mpr (by omega)) (isContinuation_iff.mpr (by omega))]
        rw [push, push, push, hstart, hs, ht, hu,
          show ((v / 262144 * 64 + (v / 4096 % 64 + 128) % 64) * 64 +
            (v / 64 % 64 + 128) % 64) * 64 + (v % 64 + 128) % 64 = v by omega, hc]

theorem tokens_append (c : Char) (rest : Bytes) :
    tokens (String.utf8EncodeChar c ++ rest) = .char c :: tokens rest := by
  obtain ⟨first, more, he, hn⟩ := next_utf8EncodeChar c rest
  rw [he, List.cons_append, tokens, hn]

/-- A written text is read as its characters. -/
theorem tokens_encode (text : List Char) : tokens (encode text) = text.map .char := by
  induction text with
  | nil => simp [encode, tokens]
  | cons c text ih =>
    rw [encode, List.flatMap_cons, tokens_append, List.map_cons]
    exact congrArg _ ih

theorem collect_chars (text : List Char) (index : Nat) :
    collect index (text.map .char) = .ok text := by
  induction text generalizing index with
  | nil => rfl
  | cons c text ih => simp [collect, ih, Except.map]

theorem decode_encode (text : List Char) : decode (encode text) = .ok text := by
  rw [decode, tokens_encode, collect_chars]

theorem decodeWithGaps_encode (text : List Char) :
    decodeWithGaps (encode text) = text.map some := by
  rw [decodeWithGaps, tokens_encode, List.map_map]
  rfl

end EvmInspect.Text.Utf8
