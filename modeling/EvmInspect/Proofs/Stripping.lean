import EvmInspect.Proofs.Annotations
import EvmInspect.Proofs.Exactness

namespace EvmInspect.Abi

/-- The first dynamic value of a sequence is found by a word that holds the offset of the tail, and
that is read where the heads before it end. -/
theorem heads_of_dynamic {types : List AbiType} {values : List AbiValue} {parts : List Part}
    (sized : ∀ t ∈ types, t.Sized) (hl : values.length = types.length)
    (hp : encodeParts types values = .ok parts) (hd : AbiType.anyDynamic types = true)
    (offset : Nat) :
    ∃ front back, Part.heads offset parts = front ++ ((Word.ofNat offset).bytes ++ back) ∧
      ∀ base head found, decodeSequence types base head = .ok found →
        ∃ n, readSize base (head + front.length) = .ok n := by
  induction types generalizing values parts with
  | nil => cases hd
  | cons t types ih =>
    cases values with
    | nil => simp at hl
    | cons v values =>
      obtain ⟨bytes, rest, hb, hr, rfl⟩ := encodeParts_cons_eq_ok.mp hp
      cases ht : t.isDynamic with
      | true =>
        refine ⟨[], Part.heads (offset + bytes.length) rest, ?_, ?_⟩
        · rw [Part.heads, if_pos rfl, List.nil_append]
        · intro base head found h
          obtain ⟨pos, _, _, _, hpos, _⟩ := decodeSequence_cons_eq_ok.mp h
          rw [locate_dynamic ht] at hpos
          exact ⟨pos, hpos⟩
      | false =>
        rw [AbiType.anyDynamic, ht, Bool.false_or] at hd
        obtain ⟨front, back, hheads, hread⟩ := ih
          (fun u hu => sized u (List.mem_cons_of_mem t hu)) (by simpa using hl) hr hd
        refine ⟨bytes ++ front, back, ?_, ?_⟩
        · rw [Part.heads, if_neg (by simp), hheads, List.append_assoc]
        · intro base head found h
          obtain ⟨_, _, next, others, _, _, hn, ho, _⟩ := decodeSequence_cons_eq_ok.mp h
          obtain ⟨size, hs, hadd⟩ := nextHead_eq_ok.mp hn
          obtain ⟨_, rfl⟩ := Size.add?_eq_some.mp hadd
          rw [sized t List.mem_cons_self ht hb] at hs
          obtain rfl := Option.some.inj hs
          obtain ⟨n, hn⟩ := hread base _ others ho
          rw [List.length_append, ← Nat.add_assoc]
          exact ⟨n, hn⟩

/-- In what is written for a sequence with dynamic values there is an offset that points into it,
and whatever is read as the sequence has an offset at the same place. -/
theorem exists_offset_of_encode {types : List AbiType} {values : List AbiValue} {data : Bytes}
    (sized : ∀ t ∈ types, t.Sized) (hd : AbiType.anyDynamic types = true)
    (h : encode types values = .ok data) :
    ∃ front offset rest, data = front ++ ((Word.ofNat offset).bytes ++ rest) ∧
      wordSize ≤ offset ∧ offset ≤ data.length ∧
      ∀ base found, decodeSequence types base 0 = .ok found →
        ∃ n, readSize base front.length = .ok n := by
  obtain ⟨hl, offset, parts, hn, hp, hdata⟩ := encode_eq_ok.mp h
  rw [headLength_eq_ok] at hn
  obtain ⟨front, back, hheads, hread⟩ := heads_of_dynamic sized hl hp hd offset
  have hstands : data = front ++ ((Word.ofNat offset).bytes ++ (back ++ Part.tails parts)) := by
    rw [hdata, Part.assemble, hheads, List.append_assoc, List.append_assoc]
  have hlength := length_heads sized hl hp hn offset
  have htotal := congrArg List.length hstands
  rw [hheads] at hlength
  simp only [List.length_append, Word.length_bytes] at hlength htotal
  refine ⟨front, offset, _, hstands, by omega, by omega, ?_⟩
  intro base found hfound
  obtain ⟨n, hsize⟩ := hread base 0 found hfound
  rw [Nat.zero_add] at hsize
  exact ⟨n, hsize⟩

/-- A number read four bytes behind where it stands counts for as many times as four bytes hold. -/
theorem shifted_le {w moved : Word} {rest : Bytes} (hw : w.toNat < 2 ^ 64)
    (h : moved.bytes <+: (w.bytes ++ rest).drop 4) : w.toNat * 2 ^ 32 ≤ moved.toNat := by
  have hfour : 4 ≤ w.bytes.length := by
    rw [w.length_bytes]
    decide
  have hkept : (w.bytes.drop 4).length = 28 := by
    rw [List.length_drop, w.length_bytes]
    rfl
  rw [List.drop_append_of_le_length hfour] at h
  -- the moved word begins with what is kept of the other one
  have hbegins : w.bytes.drop 4 <+: moved.bytes := by
    refine List.prefix_of_prefix_length_le (List.prefix_append _ rest) h ?_
    rw [hkept, moved.length_bytes]
    decide
  obtain ⟨low, hlow⟩ := hbegins
  have hlow4 : low.length = 4 := by
    have htotal := congrArg List.length hlow
    rw [moved.length_bytes, List.length_append, hkept] at htotal
    unfold wordSize at htotal
    omega
  -- a small number has nothing in the bytes that are not kept
  have hsplit : w.toNat = numberOf (w.bytes.take 4) * 256 ^ 28 + numberOf (w.bytes.drop 4) := by
    have happend := numberOf_append (w.bytes.take 4) (w.bytes.drop 4)
    rwa [List.take_append_drop, hkept] at happend
  have hsame : numberOf (w.bytes.drop 4) = w.toNat := by
    have hzero : numberOf (w.bytes.take 4) = 0 := by omega
    rw [hsplit, hzero, Nat.zero_mul, Nat.zero_add]
  calc w.toNat * 2 ^ 32
      ≤ numberOf (w.bytes.drop 4) * 256 ^ low.length + numberOf low := by
        rw [hsame, hlow4]
        exact Nat.le_add_right _ _
    _ = moved.toNat := by rw [← numberOf_append, hlow, Word.toNat]

/-- What was written for a sequence is not read from four bytes behind its beginning, unless it is
so long that its offsets, read from there, could point into it. -/
theorem decode_drop_error {types : List AbiType} {values : List AbiValue} {data : Bytes}
    (hw : ∀ t ∈ types, t.WellFormed) (h : encode types values = .ok data) (hne : data ≠ [])
    (short : data.length < 2 ^ 37) : ∃ e, decode types (data.drop 4) = .error e := by
  have sized : ∀ t ∈ types, t.Sized := fun t ht => sized_of_wellFormed (hw t ht)
  have hpos : 0 < data.length := List.length_pos_iff.mpr hne
  cases hfound : decode types (data.drop 4) with
  | error e => exact ⟨e, rfl⟩
  | ok found =>
    exfalso
    cases hd : AbiType.anyDynamic types with
    | false =>
      obtain ⟨size, hsize, hle, _⟩ := encode_of_decode_static hw hd hfound
      obtain rfl := Option.some.inj ((headSizes?_of_encode sized hd h).symm.trans hsize)
      rw [List.length_drop] at hle
      omega
    | true =>
      obtain ⟨front, offset, rest, hstands, hleast, hmost, hread⟩ :=
        exists_offset_of_encode sized hd h
      obtain ⟨n, hsize⟩ := hread _ found (decode_eq_ok.mp hfound).2
      obtain ⟨moved, hmoved, hle, _⟩ := readSize_eq_ok.mp hsize
      have hvalue : (Word.ofNat offset).toNat = offset := Word.toNat_ofNat (by omega)
      have hprefix := readWord_eq_ok.mp hmoved
      rw [List.drop_drop, Nat.add_comm, ← List.drop_drop, hstands, List.drop_left] at hprefix
      have hshifted := shifted_le (by omega) hprefix
      rw [hvalue] at hshifted
      rw [List.length_drop] at hle
      unfold wordSize at hleast
      omega

/-- Data that does not begin with the selector is all arguments. -/
theorem decodeArguments_bare {d : Descriptor} {data : Bytes}
    (h : ¬ d.selector.toBytes <+: data) :
    decodeArguments d data true = decodeArguments d data false := by
  have hne : data.take 4 ≠ d.selector.toBytes := by
    intro he
    exact h (he ▸ List.take_prefix 4 data)
  rw [decodeArguments, decodeArguments, beq_false_of_ne hne]
  rfl

/-- Arguments come back from a call with the selector passed over, and alone as well, unless they
begin with its bytes: these are passed over then, and what is left is not read. -/
theorem decodeArguments_stripped {d : Descriptor} {values : List AbiValue} {data : Bytes}
    (encoded : encodeArguments d values = .ok data)
    (plain : decodeArguments d data false = .ok values) :
    (encodeCall d values >>= fun call => decodeArguments d call true) = .ok values ∧
    (¬ d.selector.toBytes <+: data → decodeArguments d data true = .ok values) ∧
    (d.selector.toBytes <+: data →
      decodeArguments d data true = decodeArguments d (data.drop 4) false ∧
      (data.length < 2 ^ 37 → ∃ e, decodeArguments d data true = .error e)) := by
  refine ⟨?_, ?_, ?_⟩
  · rw [encodeCall, encoded, except_bind_ok, except_bind_ok, decodeArguments_strip, plain]
  · intro hbare
    rw [decodeArguments_bare hbare, plain]
  · intro hprefix
    obtain ⟨rest, rfl⟩ := hprefix
    have hdrop : (d.selector.toBytes ++ rest).drop 4 = rest := rfl
    refine ⟨by rw [decodeArguments_strip, hdrop], ?_⟩
    intro short
    obtain ⟨types, htypes, hencode⟩ := bind_eq_ok.mp encoded
    have hw : ∀ t ∈ types, t.WellFormed := by
      intro t ht
      obtain ⟨p, _, hp⟩ := mem_of_mapM_ok htypes ht
      exact AbiType.wellFormed_of_ofText hp
    have herror := decode_drop_error hw hencode (List.cons_ne_nil _ _) short
    rw [hdrop] at herror
    rwa [decodeArguments_strip, decodeArguments_plain htypes]

theorem ofText_uint256 : Descriptor.ofText "f(uint256)" = .parsed (Signature.ofText "f(uint256)") :=
  (Descriptor.Matches.unknown (by decide +kernel) (by decide +kernel) (by decide +kernel)).eq

/-- A number that does not begin with the selector comes back from both forms. -/
theorem decodeArguments_stripped_seven :
    encodeArguments (Descriptor.ofText "f(uint256)") [.uint 7] = .ok (Word.ofNat 7).bytes ∧
    decodeArguments (Descriptor.ofText "f(uint256)") (Word.ofNat 7).bytes true = .ok [.uint 7] ∧
    (encodeCall (Descriptor.ofText "f(uint256)") [.uint 7] >>= fun call =>
      decodeArguments (Descriptor.ofText "f(uint256)") call true) = .ok [.uint 7] := by
  have encoded : encodeArguments (Descriptor.ofText "f(uint256)") [.uint 7] =
      .ok (Word.ofNat 7).bytes := by
    rw [ofText_uint256]
    rfl
  have plain : decodeArguments (Descriptor.ofText "f(uint256)") (Word.ofNat 7).bytes false =
      .ok [.uint 7] := by
    rw [ofText_uint256]
    rfl
  have hbare : ¬ (Descriptor.ofText "f(uint256)").selector.toBytes <+: (Word.ofNat 7).bytes := by
    rw [ofText_uint256]
    decide +kernel
  obtain ⟨hcall, hplain, _⟩ := decodeArguments_stripped encoded plain
  exact ⟨encoded, hplain hbare, hcall⟩

/-- A number that begins with the bytes of the selector comes back if nothing is to be passed over,
and is cut short otherwise. -/
theorem decodeArguments_of_selector_number :
    ∃ (d : Descriptor) (values : List AbiValue) (data : Bytes),
      d = Descriptor.ofText "f(uint256)" ∧ values = [.uint (0xb3de648b <<< 224)] ∧
      encodeArguments d values = .ok data ∧ decodeArguments d data false = .ok values ∧
      decodeArguments d data true = .error (.outOfBounds 0 28) := by
  have hbytes : (Descriptor.parsed (Signature.ofText "f(uint256)")).selector.toBytes =
      [0xb3, 0xde, 0x64, 0x8b] := by decide +kernel
  have htypes : paramTypes (Descriptor.parsed (Signature.ofText "f(uint256)")).inputs =
      .ok [.uint 256] := by rfl
  refine ⟨_, _, [0xb3, 0xde, 0x64, 0x8b] ++ List.replicate 28 0, ofText_uint256.symm, rfl, rfl,
    ?_, ?_⟩
  · rw [decodeArguments_plain htypes]
    cbv
  · rw [← hbytes, decodeArguments_strip]
    rfl

end EvmInspect.Abi
