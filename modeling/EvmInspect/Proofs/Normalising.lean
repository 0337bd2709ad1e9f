import EvmInspect.Proofs.Recoding
import EvmInspect.Proofs.RoundTrip

namespace EvmInspect.Abi

/-- No fixed array that a type is made of is empty. -/
def AbiType.Filled (t : AbiType) : Prop :=
  ∀ element, AbiType.fixedArray element 0 ∉ t.components

theorem AbiType.Filled.component {t u : AbiType} (h : t.Filled) (hu : u ∈ t.components) :
    u.Filled :=
  fun element he => h element (AbiType.components_subset hu he)

/-- Without empty arrays, every value takes room in a head. -/
theorem headSize?_ne_zero {t : AbiType} (hw : t.WellFormed) (hf : t.Filled) :
    t.headSize? ≠ some 0 := by
  induction t with
  | fixedArray element count ih =>
    have hmem : element ∈ (AbiType.fixedArray element count).components :=
      List.mem_cons_of_mem _ element.mem_components_self
    intro h
    rw [AbiType.headSize?] at h
    split at h
    · cases h
    · obtain ⟨size, hs, hmul⟩ := Option.bind_eq_some_iff.mp h
      obtain ⟨_, hzero⟩ := Size.mul?_eq_some.mp hmul
      rcases Nat.mul_eq_zero.mp hzero with rfl | rfl
      · exact ih hw.fixedElement (hf.component hmem) hs
      · exact hf element (AbiType.mem_components_self _)
  | tuple members ih =>
    cases members with
    | nil => cases hw.isSound
    | cons m members =>
      have hmem : m ∈ (AbiType.tuple (m :: members)).components :=
        List.mem_cons_of_mem _
          (AbiType.mem_componentsOf.mpr ⟨m, List.mem_cons_self, m.mem_components_self⟩)
      intro h
      rw [AbiType.headSize?] at h
      split at h
      · cases h
      · obtain ⟨size, hs, _, hrest⟩ := headSizes?_cons_eq_some.mp h
        have hle := le_of_headSizes? hrest
        obtain rfl : size = 0 := by omega
        exact ih m List.mem_cons_self (hw.component hmem) (hf.component hmem) hs
  | _ => simp [AbiType.headSize?, wordSize]

/-- Nothing is in the way of reading again what was read, if no fixed array is empty. -/
theorem no_obstacle_of_decodeValue {t : AbiType} (hw : t.WellFormed) (hf : t.Filled) {base : Bytes}
    {pos : Nat} {v : AbiValue} (h : decodeValue t base pos = .ok v) (e : AbiError) :
    ¬ Obstacle t v e := by
  intro ho
  cases ho with
  | weightless ho hs =>
    exact headSize?_ne_zero (hw.component ho.fixedElement_mem) (hf.component ho.fixedElement_mem) hs
  | boundless ho hs =>
    obtain ⟨_, _, _, ha⟩ := decodeValue_of_occurs ho h
    obtain ⟨_, _, size, _, _, _, hsize, _⟩ := decodeValue_array_eq_ok.mp ha
    rw [hs] at hsize
    cases hsize
  | crowded ho hs _ =>
    exact headSize?_ne_zero (hw.component ho.element_mem) (hf.component ho.element_mem) hs

theorem counted_of_filled {t : AbiType} (hw : t.WellFormed) (hf : t.Filled) (v : AbiValue) :
    Counted t v := by
  intro element items ho hs
  exact absurd hs (headSize?_ne_zero (hw.component ho.element_mem) (hf.component ho.element_mem))

theorem reads_again {t : AbiType} (hw : t.WellFormed) (hf : t.Filled) {base : Bytes} {pos : Nat}
    {v : AbiValue} (h : decodeValue t base pos = .ok v) : ReadsUnless (fun _ => False) t v :=
  (comesBack_of_wellFormed hw (counted_of_filled hw hf v)).mono (no_obstacle_of_decodeValue hw hf h)

/-- Values that were read are of their types and can be written, and what is written for them is
read as the same values. -/
theorem decode_reencodes {types : List AbiType} {values : List AbiValue} {data : Bytes}
    (readable : ∀ t ∈ types, ∃ text, AbiType.ofText text = .ok t)
    (filled : ∀ t ∈ types, t.Filled) (read : decode types data = .ok values) :
    admitAll types values = true ∧ ∃ again, encode types values = .ok again ∧
      (again.length < 2 ^ 63 → decode types again = .ok values) := by
  have hw := AbiType.wellFormed_of_readable readable
  have sized : ∀ t ∈ types, t.Sized := fun t ht => sized_of_wellFormed (hw t ht)
  obtain ⟨_, hs⟩ := decode_eq_ok.mp read
  obtain ⟨again, he, _⟩ :=
    encode_of_decodeSequence sized (fun t ht => rewritten_of_wellFormed (hw t ht)) hs
  refine ⟨admitAll_of_decodeSequence (fun t ht => typed_of_wellFormed (hw t ht)) hs, again, he, ?_⟩
  intro short
  have reads : ∀ p ∈ types.zip values, ReadsUnless (fun _ => False) p.1 p.2 := by
    intro p hp
    obtain ⟨pos, hv⟩ := decodeValue_of_decodeSequence hs p hp
    have ht := (List.of_mem_zip hp).1
    exact reads_again (hw p.1 ht) (filled p.1 ht) hv
  have hread := returns_decodeSequence sized reads he []
  rw [List.append_nil] at hread
  refine decode_eq_ok.mpr ⟨?_, (hread (by omega)).eq_ok fun _ => id⟩
  intro hne
  exact encode_ne_nil sized (fun t ht => headSize?_ne_zero (hw t ht) (filled t ht)) hne he

/-- Two byte strings. The first one is as long as the offset of the second says, and holds it. -/
def overlappingBytes : Bytes :=
  (Word.ofNat 32).bytes ++ (Word.ofNat 64).bytes ++ payload [0x61, 0x62, 0x63]

theorem decode_reencodes_overlapping :
    ∃ (values : List AbiValue) (again : Bytes),
      values = [.bytes (payload [0x61, 0x62, 0x63]), .bytes [0x61, 0x62, 0x63]] ∧
      decode [.bytes, .bytes] overlappingBytes = .ok values ∧ overlappingBytes.length = 128 ∧
      encode [.bytes, .bytes] values = .ok again ∧ again.length = 224 ∧
      decode [.bytes, .bytes] again = .ok values := by
  have readable : ∀ t ∈ [AbiType.bytes, .bytes], ∃ text, AbiType.ofText text = .ok t := by
    intro t ht
    simp only [List.mem_cons, List.not_mem_nil, or_false, or_self] at ht
    subst ht
    exact ⟨"bytes", by cbv⟩
  have filled : ∀ t ∈ [AbiType.bytes, .bytes], t.Filled := by
    intro t ht
    simp only [List.mem_cons, List.not_mem_nil, or_false, or_self] at ht
    simp [ht, AbiType.Filled, AbiType.components]
  have hread : decode [.bytes, .bytes] overlappingBytes =
      .ok [.bytes (payload [0x61, 0x62, 0x63]), .bytes [0x61, 0x62, 0x63]] := by
    cbv
  obtain ⟨_, again, he, hagain⟩ := decode_reencodes readable filled hread
  have hlength : again.length = 224 := by
    obtain rfl := Except.ok.inj he
    decide +kernel
  exact ⟨_, again, rfl, hread, by decide +kernel, he, hlength, hagain (by omega)⟩

end EvmInspect.Abi
