import EvmInspect.Proofs.RoundTrip

namespace EvmInspect.Abi

/-- A value with a fixed array of items without room is never read. -/
theorem decodeValue_ne_ok_of_weightless {t element : AbiType} {count : Nat} {v w : AbiValue}
    (ho : Occurs (.fixedArray element count) w t v) (hs : element.headSize? = some 0)
    (base : Bytes) (pos : Nat) : decodeValue t base pos ≠ .ok v := by
  intro h
  obtain ⟨_, _, _, hw⟩ := decodeValue_of_occurs ho h
  obtain ⟨_, size, _, _, hsize, hne, _⟩ := decodeValue_fixedArray_eq_ok.mp hw
  exact hne (Option.some.inj (hsize.symm.trans hs))

/-- What is written for values of types that can be read comes back, unless no byte was written or
there is an obstacle in one of the values. -/
theorem encoded_decodes_or_refused {types : List AbiType} {values : List AbiValue} {data : Bytes}
    (readable : ∀ t ∈ types, ∃ text, AbiType.ofText text = .ok t)
    (accepted : encode types values = .ok data) (short : data.length < 2 ^ 63)
    (counted : ∀ p ∈ types.zip values, ∀ element items,
      Occurs (.array element) (.array items) p.1 p.2 → items.length < 2 ^ 63) :
    (data = [] → types ≠ [] → decode types data = .error (.emptyData types.length)) ∧
    ((types ≠ [] → data ≠ []) → Returns values
      (fun e => ∃ p ∈ types.zip values, Obstacle p.1 p.2 e) (decode types data)) ∧
    ∀ p ∈ types.zip values, ∀ element count w, Occurs (.fixedArray element count) w p.1 p.2 →
      element.headSize? = some 0 → ∃ e, decode types data = .error e := by
  have hw := AbiType.wellFormed_of_readable readable
  have hreads : ∀ p ∈ types.zip values,
      ReadsUnless (fun e => ∃ p ∈ types.zip values, Obstacle p.1 p.2 e) p.1 p.2 := by
    intro p hp
    have hc : Counted p.1 p.2 := by
      intro element items ho _
      exact Nat.lt_trans (counted p hp element items ho) (by decide)
    exact (comesBack_of_wellFormed (hw p.1 (List.of_mem_zip hp).1) hc).mono
      (fun e ho => ⟨p, hp, ho⟩)
  have hempty : data = [] → types ≠ [] → decode types data = .error (.emptyData types.length) := by
    rintro rfl hne
    exact decode_nil hne
  have hreturns : (types ≠ [] → data ≠ []) → Returns values
      (fun e => ∃ p ∈ types.zip values, Obstacle p.1 p.2 e) (decode types data) := by
    intro hne
    have h := returns_decodeSequence (fun t ht => sized_of_wellFormed (hw t ht)) hreads accepted []
    rw [List.append_nil] at h
    rw [decode_of_ne_nil hne]
    exact h (by omega)
  refine ⟨hempty, hreturns, ?_⟩
  intro p hp element count w ho hs
  cases hd : decode types data with
  | error e => exact ⟨e, rfl⟩
  | ok found =>
    have hne : types ≠ [] → data ≠ [] := by
      intro hne hnil
      rw [hempty hnil hne] at hd
      cases hd
    have h := hreturns hne
    rw [hd] at h
    cases h
    rw [decode_of_ne_nil hne] at hd
    obtain ⟨pos, hv⟩ := decodeValue_of_decodeSequence hd p hp
    exact absurd hv (decodeValue_ne_ok_of_weightless ho hs data pos)

def noNumbers : AbiType :=
  .fixedArray (.uint 256) 0

theorem occurs_noNumbers {u : AbiType} {w : AbiValue} {n : Nat}
    (h : Occurs u w (.array noNumbers) (.array (List.replicate n (.fixedArray [])))) :
    u = .array noNumbers ∧ w = .array (List.replicate n (.fixedArray [])) ∨
      u = noNumbers ∧ w = .fixedArray [] := by
  cases h with
  | here => exact Or.inl ⟨rfl, rfl⟩
  | array hi ho =>
    rw [List.eq_of_mem_replicate hi] at ho
    cases ho with
    | here => exact Or.inr ⟨rfl, rfl⟩
    | fixedArray hi _ => cases hi

/-- As many of them as two words have bytes come back. -/
theorem encoded_decodes_sixty_four :
    ∃ (values : List AbiValue) (data : Bytes),
      values = [.array (List.replicate 64 (.fixedArray []))] ∧
      encode [.array noNumbers] values = .ok data ∧ data.length = 64 ∧
      decode [.array noNumbers] data = .ok values := by
  refine ⟨_, _, rfl, rfl, by decide +kernel, ?_⟩
  refine ((encoded_decodes_or_refused ?_ rfl (by decide +kernel) ?_).2.1 ?_).eq_ok ?_
  · intro t ht
    rw [List.mem_singleton.mp ht]
    exact ⟨"uint256[0][]", by cbv⟩
  · intro p hp element items ho
    rw [List.mem_singleton.mp hp] at ho
    rcases occurs_noNumbers ho with ⟨_, hv⟩ | ⟨hu, _⟩
    · cases hv
      decide
    · cases hu
  · intro _ hnil
    cases hnil
  · rintro e ⟨p, hp, ho⟩
    rw [List.mem_singleton.mp hp] at ho
    cases ho with
    | weightless ho hs =>
      rcases occurs_noNumbers ho with ⟨hu, _⟩ | ⟨hu, _⟩
      · cases hu
      · cases hu
        cases hs
    | boundless ho hs =>
      rcases occurs_noNumbers ho with ⟨hu, _⟩ | ⟨hu, _⟩
      · cases hu
        cases hs
      · cases hu
    | crowded ho _ hlt =>
      rcases occurs_noNumbers ho with ⟨_, hv⟩ | ⟨hu, _⟩
      · cases hv
        exact absurd hlt (by decide)
      · cases hu

/-- Two arrays, each of which takes half of what is addressable. -/
def boundlessPair : AbiType :=
  .tuple [.fixedArray (.uint 256) (2 ^ 58), .fixedArray (.uint 256) (2 ^ 58)]

/-- Not all that is written is read: no bytes for a type, a fixed array of items without room, more
such items than two words of data, and an empty array of items whose heads have no size. -/
theorem encoded_not_decoded :
    (AbiType.ofText "uint256[0]" = .ok noNumbers ∧
      encode [noNumbers] [.fixedArray []] = .ok [] ∧
      decode [noNumbers] [] = .error (.emptyData 1)) ∧
    (∃ data, AbiType.ofText "uint256[0][3]" = .ok (.fixedArray noNumbers 3) ∧
      encode [.uint 256, .fixedArray noNumbers 3]
        [.uint 7, .fixedArray (List.replicate 3 (.fixedArray []))] = .ok data ∧
      data.length = 32 ∧
      decode [.uint 256, .fixedArray noNumbers 3] data =
        .error (.unsupportedType "uint256[0][3]")) ∧
    (∃ data, AbiType.ofText "uint256[0][]" = .ok (.array noNumbers) ∧
      encode [.array noNumbers] [.array (List.replicate 65 (.fixedArray []))] = .ok data ∧
      data.length = 64 ∧ decode [.array noNumbers] data = .error (.invalidOffset 32)) ∧
    ∃ data, AbiType.ofText "(uint256[288230376151711744],uint256[288230376151711744])[]" =
        .ok (.array boundlessPair) ∧
      encode [.array boundlessPair] [.array []] = .ok data ∧ data.length = 64 ∧
      decode [.array boundlessPair] data = .error (.unsupportedType boundlessPair.display) := by
  refine ⟨⟨?_, rfl, rfl⟩, ⟨_, ?_, rfl, ?_, ?_⟩, ⟨_, ?_, rfl, ?_, ?_⟩, ⟨_, ?_, rfl, ?_, ?_⟩⟩
  all_goals cbv

end EvmInspect.Abi
