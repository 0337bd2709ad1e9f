import EvmInspect.Abi.Call
import EvmInspect.Proofs.Obstacles

namespace EvmInspect.Abi

/-- Every component of the type takes room in the head of a sequence. -/
def AbiType.TakesRoom (t : AbiType) : Prop :=
  ∀ c ∈ t.components, ∃ size, c.headSize? = some size ∧ size ≠ 0

theorem AbiType.TakesRoom.self {t : AbiType} (h : t.TakesRoom) :
    ∃ size, t.headSize? = some size ∧ size ≠ 0 :=
  h t t.mem_components_self

/-- Values that take room are no obstacle. -/
theorem AbiType.TakesRoom.no_obstacle {t : AbiType} (h : t.TakesRoom) (v : AbiValue)
    (e : AbiError) : ¬ Obstacle t v e := by
  intro ho
  cases ho with
  | weightless hi hs =>
    obtain ⟨size, hsize, hne⟩ := h _ hi.fixedElement_mem
    rw [hs] at hsize
    exact hne (Option.some.inj hsize).symm
  | boundless hi hs =>
    obtain ⟨size, hsize, _⟩ := h _ hi.element_mem
    rw [hs] at hsize
    cases hsize
  | crowded hi hs _ =>
    obtain ⟨size, hsize, hne⟩ := h _ hi.element_mem
    rw [hs] at hsize
    exact hne (Option.some.inj hsize).symm

theorem AbiType.TakesRoom.counted {t : AbiType} (h : t.TakesRoom) (v : AbiValue) :
    Counted t v := by
  intro element items hi hs
  obtain ⟨size, hsize, hne⟩ := h _ hi.element_mem
  rw [hs] at hsize
  exact absurd (Option.some.inj hsize).symm hne

theorem reads_of_takesRoom {t : AbiType} (hw : t.WellFormed) (hr : t.TakesRoom) (v : AbiValue) :
    ReadsUnless (fun _ => False) t v :=
  (comesBack_of_wellFormed hw (hr.counted v)).mono (hr.no_obstacle v)

theorem decodeSequence_append {types : List AbiType} {values : List AbiValue} {data : Bytes}
    (sized : ∀ t ∈ types, t.Sized) (reads : ∀ t ∈ types, ∀ v, ReadsUnless (fun _ => False) t v)
    (h : encode types values = .ok data) (rest : Bytes) (hlt : (data ++ rest).length < 2 ^ 256) :
    decodeSequence types (data ++ rest) 0 = .ok values := by
  refine (returns_decodeSequence sized ?_ h rest hlt).eq_ok (fun _ => id)
  intro p hp
  exact reads p.1 (List.of_mem_zip hp).1 p.2

/-- Values whose heads take room leave data behind. -/
theorem encode_ne_nil {types : List AbiType} {values : List AbiValue} {data : Bytes}
    (sized : ∀ t ∈ types, t.Sized) (room : ∀ t ∈ types, t.headSize? ≠ some 0) (hne : types ≠ [])
    (h : encode types values = .ok data) : data ≠ [] := by
  obtain ⟨_, stop, _, hn, _⟩ := encode_eq_ok.mp h
  rw [headLength_eq_ok] at hn
  have hle := headSizes?_le_length sized h hn
  cases types with
  | nil => exact absurd rfl hne
  | cons t types =>
    obtain ⟨size, hs, _, hn⟩ := headSizes?_cons_eq_some.mp hn
    have hstop := le_of_headSizes? hn
    rintro rfl
    rw [List.length_nil] at hle
    obtain rfl : size = 0 := by omega
    exact room t List.mem_cons_self hs

theorem ne_nil_of_encode {types : List AbiType} {values : List AbiValue} {data : Bytes}
    (sized : ∀ t ∈ types, t.Sized) (room : ∀ t ∈ types, t.TakesRoom) (hne : types ≠ [])
    (h : encode types values = .ok data) : data ≠ [] := by
  refine encode_ne_nil sized ?_ hne h
  intro t ht hzero
  obtain ⟨size, hs, hpos⟩ := (room t ht).self
  exact hpos (Option.some.inj (hs.symm.trans hzero))

theorem decodeArguments_plain {d : Descriptor} {types : List AbiType}
    (h : paramTypes d.inputs = .ok types) (data : Bytes) :
    decodeArguments d data false = decode types data := by
  rw [decodeArguments, h]
  rfl

theorem decodeArguments_call {d : Descriptor} {types : List AbiType}
    (h : paramTypes d.inputs = .ok types) (data : Bytes) :
    decodeArguments d (d.selector.toBytes ++ data) true = decode types data := by
  rw [decodeArguments, h]
  have htake : (d.selector.toBytes ++ data).take 4 = d.selector.toBytes := rfl
  have hdrop : (d.selector.toBytes ++ data).drop 4 = data := rfl
  simp only [except_bind_ok, htake, hdrop, Bool.true_and, beq_self_eq_true, ↓reduceIte]

/-- Values of types that can be read and whose components all take room come back from what is
written for them, as a parameter list and as the arguments of any function with these types. -/
theorem encode_round_trip {types : List AbiType} {values : List AbiValue} {data : Bytes}
    (readable : ∀ t ∈ types, ∃ text, AbiType.ofText text = .ok t)
    (room : ∀ t ∈ types, t.TakesRoom) (accepted : encode types values = .ok data)
    (short : data.length < 2 ^ 63) :
    decode types data = .ok values ∧
    ∀ d : Descriptor, paramTypes d.inputs = .ok types →
      (encodeCall d values >>= fun call => decodeArguments d call true) = .ok values ∧
      (encodeArguments d values >>= fun arguments => decodeArguments d arguments false) =
        .ok values := by
  have hw : ∀ t ∈ types, t.WellFormed := by
    intro t ht
    obtain ⟨text, h⟩ := readable t ht
    exact AbiType.wellFormed_of_ofText h
  have sized : ∀ t ∈ types, t.Sized := fun t ht => sized_of_wellFormed (hw t ht)
  have hdecode : decode types data = .ok values := by
    rw [decode_of_ne_nil (fun hne => ne_nil_of_encode sized room hne accepted)]
    have h := decodeSequence_append sized
      (fun t ht => reads_of_takesRoom (hw t ht) (room t ht)) accepted []
    rw [List.append_nil] at h
    exact h (by omega)
  refine ⟨hdecode, ?_⟩
  intro d hd
  have harguments : encodeArguments d values = .ok data := by
    rw [encodeArguments, hd, except_bind_ok, accepted]
  constructor
  · rw [encodeCall, harguments, except_bind_ok, except_bind_ok, decodeArguments_call hd, hdecode]
  · rw [harguments, except_bind_ok, decodeArguments_plain hd, hdecode]

/-- Arrays of arrays, an array of strings, and a tuple with bytes. -/
theorem encode_round_trip_nested :
    ∃ (types : List AbiType) (values : List AbiValue) (data : Bytes),
      types = [.array (.array (.uint 256)), .fixedArray .string 2, .tuple [.bool, .bytes]] ∧
      values = [.array [.array [.uint 1, .uint 2], .array []],
        .fixedArray [.string "one", .string "two"], .tuple [.bool false, .bytes [0xde, 0xad]]] ∧
      encode types values = .ok data ∧ data.length = 640 ∧ decode types data = .ok values := by
  refine ⟨_, _, _, rfl, rfl, rfl, by decide +kernel, ?_⟩
  refine (encode_round_trip ?_ ?_ rfl (by decide +kernel)).1
  · intro t ht
    simp only [List.mem_cons, List.not_mem_nil, or_false] at ht
    rcases ht with rfl | rfl | rfl
    · exact ⟨"uint256[][]", by cbv⟩
    · exact ⟨"string[2]", by cbv⟩
    · exact ⟨"(bool,bytes)", by cbv⟩
  · intro t ht
    simp only [List.mem_cons, List.not_mem_nil, or_false] at ht
    rcases ht with rfl | rfl | rfl
    all_goals
      simp [AbiType.TakesRoom, AbiType.components, AbiType.componentsOf, AbiType.headSize?,
        AbiType.isDynamic, AbiType.anyDynamic, wordSize]

end EvmInspect.Abi
