import EvmInspect.Abi.Type

namespace EvmInspect.Abi.AbiType

mutual
def components : AbiType → List AbiType
  | .array element => .array element :: element.components
  | .fixedArray element length => .fixedArray element length :: element.components
  | .tuple members => .tuple members :: componentsOf members
  | type => [type]

def componentsOf : List AbiType → List AbiType
  | [] => []
  | member :: members => member.components ++ componentsOf members
end

/-- Whether a type is sound, apart from the types that it is made of. -/
def isSound : AbiType → Bool
  | .uint bits | .int bits => 8 ≤ bits && bits ≤ 256 && bits % 8 == 0
  | .fixedBytes size => 1 ≤ size && size ≤ wordSize
  | .fixedArray element length => (AbiType.fixedArray element length).headSize?.isSome
  | .tuple members => !members.isEmpty
  | _ => true

/-- A type whose components are sound, itself among them. -/
def WellFormed (t : AbiType) : Prop :=
  ∀ component ∈ t.components, component.isSound

instance (t : AbiType) : Decidable t.WellFormed :=
  inferInstanceAs (Decidable (∀ component ∈ t.components, component.isSound))

theorem mem_components_self (t : AbiType) : t ∈ t.components := by
  cases t <;> simp [components]

theorem WellFormed.isSound {t : AbiType} (h : t.WellFormed) : t.isSound :=
  h t t.mem_components_self

theorem WellFormed.uint_bits {bits : Nat} (h : (AbiType.uint bits).WellFormed) :
    (8 ≤ bits ∧ bits ≤ 256) ∧ bits % 8 = 0 := by
  simpa [AbiType.isSound] using h.isSound

theorem WellFormed.int_bits {bits : Nat} (h : (AbiType.int bits).WellFormed) :
    (8 ≤ bits ∧ bits ≤ 256) ∧ bits % 8 = 0 := by
  simpa [AbiType.isSound] using h.isSound

theorem WellFormed.fixedBytes_size {size : Nat} (h : (AbiType.fixedBytes size).WellFormed) :
    1 ≤ size ∧ size ≤ wordSize := by
  simpa [AbiType.isSound] using h.isSound

theorem WellFormed.element {t : AbiType} (h : (AbiType.array t).WellFormed) : t.WellFormed :=
  fun c hc => h c (by simp [components, hc])

theorem WellFormed.fixedElement {t : AbiType} {n : Nat} (h : (AbiType.fixedArray t n).WellFormed) :
    t.WellFormed :=
  fun c hc => h c (by simp [components, hc])

theorem mem_componentsOf {c : AbiType} {members : List AbiType} :
    c ∈ componentsOf members ↔ ∃ member ∈ members, c ∈ member.components := by
  induction members with
  | nil => simp [componentsOf]
  | cons member members ih => simp [componentsOf, ih]

theorem WellFormed.member {members : List AbiType} (h : (AbiType.tuple members).WellFormed) :
    ∀ member ∈ members, member.WellFormed := by
  intro member hm c hc
  refine h c ?_
  simp only [components, List.mem_cons]
  exact Or.inr (mem_componentsOf.mpr ⟨member, hm, hc⟩)

end EvmInspect.Abi.AbiType
