import EvmInspect.Abi.Type.Grammar
import EvmInspect.Abi.WellFormed
import EvmInspect.Proofs.Results

namespace EvmInspect.Abi

/-- Elements of arrays and members of tuples are smaller types. -/
@[induction_eliminator]
theorem AbiType.induction {motive : AbiType → Prop}
    (uint : ∀ bits, motive (.uint bits))
    (int : ∀ bits, motive (.int bits))
    (bool : motive .bool)
    (address : motive .address)
    (fixedBytes : ∀ size, motive (.fixedBytes size))
    (bytes : motive .bytes)
    (string : motive .string)
    (array : ∀ element, motive element → motive (.array element))
    (fixedArray : ∀ element length, motive element → motive (.fixedArray element length))
    (tuple : ∀ members, (∀ m ∈ members, motive m) → motive (.tuple members))
    (t : AbiType) : motive t := by
  match t with
  | .uint bits => exact uint bits
  | .int bits => exact int bits
  | .bool => exact bool
  | .address => exact address
  | .fixedBytes size => exact fixedBytes size
  | .bytes => exact bytes
  | .string => exact string
  | .array element =>
    exact array element (AbiType.induction uint int bool address fixedBytes bytes string array
      fixedArray tuple element)
  | .fixedArray element length =>
    exact fixedArray element length (AbiType.induction uint int bool address fixedBytes bytes
      string array fixedArray tuple element)
  | .tuple members =>
    exact tuple members (fun m hm => AbiType.induction uint int bool address fixedBytes bytes
      string array fixedArray tuple m)
termination_by sizeOf t
decreasing_by
  all_goals simp_wf
  · omega
  · have hlt := List.sizeOf_lt_of_mem hm
    omega

theorem anyDynamic_eq_any (members : List AbiType) :
    AbiType.anyDynamic members = members.any AbiType.isDynamic := by
  induction members with
  | nil => rfl
  | cons member members ih => simp [AbiType.anyDynamic, ih]

namespace AbiType

/-- What a component is made of, the type is made of. -/
theorem components_subset {t u : AbiType} (h : u ∈ t.components) : u.components ⊆ t.components := by
  induction t with
  | array element ih =>
    rcases List.mem_cons.mp h with rfl | h
    · exact List.Subset.refl _
    · exact List.subset_cons_of_subset _ (ih h)
  | fixedArray element length ih =>
    rcases List.mem_cons.mp h with rfl | h
    · exact List.Subset.refl _
    · exact List.subset_cons_of_subset _ (ih h)
  | tuple members ih =>
    rcases List.mem_cons.mp h with rfl | h
    · exact List.Subset.refl _
    · obtain ⟨m, hm, h⟩ := mem_componentsOf.mp h
      intro c hc
      exact List.mem_cons_of_mem _ (mem_componentsOf.mpr ⟨m, hm, ih m hm h hc⟩)
  | _ =>
    rw [List.mem_singleton.mp h]
    exact List.Subset.refl _

theorem WellFormed.component {t u : AbiType} (h : t.WellFormed) (hu : u ∈ t.components) :
    u.WellFormed :=
  fun c hc => h c (components_subset hu hc)

theorem WellFormed.array {t : AbiType} (h : t.WellFormed) : (AbiType.array t).WellFormed := by
  intro c hc
  rcases List.mem_cons.mp hc with rfl | hc
  · rfl
  · exact h c hc

theorem WellFormed.fixedArray {t : AbiType} {length : Nat} (h : t.WellFormed)
    (hs : (AbiType.fixedArray t length).headSize?.isSome) :
    (AbiType.fixedArray t length).WellFormed := by
  intro c hc
  rcases List.mem_cons.mp hc with rfl | hc
  · exact hs
  · exact h c hc

theorem WellFormed.tuple {members : List AbiType} (h : ∀ m ∈ members, m.WellFormed)
    (hne : members.isEmpty = false) : (AbiType.tuple members).WellFormed := by
  intro c hc
  rcases List.mem_cons.mp hc with rfl | hc
  · simp [AbiType.isSound, hne]
  · obtain ⟨m, hm, hc⟩ := mem_componentsOf.mp hc
    exact h m hm c hc

theorem bounds_of_readBits? {text : List Char} {bits : Nat} (h : readBits? text = some bits) :
    8 ≤ bits ∧ bits ≤ 256 ∧ bits % 8 = 0 := by
  have hb := (Option.filter_eq_some_iff.mp h).2
  simp only [Bool.and_eq_true, decide_eq_true_eq, beq_iff_eq] at hb
  omega

theorem bounds_of_readBytes? {text : List Char} {size : Nat} (h : readBytes? text = some size) :
    1 ≤ size ∧ size ≤ wordSize := by
  have hb := (Option.filter_eq_some_iff.mp h).2
  simpa only [Bool.and_eq_true, decide_eq_true_eq] using hb

def wholeWords : List (List Char × AbiType) := [
  (['a', 'd', 'd', 'r', 'e', 's', 's'], .address),
  (['b', 'o', 'o', 'l'], .bool),
  (['s', 't', 'r', 'i', 'n', 'g'], .string),
  (['b', 'y', 't', 'e', 's'], .bytes),
  (['b', 'y', 't', 'e'], .fixedBytes 1),
  (['u', 'i', 'n', 't'], .uint 256),
  (['i', 'n', 't'], .int 256)]

/-- The ways in which a word names a type. -/
inductive Names : List Char → AbiType → Prop
  | whole {word : List Char} {t : AbiType} (h : (word, t) ∈ wholeWords) : Names word t
  | uint {digits : List Char} {bits : Nat} (h : readBits? digits = some bits) :
      Names (['u', 'i', 'n', 't'] ++ digits) (.uint bits)
  | int {digits : List Char} {bits : Nat} (h : readBits? digits = some bits) :
      Names (['i', 'n', 't'] ++ digits) (.int bits)
  | fixedBytes {digits : List Char} {size : Nat} (h : readBytes? digits = some size) :
      Names (['b', 'y', 't', 'e', 's'] ++ digits) (.fixedBytes size)

theorem names_of_ofWord? {word : List Char} {t : AbiType} (h : ofWord? word = some t) :
    Names word t := by
  unfold ofWord? at h
  split at h
  case h_8 =>
    split at h
    · rename_i digits hw
      obtain ⟨bits, hbits, rfl⟩ := Option.map_eq_some_iff.mp h
      rw [Text.eq_append_of_dropStart? hw]
      exact .uint hbits
    · split at h
      · rename_i digits hw
        obtain ⟨bits, hbits, rfl⟩ := Option.map_eq_some_iff.mp h
        rw [Text.eq_append_of_dropStart? hw]
        exact .int hbits
      · obtain ⟨digits, hw, hd⟩ := Option.bind_eq_some_iff.mp h
        obtain ⟨size, hsize, rfl⟩ := Option.map_eq_some_iff.mp hd
        rw [Text.eq_append_of_dropStart? hw]
        exact .fixedBytes hsize
  all_goals
    obtain rfl := Option.some.inj h
    exact .whole (by simp [wholeWords])

theorem wellFormed_wholeWords : ∀ entry ∈ wholeWords, entry.2.WellFormed := by
  simp [wholeWords, WellFormed, components, isSound, wordSize]

/-- Words name types without parts, in the widths that are allowed. -/
theorem wellFormed_of_ofWord? {word : List Char} {t : AbiType} (h : ofWord? word = some t) :
    t.WellFormed := by
  cases names_of_ofWord? h with
  | whole hword => exact wellFormed_wholeWords _ hword
  | uint hbits | int hbits =>
    have hbounds := bounds_of_readBits? hbits
    simp [WellFormed, components, isSound, hbounds]
  | fixedBytes hsize =>
    have hbounds := bounds_of_readBytes? hsize
    simp [WellFormed, components, isSound, hbounds]

theorem wellFormed_of_arrayOf {element t : AbiType} {size text : List Char}
    (he : element.WellFormed) (h : arrayOf element size text = .ok t) : t.WellFormed := by
  unfold arrayOf at h
  split at h
  · cases h
    exact he.array
  · split at h
    · cases h
    · split at h
      · cases h
        exact he.fixedArray (by assumption)
      · cases h

theorem wellFormed_of_readWithin {fuel : Nat} {text : List Char} {t : AbiType}
    (h : readWithin fuel text = .ok t) : t.WellFormed := by
  induction fuel generalizing text t with
  | zero => cases h
  | succ fuel ih =>
    rw [readWithin] at h
    dsimp only at h
    split at h
    · split at h
      · cases h
      · obtain ⟨element, he, h⟩ := bind_eq_ok.mp h
        exact wellFormed_of_arrayOf (ih he) h
    · split at h
      · obtain ⟨members, hm, h⟩ := bind_eq_ok.mp h
        split at h
        · cases h
        · rename_i hne
          cases h
          refine WellFormed.tuple ?_ (by simpa using hne)
          intro m hmem
          obtain ⟨part, _, hp⟩ := mem_of_mapM_ok hm hmem
          exact ih hp
      · split at h
        · rename_i hw
          cases h
          exact wellFormed_of_ofWord? hw
        · cases h

/-- Only well-formed types can be read. -/
theorem wellFormed_of_ofText {text : String} {t : AbiType} (h : ofText text = .ok t) :
    t.WellFormed :=
  wellFormed_of_readWithin h

theorem wellFormed_of_readable {types : List AbiType}
    (h : ∀ t ∈ types, ∃ text, ofText text = .ok t) : ∀ t ∈ types, t.WellFormed := by
  intro t ht
  obtain ⟨_, htext⟩ := h t ht
  exact wellFormed_of_ofText htext

end AbiType
end EvmInspect.Abi
