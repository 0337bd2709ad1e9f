import EvmInspect.Proofs.Sequences

namespace EvmInspect

theorem Size.add?_eq_some {a b c : Nat} : Size.add? a b = some c ↔ a + b < Size.limit ∧ a + b = c :=
  Size.fit?_eq_some

theorem Size.mul?_eq_some {a b c : Nat} : Size.mul? a b = some c ↔ a * b < Size.limit ∧ a * b = c :=
  Size.fit?_eq_some

namespace Abi

theorem headSize_eq_ok {t : AbiType} {size : Nat} :
    headSize t = .ok size ↔ t.headSize? = some size := by
  unfold headSize
  cases t.headSize? <;> simp

theorem nextHead_eq_ok {t : AbiType} {head next : Nat} :
    nextHead t head = .ok next ↔
      ∃ size, t.headSize? = some size ∧ Size.add? head size = some next := by
  unfold nextHead
  simp only [bind_eq_ok, headSize_eq_ok]
  constructor
  · rintro ⟨size, hs, h⟩
    refine ⟨size, hs, ?_⟩
    cases hn : Size.add? head size with
    | none => simp [hn] at h
    | some n => simpa [hn] using h
  · rintro ⟨size, hs, h⟩
    exact ⟨size, hs, by rw [h]⟩

theorem headSizes?_cons_eq_some {t : AbiType} {types : List AbiType} {total stop : Nat} :
    AbiType.headSizes? total (t :: types) = some stop ↔
      ∃ size, t.headSize? = some size ∧ total + size < Size.limit ∧
        AbiType.headSizes? (total + size) types = some stop := by
  rw [AbiType.headSizes?]
  simp only [bind, Option.bind_eq_some_iff, Size.add?_eq_some]
  constructor
  · rintro ⟨size, hs, _, ⟨hlt, rfl⟩, h⟩
    exact ⟨size, hs, hlt, h⟩
  · rintro ⟨size, hs, hlt, h⟩
    exact ⟨size, hs, _, ⟨hlt, rfl⟩, h⟩

theorem le_of_headSizes? {types : List AbiType} {total stop : Nat}
    (h : AbiType.headSizes? total types = some stop) : total ≤ stop := by
  induction types generalizing total with
  | nil =>
    exact Nat.le_of_eq (Option.some.inj h)
  | cons t types ih =>
    obtain ⟨size, _, _, h⟩ := headSizes?_cons_eq_some.mp h
    exact Nat.le_trans (Nat.le_add_right total size) (ih h)

/-- Writing counts the head of a sequence as the type of a tuple does. -/
theorem headLength_eq_ok {types : List AbiType} {total stop : Nat} :
    headLength total types = .ok stop ↔ AbiType.headSizes? total types = some stop := by
  induction types generalizing total with
  | nil => simp [headLength, AbiType.headSizes?]
  | cons t types ih =>
    rw [headLength, bind_eq_ok, headSizes?_cons_eq_some]
    simp only [nextHead_eq_ok, Size.add?_eq_some]
    constructor
    · rintro ⟨_, ⟨size, hs, hlt, rfl⟩, h⟩
      exact ⟨size, hs, hlt, ih.mp h⟩
    · rintro ⟨size, hs, hlt, h⟩
      exact ⟨_, ⟨size, hs, hlt, rfl⟩, ih.mpr h⟩

theorem headSizes?_replicate {t : AbiType} {size count total stop : Nat}
    (hs : t.headSize? = some size)
    (h : AbiType.headSizes? total (List.replicate count t) = some stop) :
    stop = total + count * size ∧ (total < Size.limit → stop < Size.limit) := by
  induction count generalizing total with
  | zero =>
    cases h
    simp
  | succ count ih =>
    obtain ⟨n, hn, hlt, h⟩ := headSizes?_cons_eq_some.mp h
    obtain rfl := Option.some.inj (hs.symm.trans hn)
    obtain ⟨he, hb⟩ := ih h
    refine ⟨?_, fun _ => hb hlt⟩
    rw [he, Nat.succ_mul]
    omega

theorem headSize?_of_dynamic {t : AbiType} (h : t.isDynamic = true) :
    t.headSize? = some wordSize := by
  cases t with
  | fixedArray element length =>
    rw [AbiType.isDynamic] at h
    rw [AbiType.headSize?, if_pos h]
  | tuple members =>
    rw [AbiType.isDynamic] at h
    rw [AbiType.headSize?, if_pos h]
  | _ => rfl

/-- The values of a type take the room in the head that is counted for them. -/
def AbiType.Sized (t : AbiType) : Prop :=
  ∀ ⦃v : AbiValue⦄ ⦃data : Bytes⦄, t.isDynamic = false → encodeValue t v = .ok data →
    t.headSize? = some data.length

/-- All heads together end where the count ends. -/
theorem length_heads {types : List AbiType} {values : List AbiValue} {parts : List Part}
    {total stop : Nat} (sized : ∀ t ∈ types, t.Sized) (hl : values.length = types.length)
    (hp : encodeParts types values = .ok parts)
    (hn : AbiType.headSizes? total types = some stop) (offset : Nat) :
    total + (Part.heads offset parts).length = stop := by
  induction types generalizing values parts total offset with
  | nil =>
    rw [encodeParts_nil] at hp
    cases hp
    cases hn
    rfl
  | cons t types ih =>
    cases values with
    | nil => simp at hl
    | cons v values =>
      obtain ⟨bytes, rest, hb, hr, rfl⟩ := encodeParts_cons_eq_ok.mp hp
      obtain ⟨size, hs, _, hn⟩ := headSizes?_cons_eq_some.mp hn
      have hih := ih (fun u hu => sized u (List.mem_cons_of_mem t hu)) (by simpa using hl) hr hn
      cases hd : t.isDynamic with
      | true =>
        rw [headSize?_of_dynamic hd] at hs
        have hw := Option.some.inj hs
        rw [Part.heads, if_pos rfl, List.length_append, Word.length_bytes, hw, ← Nat.add_assoc]
        exact hih _
      | false =>
        rw [sized t List.mem_cons_self hd hb] at hs
        have hw := Option.some.inj hs
        rw [Part.heads, if_neg (by simp), List.length_append, hw, ← Nat.add_assoc]
        exact hih _

/-- There is nothing behind the head of a sequence without dynamic types. -/
theorem tails_eq_nil {types : List AbiType} {values : List AbiValue} {parts : List Part}
    (hd : AbiType.anyDynamic types = false) (hp : encodeParts types values = .ok parts) :
    Part.tails parts = [] := by
  induction types generalizing values parts with
  | nil =>
    rw [encodeParts_nil] at hp
    cases hp
    rfl
  | cons t types ih =>
    rw [AbiType.anyDynamic, Bool.or_eq_false_iff] at hd
    cases values with
    | nil =>
      cases hp
      rfl
    | cons v values =>
      obtain ⟨bytes, rest, _, hr, rfl⟩ := encodeParts_cons_eq_ok.mp hp
      rw [Part.tails, hd.1]
      exact ih hd.2 hr

/-- A sequence without dynamic types is its head. -/
theorem headSizes?_of_encode {types : List AbiType} {values : List AbiValue} {data : Bytes}
    (sized : ∀ t ∈ types, t.Sized) (hd : AbiType.anyDynamic types = false)
    (h : encode types values = .ok data) : AbiType.headSizes? 0 types = some data.length := by
  obtain ⟨hl, length, parts, hn, hp, rfl⟩ := encode_eq_ok.mp h
  rw [headLength_eq_ok] at hn
  have hlen := length_heads sized hl hp hn length
  rw [hn, Part.assemble, tails_eq_nil hd hp, List.append_nil]
  rw [Nat.zero_add] at hlen
  exact congrArg some hlen.symm

theorem anyDynamic_replicate {t : AbiType} (h : t.isDynamic = false) (count : Nat) :
    AbiType.anyDynamic (List.replicate count t) = false := by
  simp [anyDynamic_eq_any, h]

/-- Up to a word of bytes fills a word. -/
theorem length_padWords_of_le {data : Bytes} (h : 0 < data.length) (hle : data.length ≤ wordSize) :
    (padWords data).length = wordSize := by
  rw [padWords, List.length_append, List.length_replicate]
  unfold wordSize at hle ⊢
  omega

theorem sized_fixedArray {element : AbiType} {count : Nat} (sized : element.Sized)
    (hsome : (AbiType.fixedArray element count).headSize?.isSome) :
    (AbiType.fixedArray element count).Sized := by
  intro v data hd h
  rw [AbiType.isDynamic] at hd
  obtain ⟨items, rfl, _, h⟩ := encodeValue_fixedArray_eq_ok.mp h
  have hs := headSizes?_of_encode (List.forall_mem_replicate.mpr (Or.inr sized))
    (anyDynamic_replicate hd count) h
  obtain ⟨room, hroom⟩ := Option.isSome_iff_exists.mp hsome
  rw [hroom]
  simp only [AbiType.headSize?, hd, Bool.false_eq_true, ↓reduceIte] at hroom
  obtain ⟨size, hsize, hmul⟩ := Option.bind_eq_some_iff.mp hroom
  obtain ⟨_, rfl⟩ := Size.mul?_eq_some.mp hmul
  have he := (headSizes?_replicate hsize hs).1
  rw [he, Nat.zero_add, Nat.mul_comm]

theorem sized_tuple {members : List AbiType} (sized : ∀ m ∈ members, m.Sized) :
    (AbiType.tuple members).Sized := by
  intro v data hd h
  rw [AbiType.isDynamic] at hd
  obtain ⟨items, rfl, h⟩ := encodeValue_tuple_eq_ok.mp h
  rw [AbiType.headSize?, if_neg (by simp [hd])]
  exact headSizes?_of_encode sized hd h

/-- Every well-formed type writes its static values with the size of its head. -/
theorem sized_of_wellFormed {t : AbiType} (hw : t.WellFormed) : t.Sized := by
  induction t with
  | uint bits =>
    intro v data _ h
    obtain ⟨n, _, _, hd⟩ := encodeValue_uint_eq_ok.mp h
    rw [← hd, Word.length_bytes]
    rfl
  | int bits =>
    intro v data _ h
    obtain ⟨n, _, _, hd⟩ := (encodeValue_int_eq_ok hw.int_bits).mp h
    rw [← hd, Word.length_bytes]
    rfl
  | bool =>
    intro v data _ h
    obtain ⟨b, _, hd⟩ := encodeValue_bool_eq_ok.mp h
    rw [← hd, Word.length_bytes]
    rfl
  | address =>
    intro v data _ h
    obtain ⟨a, _, hd⟩ := encodeValue_address_eq_ok.mp h
    rw [← hd, List.length_append, List.length_replicate, a.length_bytes]
    rfl
  | fixedBytes size =>
    intro v data _ h
    obtain ⟨bytes, _, hl, hd⟩ := encodeValue_fixedBytes_eq_ok.mp h
    have hb := hw.fixedBytes_size
    rw [← hd, length_padWords_of_le (by omega) (by omega)]
    rfl
  | bytes =>
    intro v data hd
    cases hd
  | string =>
    intro v data hd
    cases hd
  | array element =>
    intro v data hd
    cases hd
  | fixedArray element count ih => exact sized_fixedArray (ih hw.fixedElement) hw.isSound
  | tuple members ih => exact sized_tuple (fun m hm => ih m hm (hw.member m hm))

end Abi
end EvmInspect
