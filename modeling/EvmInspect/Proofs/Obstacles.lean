import EvmInspect.Proofs.Decoding
import EvmInspect.Proofs.Reading

namespace EvmInspect.Abi

/-- A value `w` of a type `u` occurs in a value of a type, as an item at some depth. -/
inductive Occurs (u : AbiType) (w : AbiValue) : AbiType → AbiValue → Prop
  | here : Occurs u w u w
  | array {element : AbiType} {items : List AbiValue} {item : AbiValue} :
    item ∈ items → Occurs u w element item → Occurs u w (.array element) (.array items)
  | fixedArray {element : AbiType} {count : Nat} {items : List AbiValue} {item : AbiValue} :
    item ∈ items → Occurs u w element item →
      Occurs u w (.fixedArray element count) (.fixedArray items)
  | tuple {members : List AbiType} {items : List AbiValue} {p : AbiType × AbiValue} :
    p ∈ members.zip items → Occurs u w p.1 p.2 → Occurs u w (.tuple members) (.tuple items)

/-- The type of what occurs is a component. -/
theorem Occurs.mem_components {t u : AbiType} {v w : AbiValue} (h : Occurs u w t v) :
    u ∈ t.components := by
  induction h with
  | here => exact u.mem_components_self
  | array _ _ ih => exact List.mem_cons_of_mem _ ih
  | fixedArray _ _ ih => exact List.mem_cons_of_mem _ ih
  | tuple hp _ ih =>
    refine List.mem_cons_of_mem _ (AbiType.mem_componentsOf.mpr ⟨_, ?_, ih⟩)
    exact (List.of_mem_zip hp).1

theorem Occurs.element_mem {t element : AbiType} {v w : AbiValue}
    (h : Occurs (.array element) w t v) : element ∈ t.components :=
  AbiType.components_subset h.mem_components
    (List.mem_cons_of_mem _ element.mem_components_self)

theorem Occurs.fixedElement_mem {t element : AbiType} {count : Nat} {v w : AbiValue}
    (h : Occurs (.fixedArray element count) w t v) : element ∈ t.components :=
  AbiType.components_subset h.mem_components
    (List.mem_cons_of_mem _ element.mem_components_self)

/-- A value is read only with all that occurs in it, from the data or a part of them. -/
theorem decodeValue_of_occurs {t u : AbiType} {v w : AbiValue} (ho : Occurs u w t v) {base : Bytes}
    {pos : Nat} (h : decodeValue t base pos = .ok v) :
    ∃ inner start, inner.length ≤ base.length ∧ decodeValue u inner start = .ok w := by
  induction ho generalizing base pos with
  | here => exact ⟨base, pos, Nat.le_refl _, h⟩
  | array hi _ ih =>
    obtain ⟨_, _, _, _, _, hslice, _, _, _, hitems, hv⟩ := decodeValue_array_eq_ok.mp h
    cases hv
    obtain ⟨_, hitem⟩ := decodeValue_of_decodeItems hitems hi
    obtain ⟨inner, start, hle, hw⟩ := ih hitem
    exact ⟨inner, start, hle.trans (length_of_sliceFrom hslice), hw⟩
  | fixedArray hi _ ih =>
    obtain ⟨_, _, _, hslice, _, _, _, _, hitems, hv⟩ := decodeValue_fixedArray_eq_ok.mp h
    cases hv
    obtain ⟨_, hitem⟩ := decodeValue_of_decodeItems hitems hi
    obtain ⟨inner, start, hle, hw⟩ := ih hitem
    exact ⟨inner, start, hle.trans (length_of_sliceFrom hslice), hw⟩
  | tuple hp _ ih =>
    obtain ⟨_, _, hslice, hitems, hv⟩ := decodeValue_tuple_eq_ok.mp h
    cases hv
    obtain ⟨_, hitem⟩ := decodeValue_of_decodeSequence hitems _ hp
    obtain ⟨inner, start, hle, hw⟩ := ih hitem
    exact ⟨inner, start, hle.trans (length_of_sliceFrom hslice), hw⟩

/-- What can keep a written value from being read: items without room in the head, in a fixed array;
an empty array of items whose heads have no size; or so many items without room that their number
seems to point outside the data. -/
inductive Obstacle (t : AbiType) (v : AbiValue) : AbiError → Prop
  | weightless {element : AbiType} {count : Nat} {w : AbiValue} :
    Occurs (.fixedArray element count) w t v → element.headSize? = some 0 →
      Obstacle t v (.unsupportedType (AbiType.fixedArray element count).display)
  | boundless {element : AbiType} :
    Occurs (.array element) (.array []) t v → element.headSize? = none →
      Obstacle t v (.unsupportedType element.display)
  | crowded {element : AbiType} {items : List AbiValue} {pos : Nat} :
    Occurs (.array element) (.array items) t v → element.headSize? = some 0 →
      2 * wordSize < items.length → Obstacle t v (.invalidOffset pos)

/-- An obstacle in a part is one in the whole. -/
theorem Obstacle.mono {t whole : AbiType} {v all : AbiValue} {e : AbiError}
    (h : Obstacle t v e) (inside : ∀ u w, Occurs u w t v → Occurs u w whole all) :
    Obstacle whole all e := by
  cases h with
  | weightless ho hs => exact .weightless (inside _ _ ho) hs
  | boundless ho hs => exact .boundless (inside _ _ ho) hs
  | crowded ho hs hlt => exact .crowded (inside _ _ ho) hs hlt

/-- Where items take no room, a word can hold their number. -/
def Counted (t : AbiType) (v : AbiValue) : Prop :=
  ∀ element items, Occurs (.array element) (.array items) t v → element.headSize? = some 0 →
    items.length < 2 ^ 256

theorem Counted.mono {t whole : AbiType} {v all : AbiValue} (h : Counted whole all)
    (inside : ∀ u w, Occurs u w t v → Occurs u w whole all) : Counted t v :=
  fun _ _ ho hs => h _ _ (inside _ _ ho) hs

theorem headSize?_of_fixedArray {element : AbiType} {count : Nat}
    (h : (AbiType.fixedArray element count).headSize?.isSome) :
    ∃ size, element.headSize? = some size := by
  cases hd : element.isDynamic with
  | true => exact ⟨wordSize, headSize?_of_dynamic hd⟩
  | false =>
    obtain ⟨room, hroom⟩ := Option.isSome_iff_exists.mp h
    rw [AbiType.headSize?, hd, if_neg (by simp)] at hroom
    obtain ⟨size, hs, _⟩ := Option.bind_eq_some_iff.mp hroom
    exact ⟨size, hs⟩

def AbiType.ComesBack (t : AbiType) : Prop :=
  ∀ ⦃v : AbiValue⦄, Counted t v → ReadsUnless (Obstacle t v) t v

theorem AbiType.ComesBack.inside {t whole : AbiType} {v all : AbiValue} (h : t.ComesBack)
    (hc : Counted whole all) (inside : ∀ u w, Occurs u w t v → Occurs u w whole all) :
    ReadsUnless (Obstacle whole all) t v :=
  (h (hc.mono inside)).mono fun _ ho => ho.mono inside

theorem comesBack_array {element : AbiType} (sized : element.Sized) (h : element.ComesBack) :
    (AbiType.array element).ComesBack := by
  intro v hc data hd
  obtain ⟨items, _, rfl, _⟩ := encodeValue_array_eq_ok.mp hd
  have reads : ∀ item ∈ items,
      ReadsUnless (Obstacle (.array element) (.array items)) element item :=
    fun _ hi => h.inside hc fun _ _ => .array hi
  cases hs : element.headSize? with
  | none =>
    refine readsUnless_boundless hs ?_ hd
    rintro rfl
    exact .boundless .here hs
  | some size =>
    refine readsUnless_array sized reads hs ?_ ?_ hd
    · rintro rfl
      exact hc element items .here hs
    · rintro rfl hlt pos
      exact .crowded .here hs hlt

theorem comesBack_fixedArray {element : AbiType} {count : Nat} (sized : element.Sized)
    (h : element.ComesBack) (hsome : (AbiType.fixedArray element count).headSize?.isSome) :
    (AbiType.fixedArray element count).ComesBack := by
  intro v hc data hd
  obtain ⟨items, rfl, _⟩ := encodeValue_fixedArray_eq_ok.mp hd
  have reads : ∀ item ∈ items,
      ReadsUnless (Obstacle (.fixedArray element count) (.fixedArray items)) element item :=
    fun _ hi => h.inside hc fun _ _ => .fixedArray hi
  obtain ⟨size, hs⟩ := headSize?_of_fixedArray hsome
  refine readsUnless_fixedArray sized reads hs ?_ hd
  rintro rfl
  exact .weightless .here hs

theorem comesBack_tuple {members : List AbiType} (sized : ∀ m ∈ members, m.Sized)
    (h : ∀ m ∈ members, m.ComesBack) : (AbiType.tuple members).ComesBack := by
  intro v hc data hd
  obtain ⟨items, rfl, _⟩ := encodeValue_tuple_eq_ok.mp hd
  have reads : ∀ p ∈ members.zip items,
      ReadsUnless (Obstacle (.tuple members) (.tuple items)) p.1 p.2 :=
    fun p hp => (h p.1 (List.of_mem_zip hp).1).inside hc fun _ _ => .tuple hp
  exact readsUnless_tuple sized reads hd

/-- What is written for a value is read back wherever it stands, unless there is an obstacle. -/
theorem comesBack_of_wellFormed {t : AbiType} (hw : t.WellFormed) : t.ComesBack := by
  induction t with
  | uint bits =>
    exact fun v _ => (reads_uint hw.uint_bits.1.2).unless _ v
  | int bits =>
    exact fun v _ => (reads_int hw.int_bits).unless _ v
  | bool => exact fun v _ => reads_bool.unless _ v
  | address => exact fun v _ => reads_address.unless _ v
  | fixedBytes size =>
    have hb := hw.fixedBytes_size
    exact fun v _ => (reads_fixedBytes hb.1 hb.2).unless _ v
  | bytes => exact fun v _ => reads_bytes.unless _ v
  | string => exact fun v _ => reads_string.unless _ v
  | array element ih =>
    exact comesBack_array (sized_of_wellFormed hw.element) (ih hw.element)
  | fixedArray element count ih =>
    exact comesBack_fixedArray (sized_of_wellFormed hw.fixedElement) (ih hw.fixedElement) hw.isSound
  | tuple members ih =>
    exact comesBack_tuple (fun m hm => sized_of_wellFormed (hw.member m hm))
      (fun m hm => ih m hm (hw.member m hm))

end EvmInspect.Abi
