import EvmInspect.Proofs.Leaves

namespace EvmInspect.Abi

theorem locate_static {t : AbiType} (h : t.isDynamic = false) (base : Bytes) (head : Nat) :
    locate t base head = .ok head := by
  rw [locate, h, if_neg (by simp)]

theorem locate_dynamic {t : AbiType} (h : t.isDynamic = true) (base : Bytes) (head : Nat) :
    locate t base head = readSize base head := by
  rw [locate, if_pos h]

/-- What is written for a value is read back wherever it stands, unless an error of a kind stops
the reading. A dynamic value has the head that points at it somewhere before it. -/
def ReadsUnless (may : AbiError → Prop) (t : AbiType) (v : AbiValue) : Prop :=
  ∀ ⦃data : Bytes⦄, encodeValue t v = .ok data → ∀ front rest : Bytes,
    (t.isDynamic = true → wordSize ≤ front.length) →
    (front ++ (data ++ rest)).length < 2 ^ 256 →
      Returns v may (decodeValue t (front ++ (data ++ rest)) front.length)

theorem AbiType.Reads.unless {t : AbiType} (h : t.Reads) (may : AbiError → Prop) (v : AbiValue) :
    ReadsUnless may t v :=
  fun _ hd front rest _ hlt => .of_eq_ok (h hd front rest hlt)

theorem ReadsUnless.mono {may more : AbiError → Prop} {t : AbiType} {v : AbiValue}
    (h : ReadsUnless may t v) (weaker : ∀ e, may e → more e) : ReadsUnless more t v :=
  fun _ hd front rest hf hlt => (h hd front rest hf hlt).mono weaker

theorem returns_decodeSequence_cons {may : AbiError → Prop} {t : AbiType} {types : List AbiType}
    {v : AbiValue} {values : List AbiValue} {base : Bytes} {head pos next : Nat}
    (hpos : locate t base head = .ok pos) (hv : Returns v may (decodeValue t base pos))
    (hn : nextHead t head = .ok next) (hr : Returns values may (decodeSequence types base next)) :
    Returns (v :: values) may (decodeSequence (t :: types) base head) := by
  rw [decodeSequence, hpos, except_bind_ok]
  apply hv.bind
  rw [hn, except_bind_ok]
  exact hr.bind .ok

section
variable {may : AbiError → Prop}

/-- Reading a sequence whose first heads and tails were passed: `front` holds the heads passed, and
`middle` the tails. The offset of the next tail is where `middle` ends. -/
theorem decodeSequence_heads {types : List AbiType} {values : List AbiValue} {parts : List Part}
    {head stop : Nat} (sized : ∀ t ∈ types, t.Sized)
    (reads : ∀ p ∈ types.zip values, ReadsUnless may p.1 p.2)
    (hl : values.length = types.length) (hp : encodeParts types values = .ok parts)
    (hn : AbiType.headSizes? head types = some stop) (offset : Nat) (front middle rest : Bytes)
    (hf : front.length = head)
    (ho : (front ++ (Part.heads offset parts ++ middle)).length = offset)
    (hlt : (front ++ (Part.heads offset parts ++
      (middle ++ (Part.tails parts ++ rest)))).length < 2 ^ 256) :
    Returns values may (decodeSequence types (front ++ (Part.heads offset parts ++
      (middle ++ (Part.tails parts ++ rest)))) head) := by
  -- with each type its head moves into `front` and its tail, if it has one, into `middle`
  induction types generalizing values parts head offset front middle with
  | nil =>
    obtain rfl := List.length_eq_zero_iff.mp hl
    exact .ok
  | cons t types ih =>
    cases values with
    | nil => simp at hl
    | cons v values =>
      obtain ⟨bytes, others, hb, hr, rfl⟩ := encodeParts_cons_eq_ok.mp hp
      obtain ⟨size, hs, hlimit, hn⟩ := headSizes?_cons_eq_some.mp hn
      have hnext : nextHead t head = .ok (head + size) :=
        nextHead_eq_ok.mpr ⟨size, hs, Size.add?_eq_some.mpr ⟨hlimit, rfl⟩⟩
      have hlen : values.length = types.length := by simpa using hl
      rw [List.zip_cons_cons] at reads
      have ih := ih (fun u hu => sized u (List.mem_cons_of_mem t hu))
        (fun p hp => reads p (List.mem_cons_of_mem _ hp)) hlen hr hn
      have hread := reads (t, v) List.mem_cons_self hb
      cases hd : t.isDynamic with
      | false =>
        rw [sized t List.mem_cons_self hd hb] at hs
        have hsize : bytes.length = size := Option.some.inj hs
        simp only [hd, Part.heads, Part.tails, Bool.false_eq_true, ↓reduceIte,
          List.append_assoc] at ho hlt ⊢
        apply returns_decodeSequence_cons (locate_static hd _ _) _ hnext
        · have := ih offset (front ++ bytes) middle (by simp [hf, hsize])
            (by simpa only [List.append_assoc] using ho)
            (by simpa only [List.append_assoc] using hlt)
          simpa only [List.append_assoc] using this
        · rw [← hf]
          exact hread front _ (by simp [hd]) hlt
      | true =>
        rw [headSize?_of_dynamic hd] at hs
        have hsize : wordSize = size := Option.some.inj hs
        simp only [hd, Part.heads, Part.tails, ↓reduceIte, List.append_assoc] at ho hlt ⊢
        have hlocate : locate t (front ++ ((Word.ofNat offset).bytes ++
            (Part.heads (offset + bytes.length) others ++
              (middle ++ (bytes ++ (Part.tails others ++ rest)))))) head = .ok offset := by
          rw [locate_dynamic hd, ← hf]
          refine readSize_append front _ ?_ ?_
          all_goals
            simp only [List.length_append] at ho hlt ⊢
            omega
        apply returns_decodeSequence_cons hlocate _ hnext
        · have := ih (offset + bytes.length) (front ++ (Word.ofNat offset).bytes)
            (middle ++ bytes) (by rw [List.length_append, Word.length_bytes, hf, hsize])
            (by
              simp only [List.length_append] at ho ⊢
              omega)
            (by simpa only [List.append_assoc] using hlt)
          simpa only [List.append_assoc] using this
        · -- the tail of this value begins where the heads and the tails passed end
          have := hread (front ++ ((Word.ofNat offset).bytes ++
            (Part.heads (offset + bytes.length) others ++ middle))) (Part.tails others ++ rest)
            (by
              simp only [List.length_append, Word.length_bytes]
              omega)
            (by simpa only [List.append_assoc] using hlt)
          rw [ho] at this
          simpa only [List.append_assoc] using this

/-- A whole sequence is read back, whatever stands behind it. -/
theorem returns_decodeSequence {types : List AbiType} {values : List AbiValue} {data : Bytes}
    (sized : ∀ t ∈ types, t.Sized) (reads : ∀ p ∈ types.zip values, ReadsUnless may p.1 p.2)
    (h : encode types values = .ok data) (rest : Bytes) (hlt : (data ++ rest).length < 2 ^ 256) :
    Returns values may (decodeSequence types (data ++ rest) 0) := by
  obtain ⟨hl, length, parts, hn, hp, hd⟩ := encode_eq_ok.mp h
  rw [headLength_eq_ok] at hn
  have hlen := length_heads sized hl hp hn length
  have hdata : data ++ rest =
      [] ++ (Part.heads length parts ++ ([] ++ (Part.tails parts ++ rest))) := by
    simp [hd, Part.assemble]
  rw [hdata] at hlt ⊢
  exact decodeSequence_heads sized reads hl hp hn length [] [] rest rfl (by simpa using hlen) hlt

/-- The head of a sequence is part of it. -/
theorem headSizes?_le_length {types : List AbiType} {values : List AbiValue} {data : Bytes}
    {stop : Nat} (sized : ∀ t ∈ types, t.Sized) (h : encode types values = .ok data)
    (hn : AbiType.headSizes? 0 types = some stop) : stop ≤ data.length := by
  obtain ⟨hl, length, parts, _, hp, rfl⟩ := encode_eq_ok.mp h
  have hlen := length_heads sized hl hp hn length
  rw [Part.assemble, List.length_append]
  omega

/-- Items of one type are never fewer bytes than their heads, which are addressable. -/
theorem items_fit {element : AbiType} {count size : Nat} {items : List AbiValue} {data : Bytes}
    (sized : element.Sized) (hs : element.headSize? = some size)
    (h : encode (List.replicate count element) items = .ok data) :
    Size.mul? count size = some (count * size) ∧ count * size ≤ data.length := by
  have hsized : ∀ t ∈ List.replicate count element, t.Sized :=
    List.forall_mem_replicate.mpr (Or.inr sized)
  obtain ⟨_, stop, _, hn, _⟩ := encode_eq_ok.mp h
  rw [headLength_eq_ok] at hn
  have hle := headSizes?_le_length hsized h hn
  obtain ⟨he, hlt⟩ := headSizes?_replicate hs hn
  rw [Nat.zero_add] at he
  subst stop
  exact ⟨Size.mul?_eq_some.mpr ⟨hlt (by decide), rfl⟩, hle⟩

/-- Items of one type are read back. -/
theorem returns_decodeItems {element : AbiType} {count : Nat} {items : List AbiValue} {data : Bytes}
    (sized : element.Sized) (reads : ∀ item ∈ items, ReadsUnless may element item)
    (h : encode (List.replicate count element) items = .ok data) (rest : Bytes)
    (hlt : (data ++ rest).length < 2 ^ 256) :
    Returns items may (decodeSequence (List.replicate count element) (data ++ rest) 0) := by
  apply returns_decodeSequence (List.forall_mem_replicate.mpr (Or.inr sized)) _ h rest hlt
  rintro ⟨t, item⟩ hp
  obtain ⟨ht, hitem⟩ := List.of_mem_zip hp
  rw [List.eq_of_mem_replicate ht]
  exact reads item hitem

theorem sliceFrom_word (front : Bytes) (w : Word) (rest : Bytes) :
    sliceFrom (front ++ (w.bytes ++ rest)) (front.length + wordSize) = .ok rest := by
  have := sliceFrom_append (front ++ w.bytes) rest
  rwa [List.length_append, w.length_bytes, List.append_assoc] at this

/-- A number is read back as an offset or a length, unless it points outside the data. -/
theorem returns_readSize {n : Nat} (front rest : Bytes) (hn : n < 2 ^ 256)
    (outside : (front ++ ((Word.ofNat n).bytes ++ rest)).length < n →
      may (.invalidOffset front.length)) :
    Returns n may (readSize (front ++ ((Word.ofNat n).bytes ++ rest)) front.length) := by
  by_cases hle : n ≤ (front ++ ((Word.ofNat n).bytes ++ rest)).length
  · exact .of_eq_ok (readSize_append front rest hn hle)
  · rw [readSize, readWord_append, except_bind_ok, Word.toNat_ofNat hn, if_neg hle]
    exact .error (outside (Nat.lt_of_not_le hle))

/-- Items can be more than there is data only if they take no room. With the head that points at the
array, and with the number of items itself, there are two words of data. -/
theorem readsUnless_array {element : AbiType} {items : List AbiValue} {size : Nat}
    (sized : element.Sized) (reads : ∀ item ∈ items, ReadsUnless may element item)
    (hs : element.headSize? = some size) (counted : size = 0 → items.length < 2 ^ 256)
    (crowded : size = 0 → 2 * wordSize < items.length → ∀ pos, may (.invalidOffset pos)) :
    ReadsUnless may (.array element) (.array items) := by
  intro data h front rest hf hlt
  obtain ⟨_, bytes, hv, hb, hd⟩ := encodeValue_array_eq_ok.mp h
  cases hv
  obtain ⟨hmul, hfit⟩ := items_fit sized hs hb
  have hroom : size ≠ 0 → items.length ≤ bytes.length := by
    intro hz
    exact Nat.le_trans (Nat.le_mul_of_pos_right _ (Nat.pos_of_ne_zero hz)) hfit
  have hfront : wordSize ≤ front.length := hf rfl
  subst hd
  rw [List.append_assoc] at hlt ⊢
  have htotal := hlt
  simp only [List.length_append, Word.length_bytes] at htotal
  have hcount : items.length < 2 ^ 256 := by
    by_cases hz : size = 0
    · exact counted hz
    · exact Nat.lt_of_le_of_lt (hroom hz) (by omega)
  have hread : Returns items.length may (readSize (front ++
      ((Word.ofNat items.length).bytes ++ (bytes ++ rest))) front.length) := by
    apply returns_readSize front (bytes ++ rest) hcount
    intro hover
    simp only [List.length_append, Word.length_bytes] at hover
    have hz : size = 0 := by
      by_contra hz
      have := hroom hz
      omega
    exact crowded hz (by omega) _
  have hsequence := returns_decodeItems sized reads hb rest (by
    rw [List.length_append]
    omega)
  rw [decodeValue]
  apply hread.bind
  simp only [sliceFrom_word, headSize_eq_ok.mpr hs, hmul, except_bind_ok,
    readEach_eq_decodeSequence]
  rw [if_pos (by rw [List.length_append]; omega)]
  exact hsequence.bind .ok

/-- An array of items whose heads have no size is written if it is empty, and then not read. -/
theorem readsUnless_boundless {element : AbiType} {items : List AbiValue}
    (hs : element.headSize? = none)
    (boundless : items = [] → may (.unsupportedType element.display)) :
    ReadsUnless may (.array element) (.array items) := by
  intro data h front rest _ _
  obtain ⟨_, bytes, hv, hb, hd⟩ := encodeValue_array_eq_ok.mp h
  cases hv
  obtain ⟨_, stop, _, hn, _⟩ := encode_eq_ok.mp hb
  rw [headLength_eq_ok] at hn
  cases items with
  | cons item items =>
    obtain ⟨size, hsize, _⟩ := headSizes?_cons_eq_some.mp hn
    rw [hs] at hsize
    cases hsize
  | nil =>
    subst hd
    rw [List.append_assoc]
    have hread := readSize_append front (bytes ++ rest) (n := 0) (by decide) (Nat.zero_le _)
    have hsize : headSize element = .error (.unsupportedType element.display) := by
      rw [headSize, hs]
    rw [List.length_nil, decodeValue, hread, except_bind_ok, sliceFrom_word, except_bind_ok, hsize,
      except_bind_error]
    exact .error (boundless rfl)

theorem readsUnless_fixedArray {element : AbiType} {items : List AbiValue} {count size : Nat}
    (sized : element.Sized) (reads : ∀ item ∈ items, ReadsUnless may element item)
    (hs : element.headSize? = some size)
    (weightless : size = 0 → may (.unsupportedType (AbiType.fixedArray element count).display)) :
    ReadsUnless may (.fixedArray element count) (.fixedArray items) := by
  intro data h front rest _ hlt
  obtain ⟨_, hv, _, hb⟩ := encodeValue_fixedArray_eq_ok.mp h
  cases hv
  obtain ⟨hmul, hfit⟩ := items_fit sized hs hb
  have hsequence := returns_decodeItems sized reads hb rest (by
    rw [List.length_append] at hlt
    omega)
  have hswap : Size.mul? size count = some (count * size) := by
    rw [← hmul, Size.mul?, Size.mul?, Nat.mul_comm]
  simp only [decodeValue, sliceFrom_append, headSize_eq_ok.mpr hs, hswap, except_bind_ok,
    readEach_eq_decodeSequence]
  by_cases hz : size = 0
  · rw [if_pos hz]
    exact .error (weightless hz)
  · rw [if_neg hz, if_pos (by rw [List.length_append]; omega)]
    exact hsequence.bind .ok

theorem readsUnless_tuple {members : List AbiType} {items : List AbiValue}
    (sized : ∀ m ∈ members, m.Sized)
    (reads : ∀ p ∈ members.zip items, ReadsUnless may p.1 p.2) :
    ReadsUnless may (.tuple members) (.tuple items) := by
  intro data h front rest _ hlt
  obtain ⟨_, hv, hb⟩ := encodeValue_tuple_eq_ok.mp h
  cases hv
  have hsequence := returns_decodeSequence sized reads hb rest (by
    rw [List.length_append] at hlt
    omega)
  rw [decodeValue, sliceFrom_append, except_bind_ok]
  exact hsequence.bind .ok

end

end EvmInspect.Abi
