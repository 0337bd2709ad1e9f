import EvmInspect.Proofs.Canonical
import EvmInspect.Proofs.HeadSizes

namespace EvmInspect

/-- Computations that return one by one return together. -/
theorem Returns.mapM {ε α β : Type} {may : ε → Prop} {f : α → Except ε β} {xs : List α}
    {ys : List β} (h : List.Forall₂ (fun x y => Returns y may (f x)) xs ys) :
    Returns ys may (xs.mapM f) := by
  induction h with
  | nil => exact .ok
  | cons hx _ ih =>
    rw [List.mapM_cons]
    exact hx.bind (ih.bind .ok)

namespace Abi.AbiType

mutual
/-- The texts that describe a type, whether it is small enough to be read or not. -/
def DescribedBy : AbiType → List Char → Prop
  | .array element, text => ∃ inner gap, Text.trim text = inner ++ '[' :: (gap ++ [']']) ∧
      Text.trim gap = [] ∧ element.DescribedBy inner
  | .fixedArray element length, text => ∃ inner size,
      Text.trim text = inner ++ '[' :: (size ++ [']']) ∧
        Text.readNumber? (Text.trim size) = some length ∧ element.DescribedBy inner
  | .tuple members, text => ∃ opening body, (opening = [] ∨ opening = ['t', 'u', 'p', 'l', 'e']) ∧
      Text.trim text = opening ++ '(' :: (body ++ [')']) ∧ members ≠ [] ∧
        AllDescribedBy members (parts body)
  | t, text => ofWord? (Text.trim text) = some t

def AllDescribedBy : List AbiType → List (List Char) → Prop
  | [], texts => texts = []
  | member :: members, texts => ∃ text rest, texts = text :: rest ∧ member.DescribedBy text ∧
      AllDescribedBy members rest
end

mutual
/-- The number of bytes that a value takes in the head of a sequence, whether it is a size or not.
-/
def room : AbiType → Nat
  | .fixedArray element length => if element.isDynamic then wordSize else element.room * length
  | .tuple members => if anyDynamic members then wordSize else rooms members
  | _ => wordSize

def rooms : List AbiType → Nat
  | [] => 0
  | member :: members => member.room + rooms members
end

/-- A type whose components all have heads that are sizes, itself among them. -/
def Addressable (t : AbiType) : Prop :=
  ∀ u ∈ t.components, u.headSize? = some u.room ∧ u.room < Size.limit

def fits : AbiType → Bool
  | .fixedArray element length =>
    length < Size.limit && (AbiType.fixedArray element length).headSize?.isSome
  | _ => true

/-- Whether a type is a tuple that has no head, although its members have. -/
def overflows : AbiType → Bool
  | .tuple members =>
    !anyDynamic members && members.all (·.headSize?.isSome) && Size.limit ≤ rooms members
  | _ => false

theorem allDescribedBy_iff {members : List AbiType} {texts : List (List Char)} :
    AllDescribedBy members texts ↔ List.Forall₂ DescribedBy members texts := by
  induction members generalizing texts with
  | nil => simp [AllDescribedBy]
  | cons member members ih =>
    simp only [AllDescribedBy, List.forall₂_cons_left_iff, ih]
    constructor
    · rintro ⟨text, rest, htexts, hmember, hrest⟩
      exact ⟨text, rest, hmember, hrest, htexts⟩
    · rintro ⟨text, rest, hmember, hrest, htexts⟩
      exact ⟨text, rest, htexts, hmember, hrest⟩

/-- Blanks around a text do not count. -/
theorem describedBy_trim {t : AbiType} {text : List Char} :
    t.DescribedBy (Text.trim text) ↔ t.DescribedBy text := by
  cases t <;> simp only [DescribedBy, Text.trim_trim]

/-- A word describes what it names, for it names no type that has parts. -/
theorem describedBy_of_ofWord? {t : AbiType} {text : List Char}
    (h : ofWord? (Text.trim text) = some t) : t.DescribedBy text := by
  have hself := (components_of_ofWord? h).1
  cases t with
  | array element | fixedArray element length =>
    rw [components, List.cons.injEq] at hself
    exact absurd hself.2 (List.ne_nil_of_mem element.mem_components_self)
  | tuple members =>
    have hsound := (wellFormed_of_ofWord? h).isSound
    rw [components, List.cons.injEq] at hself
    cases members with
    | nil => cases hsound
    | cons member members =>
      have hmember : member ∈ componentsOf (member :: members) :=
        mem_componentsOf.mpr ⟨member, List.mem_cons_self, member.mem_components_self⟩
      exact absurd hself.2 (List.ne_nil_of_mem hmember)
  | _ => simpa only [DescribedBy] using h

theorem describedBy_of_arrayOf {element t : AbiType} {text inner size : List Char}
    (htext : Text.trim text = inner ++ '[' :: (size ++ [']'])) (hinner : element.DescribedBy inner)
    (h : arrayOf element (Text.trim size) (Text.trim text) = .ok t) : t.DescribedBy text := by
  unfold arrayOf at h
  split at h
  · rename_i hgap
    cases h
    exact ⟨inner, size, htext, hgap, hinner⟩
  · split at h
    · cases h
    · rename_i length hlength
      obtain ⟨_, h⟩ := ite_eq_ok.mp h
      cases h
      obtain ⟨number, hnumber, hfit⟩ := Option.bind_eq_some_iff.mp hlength
      obtain ⟨_, rfl⟩ := Size.fit?_eq_some.mp hfit
      exact ⟨inner, size, htext, hnumber, hinner⟩

/-- A text describes what is read from it. -/
theorem describedBy_of_readWithin {fuel : Nat} {text : List Char} {t : AbiType}
    (h : readWithin fuel text = .ok t) : t.DescribedBy text := by
  refine readWithin_induction (motive := fun text t => t.DescribedBy text) ?word ?array ?tuple h
  case word => exact fun text t h => describedBy_of_ofWord? h
  case array =>
    intro text inner size element t htext hinner h
    exact describedBy_of_arrayOf htext hinner h
  case tuple =>
    intro text opening body members hopening htext hne hmembers
    exact ⟨opening, body, hopening, htext, hne, allDescribedBy_iff.mpr hmembers.flip⟩

theorem room_of_dynamic {t : AbiType} (h : t.isDynamic = true) : t.room = wordSize := by
  cases t with
  | fixedArray element length => rw [room, if_pos (by simpa [isDynamic] using h)]
  | tuple members => rw [room, if_pos (by simpa [isDynamic] using h)]
  | _ => rfl

/-- Heads that are sizes one by one are counted as long as their sum is a size. -/
theorem headSizes?_eq_fit? {members : List AbiType} {total : Nat} (ht : total < Size.limit)
    (h : ∀ m ∈ members, m.headSize? = some m.room) :
    headSizes? total members = Size.fit? (total + rooms members) := by
  induction members generalizing total with
  | nil => simp [headSizes?, rooms, Size.fit?, ht]
  | cons m members ih =>
    obtain ⟨hm, hmembers⟩ := List.forall_mem_cons.mp h
    rw [headSizes?, hm, rooms, ← Nat.add_assoc]
    by_cases hnext : total + m.room < Size.limit
    · have hadd : Size.add? total m.room = some (total + m.room) := if_pos hnext
      simp only [Option.bind_eq_bind, Option.bind_some, hadd]
      exact ih hnext hmembers
    · have hadd : Size.add? total m.room = none := if_neg hnext
      have hsum : Size.fit? (total + m.room + rooms members) = none := if_neg (by omega)
      simp only [Option.bind_eq_bind, Option.bind_some, hadd, Option.bind_none, hsum]

theorem headSize?_tuple {members : List AbiType} (hd : anyDynamic members = false)
    (h : ∀ m ∈ members, m.headSize? = some m.room) :
    (AbiType.tuple members).headSize? = Size.fit? (AbiType.tuple members).room := by
  rw [headSize?, if_neg (by simp [hd]), headSizes?_eq_fit? (by decide) h, room,
    if_neg (by simp [hd]), Nat.zero_add]

theorem exists_headSize?_of_headSizes? {members : List AbiType} {total stop : Nat}
    (h : headSizes? total members = some stop) :
    ∀ m ∈ members, ∃ size, m.headSize? = some size := by
  induction members generalizing total with
  | nil => simp
  | cons m members ih =>
    obtain ⟨size, hm, _, hmembers⟩ := headSizes?_cons_eq_some.mp h
    exact List.forall_mem_cons.mpr ⟨⟨size, hm⟩, ih hmembers⟩

/-- A head that is a size is the room that is taken. -/
theorem room_of_headSize? {t : AbiType} {size : Nat} (h : t.headSize? = some size) :
    size = t.room ∧ size < Size.limit := by
  induction t generalizing size with
  | fixedArray element length ih =>
    cases hd : element.isDynamic with
    | true =>
      have hdynamic : (AbiType.fixedArray element length).isDynamic = true := hd
      rw [headSize?_of_dynamic hdynamic] at h
      cases h
      exact ⟨(room_of_dynamic hdynamic).symm, by decide⟩
    | false =>
      rw [headSize?, if_neg (by simp [hd])] at h
      obtain ⟨one, hone, hmul⟩ := Option.bind_eq_some_iff.mp h
      obtain ⟨hlt, rfl⟩ := Size.mul?_eq_some.mp hmul
      rw [room, if_neg (by simp [hd]), ← (ih hone).1]
      exact ⟨rfl, hlt⟩
  | tuple members ih =>
    cases hd : anyDynamic members with
    | true =>
      have hdynamic : (AbiType.tuple members).isDynamic = true := hd
      rw [headSize?_of_dynamic hdynamic] at h
      cases h
      exact ⟨(room_of_dynamic hdynamic).symm, by decide⟩
    | false =>
      have hmembers : ∀ m ∈ members, m.headSize? = some m.room := by
        have hsizes := h
        rw [headSize?, if_neg (by simp [hd])] at hsizes
        intro m hm
        obtain ⟨size, hsize⟩ := exists_headSize?_of_headSizes? hsizes m hm
        rw [hsize, (ih m hm hsize).1]
      rw [headSize?_tuple hd hmembers] at h
      obtain ⟨hlt, rfl⟩ := Size.fit?_eq_some.mp h
      exact ⟨rfl, hlt⟩
  | _ =>
    cases h
    exact ⟨rfl, by decide⟩

theorem addressable_iff {t : AbiType} :
    t.Addressable ↔ ∀ u ∈ t.components, ∃ size, u.headSize? = some size := by
  constructor
  · intro h u hu
    exact ⟨_, (h u hu).1⟩
  · intro h u hu
    obtain ⟨size, hsize⟩ := h u hu
    obtain ⟨rfl, hlt⟩ := room_of_headSize? hsize
    exact ⟨hsize, hlt⟩

theorem overflows_tuple {members : List AbiType} : (AbiType.tuple members).overflows = true ↔
    (∀ m ∈ members, ∃ size, m.headSize? = some size) ∧
      (AbiType.tuple members).headSize? = none := by
  have hall : members.all (·.headSize?.isSome) = true ↔
      ∀ m ∈ members, ∃ size, m.headSize? = some size := by
    simp [Option.isSome_iff_exists]
  rw [overflows, Bool.and_eq_true, Bool.and_eq_true, hall]
  cases hd : anyDynamic members with
  | true =>
    have hdynamic : (AbiType.tuple members).isDynamic = true := hd
    simp [headSize?_of_dynamic hdynamic]
  | false =>
    have hroom (h : ∀ m ∈ members, ∃ size, m.headSize? = some size) :
        (AbiType.tuple members).headSize? = Size.fit? (rooms members) := by
      rw [headSize?_tuple hd, room, if_neg (by simp [hd])]
      intro m hm
      obtain ⟨size, hsize⟩ := h m hm
      rw [hsize, (room_of_headSize? hsize).1]
    simp only [Bool.not_false, true_and, decide_eq_true_eq]
    refine and_congr_right fun h => ?_
    rw [hroom h, Size.fit?, ite_eq_right_iff]
    simp

/-- A head is a size unless an array is too large for one or the members of a tuple are together. -/
theorem exists_headSize? {t : AbiType}
    (h : ∀ u ∈ t.components, u.fits = true ∧ u.overflows = false) :
    ∃ size, t.headSize? = some size := by
  induction t with
  | fixedArray element length _ =>
    have hfits := (h _ (mem_components_self _)).1
    rw [fits, Bool.and_eq_true] at hfits
    exact Option.isSome_iff_exists.mp hfits.2
  | tuple members ih =>
    have hmembers : ∀ m ∈ members, ∃ size, m.headSize? = some size := by
      intro m hm
      apply ih m hm
      intro u hu
      exact h u (List.mem_cons_of_mem _ (mem_componentsOf.mpr ⟨m, hm, hu⟩))
    cases hsize : (AbiType.tuple members).headSize? with
    | some size => exact ⟨size, rfl⟩
    | none =>
      have hover := (h _ (mem_components_self _)).2
      rw [overflows_tuple.mpr ⟨hmembers, hsize⟩] at hover
      cases hover
  | _ => exact ⟨wordSize, rfl⟩

/-- Where every array is small enough, only tuples are in the way of a head. -/
theorem addressable_iff_of_fits {t : AbiType} (h : ∀ u ∈ t.components, u.fits = true) :
    t.Addressable ↔ ∀ u ∈ t.components, u.overflows = false := by
  rw [addressable_iff]
  constructor
  · intro hsizes u hu
    obtain ⟨size, hsize⟩ := hsizes u hu
    cases u with
    | tuple members =>
      cases hover : (AbiType.tuple members).overflows with
      | false => rfl
      | true =>
        rw [(overflows_tuple.mp hover).2] at hsize
        cases hsize
    | _ => rfl
  · intro hover u hu
    apply exists_headSize?
    intro c hc
    have hmem := components_subset hu hc
    exact ⟨h c hmem, hover c hmem⟩

theorem fits_of_wellFormed {t : AbiType} (hw : t.WellFormed) (hl : t.LengthsFit) :
    ∀ u ∈ t.components, u.fits = true := by
  intro u hu
  cases u with
  | fixedArray element length =>
    have hlength := hl _ hu
    have hsound := hw _ hu
    rw [fits, Bool.and_eq_true]
    exact ⟨hlength, hsound⟩
  | _ => rfl

/-- An error that names the text of an array in a type that is too large. -/
inductive Refused (t : AbiType) : AbiError → Prop
  | names {u : AbiType} {part : List Char} : u ∈ t.components → u.fits = false →
      u.DescribedBy part → Refused t (unsupported (Text.trim part))

theorem Refused.mono {t whole : AbiType} {e : AbiError} (h : t.Refused e)
    (inside : t.components ⊆ whole.components) : whole.Refused e := by
  cases h with
  | names hu hfits hpart => exact .names (inside hu) hfits hpart

theorem length_brackets {text inner size : List Char}
    (htext : Text.trim text = inner ++ '[' :: (size ++ [']'])) : inner.length < text.length := by
  have hle := (Text.infix_of_trim text).length_le
  rw [htext, List.length_append, List.length_cons] at hle
  omega

theorem returns_array {element : AbiType} {fuel : Nat} {text : List Char}
    (ih : ∀ inner, element.DescribedBy inner → inner.length < fuel →
      Returns element element.Refused (readWithin fuel inner))
    (h : (AbiType.array element).DescribedBy text) (hf : text.length < fuel + 1) :
    Returns (.array element) (AbiType.array element).Refused (readWithin (fuel + 1) text) := by
  obtain ⟨inner, gap, htext, hgap, hinner⟩ := h
  have hopen : '[' ∉ gap := fun hc =>
    absurd (Text.isBlank_of_trim_eq_nil hgap '[' hc) (by decide)
  have hlength := length_brackets htext
  have hread := ih inner hinner (by omega)
  rw [readWithin_brackets htext hopen]
  refine Returns.bind (hread.mono fun e he => he.mono (List.subset_cons_self _ _)) ?_
  exact .of_eq_ok (if_pos hgap)

theorem not_mem_of_readNumber? {size : List Char} {length : Nat}
    (h : Text.readNumber? (Text.trim size) = some length) : '[' ∉ size := by
  obtain ⟨before, behind, htext, hbefore, hbehind⟩ := Text.exists_gaps size
  rw [htext]
  simp only [List.mem_append, not_or]
  refine ⟨fun hc => ?_, fun hc => ?_, fun hc => ?_⟩
  · exact absurd (hbefore '[' hc) (by decide)
  · exact absurd (Text.digit_or_plus_of_readNumber? h '[' hc) (by decide)
  · exact absurd (hbehind '[' hc) (by decide)

/-- An array of fixed length is made exactly when it is small enough. -/
theorem arrayOf_number {element : AbiType} {size text : List Char} {length : Nat}
    (h : Text.readNumber? size = some length) : arrayOf element size text =
      if (AbiType.fixedArray element length).fits then .ok (.fixedArray element length)
      else .error (unsupported text) := by
  have hne : size ≠ [] := by
    rintro rfl
    cases h
  rw [arrayOf, if_neg hne, Text.readSize?, h, Option.bind_some, fits, Size.fit?]
  by_cases hlt : length < Size.limit <;> simp [hlt]

theorem returns_fixedArray {element : AbiType} {length fuel : Nat} {text : List Char}
    (ih : ∀ inner, element.DescribedBy inner → inner.length < fuel →
      Returns element element.Refused (readWithin fuel inner))
    (h : (AbiType.fixedArray element length).DescribedBy text) (hf : text.length < fuel + 1) :
    Returns (.fixedArray element length) (AbiType.fixedArray element length).Refused
      (readWithin (fuel + 1) text) := by
  have hself := h
  obtain ⟨inner, size, htext, hnumber, hinner⟩ := h
  have hlength := length_brackets htext
  have hread := ih inner hinner (by omega)
  rw [readWithin_brackets htext (not_mem_of_readNumber? hnumber)]
  refine Returns.bind (hread.mono fun e he => he.mono (List.subset_cons_self _ _)) ?_
  rw [arrayOf_number hnumber]
  split
  · exact .ok
  · rename_i hfits
    exact .error (.names (mem_components_self _) (by simpa using hfits) hself)

theorem returns_tuple {members : List AbiType} {fuel : Nat} {text : List Char}
    (ih : ∀ m ∈ members, ∀ part, m.DescribedBy part → part.length < fuel →
      Returns m m.Refused (readWithin fuel part))
    (h : (AbiType.tuple members).DescribedBy text) (hf : text.length < fuel + 1) :
    Returns (.tuple members) (AbiType.tuple members).Refused (readWithin (fuel + 1) text) := by
  obtain ⟨opening, body, hopening, htext, hne, hmembers⟩ := h
  have hlength := (Text.infix_of_trim text).length_le
  rw [htext, List.length_append, List.length_cons, List.length_append] at hlength
  rw [readWithin_parentheses hopening htext]
  have hreads : List.Forall₂ (fun part m => Returns m (AbiType.tuple members).Refused
      (readWithin fuel part)) (parts body) members := by
    have hall := List.forall₂_iff_zip.mp (allDescribedBy_iff.mp hmembers).flip
    refine List.forall₂_iff_zip.mpr ⟨hall.1, fun hzip => ?_⟩
    rename_i part m
    obtain ⟨hpart, hm⟩ := List.of_mem_zip hzip
    have hle := (Text.infix_of_mem_splitTopLevel (List.mem_of_mem_filter hpart)).length_le
    have hread := ih m hm part (hall.2 hzip) (by omega)
    refine hread.mono fun e he => he.mono fun u hu => ?_
    exact List.mem_cons_of_mem _ (mem_componentsOf.mpr ⟨m, hm, hu⟩)
  refine (Returns.mapM hreads).bind (.of_eq_ok ?_)
  rw [if_neg (by simpa using hne)]

/-- What is read from a text is the type that it describes, unless an array in it is too large. -/
theorem returns_of_describedBy {t : AbiType} {fuel : Nat} {text : List Char}
    (h : t.DescribedBy text) (hf : text.length < fuel) :
    Returns t t.Refused (readWithin fuel text) := by
  induction t generalizing fuel text with
  | array element ih =>
    obtain ⟨fuel, rfl⟩ : ∃ n, fuel = n + 1 := ⟨fuel - 1, by omega⟩
    exact returns_array (fun inner hinner hlt => ih hinner hlt) h hf
  | fixedArray element length ih =>
    obtain ⟨fuel, rfl⟩ : ∃ n, fuel = n + 1 := ⟨fuel - 1, by omega⟩
    exact returns_fixedArray (fun inner hinner hlt => ih hinner hlt) h hf
  | tuple members ih =>
    obtain ⟨fuel, rfl⟩ : ∃ n, fuel = n + 1 := ⟨fuel - 1, by omega⟩
    exact returns_tuple (fun m hm part hpart hlt => ih m hm hpart hlt) h hf
  | _ =>
    obtain ⟨fuel, rfl⟩ : ∃ n, fuel = n + 1 := ⟨fuel - 1, by omega⟩
    exact .of_eq_ok (readWithin_of_ofWord? h)

/-- A type that is read is addressable exactly when no tuple in it overflows, and a text is read as
the type that it describes exactly when every array in it is small enough. -/
theorem ofText_addressable (text : String) :
    (∀ t, ofText text = .ok t → t.DescribedBy text.toList ∧
      (t.Addressable ↔ ∀ u ∈ t.components, u.overflows = false)) ∧
    ∀ t : AbiType, t.DescribedBy text.toList →
      (ofText text = .ok t ↔ ∀ u ∈ t.components, u.fits = true) ∧
      (¬ t.Addressable → (∀ u ∈ t.components, u.overflows = false) →
        ∃ u ∈ t.components, u.fits = false ∧ ∃ part : String, u.DescribedBy part.toList ∧
          ofText text = .error (.unsupportedType part)) := by
  have hfits {t : AbiType} (h : ofText text = .ok t) : ∀ u ∈ t.components, u.fits = true :=
    fits_of_wellFormed (wellFormed_of_ofText h) (lengthsFit_of_readWithin h)
  constructor
  · intro t h
    exact ⟨describedBy_of_readWithin h, addressable_iff_of_fits (hfits h)⟩
  · intro t hdescribed
    have hreturns : Returns t t.Refused (ofText text) :=
      returns_of_describedBy hdescribed (Nat.lt_succ_self _)
    cases hread : ofText text with
    | ok read =>
      rw [hread] at hreturns
      cases hreturns
      refine ⟨⟨fun _ => hfits hread, fun _ => rfl⟩, fun haddressable hover => ?_⟩
      exact absurd ((addressable_iff_of_fits (hfits hread)).mpr hover) haddressable
    | error e =>
      rw [hread] at hreturns
      cases hreturns with
      | error hrefused =>
        cases hrefused with
        | @names u part hu htoo hpart =>
          refine ⟨⟨fun h => ?_, fun h => ?_⟩, fun _ _ => ?_⟩
          · cases h
          · exact absurd (h u hu) (by simp [htoo])
          · refine ⟨u, hu, htoo, String.ofList (Text.trim part), ?_, rfl⟩
            rw [String.toList_ofList]
            exact describedBy_trim.mpr hpart

def brimful : AbiType :=
  .tuple [.fixedArray (.uint 256) 288230376151711744, .fixedArray (.uint 256) 288230376151711743]

/-- A type with an array in it that is too large, behind one that has a word for its head. -/
def distant : AbiType :=
  .tuple [.bool, .array (.fixedArray (.uint 256) 600000000000000000)]

theorem ofText_addressable_brimful :
    ofText " (uint256[288230376151711744], uint[288230376151711743])[]" = .ok (.array brimful) ∧
    (AbiType.array brimful).Addressable ∧ brimful.headSize? = some 18446744073709551584 ∧
    distant.DescribedBy "(bool, uint[600000000000000000] [])".toList ∧ ¬ distant.Addressable ∧
    ofText "(bool, uint[600000000000000000] [])" =
      .error (.unsupportedType "uint[600000000000000000]") ∧
    ∃ u ∈ distant.components, u.fits = false ∧ ∃ part : String, u.DescribedBy part.toList ∧
      ofText "(bool, uint[600000000000000000] [])" = .error (.unsupportedType part) := by
  have hread : ofText " (uint256[288230376151711744], uint[288230376151711743])[]" =
      .ok (.array brimful) := by rfl
  have hdescribed : distant.DescribedBy "(bool, uint[600000000000000000] [])".toList := by
    refine ⟨[], "bool, uint[600000000000000000] []".toList, Or.inl rfl, rfl, by simp, ?_⟩
    refine ⟨"bool".toList, _, rfl, rfl, " uint[600000000000000000] []".toList, [], rfl, ?_, rfl⟩
    refine ⟨"uint[600000000000000000] ".toList, [], rfl, rfl, ?_⟩
    exact ⟨"uint".toList, "600000000000000000".toList, rfl, rfl, rfl⟩
  have hfar : ¬ distant.Addressable := fun h =>
    absurd (h (.fixedArray (.uint 256) 600000000000000000) (by simp [distant, components,
      componentsOf])).1 (by decide)
  obtain ⟨haddressable, _⟩ := ofText_addressable
    " (uint256[288230376151711744], uint[288230376151711743])[]"
  obtain ⟨_, hrefused⟩ := ofText_addressable "(bool, uint[600000000000000000] [])"
  refine ⟨hread, (haddressable _ hread).2.mpr (by decide), by decide, hdescribed, hfar, by rfl, ?_⟩
  exact (hrefused distant hdescribed).2 hfar (by decide)

def halves : AbiType :=
  .tuple [.fixedArray (.uint 256) 288230376151711744, .fixedArray (.uint 256) 288230376151711744]

/-- A tuple is read without a look at its head. -/
theorem headSize?_of_halves :
    ofText "(uint256[288230376151711744],uint256[288230376151711744])" = .ok halves ∧
    halves.headSize? = none ∧ halves.room = 18446744073709551616 ∧
    ofText "(uint256[288230376151711744],uint256[288230376151711744])[]" = .ok (.array halves) ∧
    ¬ halves.Addressable ∧ ¬ (AbiType.array halves).Addressable := by
  have hnone : halves.headSize? = none := by decide
  refine ⟨by rfl, hnone, by decide, by rfl, fun h => ?_, fun h => ?_⟩
  · exact absurd (h halves (mem_components_self _)).1 (by simp [hnone])
  · exact absurd (h halves (List.mem_cons_of_mem _ (mem_components_self _))).1 (by simp [hnone])

end Abi.AbiType
end EvmInspect
