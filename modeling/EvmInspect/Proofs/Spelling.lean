import EvmInspect.Proofs.Types
import EvmInspect.Text.Blank.Lemmas
import EvmInspect.Text.Brackets.Lemmas
import Mathlib.Data.List.Forall2

namespace EvmInspect

/-- Each element of the result comes from the element in its place. -/
theorem forall₂_of_mapM_ok {ε α β : Type} {f : α → Except ε β} {xs : List α} {ys : List β}
    (h : xs.mapM f = .ok ys) : List.Forall₂ (fun x y => f x = .ok y) xs ys := by
  induction xs generalizing ys with
  | nil =>
    cases h
    exact .nil
  | cons x xs ih =>
    obtain ⟨y, rest, hy, hr, rfl⟩ := mapM_cons_eq_ok.mp h
    exact .cons hy (ih hr)

theorem mapM_map_ok {ε α β : Type} {f : α → Except ε β} {g : β → α} {ys : List β}
    (h : ∀ y ∈ ys, f (g y) = .ok y) : (ys.map g).mapM f = .ok ys := by
  induction ys with
  | nil => rfl
  | cons y ys ih =>
    have hrest := ih fun z hz => h z (List.mem_cons_of_mem _ hz)
    exact mapM_cons_eq_ok.mpr ⟨y, ys, h y List.mem_cons_self, hrest, rfl⟩

theorem exists_mapM_ok {ε α β : Type} {f : α → Except ε β} {xs : List α}
    (h : ∀ x ∈ xs, ∃ y, f x = .ok y) : ∃ ys, xs.mapM f = .ok ys := by
  induction xs with
  | nil => exact ⟨[], rfl⟩
  | cons x xs ih =>
    obtain ⟨hx, hxs⟩ := List.forall_mem_cons.mp h
    obtain ⟨y, hy⟩ := hx
    obtain ⟨ys, hys⟩ := ih hxs
    exact ⟨y :: ys, mapM_cons_eq_ok.mpr ⟨y, ys, hy, hys, rfl⟩⟩

theorem exists_of_mem_forall₂ {α β : Type} {R : α → β → Prop} {xs : List α} {ys : List β}
    (h : List.Forall₂ R xs ys) {x : α} (hx : x ∈ xs) : ∃ y ∈ ys, R x y := by
  induction h with
  | nil => cases hx
  | cons hr _ ih =>
    rcases List.mem_cons.mp hx with rfl | hx
    · exact ⟨_, List.mem_cons_self, hr⟩
    · obtain ⟨y, hy, hxy⟩ := ih hx
      exact ⟨y, List.mem_cons_of_mem _ hy, hxy⟩

namespace Text

theorem toNat_of_isAlphanum {c : Char} (h : c.isAlphanum = true) :
    48 ≤ c.toNat ∧ c.toNat ≤ 122 := by
  rcases Bool.or_eq_true_iff.mp h with halpha | hdigit
  · rcases Bool.or_eq_true_iff.mp halpha with hupper | hlower
    · have hrange : 65 ≤ c.toNat ∧ c.toNat ≤ 90 := of_decide_eq_true hupper
      omega
    · obtain ⟨hfirst, hlast⟩ := Bool.and_eq_true_iff.mp hlower
      have hle : 97 ≤ c.toNat := of_decide_eq_true hfirst
      exact ⟨by omega, of_decide_eq_true hlast⟩
  · obtain ⟨hfirst, hlast⟩ := Bool.and_eq_true_iff.mp hdigit
    have hle : c.toNat ≤ 57 := of_decide_eq_true hlast
    exact ⟨of_decide_eq_true hfirst, by omega⟩

theorem isBlank_of_isAlphanum {c : Char} (h : c.isAlphanum = true) : isBlank c = false := by
  have hrange := toNat_of_isAlphanum h
  simp [isBlank]
  omega

/-- A numeral has no signs but a plus sign. -/
theorem plain_of_readSize? {text : List Char} {n : Nat} (h : readSize? text = some n) :
    ∀ c ∈ text, c.isAlphanum = true ∨ c = '+' := by
  intro c hc
  refine (digit_or_plus_of_readSize? h c hc).imp_left ?_
  intro hdigit
  simp [Char.isAlphanum, hdigit]

/-- A text that can stand in a list and has no blanks. -/
structure Solid (text : List Char) : Prop where
  entry : Entry text
  unbroken : ∀ c ∈ text, isBlank c = false

theorem Solid.append {text rest : List Char} (ht : Solid text) (hr : Solid rest) :
    Solid (text ++ rest) := by
  refine ⟨ht.entry.append hr.entry, ?_⟩
  intro c hc
  rcases List.mem_append.mp hc with hc | hc
  · exact ht.unbroken c hc
  · exact hr.unbroken c hc

/-- Words, numerals and brackets are solid. -/
theorem solid_of_plain {text : List Char}
    (h : ∀ c ∈ text, c.isAlphanum = true ∨ c = '[' ∨ c = ']') : Solid text := by
  constructor
  · refine entry_of_plain fun c hc => ⟨?_, ?_, ?_⟩ <;> rintro rfl <;>
      exact absurd (h _ hc) (by decide)
  · intro c hc
    rcases h c hc with h | rfl | rfl
    · exact isBlank_of_isAlphanum h
    · decide
    · decide

theorem solid_of_isAlphanum {text : List Char} (h : ∀ c ∈ text, c.isAlphanum = true) : Solid text :=
  solid_of_plain fun c hc => Or.inl (h c hc)

theorem forall_mem_intercalate {sep : List Char} {texts : List (List Char)} {p : Char → Prop}
    (hsep : ∀ c ∈ sep, p c) (h : ∀ t ∈ texts, ∀ c ∈ t, p c) : ∀ c ∈ sep.intercalate texts, p c := by
  induction texts with
  | nil => simp
  | cons t texts ih =>
    have ht := h t List.mem_cons_self
    have hmore := ih fun u hu => h u (List.mem_cons_of_mem _ hu)
    cases texts with
    | nil => simpa using ht
    | cons u texts =>
      intro c hc
      rw [List.intercalate_cons_cons, List.mem_append, List.mem_append] at hc
      rcases hc with (hc | hc) | hc
      · exact ht c hc
      · exact hsep c hc
      · exact hmore c hc

/-- Solid texts with commas between them, and parentheses around, are solid. -/
theorem solid_parenthesized {texts : List (List Char)} (h : ∀ t ∈ texts, Solid t) :
    Solid ('(' :: ([','].intercalate texts ++ [')'])) := by
  refine ⟨(balanced_intercalate fun t ht => (h t ht).entry).entry, ?_⟩
  have hsep : ∀ c ∈ [','], isBlank c = false := List.forall_mem_singleton.mpr (by decide)
  have hbody := forall_mem_intercalate hsep fun t ht => (h t ht).unbroken
  intro c hc
  rcases List.mem_cons.mp hc with rfl | hc
  · decide
  · rcases List.mem_append.mp hc with hc | hc
    · exact hbody c hc
    · rw [List.mem_singleton.mp hc]
      decide

end Text

namespace Abi.AbiType

def lengthFits : AbiType → Bool
  | .fixedArray _ length => length < Size.limit
  | _ => true

/-- A type whose arrays of fixed length, however deep they stand, have lengths that are sizes. -/
def LengthsFit (t : AbiType) : Prop :=
  ∀ component ∈ t.components, component.lengthFits

instance (t : AbiType) : Decidable t.LengthsFit :=
  inferInstanceAs (Decidable (∀ component ∈ t.components, component.lengthFits))

theorem lengthsFit_array {t : AbiType} : (AbiType.array t).LengthsFit ↔ t.LengthsFit := by
  simp [LengthsFit, components, lengthFits]

theorem lengthsFit_fixedArray {t : AbiType} {n : Nat} :
    (AbiType.fixedArray t n).LengthsFit ↔ n < Size.limit ∧ t.LengthsFit := by
  simp [LengthsFit, components, lengthFits]

theorem lengthsFit_tuple {members : List AbiType} :
    (AbiType.tuple members).LengthsFit ↔ ∀ m ∈ members, m.LengthsFit := by
  constructor
  · intro h m hm c hc
    exact h c (List.mem_cons_of_mem _ (mem_componentsOf.mpr ⟨m, hm, hc⟩))
  · intro h c hc
    rcases List.mem_cons.mp hc with rfl | hc
    · rfl
    · obtain ⟨m, hm, hc⟩ := mem_componentsOf.mp hc
      exact h m hm c hc

/-- What stands in the parts of a tuple. Parts that are blank are passed over. -/
def parts (body : List Char) : List (List Char) :=
  (Text.splitTopLevel body).filter fun part => Text.trim part ≠ []

theorem eq_append_of_tupleBody? {text body : List Char} (h : tupleBody? text = some body) :
    ∃ opening, (opening = [] ∨ opening = ['t', 'u', 'p', 'l', 'e']) ∧
      text = opening ++ '(' :: (body ++ [')']) := by
  obtain ⟨inner, hinner, hlast⟩ := Option.bind_eq_some_iff.mp h
  have htext := Text.eq_append_of_dropStart? hinner
  rw [Text.eq_append_of_dropLast? hlast] at htext
  cases hword : Text.dropStart? ['t', 'u', 'p', 'l', 'e'] text with
  | none =>
    rw [hword] at htext
    exact ⟨[], Or.inl rfl, htext⟩
  | some rest =>
    rw [hword] at htext
    refine ⟨_, Or.inr rfl, ?_⟩
    rw [Text.eq_append_of_dropStart? hword]
    exact congrArg _ htext

/-- Each way in which a type is read. To show something of every text that is read and of its type,
it is enough to show it of words, and of arrays and tuples when it holds of their parts. -/
theorem readWithin_induction {motive : List Char → AbiType → Prop}
    (word : ∀ text t, ofWord? (Text.trim text) = some t → motive text t)
    (array : ∀ text inner size element t, Text.trim text = inner ++ '[' :: (size ++ [']']) →
      motive inner element → arrayOf element (Text.trim size) (Text.trim text) = .ok t →
      motive text t)
    (tuple : ∀ text opening body members, opening = [] ∨ opening = ['t', 'u', 'p', 'l', 'e'] →
      Text.trim text = opening ++ '(' :: (body ++ [')']) → members ≠ [] →
      List.Forall₂ motive (parts body) members → motive text (.tuple members))
    {fuel : Nat} {text : List Char} {t : AbiType} (h : readWithin fuel text = .ok t) :
    motive text t := by
  induction fuel generalizing text t with
  | zero => cases h
  | succ fuel ih =>
    rw [readWithin] at h
    dsimp only at h
    split at h
    · rename_i body hbody
      split at h
      · cases h
      · rename_i inner size hmark
        obtain ⟨element, he, h⟩ := bind_eq_ok.mp h
        refine array text inner size element t ?_ (ih he) h
        rw [Text.eq_append_of_dropLast? hbody, (Text.eq_append_of_aroundLast? hmark).1]
        simp
    · split at h
      · rename_i body hbody
        obtain ⟨members, hm, h⟩ := bind_eq_ok.mp h
        split at h
        · cases h
        · rename_i hne
          cases h
          obtain ⟨opening, hopening, htext⟩ := eq_append_of_tupleBody? hbody
          refine tuple text opening body members hopening htext (by simpa using hne) ?_
          exact (forall₂_of_mapM_ok hm).imp fun _ _ hp => ih hp
      · split at h
        · rename_i hw
          cases h
          exact word text t hw
        · cases h

theorem components_wholeWords :
    ∀ entry ∈ wholeWords, entry.2.components = [entry.2] ∧ entry.2.lengthFits = true := by
  simp [wholeWords, components, lengthFits]

/-- A word names a type without parts. -/
theorem components_of_ofWord? {word : List Char} {t : AbiType} (h : ofWord? word = some t) :
    t.components = [t] ∧ t.lengthFits = true := by
  cases names_of_ofWord? h with
  | whole hword => exact components_wholeWords _ hword
  | uint _ | int _ | fixedBytes _ => exact ⟨rfl, rfl⟩

theorem plain_wholeWords : ∀ entry ∈ wholeWords, entry.1.all Char.isAlphanum = true := by
  decide

/-- A word is made of letters, digits and plus signs. -/
theorem plain_of_ofWord? {word : List Char} {t : AbiType} (h : ofWord? word = some t) :
    ∀ c ∈ word, c.isAlphanum = true ∨ c = '+' := by
  have hnumbered {start digits : List Char} {n : Nat} (hs : start.all Char.isAlphanum = true)
      (hd : Text.readSize? digits = some n) :
      ∀ c ∈ start ++ digits, c.isAlphanum = true ∨ c = '+' := by
    intro c hc
    rcases List.mem_append.mp hc with hc | hc
    · exact Or.inl (List.all_eq_true.mp hs c hc)
    · exact Text.plain_of_readSize? hd c hc
  cases names_of_ofWord? h with
  | whole hword => exact fun c hc => Or.inl (List.all_eq_true.mp (plain_wholeWords _ hword) c hc)
  | uint hbits => exact hnumbered (by rfl) (Option.filter_eq_some_iff.mp hbits).1
  | int hbits => exact hnumbered (by rfl) (Option.filter_eq_some_iff.mp hbits).1
  | fixedBytes hsize => exact hnumbered (by rfl) (Option.filter_eq_some_iff.mp hsize).1

theorem lengthsFit_of_arrayOf {element t : AbiType} {size text : List Char}
    (he : element.LengthsFit) (h : arrayOf element size text = .ok t) : t.LengthsFit := by
  unfold arrayOf at h
  split at h
  · cases h
    exact lengthsFit_array.mpr he
  · split at h
    · cases h
    · rename_i length hlength
      obtain ⟨_, _, hfit⟩ := Option.bind_eq_some_iff.mp hlength
      obtain ⟨hlt, rfl⟩ := Size.fit?_eq_some.mp hfit
      obtain ⟨_, h⟩ := ite_eq_ok.mp h
      cases h
      exact lengthsFit_fixedArray.mpr ⟨hlt, he⟩

/-- The lengths of the arrays that are read are sizes. -/
theorem lengthsFit_of_readWithin {fuel : Nat} {text : List Char} {t : AbiType}
    (h : readWithin fuel text = .ok t) : t.LengthsFit := by
  refine readWithin_induction (motive := fun _ t => t.LengthsFit) ?word ?array ?tuple h
  case word =>
    intro text t h c hc
    obtain ⟨hself, hfits⟩ := components_of_ofWord? h
    rw [hself, List.mem_singleton] at hc
    rwa [hc]
  case array =>
    intro _ _ _ _ _ _ he h
    exact lengthsFit_of_arrayOf he h
  case tuple =>
    intro _ _ _ members _ _ _ hm
    apply lengthsFit_tuple.mpr
    intro m hmem
    obtain ⟨_, _, hfit⟩ := exists_of_mem_forall₂ hm.flip hmem
    exact hfit

theorem spell_tuple (members : List AbiType) : (AbiType.tuple members).spell =
    '(' :: ([','].intercalate (members.map spell) ++ [')']) := by
  cases members with
  | nil => rfl
  | cons member members =>
    have hmore : member.spell ++ spellMore members =
        [','].intercalate (member.spell :: members.map spell) := by
      induction members generalizing member with
      | nil => simp [spellMore]
      | cons second members ih =>
        rw [spellMore, ih, List.map_cons, List.intercalate_cons_cons]
        simp
    rw [spell, ← List.append_assoc, hmore, List.map_cons]

theorem spell_ne_nil (t : AbiType) : t.spell ≠ [] := by
  cases t with
  | tuple members => simp [spell_tuple]
  | _ => simp [spell]

theorem isAlphanum_of_mem_decimal {n : Nat} {c : Char} (h : c ∈ Text.decimal n) :
    c.isAlphanum = true := by
  simp [Char.isAlphanum, Text.isDigit_of_mem_decimal h]

theorem trimmed_decimal (n : Nat) : Text.Trimmed (Text.decimal n) :=
  Text.trimmed_of_unbroken fun _ hc => Text.isBlank_of_isAlphanum (isAlphanum_of_mem_decimal hc)

theorem isAlphanum_numbered {word : List Char} (h : word.all Char.isAlphanum = true) (n : Nat) :
    ∀ c ∈ word ++ Text.decimal n, c.isAlphanum = true := by
  intro c hc
  rcases List.mem_append.mp hc with hc | hc
  · exact List.all_eq_true.mp h c hc
  · exact isAlphanum_of_mem_decimal hc

/-- A spelling is one piece: it has no blanks, and its commas stand in parentheses. -/
theorem solid_spell (t : AbiType) : Text.Solid t.spell := by
  induction t with
  | uint bits => exact Text.solid_of_isAlphanum (isAlphanum_numbered (by decide) bits)
  | int bits => exact Text.solid_of_isAlphanum (isAlphanum_numbered (by decide) bits)
  | fixedBytes size => exact Text.solid_of_isAlphanum (isAlphanum_numbered (by decide) size)
  | bool | address | bytes | string =>
    exact Text.solid_of_isAlphanum (List.all_eq_true.mp (by rfl))
  | array element ih => exact ih.append (Text.solid_of_plain (by simp))
  | fixedArray element length ih =>
    apply ih.append
    apply Text.solid_of_plain
    intro c hc
    simp only [List.mem_cons, List.mem_append, List.not_mem_nil, or_false] at hc
    rcases hc with rfl | hc | rfl
    · decide
    · exact Or.inl (isAlphanum_of_mem_decimal hc)
    · decide
  | tuple members ih =>
    rw [spell_tuple]
    apply Text.solid_parenthesized
    intro text ht
    obtain ⟨m, hm, rfl⟩ := List.mem_map.mp ht
    exact ih m hm

theorem trimmed_spell (t : AbiType) : Text.Trimmed t.spell :=
  Text.trimmed_of_unbroken (solid_spell t).unbroken

theorem readBits?_decimal {bits : Nat} (h : (8 ≤ bits ∧ bits ≤ 256) ∧ bits % 8 = 0) :
    readBits? (Text.decimal bits) = some bits := by
  have hlimit : bits < Size.limit := Nat.lt_of_le_of_lt h.1.2 (by decide)
  rw [readBits?, Text.readSize?_decimal hlimit]
  simp
  omega

theorem readBytes?_decimal {size : Nat} (h : 1 ≤ size ∧ size ≤ wordSize) :
    readBytes? (Text.decimal size) = some size := by
  have hlimit : size < Size.limit := Nat.lt_of_le_of_lt h.2 (by decide)
  rw [readBytes?, Text.readSize?_decimal hlimit]
  simp [h]

/-- A type that is spelled without brackets is named by its spelling. -/
theorem ofWord?_spell {t : AbiType} (h : t.WellFormed)
    (hword : ∀ c ∈ t.spell, c.isAlphanum = true) : ofWord? t.spell = some t := by
  have hsound := h.isSound
  -- digits behind a word make it another one than the words without digits
  have hne := Text.decimal_ne_nil
  cases t with
  | uint bits =>
    have hbits := readBits?_decimal (by simpa [AbiType.isSound] using hsound)
    rw [spell, ofWord?]
    · simp [Text.dropStart?, hbits]
    all_goals simp [hne]
  | int bits =>
    have hbits := readBits?_decimal (by simpa [AbiType.isSound] using hsound)
    rw [spell, ofWord?]
    · simp [Text.dropStart?, hbits]
    all_goals simp [hne]
  | fixedBytes size =>
    have hsize := readBytes?_decimal (by simpa [AbiType.isSound] using hsound)
    rw [spell, ofWord?]
    · simp [Text.dropStart?, hsize]
    all_goals simp [hne]
  | bool | address | bytes | string => rfl
  | array element => exact absurd (hword '[' (by simp [spell])) (by decide)
  | fixedArray element length => exact absurd (hword '[' (by simp [spell])) (by decide)
  | tuple members => exact absurd (hword '(' (by simp [spell_tuple])) (by decide)

theorem readWithin_of_ofWord? {fuel : Nat} {text : List Char} {t : AbiType}
    (h : ofWord? (Text.trim text) = some t) : readWithin (fuel + 1) text = .ok t := by
  have hplain := plain_of_ofWord? h
  have harray : Text.dropLast? ']' (Text.trim text) = none := by
    apply Text.dropLast?_eq_none
    intro hlast
    exact absurd (hplain ']' (List.mem_of_getLast? hlast)) (by decide)
  have htuple : tupleBody? (Text.trim text) = none := by
    cases hbody : tupleBody? (Text.trim text) with
    | none => rfl
    | some body =>
      obtain ⟨opening, _, htext⟩ := eq_append_of_tupleBody? hbody
      exact absurd (hplain '(' (by simp [htext])) (by decide)
  rw [readWithin]
  simp only [harray, htuple, h]

theorem readWithin_brackets {fuel : Nat} {text inner size : List Char}
    (htext : Text.trim text = inner ++ '[' :: (size ++ [']'])) (hsize : '[' ∉ size) :
    readWithin (fuel + 1) text = readWithin fuel inner >>= fun element =>
      arrayOf element (Text.trim size) (Text.trim text) := by
  have hlast : Text.dropLast? ']' (Text.trim text) = some (inner ++ '[' :: size) := by
    have happend := Text.dropLast?_append ']' (inner ++ '[' :: size)
    rw [htext]
    simpa using happend
  rw [readWithin]
  simp only [hlast, Text.aroundLast?_append hsize]

theorem tupleBody?_parenthesized (body : List Char) :
    tupleBody? ('(' :: (body ++ [')'])) = some body := by
  simp [tupleBody?, Text.dropStart?, Text.dropLast?_append]

theorem readWithin_parentheses {fuel : Nat} {text opening body : List Char}
    (hopening : opening = [] ∨ opening = ['t', 'u', 'p', 'l', 'e'])
    (htext : Text.trim text = opening ++ '(' :: (body ++ [')'])) :
    readWithin (fuel + 1) text = (parts body).mapM (readWithin fuel) >>= fun members =>
      if members.isEmpty then .error (unsupported (Text.trim text)) else .ok (.tuple members) := by
  have hlast : Text.dropLast? ']' (Text.trim text) = none := by
    apply Text.dropLast?_eq_none
    rw [htext, ← List.cons_append, ← List.append_assoc, List.getLast?_concat]
    decide
  have hbody : tupleBody? (Text.trim text) = some body := by
    rw [htext]
    rcases hopening with rfl | rfl
    · exact tupleBody?_parenthesized body
    · simp [tupleBody?, Text.dropStart?, Text.dropLast?_append]
  rw [readWithin]
  simp only [hlast, hbody, parts]

theorem parts_intercalate {members : List AbiType} (hne : members ≠ []) :
    parts ([','].intercalate (members.map spell)) = members.map spell := by
  have hentries : ∀ text ∈ members.map spell, Text.Solid text := by
    intro text ht
    obtain ⟨m, _, rfl⟩ := List.mem_map.mp ht
    exact solid_spell m
  rw [parts, Text.splitTopLevel_intercalate (fun t ht => (hentries t ht).entry)
    (by simpa using hne)]
  apply List.filter_eq_self.mpr
  intro text ht
  rw [Text.trim_eq_self (Text.trimmed_of_unbroken (hentries text ht).unbroken)]
  obtain ⟨m, _, rfl⟩ := List.mem_map.mp ht
  simp [spell_ne_nil]

theorem length_spell_lt_tuple {members : List AbiType} {m : AbiType} (hm : m ∈ members) :
    m.spell.length < (AbiType.tuple members).spell.length := by
  have hlength : m.spell.length ≤ ([','].intercalate (members.map spell)).length := by
    induction members with
    | nil => cases hm
    | cons first members ih =>
      cases members with
      | nil => simp_all
      | cons second members =>
        rw [List.map_cons, List.map_cons, List.intercalate_cons_cons, ← List.map_cons,
          List.length_append]
        rcases List.mem_cons.mp hm with rfl | hm
        · simp
          omega
        · have := ih hm
          omega
  rw [spell_tuple, List.length_cons, List.length_append]
  omega

theorem trim_spell (t : AbiType) : Text.trim t.spell = t.spell :=
  Text.trim_eq_self (trimmed_spell t)

/-- A spelling is read as what it spells, with a step for each of its characters. -/
theorem readWithin_spell {t : AbiType} (hw : t.WellFormed) (hl : t.LengthsFit) {fuel : Nat}
    (hf : t.spell.length ≤ fuel) : readWithin (fuel + 1) t.spell = .ok t := by
  induction t generalizing fuel with
  | uint bits =>
    apply readWithin_of_ofWord?
    rw [trim_spell]
    exact ofWord?_spell hw (isAlphanum_numbered (by rfl : ['u', 'i', 'n', 't'].all _ = true) bits)
  | int bits =>
    apply readWithin_of_ofWord?
    rw [trim_spell]
    exact ofWord?_spell hw (isAlphanum_numbered (by rfl : ['i', 'n', 't'].all _ = true) bits)
  | fixedBytes size =>
    apply readWithin_of_ofWord?
    rw [trim_spell]
    exact ofWord?_spell hw
      (isAlphanum_numbered (by rfl : ['b', 'y', 't', 'e', 's'].all _ = true) size)
  | bool | address | bytes | string => exact readWithin_of_ofWord? (by rfl)
  | array element ih =>
    have htext : Text.trim (AbiType.array element).spell = element.spell ++ '[' :: ([] ++ [']']) :=
      trim_spell (.array element)
    rw [spell, List.length_append, List.length_cons] at hf
    obtain ⟨fuel, rfl⟩ : ∃ n, fuel = n + 1 := ⟨fuel - 1, by omega⟩
    have hread := ih hw.element (lengthsFit_array.mp hl) (by omega : element.spell.length ≤ fuel)
    rw [readWithin_brackets htext List.not_mem_nil, hread]
    rfl
  | fixedArray element length ih =>
    obtain ⟨hlength, hl⟩ := lengthsFit_fixedArray.mp hl
    have htext := trim_spell (.fixedArray element length)
    rw [spell] at htext hf
    rw [List.length_append, List.length_cons] at hf
    obtain ⟨fuel, rfl⟩ : ∃ n, fuel = n + 1 := ⟨fuel - 1, by omega⟩
    have hread := ih hw.fixedElement hl (by omega : element.spell.length ≤ fuel)
    have hsize : '[' ∉ Text.decimal length := fun h =>
      absurd (Text.isDigit_of_mem_decimal h) (by decide)
    rw [spell, readWithin_brackets htext hsize, hread, except_bind_ok, arrayOf,
      Text.trim_eq_self (trimmed_decimal length), if_neg (Text.decimal_ne_nil length),
      Text.readSize?_decimal hlength]
    exact if_pos hw.isSound
  | tuple members ih =>
    have hne : members ≠ [] := by simpa [AbiType.isSound] using hw.isSound
    have htext := trim_spell (.tuple members)
    rw [spell_tuple] at htext
    have hread : (members.map spell).mapM (readWithin fuel) = .ok members := by
      apply mapM_map_ok
      intro m hm
      have hlt := length_spell_lt_tuple hm
      obtain ⟨fuel, rfl⟩ : ∃ n, fuel = n + 1 := ⟨fuel - 1, by omega⟩
      exact ih m hm (hw.member m hm) (lengthsFit_tuple.mp hl m hm) (by omega)
    rw [spell_tuple, readWithin_parentheses (Or.inl rfl) htext, parts_intercalate hne, hread,
      except_bind_ok, if_neg (by simpa using hne)]

theorem ofText_spell {t : AbiType} (hw : t.WellFormed) (hl : t.LengthsFit) :
    ofText t.display = .ok t := by
  rw [ofText, display, String.toList_ofList, read]
  exact readWithin_spell hw hl (Nat.le_refl _)

/-- A well-formed type is read from its display, a type that is read from any text is well formed,
and types that are displayed alike are the same. -/
theorem ofText_display (t : AbiType) :
    (t.WellFormed → t.LengthsFit → ofText t.display = .ok t) ∧
    (∀ text, ofText text = .ok t → t.WellFormed ∧ t.LengthsFit ∧ ofText t.display = .ok t) ∧
    (t.WellFormed → t.LengthsFit → ∀ u : AbiType, u.WellFormed → u.LengthsFit →
      t.display = u.display → t = u) := by
  refine ⟨ofText_spell, ?_, ?_⟩
  · intro text h
    have hw := wellFormed_of_ofText h
    have hl := lengthsFit_of_readWithin h
    exact ⟨hw, hl, ofText_spell hw hl⟩
  · intro hw hl u huw hul hd
    have ht := ofText_spell hw hl
    rw [hd, ofText_spell huw hul] at ht
    exact (Except.ok.inj ht).symm

def ledger : AbiType :=
  .array (.tuple [.fixedArray (.tuple [.uint 8, .bytes]) 3, .string])

theorem ofText_display_ledger : ledger.WellFormed ∧ ledger.LengthsFit ∧
    ledger.display = "((uint8,bytes)[3],string)[]" ∧
    ofText "((uint8,bytes)[3],string)[]" = .ok ledger ∧
    ofText " (tuple( uint08,bytes )[ +3],string)[]" = .ok ledger ∧
    ofText ledger.display = .ok ledger ∧
    ∀ u : AbiType, u.WellFormed → u.LengthsFit → ledger.display = u.display → ledger = u := by
  have hread : ofText " (tuple( uint08,bytes )[ +3],string)[]" = .ok ledger := by rfl
  obtain ⟨hspelled, htext, honly⟩ := ofText_display ledger
  obtain ⟨hw, hl, hdisplay⟩ := htext _ hread
  have hd : ledger.display = "((uint8,bytes)[3],string)[]" := by decide
  exact ⟨hw, hl, hd, hd ▸ hspelled hw hl, hread, hdisplay, honly hw hl⟩

end Abi.AbiType
end EvmInspect
