import EvmInspect.Proofs.Matching
import EvmInspect.Proofs.Sorting
import Mathlib.Data.List.Induction

namespace EvmInspect

namespace Text

def SameLetter (c d : Char) : Prop :=
  c = d ∨ (c.isUpper = true ∧ d.toNat = c.toNat + 32) ∨ (d.isUpper = true ∧ c.toNat = d.toNat + 32)

/-- Texts that differ at most in the case of letters of ASCII. -/
def SameLetters (x y : String) : Prop :=
  List.Forall₂ SameLetter x.toList y.toList

theorem isUpper_iff {c : Char} : c.isUpper = true ↔ 65 ≤ c.toNat ∧ c.toNat ≤ 90 :=
  decide_eq_true_iff

theorem toNat_toLower (c : Char) :
    c.toLower.toNat = if c.isUpper = true then c.toNat + 32 else c.toNat := by
  unfold Char.toLower
  by_cases h : c.val ≥ 'A'.val ∧ c.val ≤ 'Z'.val
  · have hupper : c.isUpper = true := decide_eq_true h
    have hbounds := isUpper_iff.mp hupper
    rw [dif_pos h, if_pos hupper]
    change (c.val + 32).toNat = c.toNat + 32
    rw [UInt32.toNat_add]
    change (c.toNat + 32) % 2 ^ 32 = c.toNat + 32
    omega
  · have hupper : ¬ c.isUpper = true := fun hc => h (of_decide_eq_true hc)
    rw [dif_neg h, if_neg hupper]

theorem toLower_eq_iff {c d : Char} : c.toLower = d.toLower ↔ SameLetter c d := by
  have inj : ∀ a b : Char, a = b ↔ a.toNat = b.toNat := fun a b => Char.toNat_inj.symm
  simp only [SameLetter, isUpper_iff, inj, toNat_toLower]
  split <;> split <;> omega

theorem map_toLower_eq_iff {x y : List Char} :
    x.map Char.toLower = y.map Char.toLower ↔ List.Forall₂ SameLetter x y := by
  rw [← List.forall₂_eq_eq_eq, List.forall₂_map_left_iff, List.forall₂_map_right_iff]
  simp only [toLower_eq_iff]

theorem toLower_string_eq_iff {x y : String} : x.toLower = y.toLower ↔ SameLetters x y := by
  change x.map Char.toLower = y.map Char.toLower ↔ _
  rw [← String.toList_inj, String.toList_map, String.toList_map, map_toLower_eq_iff, SameLetters]

end Text

def Entry.isIndexedBy (e : Entry) (s : Selector) : Bool :=
  e.isCanonical && e.selector == s

theorem Entry.isIndexedBy_iff {e : Entry} {s : Selector} :
    e.isIndexedBy s = true ↔ e.isCanonical = true ∧ e.selector = s := by
  simp [isIndexedBy]

namespace Registry

variable {earlier entries : List Entry} {r : Registry} {e : Entry} {fault : RegistryError}

/-- Entries that may be in one registry. -/
structure Lawful (entries : List Entry) : Prop where
  sound : ∀ e ∈ entries, Sound e
  distinct : (entries.map Entry.key).Nodup

/-- What is wrong with an entry that comes behind others. -/
inductive Spoils (earlier : List Entry) (e : Entry) : RegistryError → Prop
  | taken (other : ∃ d ∈ earlier, d.key = e.key) : Spoils earlier e (.duplicateKey e.key)
  | unsound (free : ∀ d ∈ earlier, d.key ≠ e.key) (mismatch : e.key ≠ e.canonical)
      (plain : e.key ∉ annotatedKeys) : Spoils earlier e (.signatureMismatch e.key e.canonical)

def SpoiltBy (entries : List Entry) (fault : RegistryError) : Prop :=
  ∃ earlier e later, entries = earlier ++ e :: later ∧ Lawful earlier ∧ Spoils earlier e fault

theorem lawful_snoc : Lawful (earlier ++ [e]) ↔
    Lawful earlier ∧ Sound e ∧ ∀ d ∈ earlier, d.key ≠ e.key := by
  constructor
  · rintro ⟨sound, distinct⟩
    rw [List.map_append, List.nodup_append] at distinct
    refine ⟨⟨fun d hd => sound d (List.mem_append_left _ hd), distinct.1⟩, sound e (by simp), ?_⟩
    intro d hd
    exact distinct.2.2 _ (List.mem_map_of_mem hd) _ (by simp)
  · rintro ⟨⟨sound, distinct⟩, hs, hk⟩
    refine ⟨?_, ?_⟩
    · intro d hd
      rcases List.mem_append.mp hd with hd | hd
      · exact sound d hd
      · rw [List.mem_singleton.mp hd]
        exact hs
    · simpa [List.nodup_append, distinct] using hk

theorem insert_of_spoils (h : Spoils earlier e fault) :
    (holding earlier).insert e = .error fault := by
  cases h with
  | taken other =>
    have hfound : ((holding earlier).find? e.key).isSome := by
      obtain ⟨d, hd, hkey⟩ := other
      cases hf : (holding earlier).find? e.key with
      | none => exact absurd hkey (find?_eq_none.mp hf d hd)
      | some _ => rfl
    rw [insert, if_pos hfound]
  | unsound free mismatch plain =>
    have hnone : (holding earlier).find? e.key = none := find?_eq_none.mpr free
    simp [insert, hnone, Entry.isCanonical, mismatch, plain]

/-- An entry at fault ends the making of a registry, whatever comes behind it. -/
theorem ofEntries_of_spoiltBy (h : SpoiltBy entries fault) : ofEntries entries = .error fault := by
  obtain ⟨earlier, e, later, rfl, lawful, spoils⟩ := h
  have hfirst : earlier.foldlM insert {} = .ok (holding earlier) :=
    ofEntries_sound lawful.sound lawful.distinct
  rw [ofEntries, List.foldlM_append, hfirst, except_bind_ok, List.foldlM_cons,
    insert_of_spoils spoils, except_bind_error]

/-- By induction from the end: a lawful list either takes one more entry, or that one spoils it. -/
theorem lawful_or_spoiltBy (entries : List Entry) :
    Lawful entries ∨ ∃ fault, SpoiltBy entries fault := by
  induction entries using List.reverseRecOn with
  | nil => exact Or.inl ⟨by simp, by simp⟩
  | append_singleton earlier e ih =>
    rcases ih with lawful | ⟨fault, before, d, behind, rfl, lawful, spoils⟩
    · by_cases hk : ∀ d ∈ earlier, d.key ≠ e.key
      · by_cases hs : Sound e
        · exact Or.inl (lawful_snoc.mpr ⟨lawful, hs, hk⟩)
        · have hfault : e.key ≠ e.canonical ∧ e.key ∉ annotatedKeys := by
            simpa [Sound, Entry.isCanonical] using hs
          exact Or.inr ⟨_, earlier, e, [], rfl, lawful, .unsound hk hfault.1 hfault.2⟩
      · exact Or.inr ⟨_, earlier, e, [], rfl, lawful, .taken (by simpa using hk)⟩
    · exact Or.inr ⟨fault, before, d, behind ++ [e], by simp, lawful, spoils⟩

theorem ofEntries_eq_ok : ofEntries entries = .ok r ↔ Lawful entries ∧ r = holding entries := by
  constructor
  · intro h
    rcases lawful_or_spoiltBy entries with lawful | ⟨fault, spoilt⟩
    · exact ⟨lawful, Except.ok.inj (h.symm.trans (ofEntries_sound lawful.sound lawful.distinct))⟩
    · rw [ofEntries_of_spoiltBy spoilt] at h
      cases h
  · rintro ⟨lawful, rfl⟩
    exact ofEntries_sound lawful.sound lawful.distinct

theorem ofEntries_eq_error : ofEntries entries = .error fault ↔ SpoiltBy entries fault := by
  refine ⟨?_, ofEntries_of_spoiltBy⟩
  intro h
  rcases lawful_or_spoiltBy entries with lawful | ⟨other, spoilt⟩
  · rw [ofEntries_sound lawful.sound lawful.distinct] at h
    cases h
  · obtain rfl := Except.error.inj (h.symm.trans (ofEntries_of_spoiltBy spoilt))
    exact spoilt

theorem mem_byName {name : String} :
    e ∈ r.byName name ↔ e ∈ r.entries ∧ Text.SameLetters e.name name := by
  simp [byName, Text.toLower_string_eq_iff]

theorem pairwise_byName (hn : (r.entries.map Entry.key).Nodup) (name : String) :
    (r.byName name).Pairwise fun a b => a.key < b.key :=
  (pairwise_lt_mergeSort Entry.key).mpr (hn.sublist (List.filter_sublist.map Entry.key))

theorem lookup_map_selector (entries : List Entry) (s : Selector) :
    (entries.map fun e => (e.selector, e)).lookup s = entries.find? fun e => e.selector == s := by
  induction entries with
  | nil => rfl
  | cons e entries ih =>
    rw [List.map_cons, List.lookup_cons, List.find?_cons, ih, Bool.beq_comm]

/-- A selector leads to the last entry under a canonical key that has it. -/
theorem bySelector?_holding (entries : List Entry) (s : Selector) :
    (holding entries).bySelector? s = (entries.filter (·.isIndexedBy s)).getLast? := by
  rw [bySelector?, holding, ← List.map_reverse, lookup_map_selector, ← List.head?_filter,
    List.filter_reverse, List.head?_reverse, List.filter_filter]
  simp only [Entry.isIndexedBy, Bool.and_comm]

theorem indexed_of_bySelector? {s : Selector} (h : (holding entries).bySelector? s = some e) :
    e ∈ entries ∧ e.isCanonical = true ∧ e.selector = s := by
  rw [bySelector?_holding] at h
  have hmem := List.mem_filter.mp (List.mem_of_getLast? h)
  exact ⟨hmem.1, Entry.isIndexedBy_iff.mp hmem.2⟩

/-- What a registry tells about the entries that it was made of. -/
structure Answers (r : Registry) (entries : List Entry) : Prop where
  size : r.size = entries.length
  keyed : ∀ key e, r.get? key = some e ↔ e ∈ entries ∧ e.key = trimmed key
  named : ∀ name e, e ∈ r.byName name ↔ e ∈ entries ∧ Text.SameLetters e.name name
  ascending : ∀ name, (r.byName name).Pairwise fun a b => a.key < b.key
  selected : ∀ s e, r.bySelector? s = some e →
    e.selector = s ∧ e.key = e.canonical ∧ e ∈ entries ∧ r.find? e.key = some e

theorem answers_holding (h : Lawful entries) : Answers (holding entries) entries where
  size := rfl
  keyed _ _ := find?_eq_some h.distinct
  named _ _ := mem_byName
  ascending := pairwise_byName h.distinct
  selected s e he := by
    obtain ⟨hmem, hc, hs⟩ := indexed_of_bySelector? he
    exact ⟨hs, beq_iff_eq.mp hc, hmem, (find?_eq_some h.distinct).mpr ⟨hmem, rfl⟩⟩

/-- Entries make a registry exactly if each stands under its canonical signature or an annotated
key, and no two under one key; of others the first one at fault is named. The registry answers what
its entries say. -/
theorem ofEntries_answers (entries : List Entry) :
    ((∃ r, ofEntries entries = .ok r) ↔ Lawful entries) ∧
    (∀ fault, ofEntries entries = .error fault ↔ SpoiltBy entries fault) ∧
    ∀ r, ofEntries entries = .ok r → Answers r entries := by
  refine ⟨?_, fun _ => ofEntries_eq_error, ?_⟩
  · constructor
    · rintro ⟨r, h⟩
      exact (ofEntries_eq_ok.mp h).1
    · intro lawful
      exact ⟨_, ofEntries_eq_ok.mpr ⟨lawful, rfl⟩⟩
  · intro r h
    obtain ⟨lawful, rfl⟩ := ofEntries_eq_ok.mp h
    exact answers_holding lawful

def burnTokens : Entry :=
  WellKnown.entry "burn(uint256)" "burn" "burn tokens" [("uint256", "amount")] [] .burn

def burnAccount : Entry :=
  WellKnown.entry "Burn(address)" "Burn" "burn an account" [("address", "account")] [] .none

/-- Two transfers that an annotated key tells apart, and two functions of one name but for its
case. -/
def mixed : List Entry := [
  WellKnown.entry "transfer(address,uint256)" "transfer" "move an amount"
    [("address", "to"), ("uint256", "amount")] [] .transfer,
  burnTokens,
  WellKnown.entry "transfer(address to, uint256 tokenID)" "transfer" "move one token"
    [("address", "to"), ("uint256", "tokenID")] [] .transfer,
  burnAccount]

theorem lawful_mixed : Lawful mixed where
  sound := by
    unfold Sound
    decide +kernel
  distinct := by decide +kernel

theorem sameLetters_burn :
    Text.SameLetters burnTokens.name "BURN" ∧ Text.SameLetters burnAccount.name "BURN" :=
  ⟨Text.map_toLower_eq_iff.mp (by decide), Text.map_toLower_eq_iff.mp (by decide)⟩

/-- Behind these entries, one of them once more is named rather than what is wrong further on. -/
theorem ofEntries_answers_mixed :
    (∃ r, ofEntries mixed = .ok r ∧ r.size = 4 ∧ r.get? " burn(uint256)\n" = some burnTokens ∧
      burnTokens ∈ r.byName "BURN" ∧ burnAccount ∈ r.byName "BURN") ∧
    ofEntries (mixed ++ [burnTokens, { burnAccount with key := "Burn()" }]) =
      .error (.duplicateKey "burn(uint256)") := by
  obtain ⟨hmade, _, hanswers⟩ := ofEntries_answers mixed
  obtain ⟨r, hr⟩ := hmade.mpr lawful_mixed
  have answers := hanswers r hr
  have hfirst : burnTokens ∈ mixed := by simp [mixed]
  have hlast : burnAccount ∈ mixed := by simp [mixed]
  have hkey : trimmed " burn(uint256)\n" = "burn(uint256)" := by decide +kernel
  refine ⟨⟨r, hr, answers.size, (answers.keyed _ _).mpr ⟨hfirst, hkey.symm⟩,
    (answers.named _ _).mpr ⟨hfirst, sameLetters_burn.1⟩,
    (answers.named _ _).mpr ⟨hlast, sameLetters_burn.2⟩⟩, ?_⟩
  have hspoilt : SpoiltBy (mixed ++ [burnTokens, { burnAccount with key := "Burn()" }])
      (.duplicateKey burnTokens.key) :=
    ⟨mixed, burnTokens, _, rfl, lawful_mixed, .taken ⟨burnTokens, hfirst, rfl⟩⟩
  exact ((ofEntries_answers _).2.1 _).mpr hspoilt

end Registry

end EvmInspect
