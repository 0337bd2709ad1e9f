import EvmInspect.Proofs.Results
import EvmInspect.Proofs.Signatures
import EvmInspect.Proofs.Spelling
import Mathlib.Data.List.Nodup

namespace EvmInspect

namespace Text

theorem Solid.not_mem_space {text : List Char} (h : Solid text) : ' ' ∉ text := by
  intro hspace
  exact absurd (h.unbroken ' ' hspace) (by decide)

theorem Solid.piece {text : List Char} (h : Solid text) (hne : text ≠ []) : Param.Piece text :=
  ⟨h.entry, trimmed_of_unbroken h.unbroken, hne⟩

end Text

namespace Param

def isSpelled (p : Param) : Bool :=
  match Abi.AbiType.ofText p.type with
  | .ok type => type.display == p.type
  | .error _ => false

theorem isSpelled_iff {p : Param} : p.isSpelled = true ↔
    ∃ type, Abi.AbiType.ofText p.type = .ok type ∧ type.display = p.type := by
  unfold isSpelled
  split <;> simp_all

/-- A type as it is displayed is a solid text. -/
theorem solid_of_isSpelled {p : Param} (h : p.isSpelled = true) :
    Text.Solid p.type.toList ∧ p.type.toList ≠ [] := by
  obtain ⟨type, _, hdisplay⟩ := isSpelled_iff.mp h
  rw [← hdisplay, Abi.AbiType.display, String.toList_ofList]
  exact ⟨Abi.AbiType.solid_spell type, Abi.AbiType.spell_ne_nil type⟩

end Param

namespace Registry

variable {r : Registry} {e : Entry}

def Sound (e : Entry) : Prop :=
  e.isCanonical = true ∨ e.key ∈ annotatedKeys

/-- Every such key has a parenthesis, so that none is a name. -/
theorem Sound.open_mem_key (h : Sound e) : '(' ∈ e.key.toList := by
  rcases h with hc | ha
  · rw [beq_iff_eq.mp hc, Entry.canonical, Signature.toList_canonicalForm]
    simp
  · have hopen : ∀ key ∈ annotatedKeys, '(' ∈ key.toList := by decide
    exact hopen _ ha

theorem find?_eq_none {key : String} : r.find? key = none ↔ ∀ e ∈ r.entries, e.key ≠ key := by
  simp [find?]

/-- What is found under a key has it, and among different keys nothing else does. -/
theorem find?_eq_some (hn : (r.entries.map Entry.key).Nodup) {key : String} :
    r.find? key = some e ↔ e ∈ r.entries ∧ e.key = key := by
  constructor
  · intro h
    exact ⟨List.mem_of_find?_eq_some h, by simpa using List.find?_some h⟩
  · rintro ⟨he, rfl⟩
    cases hf : r.find? e.key with
    | none => exact absurd rfl (find?_eq_none.mp hf e he)
    | some found =>
      have hkey : found.key = e.key := by simpa using List.find?_some hf
      rw [List.inj_on_of_nodup_map hn (List.mem_of_find?_eq_some hf) he hkey]

/-- The registry that holds some entries. The selectors of those that stand under canonical keys
lead to them, the latest first. -/
def holding (entries : List Entry) : Registry :=
  ⟨entries, ((entries.filter Entry.isCanonical).map fun e => (e.selector, e)).reverse⟩

theorem insert_holding {earlier : List Entry} (hs : Sound e) (hk : ∀ d ∈ earlier, d.key ≠ e.key) :
    (holding earlier).insert e = .ok (holding (earlier ++ [e])) := by
  have hnone : (holding earlier).find? e.key = none := find?_eq_none.mpr hk
  have hfree : ¬ ((holding earlier).find? e.key).isSome := by simp [hnone]
  rw [insert, if_neg hfree]
  by_cases hc : e.isCanonical = true
  · rw [if_pos hc]
    simp [holding, hc]
  · have ha : annotatedKeys.contains e.key = true := by simpa using hs.resolve_left hc
    rw [if_neg hc, if_pos ha]
    simp [holding, hc]

theorem foldlM_insert {earlier entries : List Entry} (hs : ∀ e ∈ entries, Sound e)
    (hn : ((earlier ++ entries).map Entry.key).Nodup) :
    entries.foldlM insert (holding earlier) = .ok (holding (earlier ++ entries)) := by
  induction entries generalizing earlier with
  | nil => simp [except_pure]
  | cons e entries ih =>
    have hk : ∀ d ∈ earlier, d.key ≠ e.key := by
      rw [List.map_append, List.nodup_append] at hn
      intro d hd
      exact hn.2.2 _ (List.mem_map_of_mem hd) _ (List.mem_map_of_mem List.mem_cons_self)
    rw [List.append_cons] at hn ⊢
    rw [List.foldlM_cons, insert_holding (hs e List.mem_cons_self) hk, except_bind_ok]
    exact ih (fun d hd => hs d (List.mem_cons_of_mem _ hd)) hn

/-- Sound entries under different keys make a registry that holds them all. -/
theorem ofEntries_sound {entries : List Entry} (hs : ∀ e ∈ entries, Sound e)
    (hn : (entries.map Entry.key).Nodup) : ofEntries entries = .ok (holding entries) :=
  @foldlM_insert [] entries hs hn

end Registry

namespace WellKnown

theorem sound_entries : ∀ e ∈ entries, e.isCanonical = true ∨
    e.key ∈ Registry.annotatedKeys ∧ (Signature.ofText e.key).canonical = e.canonical := by
  decide +kernel

theorem nodup_keys : (entries.map Entry.key).Nodup := by
  decide +kernel

theorem ofEntries_entries : Registry.ofEntries entries = .ok (Registry.holding entries) :=
  Registry.ofEntries_sound (fun e he => (sound_entries e he).imp_right And.left) nodup_keys

/-- The entries make a registry, so that the well-known functions are all of them. -/
theorem registry_eq : registry = Registry.holding entries := by
  have hr := ofEntries_entries
  delta registry
  generalize Registry.ofEntries entries = made at hr
  rw [hr]

theorem entries_registry : registry.entries = entries := by
  rw [registry_eq, Registry.holding]

theorem isAlphanum_capitalize :
    ∀ role ∈ roles, (capitalize role).toList.all Char.isAlphanum = true := by
  decide +kernel

theorem isAlphanum_curated : ∀ e ∈ curated, e.name.toList.all Char.isAlphanum = true := by
  decide +kernel

theorem isAlphanum_roleEntries {role : String}
    (h : (capitalize role).toList.all Char.isAlphanum = true) :
    ∀ e ∈ roleEntries role, e.name.toList.all Char.isAlphanum = true := by
  simp only [roleEntries, entry, List.forall_mem_cons, String.toList_append, List.all_append, h]
  decide

theorem isAlphanum_name {e : Entry} (he : e ∈ entries) :
    ∀ c ∈ e.name.toList, c.isAlphanum = true := by
  rw [← List.all_eq_true]
  rcases List.mem_append.mp he with he | he
  · exact isAlphanum_curated e he
  · obtain ⟨role, hrole, he⟩ := List.mem_flatMap.mp he
    exact isAlphanum_roleEntries (isAlphanum_capitalize role hrole) e he

theorem spelled_inputs : ∀ e ∈ entries, ∀ p ∈ e.inputs, p.isSpelled = true := by
  decide +kernel

theorem annotated_entries : ∀ key ∈ Registry.annotatedKeys, ∃ e ∈ entries, e.key = key := by
  decide +kernel

variable {e : Entry}

theorem plain_name (he : e ∈ entries) : '(' ∉ e.name.toList := by
  intro hopen
  exact absurd (isAlphanum_name he '(' hopen) (by decide)

/-- The key of an entry is read as the entry's canonical signature. -/
theorem canonical_ofText_key (he : e ∈ entries) :
    (Signature.ofText e.key).canonical = e.canonical := by
  rcases sound_entries e he with hc | ⟨_, hread⟩
  · have hkey : e.key = e.canonical := by simpa [Entry.isCanonical] using hc
    have hname := fun c hc => Text.isBlank_of_isAlphanum (isAlphanum_name he c hc)
    have hsolid := fun p hp => Param.solid_of_isSpelled (spelled_inputs e he p hp)
    rw [hkey, Entry.canonical, Signature.ofText_canonicalForm (plain_name he)
      (Text.trimmed_of_unbroken hname) (fun p hp => (hsolid p hp).1.piece (hsolid p hp).2)
      fun p hp => (hsolid p hp).1.not_mem_space]
    simp [Signature.canonical, Signature.canonicalForm, Signature.typeList, Function.comp_def]
  · exact hread

/-- A canonical key has no blanks. -/
theorem unbroken_canonical (he : e ∈ entries) :
    ∀ c ∈ e.canonical.toList, Text.isBlank c = false := by
  intro c hc
  rw [Entry.canonical, Signature.toList_canonicalForm, Signature.toList_typeList] at hc
  rcases List.mem_append.mp hc with hc | hc
  · exact Text.isBlank_of_isAlphanum (isAlphanum_name he c hc)
  · refine (Text.solid_parenthesized ?_).unbroken c hc
    intro text ht
    obtain ⟨p, hp, rfl⟩ := List.mem_map.mp ht
    exact (Param.solid_of_isSpelled (spelled_inputs e he p hp)).1

/-- A key that is not annotated is the canonical signature of its entry. -/
theorem canonical_eq_key (he : e ∈ entries) (ha : e.key ∉ Registry.annotatedKeys) :
    e.canonical = e.key := by
  have hsound := (sound_entries e he).resolve_right fun h => ha h.1
  exact (beq_iff_eq.mp hsound).symm

theorem not_mem_space_key (he : e ∈ entries) (ha : e.key ∉ Registry.annotatedKeys) :
    ' ' ∉ e.key.toList := by
  rw [← canonical_eq_key he ha]
  intro hspace
  exact absurd (unbroken_canonical he ' ' hspace) (by decide)

theorem open_mem_key (he : e ∈ entries) : '(' ∈ e.key.toList :=
  Registry.Sound.open_mem_key ((sound_entries e he).imp_right And.left)

end WellKnown

end EvmInspect
