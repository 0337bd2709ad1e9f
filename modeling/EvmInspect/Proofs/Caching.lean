import EvmInspect.Selector.Session

namespace EvmInspect

theorem lookup_of_isPrefix {entries more : List (Selector × List String)} (h : entries <+: more)
    {s : Selector} {found : List String} (hl : entries.lookup s = some found) :
    more.lookup s = some found := by
  obtain ⟨rest, rfl⟩ := h
  rw [List.lookup_append, hl, Option.some_or]

theorem mem_of_lookup {entries : List (Selector × List String)} {s : Selector}
    {found : List String} (h : entries.lookup s = some found) : (s, found) ∈ entries := by
  obtain ⟨before, rest, rfl, _⟩ := List.lookup_eq_some_iff.mp h
  simp

theorem mem_keys_of_lookup {entries : List (Selector × List String)} {s : Selector}
    {found : List String} (h : entries.lookup s = some found) : s ∈ entries.map Prod.fst :=
  List.mem_map.mpr ⟨(s, found), mem_of_lookup h, rfl⟩

theorem lookup_of_mem {entries : List (Selector × List String)}
    (once : (entries.map Prod.fst).Nodup) {s : Selector} {found : List String}
    (h : (s, found) ∈ entries) : entries.lookup s = some found := by
  induction entries with
  | nil => cases h
  | cons entry entries ih =>
    rw [List.map_cons, List.nodup_cons] at once
    rcases List.mem_cons.mp h with rfl | h
    · exact List.lookup_cons_self
    · have hne : s ≠ entry.1 := by
        rintro rfl
        exact once.1 (List.mem_map.mpr ⟨_, h, rfl⟩)
      rw [List.lookup_cons, beq_false_of_ne hne]
      exact ih once.2 h

theorem lookup_eq_none_iff_keys {entries : List (Selector × List String)} {s : Selector} :
    entries.lookup s = none ↔ s ∉ entries.map Prod.fst := by
  rw [List.lookup_eq_none_iff]
  constructor
  · intro h hm
    obtain ⟨entry, he, rfl⟩ := List.mem_map.mp hm
    simpa using h entry he
  · intro h entry he
    have hne : s ≠ entry.1 := fun hs => h (List.mem_map.mpr ⟨entry, he, hs.symm⟩)
    simpa using hne

theorem Builtin.candidates?_eq_none_iff {s : Selector} :
    candidates? s = none ↔ s ∉ table.map Prod.fst :=
  lookup_eq_none_iff_keys

namespace Cache

def keys (cache : Cache) : List Selector :=
  cache.learned.map Prod.fst

theorem known?_eq_none {cache : Cache} {s : Selector} :
    cache.known? s = none ↔ Builtin.candidates? s = none ∧ cache.learned.lookup s = none := by
  rw [known?, Option.or_eq_none_iff]

theorem known?_of_builtin {cache : Cache} {s : Selector} {found : List String}
    (h : Builtin.candidates? s = some found) : cache.known? s = some found := by
  rw [known?, h, Option.some_or]

theorem known?_of_not_builtin {cache : Cache} {s : Selector} (h : Builtin.candidates? s = none) :
    cache.known? s = cache.learned.lookup s := by
  rw [known?, h, Option.none_or]

/-- Storing adds an entry behind the others, or nothing. -/
theorem learned_store (cache : Cache) (s : Selector) (answer : List String) :
    (cache.store s answer).2.learned = cache.learned ∧ s ∈ cache.keys ∨
    (cache.store s answer).2.learned = cache.learned ++ [(s, answer)] ∧ s ∉ cache.keys := by
  unfold store
  cases h : cache.learned.lookup s with
  | some earlier => exact Or.inl ⟨rfl, mem_keys_of_lookup h⟩
  | none => exact Or.inr ⟨rfl, lookup_eq_none_iff_keys.mp h⟩

@[simp]
theorem remoteLookups_store (cache : Cache) (s : Selector) (answer : List String) :
    (cache.store s answer).2.remoteLookups = cache.remoteLookups := by
  unfold store
  split <;> rfl

theorem learned_isPrefix_store (cache : Cache) (s : Selector) (answer : List String) :
    cache.learned <+: (cache.store s answer).2.learned := by
  rcases cache.learned_store s answer with ⟨h, _⟩ | ⟨h, _⟩
  · exact ⟨[], by rw [h, List.append_nil]⟩
  · exact ⟨_, h.symm⟩

theorem known?_of_isPrefix {cache later : Cache} (h : cache.learned <+: later.learned)
    {s : Selector} {found : List String} (hk : cache.known? s = some found) :
    later.known? s = some found := by
  cases hb : Builtin.candidates? s with
  | some built =>
    rw [known?_of_builtin hb] at hk ⊢
    exact hk
  | none =>
    rw [known?_of_not_builtin hb] at hk ⊢
    exact lookup_of_isPrefix h hk

/-- Each selector was learned once, and none that is built in. -/
structure Sound (cache : Cache) : Prop where
  once : cache.keys.Nodup
  foreign : ∀ s ∈ cache.keys, Builtin.candidates? s = none

theorem Sound.empty : Sound {} :=
  ⟨List.nodup_nil, by simp [keys]⟩

theorem Sound.counted {cache : Cache} (h : cache.Sound) : cache.counted.Sound :=
  ⟨h.once, h.foreign⟩

theorem Sound.store {cache : Cache} (h : cache.Sound) {s : Selector}
    (hs : Builtin.candidates? s = none) (answer : List String) :
    (cache.store s answer).2.Sound := by
  rcases cache.learned_store s answer with ⟨he, _⟩ | ⟨he, hm⟩
  · constructor
    · rw [keys, he]
      exact h.once
    · rw [keys, he]
      exact h.foreign
  · have hkeys : (cache.store s answer).2.keys = cache.keys ++ [s] := by simp [keys, he]
    constructor
    · rw [hkeys]
      refine List.nodup_append.mpr ⟨h.once, by simp, ?_⟩
      intro a ha b hb
      rw [List.mem_singleton.mp hb]
      rintro rfl
      exact hm ha
    · intro t ht
      rw [hkeys] at ht
      rcases List.mem_append.mp ht with ht | ht
      · exact h.foreign t ht
      · rw [List.mem_singleton.mp ht]
        exact hs

theorem mem_keys_store {cache : Cache} {s t : Selector} {answer : List String} :
    t ∈ (cache.store s answer).2.keys ↔ t ∈ cache.keys ∨ t = s := by
  rcases cache.learned_store s answer with ⟨he, hm⟩ | ⟨he, _⟩
  · rw [keys, he]
    constructor
    · exact Or.inl
    · rintro (h | rfl)
      · exact h
      · exact hm
  · simp [keys, he]

end Cache
end EvmInspect
