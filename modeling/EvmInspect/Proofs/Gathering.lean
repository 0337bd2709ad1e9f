import EvmInspect.Disassembly.Run
import EvmInspect.Proofs.Caching

namespace EvmInspect

namespace Session
variable {σ : Type} {resolver : Resolver σ}

theorem resolve_known {session : Session σ} {s : Selector} {found : List String}
    (h : session.cache.known? s = some found) : session.resolve resolver s = (found, session) := by
  unfold resolve
  rw [h]

/-- An unknown selector is asked for once, and the answer is learned. -/
theorem resolve_unknown {session : Session σ} {s : Selector}
    (h : session.cache.known? s = none) :
    session.resolve resolver s =
      ((resolver s session.memory).candidates,
        { cache :=
            { learned := session.cache.learned ++ [(s, (resolver s session.memory).candidates)]
              remoteLookups := session.cache.remoteLookups + 1 }
          memory := (resolver s session.memory).memory
          journal := session.journal ++ (resolver s session.memory).events ++
            [(resolver s session.memory).event s] }) := by
  have hl : session.cache.counted.learned.lookup s = none := (Cache.known?_eq_none.mp h).2
  simp only [resolve, h, Cache.store, hl]
  rfl

theorem learned_isPrefix_resolve (session : Session σ) (s : Selector) :
    session.cache.learned <+: (session.resolve resolver s).2.cache.learned := by
  cases h : session.cache.known? s with
  | some found => exact ⟨[], by rw [resolve_known h, List.append_nil]⟩
  | none => exact ⟨_, by rw [resolve_unknown h]⟩

theorem known?_resolve (session : Session σ) (s : Selector) :
    (session.resolve resolver s).2.cache.known? s = some (session.resolve resolver s).1 := by
  cases h : session.cache.known? s with
  | some found =>
    rw [resolve_known h]
    exact h
  | none =>
    obtain ⟨hb, hl⟩ := Cache.known?_eq_none.mp h
    rw [resolve_unknown h, Cache.known?_of_not_builtin hb, List.lookup_append, hl]
    simp

end Session

namespace Findings

/-- Each selector has the candidates that the cache reports for it. -/
def AnsweredBy (findings : Findings) (cache : Cache) : Prop :=
  ∀ entry ∈ findings, cache.known? entry.1 = some entry.2

theorem AnsweredBy.of_isPrefix {findings : Findings} {cache later : Cache}
    (h : findings.AnsweredBy cache) (kept : cache.learned <+: later.learned) :
    findings.AnsweredBy later :=
  fun entry he => Cache.known?_of_isPrefix kept (h entry he)

theorem mem_addNew {found new : List String} {x : String} :
    x ∈ addNew found new ↔ x ∈ found ∨ x ∈ new := by
  induction new generalizing found with
  | nil => simp [addNew]
  | cons y new ih =>
    have hstep : addNew found (y :: new) =
        addNew (if y ∈ found then found else found ++ [y]) new := rfl
    rw [hstep, ih, List.mem_cons, ← or_assoc]
    split
    · rename_i hy
      constructor
      · rintro (hx | hx)
        · exact Or.inl (Or.inl hx)
        · exact Or.inr hx
      · rintro ((hx | rfl) | hx)
        · exact Or.inl hx
        · exact Or.inl hy
        · exact Or.inr hx
    · rw [List.mem_append, List.mem_singleton]

theorem mem_foldl_addNew {findings : Findings} {found : List String} {x : String} :
    x ∈ findings.foldl (fun found entry => addNew found entry.2) found ↔
      x ∈ found ∨ ∃ entry ∈ findings, x ∈ entry.2 := by
  induction findings generalizing found with
  | nil => simp
  | cons entry findings ih =>
    rw [List.foldl_cons, ih, mem_addNew, or_assoc]
    simp

theorem mem_signatures {findings : Findings} {x : String} :
    x ∈ findings.signatures ↔ ∃ entry ∈ findings, x ∈ entry.2 := by
  rw [signatures, mem_foldl_addNew]
  simp

theorem nodup_addNew {found : List String} (h : found.Nodup) (new : List String) :
    (addNew found new).Nodup := by
  induction new generalizing found with
  | nil => exact h
  | cons y new ih =>
    have hstep : addNew found (y :: new) =
        addNew (if y ∈ found then found else found ++ [y]) new := rfl
    rw [hstep]
    apply ih
    split
    · exact h
    · rename_i hy
      rw [List.nodup_append]
      refine ⟨h, by simp, ?_⟩
      rintro x hx z hz rfl
      exact hy (List.mem_singleton.mp hz ▸ hx)

/-- No signature is found twice. -/
theorem nodup_signatures (findings : Findings) : findings.signatures.Nodup := by
  have hfold : ∀ {found : List String}, found.Nodup →
      (findings.foldl (fun found entry => addNew found entry.2) found).Nodup := by
    induction findings with
    | nil => exact id
    | cons entry findings ih => exact fun h => ih (nodup_addNew h entry.2)
  exact hfold List.nodup_nil

/-- A line stays the same when more selectors are met. -/
theorem line_of_isPrefix {findings later : Findings} (h : findings <+: later) {p : Placed}
    (met : ∀ s, p.selector? = some s → (findings.lookup s).isSome) :
    later.line p = findings.line p := by
  rw [line, line]
  cases hs : p.selector? with
  | none => rfl
  | some s =>
    obtain ⟨known, hk⟩ := Option.isSome_iff_exists.mp (met s hs)
    rw [candidates, candidates, hk, lookup_of_isPrefix h hk]

theorem signatures_append_entry (findings : Findings) (s : Selector) (known : List String) :
    signatures (findings ++ [(s, known)]) = addNew findings.signatures known := by
  rw [signatures, List.foldl_append]
  rfl

def collect (answer : Selector → List String) : Findings → List Selector → Findings
  | findings, [] => findings
  | findings, s :: rest =>
    if (findings.lookup s).isSome then collect answer findings rest
    else collect answer (findings ++ [(s, answer s)]) rest

theorem collect_cons_found {answer : Selector → List String} {findings : Findings} {s : Selector}
    (h : s ∈ findings.map Prod.fst) (rest : List Selector) :
    findings.collect answer (s :: rest) = findings.collect answer rest := by
  have hsome : (findings.lookup s).isSome = true := by
    rw [Option.isSome_iff_ne_none]
    exact fun hn => lookup_eq_none_iff_keys.mp hn h
  rw [collect, if_pos hsome]

theorem collect_cons_new {answer : Selector → List String} {findings : Findings} {s : Selector}
    (h : s ∉ findings.map Prod.fst) (rest : List Selector) :
    findings.collect answer (s :: rest) = collect answer (findings ++ [(s, answer s)]) rest := by
  have hnone : (findings.lookup s).isSome = false := by
    rw [lookup_eq_none_iff_keys.mpr h]
    rfl
  rw [collect, if_neg (by simp [hnone])]

end Findings

namespace Session
variable {σ : Type} {resolver : Resolver σ}

theorem gather_nil (findings : Findings) (session : Session σ) :
    session.gather resolver [] findings = (findings, session) :=
  rfl

theorem gather_cons_found {findings : Findings} {s : Selector} {rest : List Selector}
    (h : s ∈ findings.map Prod.fst) (session : Session σ) :
    session.gather resolver (s :: rest) findings = session.gather resolver rest findings := by
  have hsome : (findings.lookup s).isSome = true := by
    rw [Option.isSome_iff_ne_none]
    exact fun hn => lookup_eq_none_iff_keys.mp hn h
  rw [gather, if_pos hsome]

theorem gather_cons_new {findings : Findings} {s : Selector} {rest : List Selector}
    (h : s ∉ findings.map Prod.fst) (session : Session σ) :
    session.gather resolver (s :: rest) findings =
      (session.resolve resolver s).2.gather resolver rest
        (findings ++ [(s, (session.resolve resolver s).1)]) := by
  have hnone : (findings.lookup s).isSome = false := by
    rw [lookup_eq_none_iff_keys.mpr h]
    rfl
  rw [gather, if_neg (by simp [hnone])]

/-- What resolving a selector keeps is kept by resolving several. -/
theorem gather_keeps {P : Session σ → Prop}
    (keeps : ∀ session s, P session → P (session.resolve resolver s).2) {sels : List Selector}
    {findings : Findings} {session : Session σ} (h : P session) :
    P (session.gather resolver sels findings).2 := by
  induction sels generalizing findings session with
  | nil => exact h
  | cons t rest ih =>
    by_cases ht : t ∈ findings.map Prod.fst
    · rw [gather_cons_found ht]
      exact ih h
    · rw [gather_cons_new ht]
      exact ih (keeps session t h)

/-- Exactly the selectors met are among the findings. -/
theorem mem_keys_gather {sels : List Selector} {findings : Findings} {session : Session σ}
    {s : Selector} :
    s ∈ (session.gather resolver sels findings).1.map Prod.fst ↔
      s ∈ findings.map Prod.fst ∨ s ∈ sels := by
  induction sels generalizing findings session with
  | nil => simp [gather_nil]
  | cons t rest ih =>
    by_cases ht : t ∈ findings.map Prod.fst
    · rw [gather_cons_found ht, ih, List.mem_cons]
      constructor
      · rintro (hs | hs)
        · exact Or.inl hs
        · exact Or.inr (Or.inr hs)
      · rintro (hs | rfl | hs)
        · exact Or.inl hs
        · exact Or.inl ht
        · exact Or.inr hs
    · rw [gather_cons_new ht, ih, List.map_append, List.mem_append, List.mem_cons, or_assoc]
      simp

theorem isPrefix_gather (sels : List Selector) (findings : Findings) (session : Session σ) :
    findings <+: (session.gather resolver sels findings).1 := by
  induction sels generalizing findings session with
  | nil => exact List.prefix_refl _
  | cons t rest ih =>
    by_cases ht : t ∈ findings.map Prod.fst
    · rw [gather_cons_found ht]
      exact ih findings session
    · rw [gather_cons_new ht]
      exact (List.prefix_append _ _).trans (ih _ _)

/-- What was found earlier stays true when a selector is resolved: the cache forgets nothing. -/
theorem answeredBy_resolve {findings : Findings} {session : Session σ}
    (h : findings.AnsweredBy session.cache) (s : Selector) :
    Findings.AnsweredBy (findings ++ [(s, (session.resolve resolver s).1)])
      (session.resolve resolver s).2.cache := by
  intro entry he
  rcases List.mem_append.mp he with hm | hm
  · exact h.of_isPrefix (session.learned_isPrefix_resolve s) entry hm
  · rw [List.mem_singleton.mp hm]
    exact session.known?_resolve s

/-- What is found is what the cache reports in the end, also about the selectors met early. -/
theorem gather_answeredBy {sels : List Selector} {findings : Findings} {session : Session σ}
    (h : findings.AnsweredBy session.cache) :
    (session.gather resolver sels findings).1.AnsweredBy
      (session.gather resolver sels findings).2.cache := by
  induction sels generalizing findings session with
  | nil => exact h
  | cons t rest ih =>
    by_cases ht : t ∈ findings.map Prod.fst
    · rw [gather_cons_found ht]
      exact ih h
    · rw [gather_cons_new ht]
      exact ih (answeredBy_resolve h t)

theorem known?_gather {session : Session σ} {s : Selector} {found : List String}
    (h : session.cache.known? s = some found) (sels : List Selector) (findings : Findings) :
    (session.gather resolver sels findings).2.cache.known? s = some found := by
  apply gather_keeps (P := fun session => session.cache.known? s = some found)
  · intro session t h
    exact Cache.known?_of_isPrefix (session.learned_isPrefix_resolve t) h
  · exact h

/-- What is found depends on nothing but what the cache reports in the end. -/
theorem gather_eq_collect {answer : Selector → List String} {sels : List Selector}
    {findings : Findings} {session : Session σ}
    (h : ∀ s ∈ sels, (session.gather resolver sels findings).2.cache.known? s = some (answer s)) :
    (session.gather resolver sels findings).1 = findings.collect answer sels := by
  induction sels generalizing findings session with
  | nil => rfl
  | cons t rest ih =>
    by_cases ht : t ∈ findings.map Prod.fst
    · rw [gather_cons_found ht] at h ⊢
      rw [Findings.collect_cons_found ht]
      exact ih fun s hs => h s (List.mem_cons_of_mem t hs)
    · rw [gather_cons_new ht] at h ⊢
      have hanswer : (session.resolve resolver t).1 = answer t := by
        have hfirst : (session.resolve resolver t).2.cache.known? t =
            some (session.resolve resolver t).1 := session.known?_resolve t
        have hlast := h t List.mem_cons_self
        rw [known?_gather hfirst] at hlast
        exact Option.some.inj hlast
      rw [Findings.collect_cons_new ht, ← hanswer]
      exact ih fun s hs => h s (List.mem_cons_of_mem t hs)

theorem nodup_keys_gather {sels : List Selector} {findings : Findings} {session : Session σ}
    (h : (findings.map Prod.fst).Nodup) :
    ((session.gather resolver sels findings).1.map Prod.fst).Nodup := by
  induction sels generalizing findings session with
  | nil => exact h
  | cons t rest ih =>
    by_cases ht : t ∈ findings.map Prod.fst
    · rw [gather_cons_found ht]
      exact ih h
    · rw [gather_cons_new ht]
      apply ih
      rw [List.map_append, List.nodup_append]
      refine ⟨h, by simp, ?_⟩
      rintro s hs u hu rfl
      obtain rfl : s = t := List.mem_singleton.mp hu
      exact ht hs

end Session
end EvmInspect
