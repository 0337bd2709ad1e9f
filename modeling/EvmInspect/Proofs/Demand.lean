import EvmInspect.Disassembly.Request
import EvmInspect.Proofs.Detection

namespace EvmInspect

theorem foreignOnce_append (sels : List Selector) (s : Selector) :
    foreignOnce (sels ++ [s]) =
      if s ∉ Builtin.table.map Prod.fst ∧ s ∉ sels then foreignOnce sels ++ [s]
      else foreignOnce sels := by
  unfold foreignOnce
  generalize Builtin.table.map Prod.fst = known
  rw [List.filter_append, List.eraseDups_append]
  by_cases hb : s ∈ known
  · simp [hb, List.removeAll]
  · by_cases hm : s ∈ sels
    · simp [hb, hm, List.removeAll]
    · simp [hb, hm, List.removeAll, List.eraseDups_cons]

theorem mem_foreignOnce {sels : List Selector} {s : Selector} :
    s ∈ foreignOnce sels ↔ s ∈ sels ∧ s ∉ Builtin.table.map Prod.fst := by
  rw [foreignOnce, List.mem_eraseDups, List.mem_filter, decide_eq_true_iff]

namespace Session
variable {σ : Type} {resolver : Resolver σ}

/-- The cache learns a demanded selector if and only if it has to be asked for. -/
theorem keys_resolve {session : Session σ} {sels : List Selector}
    (h : session.cache.keys = foreignOnce sels) (s : Selector) :
    (session.resolve resolver s).2.cache.keys = foreignOnce (sels ++ [s]) := by
  have hmem : s ∈ session.cache.keys ↔ s ∈ sels ∧ s ∉ Builtin.table.map Prod.fst := by
    rw [h, mem_foreignOnce]
  rw [foreignOnce_append]
  cases hk : session.cache.known? s with
  | some found =>
    rw [resolve_known hk, if_neg]
    · exact h
    · rintro ⟨hb, hs⟩
      rw [Cache.known?_of_not_builtin (Builtin.candidates?_eq_none_iff.mpr hb)] at hk
      exact hs (hmem.mp (mem_keys_of_lookup hk)).1
  | none =>
    obtain ⟨hb, hl⟩ := Cache.known?_eq_none.mp hk
    rw [Builtin.candidates?_eq_none_iff] at hb
    have hnew : s ∉ sels := fun hs => lookup_eq_none_iff_keys.mp hl (hmem.mpr ⟨hs, hb⟩)
    rw [resolve_unknown hk, if_pos ⟨hb, hnew⟩, ← h]
    simp [Cache.keys]

/-- Selectors that were found out earlier in the same code were demanded earlier. -/
theorem keys_gather {session : Session σ} {findings : Findings} {before : List Selector}
    (h : session.cache.keys = foreignOnce before)
    (hf : ∀ s ∈ findings.map Prod.fst, s ∈ before) (sels : List Selector) :
    (session.gather resolver sels findings).2.cache.keys = foreignOnce (before ++ sels) := by
  induction sels generalizing session findings before with
  | nil =>
    rw [gather_nil, List.append_nil]
    exact h
  | cons s rest ih =>
    rw [List.append_cons]
    by_cases hs : s ∈ findings.map Prod.fst
    · rw [gather_cons_found hs]
      apply ih
      · rw [foreignOnce_append, if_neg (fun hn => hn.2 (hf s hs))]
        exact h
      · intro t ht
        exact List.mem_append_left _ (hf t ht)
    · rw [gather_cons_new hs]
      apply ih (keys_resolve h s)
      intro t ht
      rw [List.map_append] at ht
      rcases List.mem_append.mp ht with ht | ht
      · exact List.mem_append_left _ (hf t ht)
      · exact List.mem_append_right _ ht

theorem keys_disassemble {session : Session σ} {before : List Selector}
    (h : session.cache.keys = foreignOnce before) (code : Bytes) :
    (session.disassemble resolver code).2.cache.keys =
      foreignOnce (before ++ pushedSelectors code) := by
  rw [cache_disassemble, pushedSelectors_eq]
  exact keys_gather h (by simp) _

theorem keys_serve {session : Session σ} {before : List Selector}
    (h : session.cache.keys = foreignOnce before) (request : Request) :
    (session.serve resolver request).2.cache.keys = foreignOnce (before ++ request.demands) := by
  cases request with
  | resolve s => exact keys_resolve h s
  | cached s =>
    rw [Request.demands, List.append_nil]
    exact h
  | disassemble code => exact keys_disassemble h code
  | disassembleText text =>
    simp only [serve, disassembleText, Request.demands]
    cases Hex.decodeText (codeDigits text.toList) with
    | ok code => exact keys_disassemble h code
    | error fault =>
      rw [List.append_nil]
      exact h

theorem keys_serveAll {session : Session σ} {before : List Selector}
    (h : session.cache.keys = foreignOnce before) (requests : List Request) :
    (session.serveAll resolver requests).2.cache.keys =
      foreignOnce (before ++ requests.flatMap Request.demands) := by
  induction requests generalizing session before with
  | nil =>
    rw [List.flatMap_nil, List.append_nil]
    exact h
  | cons request requests ih =>
    rw [List.flatMap_cons, ← List.append_assoc]
    exact ih (keys_serve h request)

/-- What resolving and writing into the journal keep is kept by disassembling. -/
theorem disassemble_keeps {P : Session σ → Prop}
    (resolves : ∀ session s, P session → P (session.resolve resolver s).2)
    (records : ∀ session event, P session → P (session.record event)) {session : Session σ}
    (h : P session) (code : Bytes) : P (session.disassemble resolver code).2 := by
  have hg : P (session.gather resolver
      ((Sweep.scan code).placed.filterMap Placed.selector?) []).2 :=
    gather_keeps (P := P) resolves h
  cases hc : (Sweep.scan code).cut with
  | none =>
    simp only [disassemble, hc]
    exact records _ _ hg
  | some cut =>
    simp only [disassemble, hc]
    exact records _ _ hg

/-- What resolving and writing into the journal keep is kept by all requests. -/
theorem serveAll_keeps {P : Session σ → Prop}
    (resolves : ∀ session s, P session → P (session.resolve resolver s).2)
    (records : ∀ session event, P session → P (session.record event)) {session : Session σ}
    (h : P session) (requests : List Request) : P (session.serveAll resolver requests).2 := by
  induction requests generalizing session with
  | nil => exact h
  | cons request requests ih =>
    apply ih
    cases request with
    | resolve s => exact resolves session s h
    | cached s => exact h
    | disassemble code => exact disassemble_keeps (P := P) resolves records h code
    | disassembleText text =>
      simp only [disassembleText]
      cases Hex.decodeText (codeDigits text.toList) with
      | ok code => exact disassemble_keeps (P := P) resolves records h code
      | error fault => exact h

theorem sound_resolve {session : Session σ} (h : session.cache.Sound) (s : Selector) :
    (session.resolve resolver s).2.cache.Sound := by
  cases hk : session.cache.known? s with
  | some found =>
    rw [resolve_known hk]
    exact h
  | none =>
    have hs := h.counted.store (Cache.known?_eq_none.mp hk).1 (resolver s session.memory).candidates
    simp only [resolve, hk]
    exact hs

/-- What is known stays known, whatever is requested. -/
theorem known?_serveAll {session : Session σ} {s : Selector} {found : List String}
    (h : session.cache.known? s = some found) (requests : List Request) :
    (session.serveAll resolver requests).2.cache.known? s = some found := by
  apply serveAll_keeps (P := fun session => session.cache.known? s = some found)
  case resolves =>
    intro session t h
    exact Cache.known?_of_isPrefix (session.learned_isPrefix_resolve t) h
  case records =>
    intro session event h
    exact h
  case h => exact h

end Session

namespace Session
variable {σ : Type} {resolver : Resolver σ}

theorem resolve_unrecorded (session : Session (Inquiries × σ)) (s : Selector) :
    session.unrecorded.resolve resolver s =
      ((session.resolve resolver.recorded s).1,
        (session.resolve resolver.recorded s).2.unrecorded) := by
  cases h : session.cache.known? s with
  | some found =>
    have hu : session.unrecorded.cache.known? s = some found := h
    rw [resolve_known h, resolve_known hu]
  | none =>
    have hu : session.unrecorded.cache.known? s = none := h
    rw [resolve_unknown h, resolve_unknown hu]
    rfl

theorem gather_unrecorded (session : Session (Inquiries × σ)) (sels : List Selector)
    (findings : Findings) :
    session.unrecorded.gather resolver sels findings =
      ((session.gather resolver.recorded sels findings).1,
        (session.gather resolver.recorded sels findings).2.unrecorded) := by
  induction sels generalizing session findings with
  | nil => rfl
  | cons s rest ih =>
    by_cases hs : s ∈ findings.map Prod.fst
    · rw [gather_cons_found hs, gather_cons_found hs]
      exact ih session findings
    · rw [gather_cons_new hs, gather_cons_new hs, resolve_unrecorded]
      exact ih _ _

theorem disassemble_unrecorded (session : Session (Inquiries × σ)) (code : Bytes) :
    session.unrecorded.disassemble resolver code =
      ((session.disassemble resolver.recorded code).1,
        (session.disassemble resolver.recorded code).2.unrecorded) := by
  simp only [disassemble, gather_unrecorded]
  cases (Sweep.scan code).cut <;> rfl

theorem serve_unrecorded (session : Session (Inquiries × σ)) (request : Request) :
    session.unrecorded.serve resolver request =
      ((session.serve resolver.recorded request).1,
        (session.serve resolver.recorded request).2.unrecorded) := by
  cases request with
  | resolve s => simp only [serve, resolve_unrecorded]
  | cached s => rfl
  | disassemble code => simp only [serve, disassemble_unrecorded]
  | disassembleText text =>
    simp only [serve, disassembleText]
    cases Hex.decodeText (codeDigits text.toList) with
    | ok code => simp only [disassemble_unrecorded]
    | error fault => rfl

theorem serveAll_unrecorded (session : Session (Inquiries × σ)) (requests : List Request) :
    session.unrecorded.serveAll resolver requests =
      ((session.serveAll resolver.recorded requests).1,
        (session.serveAll resolver.recorded requests).2.unrecorded) := by
  induction requests generalizing session with
  | nil => rfl
  | cons request requests ih => simp only [serveAll, serve_unrecorded, ih]

structure Tallied (session : Session (Inquiries × σ)) : Prop where
  learned : session.cache.learned = session.memory.1.answers
  counted : session.cache.remoteLookups = session.memory.1.length

theorem Tallied.keys {session : Session (Inquiries × σ)} (h : session.Tallied) :
    session.cache.keys = session.memory.1.map Prod.fst := by
  rw [Cache.keys, h.learned, Inquiries.answers, List.map_map]
  rfl

theorem Tallied.size {session : Session (Inquiries × σ)} (h : session.Tallied) :
    session.cache.size = Builtin.table.length + session.memory.1.length := by
  rw [Cache.size, h.learned, Inquiries.answers, List.length_map]

theorem Tallied.resolve {session : Session (Inquiries × σ)} (h : session.Tallied) (s : Selector) :
    (session.resolve resolver.recorded s).2.Tallied := by
  cases hk : session.cache.known? s with
  | some found =>
    rw [resolve_known hk]
    exact h
  | none =>
    have hreply : (resolver.recorded s session.memory).candidates =
        (resolver s session.memory.2).outcome.toOption.getD [] := by
      unfold Reply.candidates
      simp only [Resolver.recorded]
      cases (resolver s session.memory.2).outcome <;> rfl
    rw [resolve_unknown hk]
    constructor
    · show session.cache.learned ++ _ = _
      rw [h.learned, hreply]
      simp [Inquiries.answers, Resolver.recorded]
    · simp [h.counted, Resolver.recorded]

theorem Tallied.serveAll {session : Session (Inquiries × σ)} (h : session.Tallied)
    (requests : List Request) : (session.serveAll resolver.recorded requests).2.Tallied := by
  apply serveAll_keeps (P := Tallied)
  case resolves =>
    intro session s h
    exact h.resolve s
  case records =>
    intro session event h
    exact ⟨h.learned, h.counted⟩
  case h => exact h

/-- Nobody was asked for more than the given selectors, and for none of them twice. -/
structure Frugal (session : Session σ) (inquiries : Inquiries) (needed : List Selector) :
    Prop where
  asked : inquiries.map Prod.fst = needed
  once : needed.Nodup
  counted : session.cache.remoteLookups = needed.length
  sized : session.cache.size = Builtin.table.length + needed.length
  learned : session.cache.learned = inquiries.answers

/-- From here on, whatever is requested, a selector has the given candidates, and nobody is asked
for it. -/
def Settles (session : Session σ) (resolver : Resolver σ) (s : Selector)
    (found : List String) : Prop :=
  ∀ requests, let final := (session.serveAll resolver requests).2
    final.serve resolver (.cached s) = (.known (some found), final) ∧
      final.serve resolver (.resolve s) = (.candidates found, final)

theorem settles_of_known {session : Session σ} {s : Selector} {found : List String}
    (h : session.cache.known? s = some found) : session.Settles resolver s found := by
  intro requests final
  have hf : final.cache.known? s = some found := known?_serveAll h requests
  constructor
  · simp only [serve, hf]
  · simp only [serve, resolve_known hf]

theorem serve_of_invalidEncoding {session : Session σ} {text : String} {fault : Hex.Fault}
    (h : (session.serve resolver (.disassembleText text)).1 =
      .disassembly (.error (.invalidEncoding fault))) :
    (session.serve resolver (.disassembleText text)).2 = session := by
  simp only [serve, disassembleText] at h ⊢
  cases hd : Hex.decodeText (codeDigits text.toList) with
  | error fault => rfl
  | ok code =>
    -- bytes can only be cut short
    simp only [hd] at h
    have hr := Response.disassembly.inj h
    cases hc : (Sweep.scan code).cut with
    | none =>
      rw [disassemble_whole hc] at hr
      cases hr
    | some cut =>
      rw [disassemble_broken hc] at hr
      cases hr

theorem frugal_serveAll (resolver : Resolver σ) (memory : σ) (requests : List Request) :
    let final := (serveAll resolver.recorded requests { memory := ([], memory) }).2
    final.unrecorded.Frugal final.memory.1 (Request.firstDemands requests) := by
  intro final
  have htallied : final.Tallied := Tallied.serveAll ⟨rfl, rfl⟩ requests
  have hkeys : final.cache.keys = foreignOnce ([] ++ requests.flatMap Request.demands) :=
    keys_serveAll rfl requests
  rw [List.nil_append] at hkeys
  have hsound : final.cache.Sound := by
    apply serveAll_keeps (P := fun session => session.cache.Sound)
    case resolves =>
      intro session s h
      exact sound_resolve h s
    case records =>
      intro session event h
      exact h
    case h => exact Cache.Sound.empty
  have hasked : final.memory.1.map Prod.fst = Request.firstDemands requests := by
    rw [← htallied.keys, hkeys, Request.firstDemands]
  have hlength : final.memory.1.length = (Request.firstDemands requests).length := by
    rw [← hasked, List.length_map]
  constructor
  case asked => exact hasked
  case once =>
    rw [Request.firstDemands, ← hkeys]
    exact hsound.once
  case counted =>
    rw [← hlength]
    exact htallied.counted
  case sized =>
    rw [← hlength]
    exact htallied.size
  case learned => exact htallied.learned

/-- Whatever is requested, the resolver is asked once for each selector that is demanded and not
built in, in the order of the first demands, and its answers are kept for good. A look into the
cache and a text that is no hex change nothing. -/
theorem serveAll_asks_once (resolver : Resolver σ) (memory : σ) (requests : List Request) :
    let recording := serveAll resolver.recorded requests { memory := ([], memory) }
    let session := recording.2.unrecorded
    serveAll resolver requests { memory := memory } = (recording.1, session) ∧
    session.Frugal recording.2.memory.1 (Request.firstDemands requests) ∧
    (∀ s found, (session.serve resolver (.cached s)).1 = .known (some found) →
      session.Settles resolver s found) ∧
    (∀ entry ∈ Builtin.table, session.Settles resolver entry.1 entry.2) ∧
    (∀ s, (session.serve resolver (.cached s)).2 = session) ∧
    ∀ text fault, (session.serve resolver (.disassembleText text)).1 =
        .disassembly (.error (.invalidEncoding fault)) →
      (session.serve resolver (.disassembleText text)).2 = session := by
  intro recording session
  refine ⟨serveAll_unrecorded { memory := ([], memory) } requests,
    frugal_serveAll resolver memory requests, ?_, ?_, ?_, ?_⟩
  · intro s found h
    exact settles_of_known (Response.known.inj h)
  · intro entry he
    exact settles_of_known (Cache.known?_of_builtin (lookup_of_mem Builtin.nodup_selectors he))
  · intro s
    rfl
  · intro text fault h
    exact serve_of_invalidEncoding h

end Session
end EvmInspect
