import EvmInspect.Proofs.Caching
import EvmInspect.Selector.Interleaving
import Mathlib.Data.Finset.Card
import Mathlib.Logic.Relation

namespace EvmInspect

namespace Call

/-- The selector that a call found unknown and is still to store an answer for. -/
def pending? : Call → Option Selector
  | .missed s | .asking s | .answered s _ => some s
  | .begun _ | .done _ _ => none

def isAsked : Call → Bool
  | .asking _ | .answered _ _ => true
  | .begun _ | .missed _ | .done _ _ => false

end Call

namespace Shared

inductive Write (w : Shared) (s : Selector) : Shared → Prop where
  | store {n : Nat} {given : List String} (call : w.calls[n]? = some (.answered s given)) :
      Write w s ⟨(w.cache.store s given).2, w.calls.set n (.done s (w.cache.store s given).1)⟩

/-- The steps taken from the start, with the selectors stored on the way. -/
inductive Run : List Selector → Shared → Prop where
  | start : Run [] {}
  | write {written : List Selector} {w w' : Shared} {s : Selector} (before : Run written w)
      (move : Write w s w') : Run (written ++ [s]) w'
  | pass {written : List Selector} {w w' : Shared} (before : Run written w) (move : Step w w')
      (quiet : ∀ s, ¬ Write w s w') : Run written w'

theorem Write.step {w w' : Shared} {s : Selector} (h : Write w s w') : Step w w' := by
  cases h with
  | store call => exact .store call

theorem Run.reachable {written : List Selector} {w : Shared} (h : Run written w) :
    Reachable w := by
  induction h with
  | start => exact .start
  | write _ move ih => exact .step ih move.step
  | pass _ move _ ih => exact .step ih move

theorem Reachable.run {w : Shared} (h : Reachable w) : ∃ written, Run written w := by
  induction h with
  | start => exact ⟨[], .start⟩
  | @step w w' _ move ih =>
    obtain ⟨written, hr⟩ := ih
    by_cases hw : ∃ s, Write w s w'
    · obtain ⟨s, hs⟩ := hw
      exact ⟨written ++ [s], .write hr hs⟩
    · exact ⟨written, .pass hr move (fun s hs => hw ⟨s, hs⟩)⟩

/-- Resolving a selector on one's own is taking the steps of one call while no other moves. -/
theorem resolve_path {σ : Type} (resolver : Resolver σ) (s : Selector) (session : Session σ)
    (calls : List Call) :
    Relation.ReflTransGen Step ⟨session.cache, calls⟩
      ⟨(session.resolve resolver s).2.cache,
        calls ++ [.done s (session.resolve resolver s).1]⟩ := by
  have last : ∀ call : Call, (calls ++ [call])[calls.length]? = some call := by simp
  have moved : ∀ old new : Call, (calls ++ [old]).set calls.length new = calls ++ [new] := by simp
  have begun : Step ⟨session.cache, calls⟩ ⟨session.cache, calls ++ [.begun s]⟩ := .begin s
  unfold Session.resolve
  cases h : session.cache.known? s with
  | some found =>
    have hit := Step.hit (w := ⟨session.cache, calls ++ [.begun s]⟩) (last _) h
    rw [moved] at hit
    exact .tail (.single begun) hit
  | none =>
    have missed := Step.miss (w := ⟨session.cache, calls ++ [.begun s]⟩) (last _) h
    have counted := Step.count (w := ⟨session.cache, calls ++ [.missed s]⟩) (last _)
    have answered := Step.answer (w := ⟨session.cache.counted, calls ++ [.asking s]⟩) (last _)
      (resolver s session.memory).candidates
    have stored := Step.store (w := ⟨session.cache.counted,
      calls ++ [.answered s (resolver s session.memory).candidates]⟩) (last _)
    rw [moved] at missed counted answered stored
    exact .tail (.tail (.tail (.tail (.single begun) missed) counted) answered) stored

structure Coherent (w : Shared) : Prop where
  sound : w.cache.Sound
  /-- Only calls for selectors that are not built in get past the cache. -/
  foreign : ∀ call ∈ w.calls, ∀ s, call.pending? = some s → Builtin.candidates? s = none
  returned : ∀ s result, Call.done s result ∈ w.calls → w.cache.known? s = some result
  /-- Every entry and every open question was counted. -/
  asked : w.cache.learned.length + w.calls.countP Call.isAsked ≤ w.cache.remoteLookups

theorem Coherent.start : Coherent {} :=
  ⟨.empty, by simp, by simp, by simp⟩

/-- Moving one call on changes the number of open questions by that call only. -/
theorem countP_set {w : Shared} {n : Nat} {old : Call} (h : w.calls[n]? = some old) (new : Call) :
    (w.calls.set n new).countP Call.isAsked + old.isAsked.toNat =
      w.calls.countP Call.isAsked + new.isAsked.toNat := by
  obtain ⟨hlt, he⟩ := List.getElem?_eq_some_iff.mp h
  have hite : ∀ b : Bool, (if b = true then 1 else 0) = b.toNat := by decide
  have hle : old.isAsked.toNat ≤ w.calls.countP Call.isAsked := by
    cases ho : old.isAsked with
    | false => exact Nat.zero_le _
    | true => exact List.countP_pos_iff.mpr ⟨old, List.mem_of_getElem? h, ho⟩
  rw [List.countP_set hlt, he, hite, hite]
  omega

/-- Moving one call on keeps a coherent state coherent if the cache forgets nothing and the call
stands for something true afterwards. -/
theorem Coherent.move {w : Shared} (h : Coherent w) {n : Nat} {old new : Call} {cache : Cache}
    (call : w.calls[n]? = some old) (sound : cache.Sound)
    (kept : w.cache.learned <+: cache.learned)
    (foreign : ∀ s, new.pending? = some s → Builtin.candidates? s = none)
    (returned : ∀ s result, new = .done s result → cache.known? s = some result)
    (asked : cache.learned.length + w.cache.remoteLookups + new.isAsked.toNat ≤
      w.cache.learned.length + cache.remoteLookups + old.isAsked.toNat) :
    Coherent ⟨cache, w.calls.set n new⟩ := by
  constructor
  · exact sound
  · intro c hc s hs
    rcases List.mem_or_eq_of_mem_set hc with hm | rfl
    · exact h.foreign c hm s hs
    · exact foreign s hs
  · intro s result hd
    rcases List.mem_or_eq_of_mem_set hd with hm | he
    · exact Cache.known?_of_isPrefix kept (h.returned s result hm)
    · exact returned s result he.symm
  · have hset := countP_set call new
    have hbefore := h.asked
    dsimp only
    omega

theorem Coherent.step {w w' : Shared} (h : Coherent w) (move : Step w w') : Coherent w' := by
  cases move with
  | begin s =>
    constructor
    · exact h.sound
    · intro c hc t ht
      rcases List.mem_append.mp hc with hm | hm
      · exact h.foreign c hm t ht
      · rw [List.mem_singleton.mp hm] at ht
        cases ht
    · intro t result hd
      rcases List.mem_append.mp hd with hm | hm
      · exact h.returned t result hm
      · cases List.mem_singleton.mp hm
    · simpa [Call.isAsked] using h.asked
  | hit call found =>
    refine h.move call h.sound (List.prefix_refl _) (by simp [Call.pending?]) ?_
      (by simp [Call.isAsked])
    intro s result he
    cases he
    exact found
  | miss call unknown =>
    refine h.move call h.sound (List.prefix_refl _) ?_ (by simp) (by simp [Call.isAsked])
    intro s hs
    obtain rfl := Option.some.inj hs
    exact (Cache.known?_eq_none.mp unknown).1
  | count call =>
    refine h.move call h.sound.counted (List.prefix_refl _) ?_ (by simp)
      (by simp only [Call.isAsked, Cache.counted, Bool.toNat_true, Bool.toNat_false]; omega)
    exact fun s hs => h.foreign _ (List.mem_of_getElem? call) s hs
  | answer call given =>
    refine h.move call h.sound (List.prefix_refl _) ?_ (by simp) (by simp [Call.isAsked])
    exact fun s hs => h.foreign _ (List.mem_of_getElem? call) s hs
  | @store n s given call =>
    -- an entry that is added takes the place of the open question in the count
    have hs := h.foreign _ (List.mem_of_getElem? call) s rfl
    refine h.move call (h.sound.store hs given) (w.cache.learned_isPrefix_store s given)
      (by simp [Call.pending?]) ?_ ?_
    · intro t result he
      cases he
      exact w.cache.known?_store s given hs
    · rcases w.cache.learned_store s given with ⟨he, _⟩ | ⟨he, _⟩
      all_goals
        simp only [he, Cache.remoteLookups_store, Call.isAsked, List.length_append,
          List.length_cons, List.length_nil, Bool.toNat_true, Bool.toNat_false]
        omega

theorem Reachable.coherent {w : Shared} (h : Reachable w) : Coherent w := by
  induction h with
  | start => exact .start
  | step _ move ih => exact ih.step move

theorem Reachable.path {w w' : Shared} (h : Reachable w) (path : Relation.ReflTransGen Step w w') :
    Reachable w' := by
  induction path with
  | refl => exact h
  | tail _ move ih => exact .step ih move

theorem Step.learned_isPrefix {w w' : Shared} (move : Step w w') :
    w.cache.learned <+: w'.cache.learned := by
  cases move with
  | store call => exact w.cache.learned_isPrefix_store _ _
  | begin | hit | miss | count | answer => exact List.prefix_refl _

theorem learned_isPrefix_path {w w' : Shared} (path : Relation.ReflTransGen Step w w') :
    w.cache.learned <+: w'.cache.learned := by
  induction path with
  | refl => exact List.prefix_refl _
  | tail _ move ih => exact ih.trans move.learned_isPrefix

theorem mem_set_of_ne {calls : List Call} {n : Nat} {old call : Call} (h : calls[n]? = some old)
    (hm : call ∈ calls) (hne : call ≠ old) (new : Call) : call ∈ calls.set n new := by
  obtain ⟨m, hc⟩ := List.mem_iff_getElem?.mp hm
  have hmn : n ≠ m := by
    rintro rfl
    rw [h] at hc
    exact hne (Option.some.inj hc).symm
  exact List.mem_iff_getElem?.mpr ⟨m, by rw [List.getElem?_set_ne hmn, hc]⟩

theorem Step.done_mem {w w' : Shared} (move : Step w w') {s : Selector} {result : List String}
    (h : Call.done s result ∈ w.calls) : Call.done s result ∈ w'.calls := by
  cases move with
  | begin t => exact List.mem_append_left _ h
  | hit call | miss call | count call | answer call | store call =>
    exact mem_set_of_ne call h (by simp) _

theorem done_mem_path {w w' : Shared} (path : Relation.ReflTransGen Step w w') {s : Selector}
    {result : List String} (h : Call.done s result ∈ w.calls) :
    Call.done s result ∈ w'.calls := by
  induction path with
  | refl => exact h
  | tail _ move ih => exact move.done_mem ih

theorem Run.mem_keys {written : List Selector} {w : Shared} (h : Run written w) (s : Selector) :
    s ∈ w.cache.keys ↔ s ∈ written := by
  induction h with
  | start => simp [Cache.keys]
  | write _ move ih =>
    cases move with
    | store call =>
      rw [Cache.mem_keys_store, List.mem_append, List.mem_singleton, ih]
  | pass _ move quiet ih =>
    cases move with
    | store call => exact absurd (.store call) (quiet _)
    | begin | hit | miss | count | answer => exact ih

theorem Run.length_learned {written : List Selector} {w : Shared} (h : Run written w) :
    w.cache.learned.length =
      (written.toFinset.filter fun s => s ∉ Builtin.table.map Prod.fst).card := by
  have hsound := h.reachable.coherent.sound
  have hkeys : w.cache.keys.toFinset =
      written.toFinset.filter fun s => s ∉ Builtin.table.map Prod.fst := by
    ext s
    rw [Finset.mem_filter, List.mem_toFinset, List.mem_toFinset, ← h.mem_keys]
    exact ⟨fun hs => ⟨hs, Builtin.candidates?_eq_none_iff.mp (hsound.foreign s hs)⟩, And.left⟩
  rw [← hkeys, List.toFinset_card_of_nodup hsound.once, Cache.keys, List.length_map]

/-- Whatever the calls are answered and however their steps alternate, an entry once learned stays
as it is, and each call that is done returned what the cache reports from then on. -/
theorem concurrent_resolves_agree {w : Shared} (h : Reachable w) :
    (∀ s found, w.cache.learned.lookup s = some found →
      s ∉ Builtin.table.map Prod.fst ∧
      ∀ w', Relation.ReflTransGen Step w w' → w'.cache.learned.lookup s = some found) ∧
    (∀ s result, Call.done s result ∈ w.calls → ∀ w', Relation.ReflTransGen Step w w' →
      Call.done s result ∈ w'.calls ∧ w'.cache.known? s = some result) ∧
    (∀ s first second, Call.done s first ∈ w.calls → Call.done s second ∈ w.calls →
      first = second) ∧
    (∃ written, Run written w) ∧
    (∀ written, Run written w → w.cache.learned.length =
      (written.toFinset.filter fun s => s ∉ Builtin.table.map Prod.fst).card) ∧
    w.cache.learned.length ≤ w.cache.remoteLookups := by
  have hw := h.coherent
  refine ⟨?_, ?_, ?_, h.run, fun written hr => hr.length_learned, ?_⟩
  · intro s found hl
    constructor
    · exact Builtin.candidates?_eq_none_iff.mp (hw.sound.foreign s (mem_keys_of_lookup hl))
    · exact fun w' path => lookup_of_isPrefix (learned_isPrefix_path path) hl
  · intro s result hd w' path
    have hd' := done_mem_path path hd
    exact ⟨hd', (h.path path).coherent.returned s result hd'⟩
  · intro s first second hf hs
    have hfirst := hw.returned s first hf
    have hsecond := hw.returned s second hs
    rw [hfirst] at hsecond
    exact Option.some.inj hsecond
  · have hasked := hw.asked
    omega

/-- Two calls that both missed and were told different things, the second of which stored first. -/
def raced : Shared :=
  ⟨⟨[(⟨0xde, 0xad, 0xbe, 0xef⟩, ["second()"])], 2⟩,
   [.done ⟨0xde, 0xad, 0xbe, 0xef⟩ ["second()"], .done ⟨0xde, 0xad, 0xbe, 0xef⟩ ["second()"]]⟩

theorem reachable_raced : Reachable raced := by
  have begun := (Reachable.start.step (.begin ⟨0xde, 0xad, 0xbe, 0xef⟩)).step
    (.begin ⟨0xde, 0xad, 0xbe, 0xef⟩)
  have missed := (begun.step (.miss (n := 0) rfl (by decide))).step
    (.miss (n := 1) rfl (by decide))
  have asking := (missed.step (.count (n := 0) rfl)).step (.count (n := 1) rfl)
  have answered := (asking.step (.answer (n := 0) rfl ["first()"])).step
    (.answer (n := 1) rfl ["second()"])
  have stored := answered.step (.store (n := 1) rfl)
  have both := stored.step (.store (n := 0) rfl)
  exact both

theorem concurrent_resolves_agree_raced :
    Reachable raced ∧ raced.calls.length = 2 ∧ raced.cache.remoteLookups = 2 ∧
      ∀ w', Relation.ReflTransGen Step raced w' →
        w'.cache.known? ⟨0xde, 0xad, 0xbe, 0xef⟩ = some ["second()"] := by
  refine ⟨reachable_raced, rfl, rfl, ?_⟩
  intro w' path
  exact ((concurrent_resolves_agree reachable_raced).2.1 _ _ (by decide) w' path).2

end Shared
end EvmInspect
