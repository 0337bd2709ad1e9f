import EvmInspect.Disassembly.Interleaving
import EvmInspect.Proofs.Concatenation
import Mathlib.Logic.Relation

namespace EvmInspect

def Disassembly.ending (cut : Option Cut) (d : Disassembly) :
    Except DisassemblyError Disassembly :=
  match cut with
  | some cut => .error (.truncated cut d)
  | none => .ok d

theorem Step.fits_of_decode {code : Bytes} {pc : Nat} {p : Placed}
    (h : decode code pc = some (.whole p)) : pc + p.instruction.size ≤ code.length := by
  obtain ⟨opcode, rest, hb, _⟩ := read_whole h
  rw [decode, hb] at h
  have himmediate := immediateLength_le_of_read h
  have hlength := congrArg List.length hb
  rw [List.length_drop, List.length_cons] at hlength
  rw [Instruction.size]
  omega

namespace Session
variable {σ : Type} {resolver : Resolver σ}

theorem disassemble_ending (resolver : Resolver σ) (code : Bytes) (session : Session σ) :
    (session.disassemble resolver code).1 =
      (session.finding resolver code).ending (Sweep.scan code).cut := by
  cases h : (Sweep.scan code).cut with
  | none => exact disassemble_whole h resolver session
  | some cut => exact disassemble_broken h resolver session

theorem memory_disassemble (resolver : Resolver σ) (code : Bytes) (session : Session σ) :
    (session.disassemble resolver code).2.memory =
      (session.gather resolver
        ((Sweep.scan code).placed.filterMap Placed.selector?) []).2.memory := by
  cases h : (Sweep.scan code).cut <;> simp only [disassemble, h, record]

end Session

namespace Pass
variable {σ : Type} {resolver : Resolver σ}

def rest (pass : Pass) : Sweep :=
  Sweep.scanFrom pass.pc (pass.code.drop pass.pc)

theorem rest_of_decode {pass : Pass} {p : Placed}
    (found : Step.decode pass.code pass.pc = some (.whole p)) :
    pass.rest = ⟨p :: (pass.write p).rest.placed, (pass.write p).rest.cut⟩ :=
  Sweep.scanFrom_decode_whole found

theorem rest_of_end {pass : Pass} {cut : Option Cut}
    (ended : Step.decode pass.code pass.pc = cut.map .truncated) : pass.rest = ⟨[], cut⟩ := by
  cases cut with
  | none => exact Sweep.scanFrom_decode_none ended
  | some cut => exact Sweep.scanFrom_decode_truncated ended

/-- A pass has an outcome when there is no call to wait for and no more instruction to be read. -/
theorem outcome?_eq_some {pass : Pass} {out : Except DisassemblyError Disassembly} :
    pass.outcome? = some out ↔ pass.call = none ∧ ∃ cut : Option Cut,
      Step.decode pass.code pass.pc = cut.map .truncated ∧ pass.result.ending cut = out := by
  constructor
  · intro h
    unfold outcome? at h
    split at h
    · rename_i free ended
      exact ⟨free, none, ended, Option.some.inj h⟩
    · rename_i cut free ended
      exact ⟨free, some cut, ended, Option.some.inj h⟩
    · cases h
  · rintro ⟨free, cut, ended, rfl⟩
    rw [outcome?, free, ended]
    cases cut <;> rfl

inductive Runs (resolver : Resolver σ) : Pass → Cache → σ → Pass → Cache → σ → Prop
  | refl (pass : Pass) (cache : Cache) (memory : σ) :
      Runs resolver pass cache memory pass cache memory
  | step {pass next last : Pass} {cache cache' cache'' : Cache} {memory memory' memory'' : σ}
      (move : pass.Moves resolver cache memory next cache' memory')
      (later : Runs resolver next cache' memory' last cache'' memory'') :
      Runs resolver pass cache memory last cache'' memory''

/-- Among other passes it does so when it is always its turn. -/
theorem Runs.lift {pass last : Pass} {cache cache' : Cache} {memory memory' : σ}
    (run : Runs resolver pass cache memory last cache' memory') {passes : List Pass} {n : Nat}
    (at_n : passes[n]? = some pass) :
    Relation.ReflTransGen (Batch.Step resolver) ⟨cache, memory, passes⟩
      ⟨cache', memory', passes.set n last⟩ := by
  have hlt := (List.getElem?_eq_some_iff.mp at_n).1
  induction run generalizing passes with
  | refl pass cache memory =>
    obtain ⟨_, hget⟩ := List.getElem?_eq_some_iff.mp at_n
    rw [← hget, List.set_getElem_self]
  | @step pass next last _ _ _ _ _ _ move _ ih =>
    have hnext : (passes.set n next)[n]? = some next := List.getElem?_set_self hlt
    have hlater := ih hnext (by rwa [List.length_set])
    rw [List.set_set] at hlater
    exact .head (.pass at_n move) hlater

/-- What a pass does at a selector that it has not met is to resolve it. -/
theorem runs_resolve {pass : Pass} {p : Placed} {s : Selector} (free : pass.call = none)
    (found : Step.decode pass.code pass.pc = some (.whole p)) (pushed : p.selector? = some s)
    (unmet : pass.memo.lookup s = none) (session : Session σ) {last : Pass} {cache : Cache}
    {memory : σ}
    (later : Runs resolver ((pass.learn s (session.resolve resolver s).1).write p)
      (session.resolve resolver s).2.cache (session.resolve resolver s).2.memory last cache
      memory) :
    Runs resolver pass session.cache session.memory last cache memory := by
  refine .step (.ask free found pushed unmet) ?_
  cases hk : session.cache.known? s with
  | some known =>
    rw [Session.resolve_known hk] at later
    exact .step (.call rfl (.hit hk)) (.step (.learn rfl found) later)
  | none =>
    refine .step (.call rfl (.miss hk)) (.step (.call rfl .count) ?_)
    refine .step (.call rfl .answer) (.step (.call rfl .store) (.step (.learn rfl found) ?_))
    simp only [Session.resolve, hk] at later
    exact later

def gathered (resolver : Resolver σ) (pass : Pass) (session : Session σ) : Findings × Session σ :=
  session.gather resolver (pass.rest.placed.filterMap Placed.selector?) pass.memo

def whole (pass : Pass) (findings : Findings) : Disassembly :=
  ⟨pass.result.lines ++ pass.rest.placed.map findings.line, pass.result.codeLength,
    findings.signatures⟩

theorem gathered_write {pass : Pass} {p : Placed}
    (found : Step.decode pass.code pass.pc = some (.whole p))
    (met : ∀ s, p.selector? = some s → (pass.memo.lookup s).isSome) (session : Session σ) :
    (pass.write p).gathered resolver session = pass.gathered resolver session := by
  rw [gathered, gathered, rest_of_decode found]
  cases hs : p.selector? with
  | none =>
    rw [List.filterMap_cons_none hs]
    rfl
  | some s =>
    obtain ⟨known, hk⟩ := Option.isSome_iff_exists.mp (met s hs)
    rw [List.filterMap_cons_some hs, Session.gather_cons_found (mem_keys_of_lookup hk)]
    rfl

theorem whole_write {pass : Pass} {p : Placed}
    (found : Step.decode pass.code pass.pc = some (.whole p))
    (met : ∀ s, p.selector? = some s → (pass.memo.lookup s).isSome) {findings : Findings}
    (later : pass.memo <+: findings) : (pass.write p).whole findings = pass.whole findings := by
  rw [whole, whole, rest_of_decode found, List.map_cons, Findings.line_of_isPrefix later met, write]
  simp

theorem gathered_learn {pass : Pass} {p : Placed} {s : Selector}
    (found : Step.decode pass.code pass.pc = some (.whole p)) (pushed : p.selector? = some s)
    (unmet : pass.memo.lookup s = none) (session : Session σ) :
    (pass.learn s (session.resolve resolver s).1).gathered resolver
        (session.resolve resolver s).2 = pass.gathered resolver session := by
  have hrest : (pass.learn s (session.resolve resolver s).1).rest = pass.rest := rfl
  have hmet : s ∈ (pass.learn s (session.resolve resolver s).1).memo.map Prod.fst := by
    simp [learn]
  rw [gathered, gathered, hrest, rest_of_decode found, List.filterMap_cons_some pushed,
    Session.gather_cons_found hmet, Session.gather_cons_new (lookup_eq_none_iff_keys.mp unmet)]
  rfl

theorem isPrefix_gathered (pass : Pass) (session : Session σ) :
    pass.memo <+: (pass.gathered resolver session).1 :=
  Session.isPrefix_gather _ _ _

theorem cut_write {pass : Pass} {p : Placed}
    (found : Step.decode pass.code pass.pc = some (.whole p)) :
    (pass.write p).rest.cut = pass.rest.cut := by
  rw [rest_of_decode found]

/-- A pass that goes on by itself gathers what is gathered at once. -/
def Completes (resolver : Resolver σ) (pass : Pass) (session : Session σ) : Prop :=
  ∃ last, Runs resolver pass session.cache session.memory last
      (pass.gathered resolver session).2.cache (pass.gathered resolver session).2.memory ∧
    last.outcome? = some ((pass.whole (pass.gathered resolver session).1).ending pass.rest.cut)

variable {pass : Pass} {session : Session σ}

theorem completes_of_end (cut : Option Cut) (free : pass.call = none)
    (signatures : pass.result.signatures = pass.memo.signatures)
    (ended : Step.decode pass.code pass.pc = cut.map .truncated) :
    pass.Completes resolver session := by
  have hrest := rest_of_end ended
  have hgathered : pass.gathered resolver session = (pass.memo, session) := by
    rw [gathered, hrest]
    rfl
  have hwhole : pass.whole pass.memo = pass.result := by
    rw [whole, hrest, List.map_nil, List.append_nil, ← signatures]
  rw [Completes, hgathered, hwhole, hrest]
  exact ⟨pass, .refl pass session.cache session.memory,
    outcome?_eq_some.mpr ⟨free, cut, ended, rfl⟩⟩

theorem Completes.of_write (free : pass.call = none) {p : Placed}
    (found : Step.decode pass.code pass.pc = some (.whole p))
    (met : ∀ s, p.selector? = some s → (pass.memo.lookup s).isSome)
    (h : (pass.write p).Completes resolver session) : pass.Completes resolver session := by
  obtain ⟨last, run, hout⟩ := h
  rw [gathered_write found met] at run hout
  rw [whole_write found met (isPrefix_gathered pass session), cut_write found] at hout
  exact ⟨last, .step (.write free found met) run, hout⟩

theorem Completes.of_learn (free : pass.call = none) {p : Placed} {s : Selector}
    (found : Step.decode pass.code pass.pc = some (.whole p)) (pushed : p.selector? = some s)
    (unmet : pass.memo.lookup s = none)
    (h : ((pass.learn s (session.resolve resolver s).1).write p).Completes resolver
      (session.resolve resolver s).2) : pass.Completes resolver session := by
  obtain ⟨last, run, hout⟩ := h
  let next := pass.learn s (session.resolve resolver s).1
  have hfound : Step.decode next.code next.pc = some (.whole p) := found
  have hmet : ∀ t, p.selector? = some t → (next.memo.lookup t).isSome := by
    intro t ht
    obtain rfl : s = t := Option.some.inj (pushed.symm.trans ht)
    simp [next, learn, List.lookup_append]
  have hprefix : next.memo <+: (pass.gathered resolver session).1 := by
    rw [← gathered_learn found pushed unmet]
    exact isPrefix_gathered _ _
  rw [gathered_write hfound hmet, gathered_learn found pushed unmet] at run hout
  rw [whole_write hfound hmet hprefix, cut_write hfound] at hout
  exact ⟨last, runs_resolve free found pushed unmet session run, hout⟩

/-- Whatever the cache knows and the resolver answers, a pass that goes on by itself completes. -/
theorem completes (free : pass.call = none)
    (signatures : pass.result.signatures = pass.memo.signatures) (session : Session σ) :
    pass.Completes resolver session := by
  induction hn : pass.code.length - pass.pc using Nat.strongRecOn generalizing pass session with
  | ind n ih =>
    cases hd : Step.decode pass.code pass.pc with
    | none => exact completes_of_end none free signatures hd
    | some next =>
      cases next with
      | truncated cut => exact completes_of_end (some cut) free signatures hd
      | whole p =>
        have hless : pass.code.length - (pass.pc + p.instruction.size) < n := by
          have hfits := Step.fits_of_decode hd
          unfold Instruction.size at *
          omega
        have hwritten : (pass.write p).Completes resolver session := by
          have hfree : (pass.write p).call = none := free
          exact ih _ hless hfree signatures session rfl
        cases hs : p.selector? with
        | none => exact hwritten.of_write free hd (by simp [hs])
        | some s =>
          cases hl : pass.memo.lookup s with
          | some known =>
            have hmet : ∀ t, p.selector? = some t → (pass.memo.lookup t).isSome := by
              intro t ht
              obtain rfl : s = t := Option.some.inj (hs.symm.trans ht)
              rw [hl]
              rfl
            exact hwritten.of_write free hd hmet
          | none =>
            -- the cache may have changed by then, but the rest of the code is shorter
            apply Completes.of_learn free hd hs hl
            apply ih _ hless rfl _ _ rfl
            rw [write, learn, signatures, Findings.signatures_append_entry]

end Pass

namespace Batch
variable {σ : Type}

/-- The first pass that nobody has begun goes on to its end. -/
theorem path_fresh (resolver : Resolver σ) (session : Session σ) (done rest : List Pass)
    (code : Bytes) :
    ∃ last, Relation.ReflTransGen (Step resolver)
        ⟨session.cache, session.memory, done ++ { code := code } :: rest⟩
        ⟨(session.disassemble resolver code).2.cache,
          (session.disassemble resolver code).2.memory, done ++ last :: rest⟩ ∧
      last.outcome? = some (session.disassemble resolver code).1 := by
  have fresh : Pass.Completes resolver { code := code } session := Pass.completes rfl rfl session
  obtain ⟨last, run, hout⟩ := fresh
  have at_n : (done ++ ({ code := code } : Pass) :: rest)[done.length]? =
      some { code := code } := by
    rw [List.getElem?_append_right (Nat.le_refl _), Nat.sub_self]
    rfl
  have hpath := run.lift at_n
  rw [List.set_append_right _ _ (Nat.le_refl _), Nat.sub_self] at hpath
  refine ⟨last, ?_, ?_⟩
  · rw [Session.cache_disassemble, Session.memory_disassemble]
    exact hpath
  · rw [hout, Session.disassemble_ending]
    rfl

theorem path_all (resolver : Resolver σ) (codes : List Bytes) (session : Session σ)
    (done : List Pass) :
    ∃ ended, Relation.ReflTransGen (Step resolver)
        ⟨session.cache, session.memory, done ++ codes.map fun code => { code := code }⟩
        ⟨(session.disassembleAll resolver codes).2.cache,
          (session.disassembleAll resolver codes).2.memory, done ++ ended⟩ ∧
      ended.mapM Pass.outcome? = some (session.disassembleAll resolver codes).1 := by
  induction codes generalizing session done with
  | nil => exact ⟨[], .refl, rfl⟩
  | cons code codes ih =>
    obtain ⟨last, first, hlast⟩ := path_fresh resolver session done
      (codes.map fun code => { code := code }) code
    obtain ⟨ended, others, hended⟩ :=
      ih (session.disassemble resolver code).2 (done ++ [last])
    rw [List.append_assoc, List.append_assoc] at others
    refine ⟨last :: ended, first.trans others, ?_⟩
    rw [List.mapM_cons, hlast, hended]
    rfl

/-- One schedule is to take the codes in order: it ends with the results and the cache of
disassembling them one after another, whatever the resolver answers. -/
theorem exists_sequential (resolver : Resolver σ) (codes : List Bytes) (session : Session σ) :
    ∃ w, Relation.ReflTransGen (Step resolver) (start session.cache session.memory codes) w ∧
      w.cache = (session.disassembleAll resolver codes).2.cache ∧
      w.memory = (session.disassembleAll resolver codes).2.memory ∧
      w.outcomes? = some (session.disassembleAll resolver codes).1 := by
  obtain ⟨ended, path, hended⟩ := path_all resolver codes session []
  exact ⟨_, path, rfl, rfl, hended⟩

end Batch
end EvmInspect
