import EvmInspect.Proofs.Schedules
import EvmInspect.Proofs.Truncation
import Mathlib.Data.List.Forall2

namespace EvmInspect

namespace Call

def stepsLeft : Call → Nat
  | .begun _ => 4
  | .missed _ => 3
  | .asking _ => 2
  | .answered _ _ => 1
  | .done _ _ => 0

def TrueTo (answers : Selector → List String) : Call → Prop
  | .begun _ => True
  | .missed s | .asking s => Builtin.candidates? s = none
  | .answered s given => Builtin.candidates? s = none ∧ given = answers s
  | .done s found => found = s.settled answers

namespace Moves
variable {σ : Type} {resolver : Resolver σ} {answers : Selector → List String}
  {call call' : Call} {cache cache' : Cache} {memory memory' : σ}

theorem selector_eq (move : call.Moves resolver cache memory call' cache' memory') :
    call'.selector = call.selector := by
  cases move <;> rfl

theorem stepsLeft_lt (move : call.Moves resolver cache memory call' cache' memory') :
    call'.stepsLeft < call.stepsLeft := by
  cases move <;> simp [stepsLeft]

/-- Every call takes a step, unless it is done. -/
theorem exists_of_not_done (h : ∀ s found, call ≠ .done s found) (resolver : Resolver σ)
    (cache : Cache) (memory : σ) :
    ∃ call' cache' memory', call.Moves resolver cache memory call' cache' memory' := by
  cases call with
  | begun s =>
    cases hk : cache.known? s with
    | some known => exact ⟨_, _, _, .hit hk⟩
    | none => exact ⟨_, _, _, .miss hk⟩
  | missed s => exact ⟨_, _, _, .count⟩
  | asking s => exact ⟨_, _, _, .answer⟩
  | answered s given => exact ⟨_, _, _, .store⟩
  | done s found => exact absurd rfl (h s found)

theorem filledBy (steady : resolver.Steady answers)
    (move : call.Moves resolver cache memory call' cache' memory') (trueTo : call.TrueTo answers)
    (filled : cache.FilledBy resolver) : cache'.FilledBy resolver := by
  cases move with
  | hit | miss | count | answer => exact filled
  | @store s given =>
    rcases cache.learned_store s given with ⟨he, _⟩ | ⟨he, _⟩
    · rw [Cache.FilledBy, he]
      exact filled
    · intro t found hm
      rw [he] at hm
      rcases List.mem_append.mp hm with hm | hm
      · exact filled t found hm
      · obtain ⟨rfl, rfl⟩ := Prod.mk.inj (List.mem_singleton.mp hm)
        exact ⟨memory, trueTo.2.trans (steady t memory).symm⟩

theorem trueTo (steady : resolver.Steady answers)
    (move : call.Moves resolver cache memory call' cache' memory') (trueTo : call.TrueTo answers)
    (filled : cache.FilledBy resolver) : call'.TrueTo answers := by
  have later := move.filledBy steady trueTo filled
  cases move with
  | hit known => exact filled.known_settled steady known
  | miss unknown => exact (Cache.known?_eq_none.mp unknown).1
  | count => exact trueTo
  | @answer s => exact ⟨trueTo, steady s memory⟩
  | store =>
    -- another call may have stored first, and then its answer is what is known
    exact later.known_settled steady (cache.known?_store _ _ trueTo.1)

end Moves
end Call

/-- What is found in a code when each selector has its settled candidates. -/
def Disassembly.settled (answers : Selector → List String) (code : Bytes) : Disassembly :=
  ⟨(Sweep.scan code).placed.map (Placed.settledLine answers), code.length,
    (Findings.collect (Selector.settled answers) [] (pushedSelectors code)).signatures⟩

namespace Session
variable {σ : Type} {resolver : Resolver σ} {answers : Selector → List String}

theorem finding_settled {session : Session σ} (filled : session.cache.FilledBy resolver)
    (steady : resolver.Steady answers) (code : Bytes) :
    session.finding resolver code = Disassembly.settled answers code := by
  have hanswers : ∀ s ∈ pushedSelectors code,
      (session.disassemble resolver code).2.cache.known? s = some (s.settled answers) := by
    intro s hs
    obtain ⟨found, hfound⟩ := known?_of_pushed hs resolver session
    rw [hfound, (filledBy_disassemble filled code).known_settled steady hfound]
  have hlines := lines_finding filled steady code
  rw [finding_eq_collect hanswers] at hlines ⊢
  rw [Disassembly.settled, ← hlines]
  rfl

/-- The caches of two sessions may differ, as long as one resolver filled them. -/
theorem disassemble_filled {session again : Session σ} (steady : resolver.Steady answers)
    (filled : session.cache.FilledBy resolver) (other : again.cache.FilledBy resolver)
    (code : Bytes) :
    (session.disassemble resolver code).1 = (again.disassemble resolver code).1 := by
  rw [disassemble_ending, disassemble_ending, finding_settled filled steady,
    finding_settled other steady]

theorem disassembleAll_filled {session again : Session σ} (steady : resolver.Steady answers)
    (filled : session.cache.FilledBy resolver) (other : again.cache.FilledBy resolver)
    (codes : List Bytes) :
    (session.disassembleAll resolver codes).1 =
      codes.map fun code => (again.disassemble resolver code).1 := by
  induction codes generalizing session with
  | nil => rfl
  | cons code codes ih =>
    simp only [disassembleAll, List.map_cons]
    rw [disassemble_filled steady filled other, ih (filledBy_disassemble filled code)]

end Session

namespace Pass
variable {answers : Selector → List String} {code : Bytes} {pass : Pass}

/-- What the pass will have found in the end, when each selector has its settled candidates. -/
def prospect (answers : Selector → List String) (pass : Pass) : Disassembly :=
  ⟨pass.result.lines ++ pass.rest.placed.map (Placed.settledLine answers),
    pass.result.codeLength,
    (pass.memo.collect (Selector.settled answers)
      (pass.rest.placed.filterMap Placed.selector?)).signatures⟩

structure Needs (pass : Pass) (s : Selector) : Prop where
  pushed : ∃ p, Step.decode pass.code pass.pc = some (.whole p) ∧ p.selector? = some s
  unmet : pass.memo.lookup s = none

structure OnCourse (answers : Selector → List String) (code : Bytes) (pass : Pass) : Prop where
  memo : ∀ entry ∈ pass.memo, entry.2 = entry.1.settled answers
  signatures : pass.result.signatures = pass.memo.signatures
  cut : pass.rest.cut = (Sweep.scan code).cut
  prospect : pass.prospect answers = Disassembly.settled answers code
  calling : ∀ call, pass.call = some call → call.TrueTo answers ∧ pass.Needs call.selector

namespace OnCourse

theorem start (answers : Selector → List String) (code : Bytes) :
    OnCourse answers code { code := code } := by
  constructor
  case memo => simp
  case signatures => rfl
  case cut => rfl
  case prospect => rfl
  case calling => simp

theorem line_eq (h : OnCourse answers code pass) {p : Placed}
    (met : ∀ s, p.selector? = some s → (pass.memo.lookup s).isSome) :
    pass.memo.line p = p.settledLine answers := by
  rw [Findings.line, Placed.settledLine]
  cases hs : p.selector? with
  | none => rfl
  | some s =>
    obtain ⟨known, hk⟩ := Option.isSome_iff_exists.mp (met s hs)
    have hsettled : known = s.settled answers := h.memo _ (mem_of_lookup hk)
    rw [Findings.candidates, hk, hsettled]
    rfl

theorem write (h : OnCourse answers code pass) (free : pass.call = none) {p : Placed}
    (found : Step.decode pass.code pass.pc = some (.whole p))
    (met : ∀ s, p.selector? = some s → (pass.memo.lookup s).isSome) :
    OnCourse answers code (pass.write p) := by
  have hrest := rest_of_decode found
  constructor
  case memo => exact h.memo
  case signatures => exact h.signatures
  case cut =>
    rw [cut_write found]
    exact h.cut
  case prospect =>
    rw [← h.prospect, Pass.prospect, Pass.prospect, hrest, List.map_cons, ← h.line_eq met]
    have hselectors : pass.memo.collect (Selector.settled answers)
          ((p :: (pass.write p).rest.placed).filterMap Placed.selector?) =
        pass.memo.collect (Selector.settled answers)
          ((pass.write p).rest.placed.filterMap Placed.selector?) := by
      cases hs : p.selector? with
      | none => rw [List.filterMap_cons_none hs]
      | some s =>
        obtain ⟨known, hk⟩ := Option.isSome_iff_exists.mp (met s hs)
        rw [List.filterMap_cons_some hs,
          Findings.collect_cons_found (mem_keys_of_lookup hk)]
    rw [hselectors, Pass.write]
    simp
  case calling =>
    intro call hc
    rw [Pass.write, free] at hc
    cases hc

/-- The course is the same while the pass calls. -/
theorem calls (h : OnCourse answers code pass) {call : Call} (trueTo : call.TrueTo answers)
    (needs : pass.Needs call.selector) :
    OnCourse answers code { pass with call := some call } := by
  constructor
  case memo => exact h.memo
  case signatures => exact h.signatures
  case cut => exact h.cut
  case prospect => exact h.prospect
  case calling =>
    intro other hc
    obtain rfl := Option.some.inj hc
    exact ⟨trueTo, needs.pushed, needs.unmet⟩

theorem learn (h : OnCourse answers code pass) {s : Selector} {known : List String}
    (returned : pass.call = some (.done s known)) : OnCourse answers code (pass.learn s known) := by
  obtain ⟨hknown, needs⟩ : known = s.settled answers ∧ pass.Needs s := h.calling _ returned
  constructor
  case memo =>
    intro entry he
    rcases List.mem_append.mp he with he | he
    · exact h.memo entry he
    · rw [List.mem_singleton.mp he]
      exact hknown
  case signatures =>
    rw [Pass.learn, h.signatures, Findings.signatures_append_entry]
  case cut => exact h.cut
  case prospect =>
    obtain ⟨p, found, hs⟩ := needs.pushed
    have hnew : s ∉ pass.memo.map Prod.fst := lookup_eq_none_iff_keys.mp needs.unmet
    have hmet : s ∈ (pass.memo ++ [(s, known)]).map Prod.fst := by simp
    have hselectors : Findings.collect (Selector.settled answers) (pass.memo ++ [(s, known)])
          (pass.rest.placed.filterMap Placed.selector?) =
        pass.memo.collect (Selector.settled answers)
          (pass.rest.placed.filterMap Placed.selector?) := by
      rw [rest_of_decode found, List.filterMap_cons_some hs, Findings.collect_cons_found hmet,
        Findings.collect_cons_new hnew, hknown]
    have hrest : (pass.learn s known).rest = pass.rest := rfl
    rw [← h.prospect, Pass.prospect, Pass.prospect, hrest, ← hselectors]
    rfl
  case calling =>
    intro call hc
    cases hc

theorem moves (h : OnCourse answers code pass) {σ : Type} {resolver : Resolver σ}
    (steady : resolver.Steady answers) {pass' : Pass} {cache cache' : Cache} {memory memory' : σ}
    (filled : cache.FilledBy resolver)
    (move : pass.Moves resolver cache memory pass' cache' memory') :
    OnCourse answers code pass' ∧ cache'.FilledBy resolver := by
  cases move with
  | write free found met => exact ⟨h.write free found met, filled⟩
  | ask free found pushed unmet =>
    exact ⟨h.calls trivial ⟨⟨_, found, pushed⟩, unmet⟩, filled⟩
  | @call call call' _ _ _ _ calling move =>
    obtain ⟨htrue, needs⟩ := h.calling call calling
    rw [← move.selector_eq] at needs
    exact ⟨h.calls (move.trueTo steady htrue filled) needs, move.filledBy steady htrue filled⟩
  | @learn p s known _ _ returned found =>
    refine ⟨(h.learn returned).write rfl found ?_, filled⟩
    intro t ht
    obtain ⟨q, hq, hs⟩ := (h.calling _ returned).2.pushed
    obtain rfl : p = q := Step.whole.inj (Option.some.inj (found.symm.trans hq))
    obtain rfl : t = s := Option.some.inj (ht.symm.trans hs)
    simp [Pass.learn, List.lookup_append]

/-- A pass that has not ended takes a step. -/
theorem exists_moves (h : OnCourse answers code pass) (going : pass.outcome? = none) {σ : Type}
    (resolver : Resolver σ) (cache : Cache) (memory : σ) :
    ∃ pass' cache' memory', pass.Moves resolver cache memory pass' cache' memory' := by
  cases hcall : pass.call with
  | none =>
    cases hd : Step.decode pass.code pass.pc with
    | none => simp [outcome?, hcall, hd] at going
    | some next =>
      cases next with
      | truncated cut => simp [outcome?, hcall, hd] at going
      | whole p =>
        cases hs : p.selector? with
        | none => exact ⟨_, _, _, .write hcall hd (by simp [hs])⟩
        | some s =>
          cases hl : pass.memo.lookup s with
          | none => exact ⟨_, _, _, .ask hcall hd hs hl⟩
          | some known =>
            refine ⟨_, _, _, .write hcall hd ?_⟩
            intro t ht
            obtain rfl : s = t := Option.some.inj (hs.symm.trans ht)
            rw [hl]
            rfl
  | some call =>
    by_cases hdone : ∃ s known, call = .done s known
    · obtain ⟨s, known, rfl⟩ := hdone
      obtain ⟨p, found, _⟩ := (h.calling _ hcall).2.pushed
      exact ⟨_, _, _, .learn hcall found⟩
    · obtain ⟨_, _, _, move⟩ := Call.Moves.exists_of_not_done
        (fun s known hc => hdone ⟨s, known, hc⟩) resolver cache memory
      exact ⟨_, _, _, .call hcall move⟩

/-- A pass that ends gives what the settled candidates give. -/
theorem outcome (h : OnCourse answers code pass) {out : Except DisassemblyError Disassembly}
    (ended : pass.outcome? = some out) {σ : Type} {resolver : Resolver σ}
    (steady : resolver.Steady answers) {session : Session σ}
    (filled : session.cache.FilledBy resolver) : (session.disassemble resolver code).1 = out := by
  obtain ⟨_, cut, hend, rfl⟩ := outcome?_eq_some.mp ended
  have hrest := rest_of_end hend
  have hcut := h.cut
  -- nothing is left but what the pass wrote
  have hprospect : pass.prospect answers = pass.result := by
    rw [Pass.prospect, hrest, List.map_nil, List.append_nil, List.filterMap_nil, Findings.collect,
      ← h.signatures]
  rw [hrest] at hcut
  rw [Session.disassemble_ending, Session.finding_settled filled steady, ← h.prospect, hprospect,
    ← hcut]

end OnCourse

/-- A bound on the steps that the pass takes: eight for each byte that it has not come to, and those
of its call. -/
def stepsLeft (pass : Pass) : Nat :=
  8 * (pass.code.length - pass.pc) + match pass.call with
    | none => 7
    | some call => 2 + call.stepsLeft

theorem stepsLeft_of_free (free : pass.call = none) :
    pass.stepsLeft = 8 * (pass.code.length - pass.pc) + 7 := by
  rw [stepsLeft, free]

theorem stepsLeft_of_call {call : Call} (calling : pass.call = some call) :
    pass.stepsLeft = 8 * (pass.code.length - pass.pc) + 2 + call.stepsLeft := by
  rw [stepsLeft, calling, Nat.add_assoc]

theorem stepsLeft_write (free : pass.call = none) {p : Placed}
    (found : Step.decode pass.code pass.pc = some (.whole p)) :
    (pass.write p).stepsLeft < 8 * (pass.code.length - pass.pc) := by
  have hfits := Step.fits_of_decode found
  have hpc : (pass.write p).pc = pass.pc + p.instruction.size := rfl
  have hcode : (pass.write p).code = pass.code := rfl
  have hfree : (pass.write p).call = none := free
  rw [stepsLeft_of_free hfree, hpc, hcode]
  unfold Instruction.size at *
  omega

theorem Moves.stepsLeft_lt {σ : Type} {resolver : Resolver σ} {pass' : Pass}
    {cache cache' : Cache} {memory memory' : σ}
    (move : pass.Moves resolver cache memory pass' cache' memory') :
    pass'.stepsLeft < pass.stepsLeft := by
  cases move with
  | write free found met =>
    have hwrite := stepsLeft_write free found
    rw [stepsLeft_of_free free]
    omega
  | @ask p s _ _ free found pushed unmet =>
    have hask : (pass.ask s).stepsLeft =
        8 * (pass.code.length - pass.pc) + 2 + (Call.begun s).stepsLeft := stepsLeft_of_call rfl
    rw [stepsLeft_of_free free, hask, Call.stepsLeft]
    omega
  | @call call call' _ _ _ _ calling move =>
    have hmove := move.stepsLeft_lt
    have hcall : Pass.stepsLeft { pass with call := some call' } =
        8 * (pass.code.length - pass.pc) + 2 + call'.stepsLeft := stepsLeft_of_call rfl
    rw [stepsLeft_of_call calling, hcall]
    omega
  | @learn p s known _ _ returned found =>
    have hfree : (pass.learn s known).call = none := rfl
    have hwrite : ((pass.learn s known).write p).stepsLeft <
        8 * (pass.code.length - pass.pc) := stepsLeft_write hfree found
    rw [stepsLeft_of_call returned]
    omega

end Pass

namespace Batch
variable {σ : Type} {resolver : Resolver σ} {answers : Selector → List String}
  {codes : List Bytes} {w w' : Batch σ}

theorem forall₂_set {α β : Type} {R : α → β → Prop} {xs : List α} {ys : List β}
    (h : List.Forall₂ R xs ys) {n : Nat} {y z : β} (at_n : ys[n]? = some y)
    (keeps : ∀ x, R x y → R x z) : List.Forall₂ R xs (ys.set n z) := by
  induction h generalizing n with
  | nil => simp at at_n
  | @cons x first xs ys hr hrs ih =>
    cases n with
    | zero =>
      obtain rfl : first = y := Option.some.inj at_n
      exact .cons (keeps x hr) hrs
    | succ n => exact .cons hr (ih at_n)

theorem exists_of_getElem?_forall₂ {α β : Type} {R : α → β → Prop} {xs : List α} {ys : List β}
    (h : List.Forall₂ R xs ys) {n : Nat} {y : β} (at_n : ys[n]? = some y) : ∃ x, R x y := by
  induction h generalizing n with
  | nil => simp at at_n
  | @cons x first xs ys hr hrs ih =>
    cases n with
    | zero =>
      obtain rfl : first = y := Option.some.inj at_n
      exact ⟨x, hr⟩
    | succ n => exact ih at_n

theorem sum_map_set_lt {α : Type} {f : α → Nat} {xs : List α} {n : Nat} {x y : α}
    (at_n : xs[n]? = some x) (h : f y < f x) : ((xs.set n y).map f).sum < (xs.map f).sum := by
  induction xs generalizing n with
  | nil => simp at at_n
  | cons first xs ih =>
    cases n with
    | zero =>
      obtain rfl : first = x := Option.some.inj at_n
      simpa using h
    | succ n => simpa using ih at_n

theorem forall₂_of_mapM_some {α β : Type} {f : α → Option β} {xs : List α} {ys : List β}
    (h : xs.mapM f = some ys) : List.Forall₂ (fun x y => f x = some y) xs ys := by
  induction xs generalizing ys with
  | nil =>
    cases h
    exact .nil
  | cons x xs ih =>
    rw [List.mapM_cons] at h
    obtain ⟨y, hy, hrest⟩ := Option.bind_eq_some_iff.mp h
    obtain ⟨rest, hr, hys⟩ := Option.bind_eq_some_iff.mp hrest
    cases hys
    exact .cons hy (ih hr)

theorem exists_of_mapM_none {α β : Type} {f : α → Option β} {xs : List α}
    (h : xs.mapM f = none) : ∃ x ∈ xs, f x = none := by
  induction xs with
  | nil => cases h
  | cons x xs ih =>
    cases hx : f x with
    | none => exact ⟨x, List.mem_cons_self, hx⟩
    | some y =>
      cases hr : xs.mapM f with
      | none =>
        obtain ⟨z, hz, hfz⟩ := ih hr
        exact ⟨z, List.mem_cons_of_mem _ hz, hfz⟩
      | some rest =>
        rw [List.mapM_cons, hx, hr] at h
        cases h

structure OnCourse (resolver : Resolver σ) (answers : Selector → List String)
    (codes : List Bytes) (w : Batch σ) : Prop where
  filled : w.cache.FilledBy resolver
  passes : List.Forall₂ (Pass.OnCourse answers) codes w.passes

namespace OnCourse

theorem start {cache : Cache} (filled : cache.FilledBy resolver) (memory : σ)
    (answers : Selector → List String) (codes : List Bytes) :
    (start cache memory codes).OnCourse resolver answers codes := by
  refine ⟨filled, ?_⟩
  rw [Batch.start, List.forall₂_map_right_iff, List.forall₂_same]
  exact fun code _ => .start answers code

theorem step (steady : resolver.Steady answers) (h : w.OnCourse resolver answers codes)
    (move : Step resolver w w') : w'.OnCourse resolver answers codes := by
  cases move with
  | pass at_n move =>
    obtain ⟨code, hpass⟩ := exists_of_getElem?_forall₂ h.passes at_n
    exact ⟨(hpass.moves steady h.filled move).2, forall₂_set h.passes at_n fun _ hp =>
      (hp.moves steady h.filled move).1⟩

theorem path (steady : resolver.Steady answers) (h : w.OnCourse resolver answers codes)
    (run : Relation.ReflTransGen (Step resolver) w w') : w'.OnCourse resolver answers codes := by
  induction run with
  | refl => exact h
  | tail _ move ih => exact ih.step steady move

theorem exists_step (h : w.OnCourse resolver answers codes) (going : w.outcomes? = none) :
    ∃ w', Step resolver w w' := by
  obtain ⟨pass, hm, hp⟩ := exists_of_mapM_none going
  obtain ⟨n, at_n⟩ := List.mem_iff_getElem?.mp hm
  obtain ⟨code, hpass⟩ := exists_of_getElem?_forall₂ h.passes at_n
  obtain ⟨_, _, _, move⟩ := hpass.exists_moves hp resolver w.cache w.memory
  exact ⟨_, .pass at_n move⟩

/-- Once all passes have ended, each code gave what it gives alone. -/
theorem outcomes (h : w.OnCourse resolver answers codes) (steady : resolver.Steady answers)
    {session : Session σ} (filled : session.cache.FilledBy resolver)
    {outcomes : List (Except DisassemblyError Disassembly)} (ended : w.outcomes? = some outcomes) :
    outcomes = codes.map fun code => (session.disassemble resolver code).1 := by
  have houtcomes := forall₂_of_mapM_some ended
  have hpasses := h.passes
  clear h ended
  generalize w.passes = passes at houtcomes hpasses
  induction hpasses generalizing outcomes with
  | nil =>
    cases houtcomes
    rfl
  | cons hp _ ih =>
    cases houtcomes with
    | cons hout hrest => rw [List.map_cons, hp.outcome hout steady filled, ← ih hrest]

end OnCourse

def stepsLeft (w : Batch σ) : Nat :=
  (w.passes.map Pass.stepsLeft).sum

theorem Step.stepsLeft_lt (move : Step resolver w w') : w'.stepsLeft < w.stepsLeft := by
  cases move with
  | pass at_n move => exact sum_map_set_lt at_n move.stepsLeft_lt

/-- No schedule goes on forever. -/
theorem wellFounded_step (resolver : Resolver σ) :
    WellFounded fun later earlier : Batch σ => Step resolver earlier later :=
  Subrelation.wf Step.stepsLeft_lt (measure stepsLeft).wf

/-- Several codes disassembled with one cache, whichever pass takes the next step, give what each of
them gives alone, if the resolver has one answer for each selector. No schedule goes on for ever,
and none ends before all passes have. -/
theorem outcomes_any_schedule (steady : resolver.Steady answers) {session : Session σ}
    (filled : session.cache.FilledBy resolver) (fresh : σ) (codes : List Bytes) :
    let alone := codes.map fun code =>
      (Session.disassemble resolver code { memory := fresh }).1
    (session.disassembleAll resolver codes).1 = alone ∧
    (∃ w, Relation.ReflTransGen (Step resolver) (start session.cache session.memory codes) w ∧
      w.cache = (session.disassembleAll resolver codes).2.cache ∧
      w.outcomes? = some (session.disassembleAll resolver codes).1) ∧
    (∀ w, Relation.ReflTransGen (Step resolver) (start session.cache session.memory codes) w →
      w.cache.FilledBy resolver ∧
      (∀ outcomes, w.outcomes? = some outcomes → outcomes = alone) ∧
      (w.outcomes? = none → ∃ w', Step resolver w w')) ∧
    WellFounded fun later earlier : Batch σ => Step resolver earlier later := by
  intro alone
  have empty : (Session.cache { memory := fresh }).FilledBy resolver := Session.filledBy_start
  obtain ⟨w, path, hcache, _, houtcomes⟩ := exists_sequential resolver codes session
  refine ⟨Session.disassembleAll_filled steady filled empty codes, ⟨w, path, hcache, houtcomes⟩,
    ?_, wellFounded_step resolver⟩
  intro w run
  have hw := (OnCourse.start filled session.memory answers codes).path steady run
  exact ⟨hw.filled, fun outcomes ended => hw.outcomes steady empty ended, hw.exists_step⟩

open Session

/-- Two passes over the same push that both ask, of which the second one stores first. -/
theorem exists_raced :
    ∃ w, Relation.ReflTransGen (Step frobnicating) (start {} () [pushed, pushed]) w ∧
      w.cache.remoteLookups = 2 ∧ w.outcomes?.isSome := by
  let p : Placed := ⟨Instruction.ofOpcode 0x63, 0, [0xde, 0xad, 0xbe, 0xef]⟩
  have found : EvmInspect.Step.decode pushed 0 = some (.whole p) := by decide +kernel
  have push : p.selector? = some ⟨0xde, 0xad, 0xbe, 0xef⟩ := by decide +kernel
  have begun : Relation.ReflTransGen (Step frobnicating) (start {} () [pushed, pushed])
      (start {} () [pushed, pushed]) := .refl
  have asked := (begun.tail (.pass (n := 0) rfl (.ask rfl found push rfl))).tail
    (.pass (n := 1) rfl (.ask rfl found push rfl))
  have missed := (asked.tail (.pass (n := 0) rfl (.call rfl (.miss (by decide))))).tail
    (.pass (n := 1) rfl (.call rfl (.miss (by decide))))
  have counted := (missed.tail (.pass (n := 0) rfl (.call rfl .count))).tail
    (.pass (n := 1) rfl (.call rfl .count))
  have answered := (counted.tail (.pass (n := 0) rfl (.call rfl .answer))).tail
    (.pass (n := 1) rfl (.call rfl .answer))
  have stored := (answered.tail (.pass (n := 1) rfl (.call rfl .store))).tail
    (.pass (n := 0) rfl (.call rfl .store))
  have learned := (stored.tail (.pass (n := 0) rfl (.learn rfl found))).tail
    (.pass (n := 1) rfl (.learn rfl found))
  exact ⟨_, learned, rfl, by decide +kernel⟩

/-- Both passes asked, and still each of them gives what the push alone gives. -/
theorem outcomes_any_schedule_raced :
    frobnicating.Steady (fun _ => ["frobnicate(uint256)"]) ∧ Cache.FilledBy {} frobnicating ∧
      ∃ w, Relation.ReflTransGen (Step frobnicating) (start {} () [pushed, pushed]) w ∧
        w.cache.remoteLookups = 2 ∧
        w.outcomes? =
          some (List.replicate 2 (disassemble frobnicating pushed { memory := () }).1) := by
  have steady : frobnicating.Steady fun _ => ["frobnicate(uint256)"] := fun _ _ => rfl
  have filled : (Session.cache { memory := () }).FilledBy frobnicating := filledBy_start
  obtain ⟨w, run, counted, ended⟩ := exists_raced
  obtain ⟨outcomes, houtcomes⟩ := Option.isSome_iff_exists.mp ended
  have halone := ((outcomes_any_schedule steady filled () [pushed, pushed]).2.2.1 w run).2.1
    outcomes houtcomes
  refine ⟨steady, filled, w, run, counted, ?_⟩
  rw [houtcomes, halone]
  rfl

end Batch
end EvmInspect
