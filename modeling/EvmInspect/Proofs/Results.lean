namespace EvmInspect

@[simp]
theorem except_bind_ok {ε α β : Type} (a : α) (f : α → Except ε β) :
    (Except.ok a >>= f) = f a :=
  rfl

@[simp]
theorem except_bind_error {ε α β : Type} (e : ε) (f : α → Except ε β) :
    (Except.error e >>= f) = .error e :=
  rfl

@[simp]
theorem except_pure {ε α : Type} (a : α) : (pure a : Except ε α) = .ok a :=
  rfl

theorem bind_eq_ok {ε α β : Type} {x : Except ε α} {f : α → Except ε β} {b : β} :
    (x >>= f) = .ok b ↔ ∃ a, x = .ok a ∧ f a = .ok b := by
  cases x with
  | error e => simp
  | ok a => simp

/-- A check passes a result on, or fails. -/
theorem ite_eq_ok {ε α : Type} {c : Prop} [Decidable c] {x : Except ε α} {e : ε} {a : α} :
    (if c then x else .error e) = .ok a ↔ c ∧ x = .ok a := by
  by_cases h : c <;> simp [h]

theorem mapM_cons_eq_ok {ε α β : Type} {f : α → Except ε β} {x : α} {xs : List α} {ys : List β} :
    (x :: xs).mapM f = .ok ys ↔ ∃ y rest, f x = .ok y ∧ xs.mapM f = .ok rest ∧ ys = y :: rest := by
  rw [List.mapM_cons]
  simp only [bind_eq_ok, except_pure, Except.ok.injEq]
  constructor
  · rintro ⟨y, hy, rest, hr, rfl⟩
    exact ⟨y, rest, hy, hr, rfl⟩
  · rintro ⟨y, rest, hy, hr, rfl⟩
    exact ⟨y, hy, rest, hr, rfl⟩

/-- Each element of the result comes from an element of the list. -/
theorem mem_of_mapM_ok {ε α β : Type} {f : α → Except ε β} {xs : List α} {ys : List β}
    (h : xs.mapM f = .ok ys) {y : β} (hy : y ∈ ys) : ∃ x ∈ xs, f x = .ok y := by
  induction xs generalizing ys with
  | nil =>
    cases h
    simp at hy
  | cons x xs ih =>
    obtain ⟨first, rest, hx, hr, rfl⟩ := mapM_cons_eq_ok.mp h
    rcases List.mem_cons.mp hy with rfl | hy
    · exact ⟨x, by simp, hx⟩
    · obtain ⟨z, hz, hf⟩ := ih hr hy
      exact ⟨z, by simp [hz], hf⟩

/-- A computation gives a result, unless it fails with an error of a kind. -/
inductive Returns {ε α : Type} (a : α) (may : ε → Prop) : Except ε α → Prop
  | ok : Returns a may (.ok a)
  | error {e : ε} : may e → Returns a may (.error e)

namespace Returns
variable {ε α β : Type} {a : α} {b : β} {may more : ε → Prop}

theorem bind {x : Except ε α} {f : α → Except ε β} (first : Returns a may x)
    (second : Returns b may (f a)) : Returns b may (x >>= f) := by
  cases first with
  | ok => exact second
  | error h => exact .error h

theorem mono {x : Except ε α} (h : Returns a may x) (weaker : ∀ e, may e → more e) :
    Returns a more x := by
  cases h with
  | ok => exact .ok
  | error h => exact .error (weaker _ h)

theorem of_eq_ok {x : Except ε α} (h : x = .ok a) : Returns a may x := by
  rw [h]
  exact .ok

theorem eq_ok {x : Except ε α} (h : Returns a may x) (never : ∀ e, ¬ may e) : x = .ok a := by
  cases h with
  | ok => rfl
  | error h => exact absurd h (never _)

end Returns

end EvmInspect
