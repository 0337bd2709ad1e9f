import EvmInspect.Text.Quoted
import Mathlib.Tactic.Common

namespace EvmInspect.Text

def isWord (c : Char) : Bool :=
  c.isAlphanum || c == '-'

/-- A text that continues no word. -/
def Stops (text : List Char) : Prop :=
  ∀ c ∈ text.head?, isWord c = false

theorem isWord_of_isAlphanum {c : Char} (h : c.isAlphanum = true) : isWord c = true := by
  simp [isWord, h]

theorem stops_nil : Stops [] := by
  simp [Stops]

theorem stops_cons {c : Char} (h : isWord c = false) (text : List Char) : Stops (c :: text) := by
  simpa [Stops] using h

theorem takeWhile_word {word rest : List Char} (hw : ∀ c ∈ word, isWord c = true)
    (hr : Stops rest) : (word ++ rest).takeWhile isWord = word := by
  have hnone : rest.takeWhile isWord = [] := by
    cases rest with
    | nil => rfl
    | cons c rest => simp [hr c rfl]
  rw [List.takeWhile_append_of_pos hw, hnone, List.append_nil]

/-- A word is known from what it begins. -/
theorem word_cut {v w x y : List Char} (hv : ∀ c ∈ v, isWord c = true)
    (hw : ∀ c ∈ w, isWord c = true) (hx : Stops x) (hy : Stops y) (h : v ++ x = w ++ y) :
    v = w ∧ x = y := by
  have hvw : v = w := by rw [← takeWhile_word hv hx, h, takeWhile_word hw hy]
  subst hvw
  exact ⟨rfl, List.append_cancel_left h⟩

theorem isAlphanum_digitChar : ∀ d < 16, d.digitChar.isAlphanum = true := by decide

theorem digitChar_inj : ∀ d < 16, ∀ e < 16, d.digitChar = e.digitChar → d = e := by decide

/-- The last digit, behind the digits of the rest. -/
theorem hexDigits_of_le {n : Nat} (h : 16 ≤ n) :
    hexDigits n = hexDigits (n / 16) ++ [(n % 16).digitChar] :=
  Nat.toDigits_of_base_le (by decide) h

theorem hexDigits_of_lt {n : Nat} (h : n < 16) : hexDigits n = [n.digitChar] :=
  Nat.toDigits_of_lt_base h

theorem isAlphanum_of_mem_hexDigits {n : Nat} {c : Char} (h : c ∈ hexDigits n) :
    c.isAlphanum = true := by
  induction n using Nat.strongRecOn with
  | ind n ih =>
    by_cases hn : n < 16
    · rw [hexDigits_of_lt hn, List.mem_singleton] at h
      rw [h]
      exact isAlphanum_digitChar n hn
    · rw [hexDigits_of_le (by omega), List.mem_append, List.mem_singleton] at h
      rcases h with h | rfl
      · exact ih (n / 16) (by omega) h
      · exact isAlphanum_digitChar _ (Nat.mod_lt n (by decide))

theorem hexDigits_injective : Function.Injective hexDigits := by
  intro n m h
  have hne (k : Nat) : hexDigits k ≠ [] := Nat.toDigits_ne_nil
  induction n using Nat.strongRecOn generalizing m with
  | ind n ih =>
    by_cases hn : n < 16 <;> by_cases hm : m < 16
    · rw [hexDigits_of_lt hn, hexDigits_of_lt hm, List.singleton_inj] at h
      exact digitChar_inj n hn m hm h
    · rw [hexDigits_of_lt hn, hexDigits_of_le (by omega), List.singleton_eq_append_iff] at h
      simp [hne] at h
    · rw [hexDigits_of_le (by omega), hexDigits_of_lt hm, List.append_eq_singleton_iff] at h
      simp [hne] at h
    · rw [hexDigits_of_le (n := n) (by omega), hexDigits_of_le (n := m) (by omega)] at h
      obtain ⟨hdiv, hlast⟩ := List.append_inj' h rfl
      have hquot := ih (n / 16) (by omega) hdiv
      have hrem := digitChar_inj _ (Nat.mod_lt n (by decide)) _ (Nat.mod_lt m (by decide))
        (List.singleton_inj.mp hlast)
      omega

namespace Quoted

def letters : List (Char × Char) :=
  [('"', '"'), ('\\', '\\'), ('\x00', '0'), ('\t', 't'), ('\n', 'n'), ('\r', 'r')]

/-- The ways in which a character stands between double quotes. -/
inductive Escapes : Char → List Char → Prop
  | letter {c l : Char} (h : (c, l) ∈ letters) : Escapes c ['\\', l]
  | number (c : Char) : Escapes c ('\\' :: 'u' :: '\x7b' :: (hexDigits c.toNat ++ ['\x7d']))
  | plain {c : Char} (hmark : c ≠ '"') (hslash : c ≠ '\\') : Escapes c [c]

theorem escapes (c : Char) : Escapes c (escape '"' c) := by
  unfold escape
  split_ifs with hown hnull htab hline hreturn
  · exact .letter (by rcases hown with rfl | rfl <;> decide)
  · exact .letter (by rw [hnull]; decide)
  · exact .letter (by rw [htab]; decide)
  · exact .letter (by rw [hline]; decide)
  · exact .letter (by rw [hreturn]; decide)
  · exact .number c
  · exact .plain (not_or.mp hown).1 (not_or.mp hown).2

theorem letters_inj : ∀ p ∈ letters, ∀ q ∈ letters, p.2 = q.2 → p = q := by decide

theorem ne_of_mem_letters : ∀ p ∈ letters, p.2 ≠ 'u' := by decide

/-- A character is known from what its escaped form begins. -/
theorem Escapes.cut {c d : Char} {s t x y : List Char} (hc : Escapes c s) (hd : Escapes d t)
    (h : s ++ x = t ++ y) : c = d ∧ x = y := by
  cases hc with
  | letter hl =>
    cases hd with
    | letter hm =>
      simp only [List.cons_append, List.nil_append, List.cons.injEq, true_and] at h
      exact ⟨congrArg Prod.fst (letters_inj _ hl _ hm h.1), h.2⟩
    | number => exact absurd (List.cons.inj (List.cons.inj h).2).1 (ne_of_mem_letters _ hl)
    | plain _ hslash => exact absurd (List.cons.inj h).1.symm hslash
  | number =>
    cases hd with
    | letter hm => exact absurd (List.cons.inj (List.cons.inj h).2).1.symm (ne_of_mem_letters _ hm)
    | number =>
      simp only [List.cons_append, List.append_assoc, List.cons.injEq, true_and] at h
      have hword (n : Nat) : ∀ c ∈ hexDigits n, isWord c = true :=
        fun _ hc => isWord_of_isAlphanum (isAlphanum_of_mem_hexDigits hc)
      obtain ⟨hdigits, hrest⟩ := word_cut (hword _) (hword _) (stops_cons (by decide) _)
        (stops_cons (by decide) _) h
      exact ⟨Char.toNat_inj.mp (hexDigits_injective hdigits), (List.cons.inj hrest).2⟩
    | plain _ hslash => exact absurd (List.cons.inj h).1.symm hslash
  | plain hmark hslash =>
    cases hd with
    | letter | number => exact absurd (List.cons.inj h).1 hslash
    | plain => exact List.cons.inj h

theorem Escapes.ne_mark {c : Char} {s x y : List Char} (h : Escapes c s) : s ++ x ≠ '"' :: y := by
  intro heq
  cases h with
  | letter | number => exact absurd (List.cons.inj heq).1 (by decide)
  | plain hmark => exact hmark (List.cons.inj heq).1

/-- A text is known from what its quoted form begins. -/
theorem encode_cut {s t x y : List Char} (h : encode s ++ x = encode t ++ y) : s = t ∧ x = y := by
  simp only [encode, List.cons_append, List.append_assoc, List.cons.injEq, true_and,
    List.nil_append] at h
  induction s generalizing t with
  | nil =>
    cases t with
    | nil => exact ⟨rfl, (List.cons.inj h).2⟩
    | cons d t =>
      rw [List.flatMap_cons, List.append_assoc] at h
      exact absurd h.symm (escapes d).ne_mark
  | cons c s ih =>
    cases t with
    | nil =>
      rw [List.flatMap_cons, List.append_assoc] at h
      exact absurd h (escapes c).ne_mark
    | cons d t =>
      rw [List.flatMap_cons, List.flatMap_cons, List.append_assoc, List.append_assoc] at h
      obtain ⟨rfl, hrest⟩ := (escapes c).cut (escapes d) h
      obtain ⟨rfl, hxy⟩ := ih hrest
      exact ⟨rfl, hxy⟩

end Quoted
end EvmInspect.Text
