namespace EvmInspect.Text

/-- The characters with the property White_Space. -/
def isBlank (c : Char) : Bool :=
  let n := c.toNat
  (0x09 ≤ n && n ≤ 0x0d) || n == 0x20 || n == 0x85 || n == 0xa0 || n == 0x1680
    || (0x2000 ≤ n && n ≤ 0x200a) || n == 0x2028 || n == 0x2029 || n == 0x202f
    || n == 0x205f || n == 0x3000

def trimStart (text : List Char) : List Char :=
  text.dropWhile isBlank

def trimEnd (text : List Char) : List Char :=
  (text.reverse.dropWhile isBlank).reverse

def trim (text : List Char) : List Char :=
  trimEnd (trimStart text)

def Trimmed (text : List Char) : Prop :=
  (∀ c ∈ text.head?, isBlank c = false) ∧ ∀ c ∈ text.getLast?, isBlank c = false

instance (text : List Char) : Decidable (Trimmed text) :=
  decidable_of_iff
    (text.head?.all (! isBlank ·) = true ∧ text.getLast?.all (! isBlank ·) = true)
    (by simp [Trimmed, Option.all_eq_true])

theorem dropWhile_isBlank_of_head? {text : List Char} (h : ∀ c ∈ text.head?, isBlank c = false) :
    text.dropWhile isBlank = text := by
  cases text with
  | nil => rfl
  | cons c text => simp [h c rfl]

/-- There is nothing to cut off a trimmed text. -/
theorem trim_eq_self {text : List Char} (h : Trimmed text) : trim text = text := by
  have hlast : ∀ c ∈ text.reverse.head?, isBlank c = false := by
    rw [List.head?_reverse]
    exact h.2
  rw [trim, trimStart, dropWhile_isBlank_of_head? h.1, trimEnd, dropWhile_isBlank_of_head? hlast,
    List.reverse_reverse]

theorem trimmed_of_unbroken {text : List Char} (h : ∀ c ∈ text, isBlank c = false) :
    Trimmed text :=
  ⟨fun c hc => h c (List.mem_of_head? hc), fun c hc => h c (List.mem_of_getLast? hc)⟩

theorem Trimmed.append {text rest : List Char} (ht : Trimmed text) (hr : Trimmed rest) :
    Trimmed (text ++ rest) := by
  constructor
  · intro c hc
    rw [List.head?_append, Option.mem_def, Option.or_eq_some_iff] at hc
    rcases hc with hc | ⟨_, hc⟩
    · exact ht.1 c hc
    · exact hr.1 c hc
  · intro c hc
    rw [List.getLast?_append, Option.mem_def, Option.or_eq_some_iff] at hc
    rcases hc with hc | ⟨_, hc⟩
    · exact hr.2 c hc
    · exact ht.2 c hc

/-- Only what stands at the ends counts. -/
theorem Trimmed.around {text rest : List Char} (ht : Trimmed text) (hr : Trimmed rest)
    (hne : text ≠ []) (hrest : rest ≠ []) (middle : List Char) :
    Trimmed (text ++ (middle ++ rest)) := by
  constructor
  · cases text with
    | nil => exact absurd rfl hne
    | cons c text => exact ht.1
  · intro c hc
    rw [← List.append_assoc, List.getLast?_append, List.getLast?_eq_some_getLast hrest] at hc
    exact hr.2 c (List.getLast?_eq_some_getLast hrest ▸ hc)

/-- Blanks in front of a text do not count. -/
theorem trim_append {gap text : List Char} (h : ∀ c ∈ gap, isBlank c = true) :
    trim (gap ++ text) = trim text := by
  rw [trim, trim, trimStart, trimStart, List.dropWhile_append_of_pos h]

/-- The longest blank-free parts of a text, in order. -/
def words (text : List Char) : List (List Char) :=
  (text.splitOnP isBlank).filter (! ·.isEmpty)

/-- Each run of blanks made one space, and none left at the ends. -/
def collapse (text : List Char) : List Char :=
  [' '].intercalate (words text)

end EvmInspect.Text
