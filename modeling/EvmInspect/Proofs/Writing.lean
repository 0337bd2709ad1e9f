import EvmInspect.Proofs.Documents

namespace EvmInspect

theorem Text.head_decimal_ne_zero {n : Nat} (h : 0 < n) : (decimal n).head? ≠ some '0' := by
  induction n using Nat.strongRecOn with
  | ind n ih =>
    by_cases hn : n < 10
    · have all : ∀ m < 10, 0 < m → (decimal m).head? ≠ some '0' := by decide
      exact all n hn h
    · have hfirst := ih (n / 10) (by omega) (by omega)
      rw [decimal, Nat.toDigits_of_base_le (by decide) (by omega), List.head?_append]
      change ((decimal (n / 10)).head?.or _) ≠ some '0'
      cases hd : (decimal (n / 10)).head? with
      | none => exact absurd (List.head?_eq_none_iff.mp hd) (decimal_ne_nil _)
      | some c =>
        rw [hd] at hfirst
        exact hfirst

namespace Json

/-- A document of the kind that is written: its numbers are decimal, and its strings and keys stand
for texts. -/
inductive Plain : Json → Prop
  | null : Plain .null
  | bool (value : Bool) : Plain (.bool value)
  | nat (n : Nat) : Plain (.nat n)
  | text (s : String) : Plain (.text s)
  | array {items : List Json} (plain : ∀ item ∈ items, Plain item) : Plain (.array items)
  | record {members : List (String × Json)} (plain : ∀ member ∈ members, Plain member.2) :
      Plain (.record members)

/-- The hex digits of the control characters. -/
theorem hexDigits_control : ∀ n < 16,
    Text.hexDigits n = [Nat.digitChar n] ∧ Text.hexDigits (16 + n) = ['1', Nat.digitChar n] := by
  decide

theorem codeUnit_digitChar {r s : Nat} (hr : r < 16) (hs : s < 16) :
    CodeUnit (r * 16 + s) ['0', '0', Nat.digitChar r, Nat.digitChar s] := by
  have hzero : HexDigit 0 '0' := ⟨by decide, Or.inl rfl⟩
  have hunit := CodeUnit.digits hzero hzero ⟨hr, Or.inl rfl⟩ ⟨hs, Or.inl rfl⟩
  simpa only [Nat.zero_mul, Nat.zero_add] using hunit

theorem written_escape (c : Char) : Piece.Written (.char c) (escape c) := by
  unfold escape
  split
  · rename_i h
    rcases h with rfl | rfl <;> exact .short (by decide)
  rename_i hmarked
  split_ifs with hb hf hn hr ht hlow hhigh
  · exact hb ▸ .short (by decide)
  · exact hf ▸ .short (by decide)
  · exact hn ▸ .short (by decide)
  · exact hr ▸ .short (by decide)
  · exact ht ▸ .short (by decide)
  · -- one hex digit, behind three zeros
    have hunit := codeUnit_digitChar (by decide : 0 < 16) hlow
    rw [Nat.zero_mul, Nat.zero_add] at hunit
    rw [(hexDigits_control c.toNat hlow).1]
    exact .number hunit
  · -- two hex digits, of which the first one is a one
    have hsum : 16 + (c.toNat - 16) = c.toNat := by omega
    have hdigits := (hexDigits_control (c.toNat - 16) (by omega)).2
    have hunit := codeUnit_digitChar (by decide : 1 < 16) (by omega : c.toNat - 16 < 16)
    rw [Nat.one_mul, hsum] at hunit
    rw [hsum] at hdigits
    rw [hdigits]
    exact .number hunit
  · exact .plain (by omega) (fun h => hmarked (Or.inl h)) (fun h => hmarked (Or.inr h))

theorem content_escape (text : List Char) : Content (text.map .char) (text.flatMap escape) := by
  induction text with
  | nil => exact .nil
  | cons c text ih => exact .cons (written_escape c) ih

theorem Piece.text?_char (s : String) : Piece.text? (s.toList.map .char) = some s := by
  have hjoin : ∀ text : List Char, Piece.join (text.map .char) = text.map some := by
    intro text
    induction text with
    | nil => rfl
    | cons c text ih => rw [List.map_cons, Piece.join, ih, List.map_cons]
  have hread : ∀ text : List Char, (text.map some).mapM id = some text := by
    intro text
    induction text with
    | nil => rfl
    | cons c text ih =>
      rw [List.map_cons, List.mapM_cons, ih]
      rfl
  rw [Piece.text?, hjoin, hread, Option.map_some, String.ofList_toList]

theorem spells_text (s : String) : Spells (.text s) (quoted (some s)) := by
  have hspells := Spells.string (content_escape s.toList)
  rw [Piece.text?_char] at hspells
  exact hspells

theorem spells_nat (n : Nat) : Spells (.nat n) (Text.decimal n) := by
  have hplain : Text.decimal n = ['0'] ∨ (Text.decimal n).head? ≠ some '0' := by
    rcases Nat.eq_zero_or_pos n with rfl | hn
    · exact Or.inl rfl
    · exact Or.inr (Text.head_decimal_ne_zero hn)
  have hdigits : Digits (Text.decimal n) :=
    ⟨Text.decimal_ne_nil n, fun _ => Text.isDigit_of_mem_decimal⟩
  have hspells := Spells.number ⟨Or.inl rfl, hdigits, hplain, Or.inl rfl, Or.inl rfl⟩
  rw [List.nil_append, List.nil_append, List.append_nil] at hspells
  exact hspells

theorem gap_nil : Gap [] := by
  intro c hc
  cases hc

theorem gap_lineBreak (spread : Bool) (level : Nat) : Gap (lineBreak spread level) := by
  intro c hc
  unfold lineBreak at hc
  split at hc
  · rcases List.mem_cons.mp hc with rfl | hc
    · exact Or.inr (Or.inl rfl)
    · exact Or.inl (List.eq_of_mem_replicate hc)
  · cases hc

/-- A line break stands before each item of an array, and one behind the last. -/
theorem exists_items (spread : Bool) (level : Nat) {item : Json} {items : List Json}
    (h : ∀ i ∈ item :: items, Spells i (writeAt spread (level + 1) i)) :
    ∃ first laid, List.map Item.value (first :: laid) = item :: items ∧
      (∀ i ∈ first :: laid, i.Spaced) ∧ (∀ i ∈ first :: laid, Spells i.value i.text) ∧
      [','].intercalate (List.map Item.written (first :: laid)) =
        lineBreak spread (level + 1) ++ (writeAt spread (level + 1) item ++
          (writeItems spread (level + 1) items ++ lineBreak spread level)) := by
  induction items generalizing item with
  | nil =>
    let last : Item := ⟨item, lineBreak spread (level + 1), writeAt spread (level + 1) item,
      lineBreak spread level⟩
    have hspaced : last.Spaced := ⟨gap_lineBreak _ _, gap_lineBreak _ _⟩
    refine ⟨last, [], rfl, List.forall_mem_singleton.mpr hspaced,
      List.forall_mem_singleton.mpr (h item List.mem_cons_self), ?_⟩
    simp [last, Item.written, writeItems]
  | cons next items ih =>
    obtain ⟨hitem, hitems⟩ := List.forall_mem_cons.mp h
    obtain ⟨second, laid, hvalues, hspaced, hspells, htext⟩ := ih hitems
    let first : Item := ⟨item, lineBreak spread (level + 1), writeAt spread (level + 1) item, []⟩
    have hfirst : first.Spaced := ⟨gap_lineBreak _ _, gap_nil⟩
    refine ⟨first, second :: laid, ?_, List.forall_mem_cons.mpr ⟨hfirst, hspaced⟩,
      List.forall_mem_cons.mpr ⟨hitem, hspells⟩, ?_⟩
    · rw [List.map_cons, hvalues]
    · rw [List.map_cons, List.map_cons, List.intercalate_cons_cons, ← List.map_cons, htext]
      simp [first, Item.written, writeItems]

def keyed (members : List (String × Json)) : List (Option String × Json) :=
  members.map fun (key, value) => (some key, value)

def laidMember (spread : Bool) (level : Nat) (behind : List Char) (member : String × Json) :
    Member where
  before := lineBreak spread level
  key := member.1.toList.map .char
  name := member.1.toList.flatMap escape
  behind := []
  item := ⟨member.2, if spread then [' '] else [], writeAt spread level member.2, behind⟩

section LaidMember
variable (spread : Bool) (level : Nat) {behind : List Char} (member : String × Json)

theorem spaced_laidMember (h : Gap behind) : (laidMember spread level behind member).Spaced := by
  refine ⟨gap_lineBreak spread level, gap_nil, ?_, h⟩
  cases spread with
  | false => exact gap_nil
  | true => exact fun c hc => Or.inl (List.mem_singleton.mp hc)

theorem entry_laidMember :
    (laidMember spread level behind member).entry = (some member.1, member.2) := by
  rw [Member.entry, laidMember, Piece.text?_char]

theorem written_laidMember : (laidMember spread level behind member).written =
    lineBreak spread level ++ (writeMember spread level (some member.1, member.2) ++ behind) := by
  cases spread <;> simp [laidMember, Member.written, Item.written, writeMember, quoted, colon]

end LaidMember

theorem exists_members (spread : Bool) (level : Nat) {member : String × Json}
    {members : List (String × Json)}
    (h : ∀ m ∈ member :: members, Spells m.2 (writeAt spread (level + 1) m.2)) :
    ∃ first laid, List.map Member.entry (first :: laid) = keyed (member :: members) ∧
      (∀ m ∈ first :: laid, m.Spaced) ∧ (∀ m ∈ first :: laid, Content m.key m.name) ∧
      (∀ m ∈ first :: laid, Spells m.item.value m.item.text) ∧
      [','].intercalate (List.map Member.written (first :: laid)) =
        lineBreak spread (level + 1) ++
          (writeMember spread (level + 1) (some member.1, member.2) ++
            (writeMembers spread (level + 1) (keyed members) ++ lineBreak spread level)) := by
  induction members generalizing member with
  | nil =>
    refine ⟨laidMember spread (level + 1) (lineBreak spread level) member, [], ?_,
      List.forall_mem_singleton.mpr (spaced_laidMember _ _ _ (gap_lineBreak _ _)),
      List.forall_mem_singleton.mpr (content_escape _),
      List.forall_mem_singleton.mpr (h member List.mem_cons_self), ?_⟩
    · rw [List.map_singleton, entry_laidMember]
      rfl
    · simp [written_laidMember, keyed, writeMembers]
  | cons next members ih =>
    obtain ⟨hmember, hmembers⟩ := List.forall_mem_cons.mp h
    obtain ⟨second, laid, hentries, hspaced, hkeys, hspells, htext⟩ := ih hmembers
    refine ⟨laidMember spread (level + 1) [] member, second :: laid, ?_,
      List.forall_mem_cons.mpr ⟨spaced_laidMember _ _ _ gap_nil, hspaced⟩,
      List.forall_mem_cons.mpr ⟨content_escape _, hkeys⟩,
      List.forall_mem_cons.mpr ⟨hmember, hspells⟩, ?_⟩
    · rw [List.map_cons, hentries, entry_laidMember]
      rfl
    · rw [List.map_cons, List.map_cons, List.intercalate_cons_cons, ← List.map_cons, htext,
        written_laidMember]
      simp [keyed, writeMembers]

theorem spells_array (spread : Bool) (level : Nat) {items : List Json}
    (h : ∀ item ∈ items, Spells item (writeAt spread (level + 1) item)) :
    Spells (.array items) (writeAt spread level (.array items)) := by
  cases items with
  | nil => exact .emptyArray gap_nil
  | cons item items =>
    obtain ⟨first, laid, hvalues, hspaced, hspells, htext⟩ := exists_items spread level h
    have harray := Spells.array (List.cons_ne_nil first laid) hspaced hspells
    rw [hvalues, htext] at harray
    simpa only [writeAt, List.append_assoc] using harray

theorem spells_record (spread : Bool) (level : Nat) {members : List (String × Json)}
    (h : ∀ member ∈ members, Spells member.2 (writeAt spread (level + 1) member.2)) :
    Spells (.record members) (writeAt spread level (.record members)) := by
  cases members with
  | nil => exact .emptyObject gap_nil
  | cons member members =>
    obtain ⟨first, laid, hentries, hspaced, hkeys, hspells, htext⟩ := exists_members spread level h
    have hobject := Spells.object (List.cons_ne_nil first laid) hspaced hkeys hspells
    rw [hentries, htext] at hobject
    simpa only [record, keyed, List.map_cons, writeAt, List.append_assoc] using hobject

/-- What is written at any level spells the document. -/
theorem Plain.spells {json : Json} (h : Plain json) (spread : Bool) (level : Nat) :
    Spells json (writeAt spread level json) := by
  induction h generalizing level with
  | null => exact .null
  | bool value =>
    cases value with
    | true => exact .true
    | false => exact .false
  | nat n =>
    rw [Json.nat, writeAt, String.toList_ofList]
    exact spells_nat n
  | text s => exact spells_text s
  | array _ ih => exact spells_array spread level fun item hitem => ih item hitem (level + 1)
  | record _ ih =>
    exact spells_record spread level fun member hmember => ih member hmember (level + 1)

theorem Plain.document {json : Json} (h : Plain json) (spread : Bool) :
    Document json (writeAt spread 0 json) :=
  ⟨[], _, [], gap_nil, gap_nil, h.spells spread 0, (List.append_nil _).symm⟩

theorem Plain.ofText?_writeAt {json : Json} (h : Plain json) (spread : Bool) :
    ofText? (String.ofList (writeAt spread 0 json)) = some json := by
  rw [ofText?, String.toList_ofList]
  exact (h.document spread).read

/-- A plain document is read back from its spread form. -/
theorem Plain.ofText?_pretty {json : Json} (h : Plain json) : ofText? json.pretty = some json :=
  h.ofText?_writeAt true

end Json
end EvmInspect
