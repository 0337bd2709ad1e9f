import EvmInspect.Proofs.Literals

namespace EvmInspect

namespace Json

namespace Reader

theorem closes_cons {c : Char} (h : continues c = false) (rest : List Glyph) :
    Closes (some c :: rest) := by
  intro d hd
  obtain rfl : c = d := Option.some.inj (Option.some.inj hd)
  exact h

theorem closes_gap {gap : List Char} (h : Gap gap) {rest : List Glyph} (closes : Closes rest) :
    Closes (gap.map some ++ rest) := by
  cases gap with
  | nil => exact closes
  | cons c gap =>
    apply closes_cons
    rcases h c List.mem_cons_self with rfl | rfl | rfl | rfl <;> rfl

theorem value?_gap {gap : List Char} (h : Gap gap) (fuel : Nat) (rest : List Glyph) :
    value? fuel (gap.map some ++ rest) = value? fuel rest := by
  cases fuel with
  | zero => rfl
  | succ fuel => rw [value?, value?, skipSpace_gap h]

theorem value?_string {fuel : Nat} {rest behind content : List Glyph}
    (h : string? rest = some (content, behind)) :
    value? (fuel + 1) (some '"' :: rest) = some (.string (text? content), behind) := by
  have hskip : skipSpace (some '"' :: rest) = some '"' :: rest := skipSpace_cons rfl rest
  simp only [value?, hskip, h, Option.map_some]

theorem not_isSpace_of_first {c : Char} (h : c = '-' ∨ c.isDigit = true) :
    isSpace (some c) = false := by
  have hne : ∀ d, d ≠ '-' → d.isDigit = false → c ≠ d := by
    rintro d hd hdigit rfl
    rcases h with h | h
    · exact hd h
    · rw [hdigit] at h
      cases h
  simp [isSpace, hne]

/-- Nothing else than a number begins with a digit or a minus sign. -/
theorem value?_number {fuel : Nat} {c : Char} (first : c = '-' ∨ c.isDigit = true)
    {rest behind : List Glyph} {spelled : List Char}
    (h : number? (some c :: rest) = some (spelled, behind)) :
    value? (fuel + 1) (some c :: rest) = some (.number (String.ofList spelled), behind) := by
  have hfirst : ∀ d : Char, d ≠ '-' → d.isDigit = false → ∀ behind,
      some c :: rest ≠ some d :: behind := by
    intro d hd hdigit behind heq
    obtain rfl := Option.some.inj (List.cons.inj heq).1
    rcases first with first | first
    · exact hd first
    · rw [hdigit] at first
      cases first
  rw [value?, skipSpace_cons (not_isSpace_of_first first)]
  split
  case h_7 => rw [h, Option.map_some]
  all_goals
    rename_i heq
    exact absurd heq (hfirst _ (by decide) rfl _)

theorem value?_emptyArray {fuel : Nat} {rest behind : List Glyph}
    (h : skipSpace rest = some ']' :: behind) :
    value? (fuel + 1) (some '[' :: rest) = some (.array [], behind) := by
  have hskip : skipSpace (some '[' :: rest) = some '[' :: rest := skipSpace_cons rfl rest
  simp only [value?, hskip, h]

theorem value?_array {fuel : Nat} {rest behind : List Glyph} {items : List Json}
    (going : ∀ behind, skipSpace rest ≠ some ']' :: behind)
    (h : items? fuel rest = some (items, behind)) :
    value? (fuel + 1) (some '[' :: rest) = some (.array items, behind) := by
  have hskip : skipSpace (some '[' :: rest) = some '[' :: rest := skipSpace_cons rfl rest
  simp only [value?, hskip, h, Option.map_some]

theorem value?_emptyObject {fuel : Nat} {rest behind : List Glyph}
    (h : skipSpace rest = some '\x7d' :: behind) :
    value? (fuel + 1) (some '\x7b' :: rest) = some (.object [], behind) := by
  have hskip : skipSpace (some '\x7b' :: rest) = some '\x7b' :: rest := skipSpace_cons rfl rest
  simp only [value?, hskip, h]

theorem value?_object {fuel : Nat} {rest behind : List Glyph}
    {members : List (Option String × Json)}
    (going : ∀ behind, skipSpace rest ≠ some '\x7d' :: behind)
    (h : members? fuel rest = some (members, behind)) :
    value? (fuel + 1) (some '\x7b' :: rest) = some (.object members, behind) := by
  have hskip : skipSpace (some '\x7b' :: rest) = some '\x7b' :: rest := skipSpace_cons rfl rest
  simp only [value?, hskip, h, Option.map_some]

theorem items?_more {fuel : Nat} {input more rest behind : List Glyph} {item : Json}
    {items : List Json} (first : value? fuel input = some (item, more))
    (comma : skipSpace more = some ',' :: rest) (others : items? fuel rest = some (items, behind)) :
    items? (fuel + 1) input = some (item :: items, behind) := by
  simp only [items?, first, comma, others, Option.bind_eq_bind, Option.bind_some, Option.map_some]

theorem items?_last {fuel : Nat} {input more rest : List Glyph} {item : Json}
    (first : value? fuel input = some (item, more)) (last : skipSpace more = some ']' :: rest) :
    items? (fuel + 1) input = some ([item], rest) := by
  simp only [items?, first, last, Option.bind_eq_bind, Option.bind_some]

structure MemberAt (fuel : Nat) (input : List Glyph) (member : Option String × Json)
    (more : List Glyph) : Prop where
  member : ∃ content spelled colon behind, skipSpace input = some '"' :: spelled ∧
    string? spelled = some (content, colon) ∧ skipSpace colon = some ':' :: behind ∧
    value? fuel behind = some (member.2, more) ∧ text? content = member.1

theorem members?_more {fuel : Nat} {input more rest behind : List Glyph}
    {member : Option String × Json} {members : List (Option String × Json)}
    (first : MemberAt fuel input member more) (comma : skipSpace more = some ',' :: rest)
    (others : members? fuel rest = some (members, behind)) :
    members? (fuel + 1) input = some (member :: members, behind) := by
  obtain ⟨content, spelled, colon, behind, hquote, hkey, hcolon, hvalue, htext⟩ := first.member
  simp only [members?, hquote, hkey, hcolon, hvalue, htext, comma, others, Option.bind_eq_bind,
    Option.bind_some, Option.map_some]

theorem members?_last {fuel : Nat} {input more rest : List Glyph}
    {member : Option String × Json} (first : MemberAt fuel input member more)
    (last : skipSpace more = some '\x7d' :: rest) :
    members? (fuel + 1) input = some ([member], rest) := by
  obtain ⟨content, spelled, colon, behind, hquote, hkey, hcolon, hvalue, htext⟩ := first.member
  simp only [members?, hquote, hkey, hcolon, hvalue, htext, last, Option.bind_eq_bind,
    Option.bind_some]

/-- The document is read from the text, up to what follows it. -/
structure Reads (json : Json) (text : List Char) : Prop where
  begins : ∃ c more, text = c :: more ∧ isSpace (some c) = false ∧ c ≠ ']'
  value : ∀ rest fuel, Closes rest → 2 * text.length ≤ fuel →
    value? fuel (text.map some ++ rest) = some (json, rest)

theorem reads_word {json : Json} {c : Char} {more : List Char} (hspace : isSpace (some c) = false)
    (hbracket : c ≠ ']')
    (hread : ∀ fuel rest, value? (fuel + 1) (some c :: (more.map some ++ rest)) =
      some (json, rest)) : Reads json (c :: more) := by
  refine ⟨⟨c, more, rfl, hspace, hbracket⟩, ?_⟩
  intro rest fuel _ enough
  rw [List.length_cons] at enough
  obtain ⟨fuel, rfl⟩ := Nat.exists_eq_add_one_of_ne_zero (by omega : fuel ≠ 0)
  exact hread fuel rest

theorem reads_number {sign whole fraction exponent : List Char}
    (h : Numeral sign whole fraction exponent) :
    Reads (.number (String.ofList (sign ++ (whole ++ (fraction ++ exponent)))))
      (sign ++ (whole ++ (fraction ++ exponent))) := by
  obtain ⟨c, more, hnumber, hfirst⟩ := exists_first_of_numeral h
  have hspace := not_isSpace_of_first hfirst
  constructor
  case begins =>
    refine ⟨c, more, hnumber, hspace, ?_⟩
    rintro rfl
    exact absurd hfirst (by decide)
  case value =>
    intro rest fuel closes enough
    have hread := number?_numeral h closes
    rw [hnumber] at hread enough ⊢
    rw [List.length_cons] at enough
    obtain ⟨fuel, rfl⟩ := Nat.exists_eq_add_one_of_ne_zero (by omega : fuel ≠ 0)
    exact value?_number hfirst hread

theorem reads_string {pieces : List Piece} {text : List Char} (h : Content pieces text) :
    Reads (.string (Piece.text? pieces)) ('"' :: (text ++ ['"'])) := by
  apply reads_word rfl (by decide)
  intro fuel rest
  rw [List.map_append, List.append_assoc]
  exact value?_string (string?_content h rest)

theorem reads_emptyArray {gap : List Char} (h : Gap gap) :
    Reads (.array []) ('[' :: (gap ++ [']'])) := by
  apply reads_word rfl (by decide)
  intro fuel rest
  apply value?_emptyArray
  rw [List.map_append, List.append_assoc, skipSpace_gap h]
  exact skipSpace_cons rfl rest

theorem reads_emptyObject {gap : List Char} (h : Gap gap) :
    Reads (.object []) ('\x7b' :: (gap ++ ['\x7d'])) := by
  apply reads_word rfl (by decide)
  intro fuel rest
  apply value?_emptyObject
  rw [List.map_append, List.append_assoc, skipSpace_gap h]
  exact skipSpace_cons rfl rest

theorem value?_written {item : Item} (spaced : item.Spaced) (reads : Reads item.value item.text)
    {c : Char} (hc : continues c = false) (rest : List Glyph) {fuel : Nat}
    (enough : 2 * item.text.length ≤ fuel) :
    value? fuel (item.written.map some ++ some c :: rest) =
      some (item.value, item.behind.map some ++ some c :: rest) := by
  rw [Item.written, List.map_append, List.append_assoc, value?_gap spaced.before, List.map_append,
    List.append_assoc]
  exact reads.value _ fuel (closes_gap spaced.behind (closes_cons hc rest)) enough

theorem length_written (item : Item) : item.text.length ≤ item.written.length := by
  simp only [Item.written, List.length_append]
  omega

theorem items?_written {item : Item} {items : List Item}
    (spaced : ∀ i ∈ item :: items, i.Spaced) (reads : ∀ i ∈ item :: items, Reads i.value i.text)
    (rest : List Glyph) {fuel : Nat}
    (enough : 2 * ([','].intercalate ((item :: items).map Item.written)).length + 1 ≤ fuel) :
    items? fuel (([','].intercalate ((item :: items).map Item.written)).map some ++
        some ']' :: rest) = some ((item :: items).map Item.value, rest) := by
  -- each item costs a unit of fuel and makes the text shorter by itself and by the comma behind it
  obtain ⟨fuel, rfl⟩ := Nat.exists_eq_add_one_of_ne_zero (by omega : fuel ≠ 0)
  induction items generalizing item fuel with
  | nil =>
    have hlength := length_written item
    rw [List.map_singleton, List.intercalate_singleton] at enough ⊢
    have hspaced := spaced item List.mem_cons_self
    apply items?_last (value?_written hspaced (reads item List.mem_cons_self) (by rfl) rest
      (by omega))
    rw [skipSpace_gap hspaced.behind]
    exact skipSpace_cons rfl rest
  | cons next items ih =>
    have hlength := length_written item
    have htext : [','].intercalate ((item :: next :: items).map Item.written) =
        item.written ++ ',' :: [','].intercalate ((next :: items).map Item.written) := by
      simp [List.intercalate_cons_cons]
    rw [htext] at enough ⊢
    rw [List.length_append, List.length_cons] at enough
    obtain ⟨fuel, rfl⟩ := Nat.exists_eq_add_one_of_ne_zero (by omega : fuel ≠ 0)
    have hspaced := spaced item List.mem_cons_self
    rw [List.map_append, List.append_assoc]
    refine items?_more (value?_written hspaced (reads item List.mem_cons_self) (by rfl) _
      (by omega)) ?_ (ih (fun i hi => spaced i (List.mem_cons_of_mem _ hi))
        (fun i hi => reads i (List.mem_cons_of_mem _ hi)) fuel (by omega))
    rw [skipSpace_gap hspaced.behind]
    exact skipSpace_cons rfl _

theorem reads_array {items : List Item} (ne : items ≠ []) (spaced : ∀ i ∈ items, i.Spaced)
    (reads : ∀ i ∈ items, Reads i.value i.text) :
    Reads (.array (items.map Item.value))
      ('[' :: ([','].intercalate (items.map Item.written) ++ [']'])) := by
  obtain ⟨item, items, rfl⟩ := List.exists_cons_of_ne_nil ne
  refine ⟨⟨'[', _, rfl, rfl, by decide⟩, ?_⟩
  intro rest fuel _ enough
  rw [List.length_cons, List.length_append] at enough
  obtain ⟨fuel, rfl⟩ := Nat.exists_eq_add_one_of_ne_zero (by omega : fuel ≠ 0)
  rw [List.map_cons, List.cons_append, List.map_append, List.append_assoc]
  refine value?_array ?_ (items?_written spaced reads rest (by omega))
  intro behind heq
  obtain ⟨c, more, htext, hspace, hbracket⟩ := (reads item List.mem_cons_self).begins
  obtain ⟨tail, hstart⟩ : ∃ tail, [','].intercalate ((item :: items).map Item.written) =
      item.before ++ c :: tail := by
    cases items with
    | nil => exact ⟨more ++ item.behind, by simp [Item.written, htext]⟩
    | cons next items => exact ⟨_, by simp [Item.written, htext, List.intercalate_cons_cons]; rfl⟩
  rw [hstart, List.map_append, List.append_assoc,
    skipSpace_gap (spaced item List.mem_cons_self).before] at heq
  obtain ⟨hfirst, _⟩ := List.cons.inj ((skipSpace_cons hspace _).symm.trans heq)
  exact hbracket (Option.some.inj hfirst)

theorem memberAt_written {member : Member} (spaced : member.Spaced)
    (key : Content member.key member.name) (reads : Reads member.item.value member.item.text)
    {c : Char} (hc : continues c = false) (rest : List Glyph) {fuel : Nat}
    (enough : 2 * member.item.text.length ≤ fuel) :
    MemberAt fuel (member.written.map some ++ some c :: rest) member.entry
      (member.item.behind.map some ++ some c :: rest) := by
  have hvalue := value?_written spaced.item reads hc rest enough
  have hcolon : skipSpace (member.behind.map some ++
      some ':' :: (member.item.written.map some ++ some c :: rest)) =
        some ':' :: (member.item.written.map some ++ some c :: rest) := by
    rw [skipSpace_gap spaced.behind]
    exact skipSpace_cons rfl _
  have hkey := string?_content key (member.behind.map some ++
    some ':' :: (member.item.written.map some ++ some c :: rest))
  have htext : member.written.map some ++ some c :: rest = member.before.map some ++
      some '"' :: (member.name.map some ++ some '"' :: (member.behind.map some ++
        some ':' :: (member.item.written.map some ++ some c :: rest))) := by
    simp [Member.written]
  refine ⟨_, _, _, _, ?_, hkey, hcolon, hvalue, rfl⟩
  rw [htext, skipSpace_gap spaced.before]
  exact skipSpace_cons rfl _

theorem length_member_written (member : Member) :
    member.item.text.length ≤ member.written.length := by
  have hitem := length_written member.item
  simp only [Member.written, List.length_append, List.length_cons]
  omega

theorem members?_written {member : Member} {members : List Member}
    (spaced : ∀ m ∈ member :: members, m.Spaced)
    (keys : ∀ m ∈ member :: members, Content m.key m.name)
    (reads : ∀ m ∈ member :: members, Reads m.item.value m.item.text) (rest : List Glyph)
    {fuel : Nat}
    (enough : 2 * ([','].intercalate ((member :: members).map Member.written)).length + 1 ≤ fuel) :
    members? fuel (([','].intercalate ((member :: members).map Member.written)).map some ++
        some '\x7d' :: rest) = some ((member :: members).map Member.entry, rest) := by
  obtain ⟨fuel, rfl⟩ := Nat.exists_eq_add_one_of_ne_zero (by omega : fuel ≠ 0)
  induction members generalizing member fuel with
  | nil =>
    have hlength := length_member_written member
    rw [List.map_singleton, List.intercalate_singleton] at enough ⊢
    have hspaced := spaced member List.mem_cons_self
    apply members?_last (memberAt_written hspaced (keys member List.mem_cons_self)
      (reads member List.mem_cons_self) (by rfl) rest (by omega))
    rw [skipSpace_gap hspaced.item.behind]
    exact skipSpace_cons rfl rest
  | cons next members ih =>
    have hlength := length_member_written member
    have htext : [','].intercalate ((member :: next :: members).map Member.written) =
        member.written ++ ',' :: [','].intercalate ((next :: members).map Member.written) := by
      simp [List.intercalate_cons_cons]
    rw [htext] at enough ⊢
    rw [List.length_append, List.length_cons] at enough
    obtain ⟨fuel, rfl⟩ := Nat.exists_eq_add_one_of_ne_zero (by omega : fuel ≠ 0)
    have hspaced := spaced member List.mem_cons_self
    rw [List.map_append, List.append_assoc]
    refine members?_more (memberAt_written hspaced (keys member List.mem_cons_self)
      (reads member List.mem_cons_self) (by rfl) _ (by omega)) ?_
      (ih (fun m hm => spaced m (List.mem_cons_of_mem _ hm))
        (fun m hm => keys m (List.mem_cons_of_mem _ hm))
        (fun m hm => reads m (List.mem_cons_of_mem _ hm)) fuel (by omega))
    rw [skipSpace_gap hspaced.item.behind]
    exact skipSpace_cons rfl _

theorem reads_object {members : List Member} (ne : members ≠ []) (spaced : ∀ m ∈ members, m.Spaced)
    (keys : ∀ m ∈ members, Content m.key m.name)
    (reads : ∀ m ∈ members, Reads m.item.value m.item.text) :
    Reads (.object (members.map Member.entry))
      ('\x7b' :: ([','].intercalate (members.map Member.written) ++ ['\x7d'])) := by
  obtain ⟨member, members, rfl⟩ := List.exists_cons_of_ne_nil ne
  refine ⟨⟨'\x7b', _, rfl, rfl, by decide⟩, ?_⟩
  intro rest fuel _ enough
  rw [List.length_cons, List.length_append] at enough
  obtain ⟨fuel, rfl⟩ := Nat.exists_eq_add_one_of_ne_zero (by omega : fuel ≠ 0)
  rw [List.map_cons, List.cons_append, List.map_append, List.append_assoc]
  refine value?_object ?_ (members?_written spaced keys reads rest (by omega))
  intro behind heq
  obtain ⟨tail, hstart⟩ : ∃ tail, [','].intercalate ((member :: members).map Member.written) =
      member.before ++ '"' :: tail := by
    cases members with
    | nil => exact ⟨_, by simp [Member.written]; rfl⟩
    | cons next members => exact ⟨_, by simp [Member.written, List.intercalate_cons_cons]; rfl⟩
  rw [hstart, List.map_append, List.append_assoc,
    skipSpace_gap (spaced member List.mem_cons_self).before] at heq
  obtain ⟨hfirst, _⟩ := List.cons.inj ((skipSpace_cons rfl _).symm.trans heq)
  exact absurd (Option.some.inj hfirst) (by decide)

end Reader

open Reader

/-- Every text that spells a document is read as the document. -/
theorem Spells.reads {json : Json} {text : List Char} (h : Spells json text) : Reads json text := by
  induction h with
  | null => exact reads_word rfl (by decide) fun _ _ => rfl
  | true => exact reads_word rfl (by decide) fun _ _ => rfl
  | false => exact reads_word rfl (by decide) fun _ _ => rfl
  | number numeral => exact reads_number numeral
  | string content => exact reads_string content
  | emptyArray hgap => exact reads_emptyArray hgap
  | array ne spaced _ ih => exact reads_array ne spaced ih
  | emptyObject hgap => exact reads_emptyObject hgap
  | object ne spaced keys _ ih => exact reads_object ne spaced keys ih

theorem Document.ne_blank {json : Json} {text : List Char} (h : Document json text) :
    skipSpace (text.map some) ≠ [] := by
  obtain ⟨before, core, behind, hbefore, _, hspells, rfl⟩ := h
  obtain ⟨c, more, rfl, hspace, _⟩ := hspells.reads.begins
  rw [List.map_append, skipSpace_gap hbefore, List.cons_append, List.map_cons,
    skipSpace_cons hspace]
  exact List.cons_ne_nil _ _

theorem Document.read {json : Json} {text : List Char} (h : Document json text) :
    read? (text.map some) = some json := by
  obtain ⟨before, core, behind, hbefore, hbehind, hspells, rfl⟩ := h
  have hend : Closes [] := by
    intro c hc
    cases hc
  have hclosed := closes_gap hbehind hend
  have hspace := skipSpace_gap hbehind []
  rw [List.append_nil] at hclosed hspace
  have hvalue := hspells.reads.value (behind.map some)
    (2 * ((before ++ (core ++ behind)).map some).length + 2) hclosed
    (by simp only [List.length_map, List.length_append]; omega)
  rw [← value?_gap hbefore, ← List.map_append, ← List.map_append] at hvalue
  rw [read?, hvalue]
  change (if (skipSpace (behind.map some)).isEmpty then some json else none) = some json
  rw [hspace]
  rfl

end Json
end EvmInspect
