import EvmInspect.Descriptor
import EvmInspect.Signature.Lemmas

namespace EvmInspect

/-- A parameter whose printed form can be told from the list around it. The type is one word, its
parentheses match, and its commas stand inside them. The name, if any, has nothing to do with
lists. -/
structure Param.Printable (p : Param) : Prop where
  type_ne_nil : p.type.toList ≠ []
  type_unbroken : ∀ c ∈ p.type.toList, Text.isBlank c = false
  type_balanced : Text.Balanced p.type.toList
  type_commas : Text.CommasInside p.type.toList
  name_ne_nil : ∀ name ∈ p.name, name.toList ≠ []
  name_trimmed : ∀ name ∈ p.name, Text.Trimmed name.toList
  name_plain : ∀ name ∈ p.name, ∀ c ∈ name.toList, c ≠ '(' ∧ c ≠ ')' ∧ c ≠ ','

instance (p : Param) : Decidable p.Printable :=
  decidable_of_iff
    (p.type.toList ≠ [] ∧ p.type.toList.all (! Text.isBlank ·) = true ∧
      Text.Balanced p.type.toList ∧ Text.CommasInside p.type.toList ∧
      (∀ name ∈ p.name, name.toList ≠ []) ∧ (∀ name ∈ p.name, Text.Trimmed name.toList) ∧
      ∀ name ∈ p.name, name.toList.all (fun c => c ≠ '(' ∧ c ≠ ')' ∧ c ≠ ',') = true)
    ⟨fun ⟨hn, hu, hb, hc, hne, ht, hp⟩ =>
        ⟨hn, by simpa using hu, hb, hc, hne, ht, by simpa using hp⟩,
      fun ⟨hn, hu, hb, hc, hne, ht, hp⟩ =>
        ⟨hn, by simpa using hu, hb, hc, hne, ht, by simpa using hp⟩⟩

structure Signature.Printable (s : Signature) : Prop where
  name_plain : '(' ∉ s.name.toList
  name_trimmed : Text.Trimmed s.name.toList
  inputs : ∀ p ∈ s.inputs, p.Printable
  outputs : ∀ p ∈ s.outputs, p.Printable

instance (s : Signature) : Decidable s.Printable :=
  decidable_of_iff
    ('(' ∉ s.name.toList ∧ Text.Trimmed s.name.toList ∧ (∀ p ∈ s.inputs, p.Printable) ∧
      ∀ p ∈ s.outputs, p.Printable)
    ⟨fun ⟨hp, ht, hi, ho⟩ => ⟨hp, ht, hi, ho⟩, fun ⟨hp, ht, hi, ho⟩ => ⟨hp, ht, hi, ho⟩⟩

namespace Text

theorem entry_of_blank {gap : List Char} (h : ∀ c ∈ gap, isBlank c = true) : Entry gap := by
  refine entry_of_plain fun c hc => ⟨?_, ?_, ?_⟩ <;> rintro rfl <;>
    exact absurd (h _ hc) (by decide)

end Text

namespace Param

structure Piece (text : List Char) : Prop where
  entry : Text.Entry text
  trimmed : Text.Trimmed text
  ne_nil : text ≠ []

variable {p : Param} {params : List Param}

/-- Blanks behind the commas leave the parts of a list entries of it. -/
theorem Piece.entries {gap : List Char} (hgap : ∀ c ∈ gap, Text.isBlank c = true)
    {piece : List Char} {pieces : List (List Char)} (h : ∀ t ∈ piece :: pieces, Piece t) :
    ∀ e ∈ piece :: pieces.map (gap ++ ·), Text.Entry e := by
  intro e he
  rcases List.mem_cons.mp he with rfl | he
  · exact (h e List.mem_cons_self).entry
  · obtain ⟨t, ht, rfl⟩ := List.mem_map.mp he
    exact (Text.entry_of_blank hgap).append (h t (List.mem_cons_of_mem _ ht)).entry

theorem balanced_intercalate {gap : List Char} (hgap : ∀ c ∈ gap, Text.isBlank c = true)
    {pieces : List (List Char)} (h : ∀ t ∈ pieces, Piece t) :
    Text.Balanced ((',' :: gap).intercalate pieces) := by
  cases pieces with
  | nil => exact Text.opened?_nil 0
  | cons piece pieces =>
    rw [Text.intercalate_gap]
    exact Text.balanced_intercalate (Piece.entries hgap h)

/-- Pieces with commas between them, and blanks behind the commas, are read one by one. -/
theorem readList_intercalate {gap : List Char} (hgap : ∀ c ∈ gap, Text.isBlank c = true)
    {pieces : List (List Char)} (h : ∀ t ∈ pieces, Piece t) :
    readList ((',' :: gap).intercalate pieces) = pieces.map read := by
  cases pieces with
  | nil => rfl
  | cons piece pieces =>
    have htrim : ∀ t ∈ piece :: pieces, Text.trim t = t := fun t ht =>
      Text.trim_eq_self (h t ht).trimmed
    have hrest : (pieces.map (gap ++ ·)).map Text.trim = pieces := by
      rw [List.map_map]
      calc pieces.map (Text.trim ∘ (gap ++ ·)) = pieces.map id :=
            List.map_congr_left fun t ht =>
              (Text.trim_append hgap).trans (htrim t (List.mem_cons_of_mem _ ht))
        _ = pieces := List.map_id pieces
    have hkept : ∀ t ∈ piece :: pieces, decide (t ≠ []) = true := fun t ht =>
      decide_eq_true (h t ht).ne_nil
    rw [readList, Text.intercalate_gap,
      Text.splitTopLevel_intercalate (Piece.entries hgap h) (List.cons_ne_nil _ _),
      List.map_cons, hrest, htrim piece List.mem_cons_self, List.filter_eq_self.mpr hkept]

theorem Printable.not_mem_space (h : p.Printable) : ' ' ∉ p.type.toList := by
  intro hspace
  exact absurd (h.type_unbroken ' ' hspace) (by decide)

theorem Printable.entry (h : p.Printable) : Text.Entry p.type.toList :=
  ⟨h.type_balanced, h.type_commas⟩

theorem Printable.type_piece (h : p.Printable) : Piece p.type.toList :=
  ⟨h.entry, Text.trimmed_of_unbroken h.type_unbroken, h.type_ne_nil⟩

theorem toList_describeParam (p : Param) : (Descriptor.describeParam p).toList =
    p.type.toList ++ p.name.elim [] fun name => ' ' :: name.toList := by
  cases hn : p.name <;> simp [Descriptor.describeParam, hn]

theorem Printable.described_piece (h : p.Printable) :
    Piece (Descriptor.describeParam p).toList := by
  rw [toList_describeParam]
  cases hn : p.name with
  | none => simpa using h.type_piece
  | some name =>
    have hspace : Text.Entry [' '] := ⟨by decide, by decide⟩
    have hname := Text.entry_of_plain (h.name_plain name hn)
    exact ⟨h.entry.append (hspace.append hname),
      h.type_piece.trimmed.around (h.name_trimmed name hn) h.type_ne_nil (h.name_ne_nil name hn)
        [' '],
      by simp [h.type_ne_nil]⟩

theorem read_type (h : ' ' ∉ p.type.toList) : read p.type.toList = ⟨none, p.type⟩ := by
  rw [read, Text.around?_eq_none h, String.ofList_toList]

theorem Printable.read_describeParam (h : p.Printable) :
    read (Descriptor.describeParam p).toList = p := by
  rw [toList_describeParam]
  cases hn : p.name with
  | none =>
    rw [Option.elim_none, List.append_nil, read_type h.not_mem_space, ← hn]
  | some name =>
    rw [Option.elim_some, read, Text.around?_append h.not_mem_space]
    simp only [Text.trim_eq_self (h.name_trimmed name hn), if_neg (h.name_ne_nil name hn),
      String.ofList_toList, ← hn]

theorem toList_describeParams (params : List Param) : (Descriptor.describeParams params).toList =
    [',', ' '].intercalate (params.map fun p => (Descriptor.describeParam p).toList) := by
  simp [Descriptor.describeParams, Function.comp_def]

/-- The types with commas between them are read as parameters without names. -/
theorem readList_types (h : ∀ p ∈ params, Piece p.type.toList)
    (hspace : ∀ p ∈ params, ' ' ∉ p.type.toList) :
    Text.Balanced (Signature.typeList params).toList ∧
      readList (Signature.typeList params).toList = params.map fun p => ⟨none, p.type⟩ := by
  have hpieces : ∀ t ∈ params.map fun p => p.type.toList, Piece t := by
    intro t ht
    obtain ⟨p, hp, rfl⟩ := List.mem_map.mp ht
    exact h p hp
  rw [Signature.toList_typeList]
  refine ⟨balanced_intercalate (by simp) hpieces, ?_⟩
  rw [readList_intercalate (by simp) hpieces, List.map_map]
  exact List.map_congr_left fun p hp => read_type (hspace p hp)

theorem readList_describeParams (h : ∀ p ∈ params, p.Printable) :
    Text.Balanced (Descriptor.describeParams params).toList ∧
      readList (Descriptor.describeParams params).toList = params := by
  have hpieces : ∀ t ∈ params.map fun p => (Descriptor.describeParam p).toList, Piece t := by
    intro t ht
    obtain ⟨p, hp, rfl⟩ := List.mem_map.mp ht
    exact (h p hp).described_piece
  have hgap : ∀ c ∈ [' '], Text.isBlank c = true := List.forall_mem_singleton.mpr (by decide)
  rw [toList_describeParams]
  refine ⟨balanced_intercalate hgap hpieces, ?_⟩
  rw [readList_intercalate hgap hpieces, List.map_map]
  exact (List.map_congr_left fun p hp => (h p hp).read_describeParam).trans (List.map_id params)

end Param

namespace Signature

/-- A name, a list in parentheses and what follows it are told apart. -/
theorem read_append {name body rest : List Char} (hname : '(' ∉ name) (htrim : Text.Trimmed name)
    (hbody : Text.Balanced body) (hrest : Text.Trimmed (')' :: rest)) :
    read (name ++ '(' :: (body ++ ')' :: rest)) =
      ⟨String.ofList name, Param.readList body, readOutputs rest,
        String.ofList (name ++ '(' :: (body ++ ')' :: rest))⟩ := by
  have hopen : Text.Trimmed ['('] := by decide
  have hlist : Text.Trimmed ('(' :: (body ++ ')' :: rest)) :=
    hopen.around hrest (by simp) (by simp) body
  simp only [read, Text.trim_eq_self (htrim.append hlist), Text.around?_append hname,
    Text.listBody_append hbody, Text.trim_eq_self htrim]

def returnsClause (outputs : List Param) : String :=
  if outputs.isEmpty then "" else " returns (" ++ Descriptor.describeParams outputs ++ ")"

theorem toList_returnsClause {outputs : List Param} (h : outputs ≠ []) :
    (returnsClause outputs).toList =
      " returns (".toList ++ (Descriptor.describeParams outputs).toList ++ [')'] := by
  rw [returnsClause, if_neg (by simpa using h), String.toList_append, String.toList_append]
  rfl

theorem trimmed_returnsClause (outputs : List Param) :
    Text.Trimmed (')' :: (returnsClause outputs).toList) := by
  have hclose : Text.Trimmed [')'] := by decide
  by_cases h : outputs = []
  · rw [h]
    exact hclose
  · rw [toList_returnsClause h]
    exact hclose.around hclose (by simp) (by simp)
      (" returns (".toList ++ (Descriptor.describeParams outputs).toList)

theorem readOutputs_returnsClause {outputs : List Param} (h : ∀ p ∈ outputs, p.Printable) :
    readOutputs (returnsClause outputs).toList = outputs := by
  by_cases hne : outputs = []
  · rw [hne]
    rfl
  · obtain ⟨hbalanced, hread⟩ := Param.readList_describeParams h
    have hclause (list : List Char) : Text.after? ['r', 'e', 't', 'u', 'r', 'n', 's']
        (" returns (".toList ++ list) = some (' ' :: '(' :: list) := by
      simp [Text.after?, Text.dropStart?]
    have hlist (list : List Char) : Text.around? '(' (' ' :: '(' :: list) = some ([' '], list) := by
      simp [Text.around?]
    rw [toList_returnsClause hne, List.append_assoc]
    simp only [readOutputs, hclause, hlist, Text.listBody_append hbalanced, hread]

theorem toList_describe (s : Signature) : (Descriptor.parsed s).describe.toList =
    s.name.toList ++ '(' ::
      ((Descriptor.describeParams s.inputs).toList ++ ')' :: (returnsClause s.outputs).toList) := by
  have hdescribe : (Descriptor.parsed s).describe =
      s.name ++ "(" ++ Descriptor.describeParams s.inputs ++ ")" ++ returnsClause s.outputs ++ "" :=
    rfl
  simp [hdescribe]

/-- A canonical form is read as the name and the types that it was made of. -/
theorem ofText_canonicalForm {name : String} {inputs : List Param} (hname : '(' ∉ name.toList)
    (htrim : Text.Trimmed name.toList) (h : ∀ p ∈ inputs, Param.Piece p.type.toList)
    (hspace : ∀ p ∈ inputs, ' ' ∉ p.type.toList) :
    ofText (canonicalForm name inputs) =
      ⟨name, inputs.map fun p => ⟨none, p.type⟩, [], canonicalForm name inputs⟩ := by
  obtain ⟨hbalanced, hread⟩ := Param.readList_types h hspace
  rw [ofText, toList_canonicalForm, read_append hname htrim hbalanced (by decide),
    ← toList_canonicalForm, hread, String.ofList_toList, String.ofList_toList]
  rfl

/-- Reading what was printed gives back what it was printed from: from the described form all of
it, from the canonical form the name and the types of the inputs. -/
theorem ofText_describe {s : Signature} (h : s.Printable) :
    ofText (Descriptor.parsed s).describe =
        { s with raw := (Descriptor.parsed s).describe } ∧
      ofText (Descriptor.parsed s).canonical =
        { name := s.name, inputs := s.inputs.map fun p => ⟨none, p.type⟩, outputs := [],
          raw := (Descriptor.parsed s).canonical } := by
  constructor
  · obtain ⟨hbalanced, hread⟩ := Param.readList_describeParams h.inputs
    rw [ofText, toList_describe, read_append h.name_plain h.name_trimmed hbalanced
      (trimmed_returnsClause s.outputs), ← toList_describe, hread,
      readOutputs_returnsClause h.outputs, String.ofList_toList, String.ofList_toList]
  · exact ofText_canonicalForm h.name_plain h.name_trimmed
      (fun p hp => (h.inputs p hp).type_piece) fun p hp => (h.inputs p hp).not_mem_space

/-- A list of pairs, an input without a name and one whose name is two words. -/
def swapTokens : Signature where
  name := "swap"
  inputs := [⟨some "path", "(address,uint24)[]"⟩, ⟨none, "bytes"⟩, ⟨some "pay to", "address"⟩]
  outputs := [⟨some "amount", "uint256"⟩]
  raw := ""

theorem ofText_describe_swapTokens : swapTokens.Printable ∧
    (Descriptor.parsed swapTokens).describe =
      "swap((address,uint24)[] path, bytes, address pay to) returns (uint256 amount)" ∧
    (Descriptor.parsed swapTokens).canonical = "swap((address,uint24)[],bytes,address)" ∧
    ofText (Descriptor.parsed swapTokens).describe =
      { swapTokens with raw := (Descriptor.parsed swapTokens).describe } ∧
    ofText (Descriptor.parsed swapTokens).canonical =
      ⟨"swap", [⟨none, "(address,uint24)[]"⟩, ⟨none, "bytes"⟩, ⟨none, "address"⟩], [],
        (Descriptor.parsed swapTokens).canonical⟩ := by
  have hswap : swapTokens.Printable := by decide
  exact ⟨hswap, by decide, by decide, ofText_describe hswap⟩

end Signature
end EvmInspect
