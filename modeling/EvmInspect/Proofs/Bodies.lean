import EvmInspect.Proofs.Gathering
import EvmInspect.Proofs.Writing
import EvmInspect.Text.Utf8.Lemmas

namespace EvmInspect

namespace Json

def Lacks (name : String) (members : List (Option String × Json)) : Prop :=
  ∀ member ∈ members, ∃ key, member.1 = some key ∧ key ≠ name

/-- One member has the name; the keys of the members around it are texts, and other ones. -/
def Carries (name : String) (value : Json) (members : List (Option String × Json)) : Prop :=
  ∃ before after, members = before ++ (some name, value) :: after ∧ Lacks name before ∧
    Lacks name after

section Members
variable {name : String} {value : Json} {members : List (Option String × Json)}

theorem Lacks.filter (h : Lacks name members) :
    (members.filter fun member => member.1 == some name) = [] := by
  rw [List.filter_eq_nil_iff]
  intro member hmember heq
  obtain ⟨key, hkey, hne⟩ := h member hmember
  rw [hkey] at heq
  exact hne (Option.some.inj (eq_of_beq heq))

theorem Lacks.lookup (h : Lacks name members) : lookup name members = .absent := by
  rw [Json.lookup, h.filter]

theorem Lacks.keysAreText (h : Lacks name members) : keysAreText members = true := by
  rw [Json.keysAreText, List.all_eq_true]
  intro member hmember
  obtain ⟨key, hkey, _⟩ := h member hmember
  rw [hkey]
  rfl

theorem Carries.lookup (h : Carries name value members) : lookup name members = .once value := by
  obtain ⟨before, after, rfl, hbefore, hafter⟩ := h
  rw [Json.lookup, List.filter_append, hbefore.filter, List.filter_cons_of_pos (by simp),
    hafter.filter, List.nil_append]

theorem Carries.keysAreText (h : Carries name value members) : keysAreText members = true := by
  obtain ⟨before, after, rfl, hbefore, hafter⟩ := h
  have hkeys := hbefore.keysAreText
  have hothers := hafter.keysAreText
  rw [Json.keysAreText] at hkeys hothers ⊢
  rw [List.all_append, List.all_cons, hkeys, hothers]
  rfl

theorem mem_of_lookup_eq_once (h : lookup name members = .once value) :
    (some name, value) ∈ members := by
  unfold Json.lookup at h
  split at h
  · cases h
  · rename_i member hfilter
    cases h
    have hmem : member ∈ members.filter fun member => member.1 == some name := by
      rw [hfilter]
      exact List.mem_singleton_self member
    obtain ⟨hmember, hname⟩ := List.mem_filter.mp hmem
    rw [← eq_of_beq hname]
    exact hmember
  · cases h

/-- A name that is there is found, unless it is there more than once. -/
theorem lookup_of_mem (h : (some name, value) ∈ members) :
    lookup name members = .once value ∨ lookup name members = .repeated := by
  have hmem : (some name, value) ∈ members.filter fun member => member.1 == some name :=
    List.mem_filter.mpr ⟨h, beq_self_eq_true _⟩
  unfold Json.lookup
  split
  · rename_i hfilter
    rw [hfilter] at hmem
    cases hmem
  · rename_i member hfilter
    rw [hfilter, List.mem_singleton] at hmem
    rw [← hmem]
    exact Or.inl rfl
  · exact Or.inr rfl

end Members

end Json

namespace Directory

def Record (signature : String) (record : Json) : Prop :=
  ∃ members, record = .object members ∧ Json.Carries "text_signature" (.text signature) members

/-- An answer whose results are one record for each of the signatures. -/
def Listing (found : List String) (answer : Json) : Prop :=
  ∃ members records, answer = .object members ∧
    Json.Carries "results" (.array records) members ∧ List.Forall₂ Record found records

def Resultless (answer : Json) : Prop :=
  ∃ members, answer = .object members ∧ Json.Lacks "results" members

def Unsigned (record : Json) : Prop :=
  ∃ members, record = .object members ∧ ∀ text, (some "text_signature", .text text) ∉ members

/-- An answer with an unsigned record among its results. -/
def Spoilt (answer : Json) : Prop :=
  ∃ members records, answer = .object members ∧ (some "results", .array records) ∈ members ∧
    ∃ record ∈ records, Unsigned record

theorem Record.recordSignature? {signature : String} {record : Json} (h : Record signature record) :
    recordSignature? record = some signature := by
  obtain ⟨members, rfl, hcarries⟩ := h
  simp only [Directory.recordSignature?, hcarries.keysAreText, hcarries.lookup, if_true]
  rfl

theorem Unsigned.recordSignature? {record : Json} (h : Unsigned record) :
    recordSignature? record = none := by
  obtain ⟨members, rfl, hunsigned⟩ := h
  unfold Directory.recordSignature?
  dsimp only
  split
  · split
    · rename_i value hlookup
      cases value with
      | string text =>
        cases text with
        | none => rfl
        | some text => exact absurd (Json.mem_of_lookup_eq_once hlookup) (hunsigned text)
      | _ => rfl
    · rfl
  · rfl

theorem recordSignatures?_of_forall₂ {found : List String} {records : List Json}
    (h : List.Forall₂ Record found records) : recordSignatures? (.array records) = some found := by
  induction h with
  | nil => rfl
  | cons hfirst _ ih =>
    rw [recordSignatures?] at ih ⊢
    rw [List.mapM_cons, hfirst.recordSignature?, ih]
    rfl

/-- One unsigned record is enough for the others to be given up. -/
theorem recordSignatures?_of_unsigned {records : List Json} {record : Json}
    (hmem : record ∈ records) (h : Unsigned record) :
    recordSignatures? (.array records) = none := by
  rw [recordSignatures?]
  induction records with
  | nil => cases hmem
  | cons first records ih =>
    rw [List.mapM_cons]
    rcases List.mem_cons.mp hmem with rfl | hmem
    · rw [h.recordSignature?]
      rfl
    · rw [ih hmem]
      cases recordSignature? first <;> rfl

theorem Listing.answerSignatures? {found : List String} {answer : Json} (h : Listing found answer) :
    answerSignatures? answer = some found := by
  obtain ⟨members, records, rfl, hcarries, hrecords⟩ := h
  simp only [Directory.answerSignatures?, hcarries.keysAreText, hcarries.lookup, if_true,
    recordSignatures?_of_forall₂ hrecords]

theorem Resultless.answerSignatures? {answer : Json} (h : Resultless answer) :
    answerSignatures? answer = some [] := by
  obtain ⟨members, rfl, hlacks⟩ := h
  simp only [Directory.answerSignatures?, hlacks.keysAreText, hlacks.lookup, if_true]

theorem Spoilt.answerSignatures? {answer : Json} (h : Spoilt answer) :
    answerSignatures? answer = none := by
  obtain ⟨members, records, rfl, hresults, record, hrecord, hunsigned⟩ := h
  rw [Directory.answerSignatures?]
  split
  · rcases Json.lookup_of_mem hresults with hlookup | hlookup
    · simp only [hlookup, recordSignatures?_of_unsigned hrecord hunsigned]
    · simp only [hlookup]
  · rfl

/-- Only what the document says matters, not how it is spelled. -/
theorem signatures_encode {answer : Json} {text : List Char} (h : Json.Document answer text) :
    signatures (Text.Utf8.encode text) =
      match answerSignatures? answer with
      | some found => .ok found
      | none => .error .malformed := by
  simp only [signatures, Text.Utf8.decodeWithGaps_encode, h.read, Option.bind_eq_bind,
    Option.bind_some, List.isEmpty_eq_false_iff.mpr h.ne_blank]
  rfl

/-- Every spelling of a listing gives its signatures in their order. One of a spoilt answer is an
error, and a session that gets it keeps the empty list for the selector. -/
theorem signatures_document {answer : Json} {text : List Char} (h : Json.Document answer text) :
    (∀ found, Listing found answer → signatures (Text.Utf8.encode text) = .ok found) ∧
    (Resultless answer → signatures (Text.Utf8.encode text) = .ok []) ∧
    (Spoilt answer → signatures (Text.Utf8.encode text) = .error .malformed ∧
      ∀ (config : Config) (fetch : String → Except ResolverError Bytes) (s : Selector)
        (session : Session Unit), fetch (config.queryUrl s) = .ok (Text.Utf8.encode text) →
        session.cache.known? s = none →
        (Resolver.directory config fetch s session.memory).outcome = .error (.body .malformed) ∧
        ∃ later, session.resolve (Resolver.directory config fetch) s = ([], later) ∧
          later.cache.learned = session.cache.learned ++ [(s, [])] ∧
          later.cache.known? s = some [] ∧
          later.resolve (Resolver.directory config fetch) s = ([], later)) := by
  have hbody := signatures_encode h
  refine ⟨?_, ?_, ?_⟩
  · intro found hlisting
    rw [hbody, hlisting.answerSignatures?]
  · intro hresultless
    rw [hbody, hresultless.answerSignatures?]
  · intro hspoilt
    rw [hspoilt.answerSignatures?] at hbody
    refine ⟨hbody, ?_⟩
    intro config fetch s session hfetch hunknown
    have houtcome : (Resolver.directory config fetch s session.memory).outcome =
        .error (.body .malformed) := by
      simp only [Resolver.directory, hfetch, hbody]
      rfl
    have hnone : (Resolver.directory config fetch s session.memory).candidates = [] := by
      rw [Reply.candidates, houtcome]
    have hresolve : session.resolve (Resolver.directory config fetch) s = _ :=
      Session.resolve_unknown hunknown
    have hknown : (session.resolve (Resolver.directory config fetch) s).2.cache.known? s = _ :=
      session.known?_resolve s
    rw [hnone] at hresolve
    rw [hresolve] at hknown
    exact ⟨houtcome, _, hresolve, rfl, hknown, Session.resolve_known hknown⟩

/-- The members of a record whose signature is spelled with escapes, behind a string that is no
text. -/
def escapedMembers : List Json.Member :=
  [⟨[], [.char 'i', .char 'd'], ['i', 'd'], [], ⟨.string none, [], Json.quoted none, []⟩⟩,
    ⟨['\n'], "text_signature".toList.map .char, "text_signature".toList, ['\t'],
      ⟨.text "a/😀", [' '], "\"\\u0061\\/\\uD83D\\ude00\"".toList, [' ']⟩⟩]

def escapedRecord : Json.Item where
  value := .object (escapedMembers.map Json.Member.entry)
  before := []
  text := '\x7b' :: ([','].intercalate (escapedMembers.map Json.Member.written) ++ ['\x7d'])
  behind := []

theorem spells_escapedRecord : Json.Spells escapedRecord.value escapedRecord.text := by
  have hdigit : ∀ v < 16, Json.HexDigit v (Nat.digitChar v) := fun v hv => ⟨hv, Or.inl rfl⟩
  have hletter : Json.CodeUnit 'a'.toNat ['0', '0', '6', '1'] :=
    .digits (hdigit 0 (by decide)) (hdigit 0 (by decide)) (hdigit 6 (by decide))
      (hdigit 1 (by decide))
  have hcapital : Json.HexDigit 13 'D' := ⟨by decide, Or.inr (by decide)⟩
  have hhigh : Json.CodeUnit 0xd83d ['D', '8', '3', 'D'] :=
    .digits hcapital (hdigit 8 (by decide)) (hdigit 3 (by decide)) hcapital
  have hlow : Json.CodeUnit 0xde00 ['d', 'e', '0', '0'] :=
    .digits (hdigit 13 (by decide)) (hdigit 14 (by decide)) (hdigit 0 (by decide))
      (hdigit 0 (by decide))
  have hlone : Json.CodeUnit 0xd800 ['d', '8', '0', '0'] :=
    .digits (hdigit 13 (by decide)) (hdigit 8 (by decide)) (hdigit 0 (by decide))
      (hdigit 0 (by decide))
  have hslash : Json.Piece.Written (.char '/') ['\\', '/'] := .short (by decide)
  have hid : Json.Spells (.string none) (Json.quoted none) :=
    .string (.cons (.half hlone (by decide) (by decide)) .nil)
  have hsignature : Json.Spells (.text "a/😀") "\"\\u0061\\/\\uD83D\\ude00\"".toList :=
    .string (.cons (.number hletter) (.cons hslash (.cons (.half hhigh (by decide) (by decide))
      (.cons (.half hlow (by decide) (by decide)) .nil))))
  apply Json.Spells.object
  case ne => exact List.cons_ne_nil _ _
  case spaced =>
    exact List.forall_mem_cons.mpr ⟨⟨by decide, by decide, by decide, by decide⟩,
      List.forall_mem_singleton.mpr ⟨by decide, by decide, by decide, by decide⟩⟩
  case keys =>
    exact List.forall_mem_cons.mpr ⟨Json.content_escape ['i', 'd'],
      List.forall_mem_singleton.mpr (Json.content_escape "text_signature".toList)⟩
  case values => exact List.forall_mem_cons.mpr ⟨hid, List.forall_mem_singleton.mpr hsignature⟩

theorem document_escaped : Json.Document
    (.object [(some "results", .array [escapedRecord.value]), (some "next", .null)])
    ("\x7b\"results\": [\x7b\"id\":\"\\ud800\",\n\"text_signature\"\t: " ++
      "\"\\u0061\\/\\uD83D\\ude00\" \x7d] ,\"next\":null\x7d\n").toList := by
  have hrecords := Json.Spells.array (List.cons_ne_nil escapedRecord [])
    (List.forall_mem_singleton.mpr ⟨by decide, by decide⟩)
    (List.forall_mem_singleton.mpr spells_escapedRecord)
  let results : Json.Member := ⟨[], "results".toList.map .char, "results".toList, [],
    ⟨.array [escapedRecord.value], [' '],
      '[' :: ([','].intercalate [escapedRecord.written] ++ [']']), [' ']⟩⟩
  let next : Json.Member := ⟨[], "next".toList.map .char, "next".toList, [],
    ⟨.null, [], "null".toList, []⟩⟩
  have hanswer := Json.Spells.object (List.cons_ne_nil results [next])
    (List.forall_mem_cons.mpr ⟨⟨by decide, by decide, by decide, by decide⟩,
      List.forall_mem_singleton.mpr ⟨by decide, by decide, by decide, by decide⟩⟩)
    (List.forall_mem_cons.mpr ⟨Json.content_escape "results".toList,
      List.forall_mem_singleton.mpr (Json.content_escape "next".toList)⟩)
    (List.forall_mem_cons.mpr ⟨hrecords, List.forall_mem_singleton.mpr .null⟩)
  exact ⟨[], _, ['\n'], by decide, by decide, hanswer, by decide⟩

/-- A listing in a spelling of its own, an answer that only counts, and one whose second record has
no signature. -/
theorem signatures_document_escaped :
    signatures (Text.Utf8.encode
      ("\x7b\"results\": [\x7b\"id\":\"\\ud800\",\n\"text_signature\"\t: " ++
        "\"\\u0061\\/\\uD83D\\ude00\" \x7d] ,\"next\":null\x7d\n").toList) = .ok ["a/😀"] ∧
    signatures (Text.Utf8.encode "\x7b\"count\":0\x7d".toList) = .ok [] ∧
    ∃ later, ({ memory := () } : Session Unit).resolve (Resolver.directory {} fun _ =>
        .ok (Text.Utf8.encode
          "\x7b\"results\":[\x7b\"text_signature\":\"a()\"\x7d,\x7b\"id\":1\x7d]\x7d".toList))
        ⟨0xde, 0xad, 0xbe, 0xef⟩ = ([], later) ∧
      later.cache.known? ⟨0xde, 0xad, 0xbe, 0xef⟩ = some [] := by
  have hrecord : Record "a/😀" escapedRecord.value :=
    ⟨_, rfl, [(some "id", .string none)], [], rfl,
      List.forall_mem_singleton.mpr ⟨"id", rfl, by decide⟩, List.forall_mem_nil _⟩
  have hlisting : Listing ["a/😀"]
      (.object [(some "results", .array [escapedRecord.value]), (some "next", .null)]) :=
    ⟨_, _, rfl, ⟨[], [(some "next", .null)], rfl, List.forall_mem_nil _,
      List.forall_mem_singleton.mpr ⟨"next", rfl, by decide⟩⟩, .cons hrecord .nil⟩
  have hcount : Json.Document (.record [("count", .nat 0)]) "\x7b\"count\":0\x7d".toList :=
    (Json.Plain.record (List.forall_mem_singleton.mpr (.nat 0))).document false
  have hresultless : Resultless (.record [("count", .nat 0)]) :=
    ⟨_, rfl, List.forall_mem_singleton.mpr ⟨"count", rfl, by decide⟩⟩
  have hrecords : Json.Document (.record [("results", .array
      [.record [("text_signature", .text "a()")], .record [("id", .nat 1)]])])
      "\x7b\"results\":[\x7b\"text_signature\":\"a()\"\x7d,\x7b\"id\":1\x7d]\x7d".toList := by
    refine Json.Plain.document ?_ false
    refine .record (List.forall_mem_singleton.mpr (.array (List.forall_mem_cons.mpr ⟨?_, ?_⟩)))
    · exact .record (List.forall_mem_singleton.mpr (.text "a()"))
    · exact List.forall_mem_singleton.mpr (.record (List.forall_mem_singleton.mpr (.nat 1)))
  have hunsigned : Unsigned (.record [("id", .nat 1)]) := by
    refine ⟨_, rfl, ?_⟩
    intro text htext
    have hkey : some "text_signature" = some "id" :=
      congrArg Prod.fst (List.mem_singleton.mp htext)
    exact absurd hkey (by decide)
  have hspoilt : Spoilt (.record [("results", .array
      [.record [("text_signature", .text "a()")], .record [("id", .nat 1)]])]) :=
    ⟨_, _, rfl, List.mem_singleton_self _, _, List.mem_cons_of_mem _ (List.mem_singleton_self _),
      hunsigned⟩
  obtain ⟨hfound, _, _⟩ := signatures_document document_escaped
  obtain ⟨_, hempty, _⟩ := signatures_document hcount
  obtain ⟨_, hsession⟩ := (signatures_document hrecords).2.2 hspoilt
  obtain ⟨_, later, hresolve, _, hknown, _⟩ :=
    hsession {} (fun _ => .ok _) ⟨0xde, 0xad, 0xbe, 0xef⟩ { memory := () } rfl (by decide)
  exact ⟨hfound _ hlisting, hempty hresultless, later, hresolve, hknown⟩

end Directory
end EvmInspect
