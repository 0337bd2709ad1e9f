import EvmInspect.Hex.Lemmas
import EvmInspect.Text.Quoted.Lemmas
import EvmInspect.Proofs.Acceptance
import EvmInspect.Proofs.Spelling

namespace EvmInspect.Abi

namespace Address

theorem length_halves (bytes : Bytes) : (halves bytes).length = 2 * bytes.length := by
  simp [halves, Nat.mul_comm]

/-- The checksum changes nothing but the case. -/
theorem raise_digit (half : UInt8) (bytes : Bytes) : ∀ c ∈ Hex.encode bytes,
    (raise half c).isAlphanum = true ∧ (raise half c).toLower = c := by
  have hcases : ∀ n : Fin 16, (Hex.digit (UInt8.ofNat n)).toUpper.isAlphanum = true ∧
      (Hex.digit (UInt8.ofNat n)).toUpper.toLower = Hex.digit (UInt8.ofNat n) ∧
      (Hex.digit (UInt8.ofNat n)).isAlphanum = true ∧
      (Hex.digit (UInt8.ofNat n)).toLower = Hex.digit (UInt8.ofNat n) := by decide
  refine Hex.forall_mem_encode (fun n => ?_) bytes
  obtain ⟨hupper, hback, hlower, hkept⟩ := hcases n
  unfold raise
  split
  · exact ⟨hupper, hback⟩
  · exact ⟨hlower, hkept⟩

/-- There are more half bytes in a hash than digits in an address. -/
theorem length_encode_le (a : Address) :
    (Hex.encode a.bytes).length ≤
      (halves (Keccak.hash (Text.Utf8.encode (Hex.encode a.bytes)))).length := by
  rw [length_halves, Keccak.length_hash, Hex.length_encode, a.length_bytes]
  decide

/-- In lower case, an address is shown as its bytes are. -/
theorem toLower_spell (a : Address) : a.spell.map Char.toLower = AbiValue.spellBytes a.bytes := by
  have hlength := a.length_encode_le
  have hdigits : ((halves (Keccak.hash (Text.Utf8.encode (Hex.encode a.bytes)))).zipWith raise
      (Hex.encode a.bytes)).map Char.toLower = Hex.encode a.bytes := by
    apply List.ext_getElem
    · rw [List.length_map, List.length_zipWith, Nat.min_eq_right hlength]
    · intro i _ hi
      rw [List.getElem_map, List.getElem_zipWith]
      exact (raise_digit _ _ _ (List.getElem_mem hi)).2
  exact congrArg (fun digits => '0' :: 'x' :: digits) hdigits

theorem isAlphanum_of_mem_spell {a : Address} {c : Char} (h : c ∈ a.spell) :
    c.isAlphanum = true := by
  simp only [spell, List.mem_cons] at h
  rcases h with rfl | rfl | h
  · decide
  · decide
  · obtain ⟨i, hi, rfl⟩ := List.getElem_of_mem h
    rw [List.getElem_zipWith]
    exact (raise_digit _ _ _ (List.getElem_mem _)).1

end Address

namespace AbiValue

theorem spellBytes_injective : Function.Injective spellBytes := by
  intro x y h
  exact Hex.encode_injective (List.cons.inj (List.cons.inj h).2).2

theorem spellAddress_injective : Function.Injective Address.spell := by
  intro a b h
  have hbytes : a.bytes = b.bytes :=
    spellBytes_injective (by rw [← a.toLower_spell, h, b.toLower_spell])
  cases a
  cases b
  cases hbytes
  rfl

theorem spellBool_injective : Function.Injective spellBool := by
  intro a b h
  cases a <;> cases b
  case true.true | false.false => rfl
  all_goals cases h

/-- No digits begin with a minus sign, so the sign is known. -/
theorem spellInt_injective : Function.Injective spellInt := by
  have hsign (n : Nat) (text : List Char) : Text.decimal n ≠ '-' :: text := by
    intro h
    have hminus := Text.isDigit_of_mem_decimal (h ▸ List.mem_cons_self : '-' ∈ Text.decimal n)
    exact absurd hminus (by decide)
  intro a b h
  unfold spellInt at h
  split at h <;> split at h
  · have habs := Text.decimal_injective (List.cons.inj h).2
    omega
  · exact absurd h.symm (hsign _ _)
  · exact absurd h (hsign _ _)
  · have habs := Text.decimal_injective h
    omega

def IsWord : AbiValue → Prop
  | .uint _ | .int _ | .bool _ | .address _ | .fixedBytes _ | .bytes _ => True
  | _ => False

theorem isWord_of_mem_spellBytes {bytes : Bytes} {c : Char} (h : c ∈ spellBytes bytes) :
    Text.isWord c = true := by
  simp only [spellBytes, List.mem_cons] at h
  rcases h with rfl | rfl | h
  · decide
  · decide
  · exact Text.isWord_of_isAlphanum (Hex.isAlphanum_of_mem_encode h)

theorem isWord_of_mem_spellInt {n : Int} {c : Char} (h : c ∈ spellInt n) :
    Text.isWord c = true := by
  have hdigits {m : Nat} (h : c ∈ Text.decimal m) : Text.isWord c = true :=
    Text.isWord_of_isAlphanum (AbiType.isAlphanum_of_mem_decimal h)
  unfold spellInt at h
  split at h
  · rcases List.mem_cons.mp h with rfl | h
    · decide
    · exact hdigits h
  · exact hdigits h

theorem IsWord.isWord_of_mem_spell {v : AbiValue} (hv : v.IsWord) {c : Char} (h : c ∈ v.spell) :
    Text.isWord c = true := by
  cases v with
  | uint n => exact Text.isWord_of_isAlphanum (AbiType.isAlphanum_of_mem_decimal h)
  | int n => exact isWord_of_mem_spellInt h
  | bool b =>
    have hwords : ∀ b, (spellBool b).all Text.isWord = true := by decide
    exact List.all_eq_true.mp (hwords b) c h
  | address a => exact Text.isWord_of_isAlphanum (Address.isAlphanum_of_mem_spell h)
  | fixedBytes data | bytes data => exact isWord_of_mem_spellBytes h
  | string text | array items | fixedArray items | tuple items => cases hv

theorem spell_ne_nil (v : AbiValue) : v.spell ≠ [] := by
  cases v with
  | uint n => exact Text.decimal_ne_nil n
  | int n =>
    rw [spell, spellInt]
    split
    · exact List.cons_ne_nil _ _
    · exact Text.decimal_ne_nil _
  | bool b => cases b <;> exact List.cons_ne_nil _ _
  | _ => exact List.cons_ne_nil _ _

def closings : List Char :=
  [']', ')']

theorem not_isWord_of_mem_closings {close : Char} (h : close ∈ closings) :
    Text.isWord close = false := by
  simp only [closings, List.mem_cons, List.not_mem_nil, or_false] at h
  rcases h with rfl | rfl <;> decide

theorem ne_of_mem_closings {close : Char} (h : close ∈ closings) :
    close ≠ '"' ∧ close ≠ '[' ∧ close ≠ '(' ∧ close ≠ ',' := by
  simp only [closings, List.mem_cons, List.not_mem_nil, or_false] at h
  rcases h with rfl | rfl <;> decide

/-- A value begins with something, and not with a closing bracket. -/
theorem spell_append_ne {close : Char} (hclose : close ∈ closings) (v : AbiValue)
    (x y : List Char) : v.spell ++ x ≠ close :: y := by
  intro h
  obtain ⟨c, text, hspell⟩ := List.exists_cons_of_ne_nil v.spell_ne_nil
  have hc : c = close := (List.cons.inj (hspell ▸ h)).1
  have hword (hv : v.IsWord) : False := by
    have hmem : c ∈ v.spell := hspell ▸ List.mem_cons_self
    have hchar := hv.isWord_of_mem_spell hmem
    rw [hc, not_isWord_of_mem_closings hclose] at hchar
    cases hchar
  have hfirst := ne_of_mem_closings hclose
  rw [← hc] at hfirst
  cases v with
  | string => exact hfirst.1 (List.cons.inj hspell).1.symm
  | array | fixedArray => exact hfirst.2.1 (List.cons.inj hspell).1.symm
  | tuple => exact hfirst.2.2.1 (List.cons.inj hspell).1.symm
  | _ => exact hword trivial

/-- What is shown of two values tells whether they are the same: their JSON does, and their texts
do, with something behind them that continues no word. -/
structure ToldApart (a b : AbiValue) : Prop where
  json : a.toJson = b.toJson → a = b
  text : ∀ {x y : List Char}, Text.Stops x → Text.Stops y →
    a.spell ++ x = b.spell ++ y → a = b ∧ x = y

/-- Values that are words are told apart by their texts if those tell which is which. -/
theorem text_of_words {α : Type} (wrap : α → AbiValue) {write : α → List Char}
    (word : ∀ v, (wrap v).IsWord) (spelled : ∀ v, (wrap v).spell = write v)
    (injective : Function.Injective write) {a b : α} {x y : List Char} (hx : Text.Stops x)
    (hy : Text.Stops y) (h : (wrap a).spell ++ x = (wrap b).spell ++ y) :
    wrap a = wrap b ∧ x = y := by
  obtain ⟨hspell, hxy⟩ := Text.word_cut (fun _ => (word a).isWord_of_mem_spell)
    (fun _ => (word b).isWord_of_mem_spell) hx hy h
  rw [spelled, spelled] at hspell
  exact ⟨congrArg wrap (injective hspell), hxy⟩

/-- So are they by their JSON, if that is the word as a string. -/
theorem toldApart_of_words {α : Type} (wrap : α → AbiValue) {write : α → List Char}
    (word : ∀ v, (wrap v).IsWord) (spelled : ∀ v, (wrap v).spell = write v)
    (json : ∀ v, (wrap v).toJson = .text (String.ofList (write v)))
    (injective : Function.Injective write) (a b : α) : ToldApart (wrap a) (wrap b) where
  json := by
    intro h
    rw [json, json] at h
    have hwritten := String.ofList_injective (Option.some.inj (Json.string.inj h))
    exact congrArg wrap (injective hwritten)
  text := text_of_words wrap word spelled injective

theorem toldApart_bool (a b : Bool) : ToldApart (.bool a) (.bool b) where
  json h := congrArg AbiValue.bool (Json.bool.inj h)
  text := text_of_words AbiValue.bool (fun _ => trivial) (fun _ => rfl) spellBool_injective

theorem toldApart_string (a b : String) : ToldApart (.string a) (.string b) where
  json h := congrArg AbiValue.string (Option.some.inj (Json.string.inj h))
  text := by
    intro x y _ _ h
    obtain ⟨htext, hxy⟩ := Text.Quoted.encode_cut h
    exact ⟨congrArg AbiValue.string (String.toList_inj.mp htext), hxy⟩

/-- As far as there are items on both sides, they are told apart. -/
def ItemsApart (as bs : List AbiValue) : Prop :=
  ∀ p ∈ as.zip bs, ToldApart p.1 p.2

theorem itemsApart_cons {a b : AbiValue} {as bs : List AbiValue} :
    ItemsApart (a :: as) (b :: bs) ↔ ToldApart a b ∧ ItemsApart as bs := by
  simp [ItemsApart]

theorem toJsons_inj {as bs : List AbiValue} (apart : ItemsApart as bs)
    (h : toJsons as = toJsons bs) : as = bs := by
  induction as generalizing bs with
  | nil =>
    cases bs with
    | nil => rfl
    | cons b bs => cases h
  | cons a as ih =>
    cases bs with
    | nil => cases h
    | cons b bs =>
      rw [itemsApart_cons] at apart
      obtain ⟨hitem, hitems⟩ := List.cons.inj h
      rw [apart.1.json hitem, ih apart.2 hitems]

theorem stops_more {close : Char} (hclose : close ∈ closings) (items : List AbiValue)
    (text : List Char) : Text.Stops (spellMore items ++ close :: text) := by
  cases items with
  | nil => exact Text.stops_cons (not_isWord_of_mem_closings hclose) text
  | cons item items => exact Text.stops_cons (by decide) _

/-- The items behind the first one are known from what their text begins: each ends at a comma or at
the bracket. -/
theorem more_cut {close : Char} (hclose : close ∈ closings) {as bs : List AbiValue}
    (apart : ItemsApart as bs) {x y : List Char}
    (h : spellMore as ++ close :: x = spellMore bs ++ close :: y) : as = bs ∧ x = y := by
  -- Where one list ends the bracket stands, and where it goes on a comma.
  have hcomma : close ≠ ',' := (ne_of_mem_closings hclose).2.2.2
  induction as generalizing bs with
  | nil =>
    cases bs with
    | nil => exact ⟨rfl, (List.cons.inj h).2⟩
    | cons b bs => exact absurd (List.cons.inj h).1 hcomma
  | cons a as ih =>
    cases bs with
    | nil => exact absurd (List.cons.inj h).1.symm hcomma
    | cons b bs =>
      rw [itemsApart_cons] at apart
      simp only [spellMore, List.cons_append, List.append_assoc, List.cons.injEq, true_and] at h
      obtain ⟨rfl, hmore⟩ := apart.1.text (stops_more hclose as x) (stops_more hclose bs y) h
      obtain ⟨rfl, hxy⟩ := ih apart.2 hmore
      exact ⟨rfl, hxy⟩

/-- All items are: there are none exactly where the bracket comes at once. -/
theorem items_cut {close : Char} (hclose : close ∈ closings) {as bs : List AbiValue}
    (apart : ItemsApart as bs) {x y : List Char}
    (h : spellItems as ++ close :: x = spellItems bs ++ close :: y) : as = bs ∧ x = y := by
  cases as with
  | nil =>
    cases bs with
    | nil => exact ⟨rfl, (List.cons.inj h).2⟩
    | cons b bs =>
      rw [spellItems, spellItems, List.append_assoc] at h
      exact absurd h.symm (spell_append_ne hclose b _ _)
  | cons a as =>
    cases bs with
    | nil =>
      rw [spellItems, spellItems, List.append_assoc] at h
      exact absurd h (spell_append_ne hclose a _ _)
    | cons b bs =>
      rw [itemsApart_cons] at apart
      rw [spellItems, spellItems, List.append_assoc, List.append_assoc] at h
      obtain ⟨rfl, hmore⟩ := apart.1.text (stops_more hclose as x) (stops_more hclose bs y) h
      obtain ⟨rfl, hxy⟩ := more_cut hclose apart.2 hmore
      exact ⟨rfl, hxy⟩

/-- Arrays and tuples are told apart if their items are. -/
theorem toldApart_of_items (wrap : List AbiValue → AbiValue) {opening close : Char}
    (hclose : close ∈ closings) (json : ∀ items, (wrap items).toJson = .array (toJsons items))
    (spelled : ∀ items, (wrap items).spell = opening :: (spellItems items ++ [close]))
    {as bs : List AbiValue} (apart : ItemsApart as bs) :
    ToldApart (wrap as) (wrap bs) where
  json := by
    intro h
    rw [json, json] at h
    exact congrArg wrap (toJsons_inj apart (Json.array.inj h))
  text := by
    intro x y _ _ h
    simp only [spelled, List.cons_append, List.append_assoc, List.nil_append, List.cons.injEq,
      true_and] at h
    obtain ⟨rfl, hxy⟩ := items_cut hclose apart h
    exact ⟨rfl, hxy⟩

end AbiValue

open AbiValue

def AbiType.Discerned (t : AbiType) : Prop :=
  ∀ ⦃a b : AbiValue⦄, t.admits a = true → t.admits b = true → ToldApart a b

theorem toldApart_of_all {element : AbiType} (discerned : element.Discerned) {as bs : List AbiValue}
    (ha : (as.all fun item => element.admits item) = true)
    (hb : (bs.all fun item => element.admits item) = true) :
    ItemsApart as bs := by
  intro p hp
  obtain ⟨hpa, hpb⟩ := List.of_mem_zip hp
  exact discerned (List.all_eq_true.mp ha _ hpa) (List.all_eq_true.mp hb _ hpb)

theorem toldApart_of_admitAll {types : List AbiType} (discerned : ∀ t ∈ types, t.Discerned)
    {as bs : List AbiValue} (ha : admitAll types as = true) (hb : admitAll types bs = true) :
    ItemsApart as bs := by
  induction types generalizing as bs with
  | nil =>
    cases as with
    | nil => exact nofun
    | cons a as => cases ha
  | cons t types ih =>
    cases as with
    | nil => exact nofun
    | cons a as =>
      cases bs with
      | nil => exact nofun
      | cons b bs =>
        rw [admitAll, Bool.and_eq_true] at ha hb
        rw [List.forall_mem_cons] at discerned
        rw [itemsApart_cons]
        exact ⟨discerned.1 ha.1 hb.1, ih discerned.2 ha.2 hb.2⟩

theorem AbiType.discerned (t : AbiType) : t.Discerned := by
  induction t with
  | uint bits =>
    intro a b ha hb
    obtain ⟨x, rfl, _⟩ := admits_uint_iff.mp ha
    obtain ⟨y, rfl, _⟩ := admits_uint_iff.mp hb
    exact toldApart_of_words .uint (fun _ => trivial) (fun _ => rfl) (fun _ => rfl)
      Text.decimal_injective x y
  | int bits =>
    intro a b ha hb
    obtain ⟨x, rfl, _⟩ := admits_int_iff.mp ha
    obtain ⟨y, rfl, _⟩ := admits_int_iff.mp hb
    exact toldApart_of_words .int (fun _ => trivial) (fun _ => rfl) (fun _ => rfl)
      spellInt_injective x y
  | bool =>
    intro a b ha hb
    obtain ⟨x, rfl⟩ := admits_bool_iff.mp ha
    obtain ⟨y, rfl⟩ := admits_bool_iff.mp hb
    exact toldApart_bool x y
  | address =>
    intro a b ha hb
    obtain ⟨x, rfl⟩ := admits_address_iff.mp ha
    obtain ⟨y, rfl⟩ := admits_address_iff.mp hb
    exact toldApart_of_words .address (fun _ => trivial) (fun _ => rfl) (fun _ => rfl)
      spellAddress_injective x y
  | fixedBytes size =>
    intro a b ha hb
    obtain ⟨x, rfl, _⟩ := admits_fixedBytes_iff.mp ha
    obtain ⟨y, rfl, _⟩ := admits_fixedBytes_iff.mp hb
    exact toldApart_of_words .fixedBytes (fun _ => trivial) (fun _ => rfl) (fun _ => rfl)
      spellBytes_injective x y
  | bytes =>
    intro a b ha hb
    obtain ⟨x, rfl⟩ := admits_bytes_iff.mp ha
    obtain ⟨y, rfl⟩ := admits_bytes_iff.mp hb
    exact toldApart_of_words .bytes (fun _ => trivial) (fun _ => rfl) (fun _ => rfl)
      spellBytes_injective x y
  | string =>
    intro a b ha hb
    obtain ⟨x, rfl⟩ := admits_string_iff.mp ha
    obtain ⟨y, rfl⟩ := admits_string_iff.mp hb
    exact toldApart_string x y
  | array element ih =>
    intro a b ha hb
    obtain ⟨as, rfl, has⟩ := admits_array_iff.mp ha
    obtain ⟨bs, rfl, hbs⟩ := admits_array_iff.mp hb
    exact toldApart_of_items .array (by simp [closings]) (fun _ => rfl) (fun _ => rfl)
      (toldApart_of_all ih has hbs)
  | fixedArray element length ih =>
    intro a b ha hb
    obtain ⟨as, rfl, _, has⟩ := admits_fixedArray_iff.mp ha
    obtain ⟨bs, rfl, _, hbs⟩ := admits_fixedArray_iff.mp hb
    exact toldApart_of_items .fixedArray (by simp [closings]) (fun _ => rfl) (fun _ => rfl)
      (toldApart_of_all ih has hbs)
  | tuple members ih =>
    intro a b ha hb
    obtain ⟨as, rfl, has⟩ := admits_tuple_iff.mp ha
    obtain ⟨bs, rfl, hbs⟩ := admits_tuple_iff.mp hb
    exact toldApart_of_items .tuple (by simp [closings]) (fun _ => rfl) (fun _ => rfl)
      (toldApart_of_admitAll ih has hbs)

/-- Two values of a type have the same JSON only if they are the same, and so it is with their
texts, whatever their strings hold. -/
theorem AbiType.admitted_eq_iff {t : AbiType} {a b : AbiValue} (ha : t.admits a = true)
    (hb : t.admits b = true) :
    (a.toJson = b.toJson ↔ a = b) ∧ (a.display = b.display ↔ a = b) := by
  have apart := t.discerned ha hb
  refine ⟨⟨apart.json, fun h => h ▸ rfl⟩, ⟨fun h => ?_, fun h => h ▸ rfl⟩⟩
  have hspell : a.spell ++ [] = b.spell ++ [] := by
    rw [String.ofList_injective h]
  exact (apart.text Text.stops_nil Text.stops_nil hspell).1

/-- A string with a quote and a comma in it is not shown as two strings are. -/
theorem AbiType.admitted_eq_iff_quoted :
    let t : AbiType := .tuple [.array .string, .int 8]
    let a : AbiValue := .tuple [.array [.string "x\", \"y"], .int (-1)]
    let b : AbiValue := .tuple [.array [.string "x", .string "y"], .int (-1)]
    t.admits a = true ∧ t.admits b = true ∧ a.toJson ≠ b.toJson ∧ a.display ≠ b.display := by
  intro t a b
  have ha : t.admits a = true := by decide
  have hb : t.admits b = true := by decide
  have hne : a ≠ b := by simp [a, b]
  obtain ⟨hjson, htext⟩ := AbiType.admitted_eq_iff ha hb
  exact ⟨ha, hb, fun h => hne (hjson.mp h), fun h => hne (htext.mp h)⟩

end EvmInspect.Abi
