import DriverSynth.Doc.Read
import DriverSynth.Doc.Write

/-! # Reading back what is written

The reader gives back every document that the indented writer writes, on the documents the formats
write (`Doc.Canonical`): counts below `2^64` and objects with ascending keys (`Doc.read?_indented`,
hence `JsonCodec.standard_readsBack`). The proof runs on characters: appending commutes with taking
them (`writeIndented_toList`), so the reader is followed one member at a time, with fuel bounded by
the text's length; a number is the one value that needs to know what follows it (`EndsValue`).
-/

namespace DriverSynth

namespace Doc

/-! ## Texts as characters -/

theorem escapeChar_toList (out : String) (c : Char) :
    (escapeChar out c).toList = out.toList ++ (escapeChar "" c).toList := by
  unfold escapeChar
  split <;> (try split) <;> simp

theorem writeString_toList (out s : String) :
    (writeString out s).toList =
      out.toList ++ '"' :: s.toList.flatMap (fun c => (escapeChar "" c).toList) ++ ['"'] := by
  have body : ∀ (cs : List Char) (acc : String), (cs.foldl escapeChar acc).toList =
      acc.toList ++ cs.flatMap (fun c => (escapeChar "" c).toList) := by
    intro cs
    induction cs with
    | nil => simp
    | cons c cs ih => intro acc; simp [ih, escapeChar_toList acc c]
  simp [writeString, String.foldl_eq_foldl_toList, body]

theorem pad_toList (out : String) (count : Nat) :
    (pad out count).toList = out.toList ++ List.replicate count ' ' := by
  have blanks : ∀ (n : Nat) (acc : String),
      ((List.replicate n ' ').foldl String.push acc).toList = acc.toList ++ List.replicate n ' ' := by
    intro n
    induction n with
    | zero => simp
    | succ n ih => intro acc; simp [List.replicate_succ, ih]
  exact blanks count out

mutual

theorem writeIndented_toList (width depth : Nat) (out : String) : ∀ d : Doc,
    (writeIndented width depth out d).toList = out.toList ++ (writeIndented width depth "" d).toList
  | .null | .bool _ | .nat _ | .int _ | .float _ => by simp [writeIndented, writeCompact]
  | .str s => by simp [writeIndented, writeCompact, writeString_toList]
  | .arr [] | .obj [] => by simp [writeIndented]
  | .arr (d :: items) => by
    simp only [writeIndented, String.toList_push, pad_toList]
    rw [writeIndentedItems_toList width depth (out ++ _) true (d :: items),
      writeIndentedItems_toList width depth ("" ++ _) true (d :: items)]
    simp
  | .obj (f :: fields) => by
    simp only [writeIndented, String.toList_push, pad_toList]
    rw [writeIndentedFields_toList width depth (out ++ _) true (f :: fields),
      writeIndentedFields_toList width depth ("" ++ _) true (f :: fields)]
    simp

theorem writeIndentedItems_toList (width depth : Nat) (out : String) (first : Bool) :
    ∀ items : List Doc, (writeIndentedItems width depth out first items).toList =
      out.toList ++ (writeIndentedItems width depth "" first items).toList
  | [] => by simp [writeIndentedItems]
  | d :: items => by
    simp only [writeIndentedItems]
    rw [writeIndentedItems_toList width depth _ false items,
      writeIndentedItems_toList width depth (writeIndented _ _ _ d) false items,
      writeIndented_toList width (depth + 1) _ d, writeIndented_toList width (depth + 1) (pad _ _) d]
    cases first <;> simp [pad_toList]

theorem writeIndentedFields_toList (width depth : Nat) (out : String) (first : Bool) :
    ∀ fields : List (String × Doc), (writeIndentedFields width depth out first fields).toList =
      out.toList ++ (writeIndentedFields width depth "" first fields).toList
  | [] => by simp [writeIndentedFields]
  | (k, v) :: fields => by
    simp only [writeIndentedFields]
    rw [writeIndentedFields_toList width depth _ false fields,
      writeIndentedFields_toList width depth (writeIndented _ _ _ v) false fields,
      writeIndented_toList width (depth + 1) _ v, writeIndented_toList width (depth + 1) (_ ++ _) v]
    cases first <;> simp [pad_toList, writeString_toList]

end

theorem writeIndented_arr_toList (width depth : Nat) (d : Doc) (items : List Doc) :
    (writeIndented width depth "" (.arr (d :: items))).toList =
      '[' :: '\n' :: (writeIndentedItems width depth "" true (d :: items)).toList ++
        '\n' :: List.replicate (width * depth) ' ' ++ [']'] := by
  simp only [writeIndented, String.toList_push, pad_toList]
  rw [writeIndentedItems_toList width depth ("" ++ _) true (d :: items)]
  simp

theorem writeIndented_obj_toList (width depth : Nat) (f : String × Doc)
    (fields : List (String × Doc)) :
    (writeIndented width depth "" (.obj (f :: fields))).toList =
      '{' :: '\n' :: (writeIndentedFields width depth "" true (f :: fields)).toList ++
        '\n' :: List.replicate (width * depth) ' ' ++ ['}'] := by
  simp only [writeIndented, String.toList_push, pad_toList]
  rw [writeIndentedFields_toList width depth ("" ++ _) true (f :: fields)]
  simp

theorem writeIndentedItems_cons_toList (width depth : Nat) (first : Bool) (d : Doc)
    (items : List Doc) :
    (writeIndentedItems width depth "" first (d :: items)).toList =
      (if first then [] else [',', '\n']) ++ List.replicate (width * (depth + 1)) ' ' ++
        (writeIndented width (depth + 1) "" d).toList ++
          (writeIndentedItems width depth "" false items).toList := by
  rw [writeIndentedItems, writeIndentedItems_toList, writeIndented_toList]
  cases first <;> simp [pad_toList]

theorem writeIndentedFields_cons_toList (width depth : Nat) (first : Bool) (key : String)
    (value : Doc) (fields : List (String × Doc)) :
    (writeIndentedFields width depth "" first ((key, value) :: fields)).toList =
      (if first then [] else [',', '\n']) ++ List.replicate (width * (depth + 1)) ' ' ++
        '"' :: key.toList.flatMap (fun c => (escapeChar "" c).toList) ++ '"' :: ':' :: ' ' ::
          (writeIndented width (depth + 1) "" value).toList ++
            (writeIndentedFields width depth "" false fields).toList := by
  rw [writeIndentedFields, writeIndentedFields_toList, writeIndented_toList]
  cases first <;> simp [pad_toList, writeString_toList]

/-! ## Reading -/

/-- What may follow a value in a text without running into it: nothing, a comma or a line
break. -/
def EndsValue (rest : List Char) : Prop := ∀ c ∈ rest.head?, c = ',' ∨ c = '\n'

/-- A list of blanks that the indented writer puts between tokens. -/
def Blanks (cs : List Char) : Prop := ∀ c ∈ cs, c = ' ' ∨ c = '\n'

theorem skipBlank_blanks {blanks : List Char} (blank : Blanks blanks) (cs : List Char) :
    skipBlank (blanks ++ cs) = skipBlank cs := by
  induction blanks with
  | nil => rfl
  | cons c blanks ih =>
    simp only [Blanks, List.mem_cons, forall_eq_or_imp] at blank
    rcases blank.1 with rfl | rfl <;> simp [skipBlank, ih blank.2]

theorem blanks_replicate (n : Nat) : Blanks (List.replicate n ' ') := by
  intro c member
  exact .inl (List.eq_of_mem_replicate member)

theorem blanks_line (n : Nat) : Blanks ('\n' :: List.replicate n ' ') := by
  intro c member
  rcases List.mem_cons.mp member with rfl | member
  · exact .inr rfl
  · exact .inl (List.eq_of_mem_replicate member)

/-- A character that the reader does not skip and that closes nothing: what every value's text
starts with. -/
def Solid (c : Char) : Prop :=
  c ≠ ' ' ∧ c ≠ '\t' ∧ c ≠ '\n' ∧ c ≠ '\r' ∧ c ≠ ']' ∧ c ≠ '}' ∧ c ≠ '\uFEFF'

theorem skipBlank_solid {c : Char} (solid : Solid c) (cs : List Char) :
    skipBlank (c :: cs) = c :: cs := by
  obtain ⟨space, tab, newline, ret, -⟩ := solid
  simp [skipBlank, space, tab, newline, ret]

theorem solid_of_isDigit {c : Char} (digit : c.isDigit = true) : Solid c := by
  simp only [Char.isDigit, Bool.and_eq_true, decide_eq_true_eq] at digit
  refine ⟨?_, ?_, ?_, ?_, ?_, ?_, ?_⟩ <;> (rintro rfl; revert digit; decide)

theorem skipBlank_line_solid {c : Char} (n : Nat) (solid : Solid c) (cs : List Char) :
    skipBlank ('\n' :: (List.replicate n ' ' ++ c :: cs)) = c :: cs := by
  rw [← List.cons_append, skipBlank_blanks (blanks_line n), skipBlank_solid solid]

theorem readValue_blanks {blanks : List Char} (blank : Blanks blanks) (fuel : Nat)
    (cs : List Char) : readValue fuel (blanks ++ cs) = readValue fuel cs := by
  cases fuel with
  | zero => rfl
  | succ fuel => simp only [readValue, skipBlank_blanks blank]

theorem readValue_space (fuel : Nat) (cs : List Char) :
    readValue fuel (' ' :: cs) = readValue fuel cs :=
  readValue_blanks (blanks_replicate 1) fuel cs

theorem hexValue?_hexDigit : ∀ k, k < 16 → hexValue? (hexDigit k) = some k := by decide

/-- The four hex digits that escape a control character spell its code. -/
theorem hex4?_control {c : Char} (control : c.toNat < 0x20) :
    hex4? '0' '0' (hexDigit (c.toNat / 16)) (hexDigit (c.toNat % 16)) = some c.toNat := by
  simp only [hex4?, hexValue?_hexDigit _ (show c.toNat / 16 < 16 by omega),
    hexValue?_hexDigit _ (Nat.mod_lt _ (by decide))]
  simp [hexValue?]
  omega

/-- The reader takes back one escaped character. -/
theorem readString_escapeChar (acc : String) (c : Char) (tail : List Char) :
    readString acc ((escapeChar "" c).toList ++ tail) = readString (acc.push c) tail := by
  unfold escapeChar
  split
  -- the seven short escapes
  · simp [readString, shortEscape?]
  · simp [readString, shortEscape?]
  · simp [readString, shortEscape?]
  · simp [readString, shortEscape?]
  · simp [readString, shortEscape?]
  · simp [readString, shortEscape?]
  · simp [readString, shortEscape?]
  · rename_i quote backslash _ _ _ _ _
    split
    · rename_i control
      simp only [String.toList_push, String.toList_append]
      simp [readString, hex4?_control control]
      rw [if_neg (by omega), if_neg (by omega)]
    · rename_i printable
      simp only [String.toList_push, String.toList_empty, List.nil_append, List.singleton_append]
      conv => lhs; unfold readString
      split
      · contradiction
      · rename_i same; cases same; exact absurd rfl quote
      · rename_i same; cases same; exact absurd rfl backslash
      · rename_i same; cases same; exact absurd rfl backslash
      · rename_i same; cases same; rw [if_neg printable]

theorem readString_escaped (acc : String) (cs rest : List Char) :
    readString acc (cs.flatMap (fun c => (escapeChar "" c).toList) ++ '"' :: rest) =
      some (acc ++ String.ofList cs, rest) := by
  induction cs generalizing acc with
  | nil => simp [readString]
  | cons c cs ih =>
    rw [List.flatMap_cons, List.append_assoc, readString_escapeChar, ih]
    congr 2
    apply String.ext
    simp

theorem digitChar_toNat : ∀ d, d < 10 → d.digitChar.toNat = 48 + d := by decide

theorem digitsValue_append_digit (digits : List Char) (c : Char) :
    digitsValue (digits ++ [c]) = digitsValue digits * 10 + (c.toNat - 48) := by
  simp [digitsValue, List.foldl_append]

/-- The digits of a count spell it. -/
theorem digitsValue_toDigits (n : Nat) : digitsValue (Nat.toDigits 10 n) = n := by
  rw [Nat.toDigits_eq_if (by decide)]
  split
  · rename_i small
    simp [digitsValue, digitChar_toNat n small]
  · rename_i large
    rw [digitsValue_append_digit, digitsValue_toDigits (n / 10),
      digitChar_toNat _ (Nat.mod_lt _ (by decide))]
    omega
termination_by n
decreasing_by omega

/-- Only zero is written with a leading zero. -/
theorem toDigits_head_zero {n : Nat} (zero : (Nat.toDigits 10 n).head? = some '0') : n = 0 := by
  rw [Nat.toDigits_eq_if (by decide)] at zero
  split at zero
  · rename_i small
    have code := congrArg Char.toNat (Option.some.inj zero)
    rw [digitChar_toNat n small] at code
    simp at code
    omega
  · rename_i large
    have head : (Nat.toDigits 10 (n / 10)).head? = some '0' := by
      cases digits : Nat.toDigits 10 (n / 10) with
      | nil => exact absurd digits Nat.toDigits_ne_nil
      | cons c cs => rw [digits] at zero; simpa using zero
    have := toDigits_head_zero head
    omega
termination_by n
decreasing_by omega

theorem finish_of_ends {whole rest : List Char} (ends : EndsValue rest) :
    readNumber.finish false whole rest =
      if digitsValue whole < Nat.pow 2 64 then some (.nat (digitsValue whole), rest)
      else (scaledFloat? (digitsValue whole) 0).map fun x => (.float x, rest) := by
  cases rest with
  | nil => simp [readNumber.finish]
  | cons c tail =>
    rcases ends c rfl with rfl | rfl <;> simp [readNumber.finish]

/-- A count below `2^64` reads back from its digits. -/
theorem readNumber_toDigits {n : Nat} (small : n < Nat.pow 2 64) {rest : List Char}
    (ends : EndsValue rest) :
    readNumber (Nat.toDigits 10 n ++ rest) = some (.nat n, rest) := by
  have digits : ∀ c ∈ Nat.toDigits 10 n, c.isDigit = true :=
    fun c member => Nat.isDigit_of_mem_toDigits (by decide) (by decide) member
  have stops : rest.takeWhile Char.isDigit = [] ∧ rest.dropWhile Char.isDigit = rest := by
    cases rest with
    | nil => simp
    | cons c tail =>
      rcases ends c rfl with rfl | rfl <;> simp [List.takeWhile, List.dropWhile, Char.isDigit]
  have whole : (Nat.toDigits 10 n ++ rest).takeWhile Char.isDigit = Nat.toDigits 10 n := by
    rw [List.takeWhile_append_of_pos digits, stops.1, List.append_nil]
  have after : (Nat.toDigits 10 n ++ rest).dropWhile Char.isDigit = rest := by
    rw [List.dropWhile_append_of_pos digits, stops.2]
  have leading : ¬ ((Nat.toDigits 10 n) = [] ∨
      ((Nat.toDigits 10 n).head? = some '0' ∧ 1 < (Nat.toDigits 10 n).length)) := by
    rintro (empty | ⟨zero, long⟩)
    · exact Nat.toDigits_ne_nil empty
    · rw [toDigits_head_zero zero, Nat.toDigits_zero] at long
      simp at long
  obtain ⟨c, cs, first⟩ : ∃ c cs, Nat.toDigits 10 n = c :: cs := by
    cases h : Nat.toDigits 10 n with
    | nil => exact absurd h Nat.toDigits_ne_nil
    | cons c cs => exact ⟨c, cs, rfl⟩
  have notMinus : c ≠ '-' := by
    intro minus
    have := digits c (by simp [first])
    simp [minus] at this
  unfold readNumber
  simp only [first, List.cons_append] at whole after leading
  have noLeadingZero : ¬ (c = '0' ∧ 0 < cs.length) := by simpa using leading
  simp [first, notMinus, whole, after, noLeadingZero]
  rw [finish_of_ends ends, ← first, digitsValue_toDigits, if_pos small]

/-- Every value's text starts with a solid character. -/
theorem writeIndented_head (width depth : Nat) {d : Doc} (canonical : d.Canonical) :
    ∃ c, (writeIndented width depth "" d).toList.head? = some c ∧ Solid c := by
  cases canonical with
  | null => exact ⟨'n', by simp [writeIndented, writeCompact], by simp [Solid]⟩
  | bool b =>
    cases b with
    | false => exact ⟨'f', by simp [writeIndented, writeCompact], by simp [Solid]⟩
    | true => exact ⟨'t', by simp [writeIndented, writeCompact], by simp [Solid]⟩
  | nat small =>
    rename_i n
    obtain ⟨c, cs, first⟩ : ∃ c cs, Nat.toDigits 10 n = c :: cs := by
      cases h : Nat.toDigits 10 n with
      | nil => exact absurd h Nat.toDigits_ne_nil
      | cons c cs => exact ⟨c, cs, rfl⟩
    have digit : c.isDigit = true :=
      Nat.isDigit_of_mem_toDigits (by decide) (by decide) (first ▸ List.mem_cons_self)
    exact ⟨c, by simp [writeIndented, writeCompact, numberText, first], solid_of_isDigit digit⟩
  | str s => exact ⟨'"', by simp [writeIndented, writeCompact, writeString_toList], by simp [Solid]⟩
  | arr each =>
    rename_i items
    cases items with
    | nil => exact ⟨'[', by simp [writeIndented], by simp [Solid]⟩
    | cons d items => exact ⟨'[', by simp [writeIndented_arr_toList], by simp [Solid]⟩
  | obj sorted each =>
    rename_i fields
    cases fields with
    | nil => exact ⟨'{', by simp [writeIndented], by simp [Solid]⟩
    | cons f fields => exact ⟨'{', by simp [writeIndented_obj_toList], by simp [Solid]⟩

theorem writeIndented_cons (width depth : Nat) {d : Doc} (canonical : d.Canonical) :
    ∃ c tail, (writeIndented width depth "" d).toList = c :: tail ∧ Solid c := by
  obtain ⟨c, head, solid⟩ := writeIndented_head width depth canonical
  cases text : (writeIndented width depth "" d).toList with
  | nil => simp [text] at head
  | cons c' tail =>
    simp only [text, List.head?_cons, Option.some.injEq] at head
    exact ⟨c', tail, rfl, head ▸ solid⟩

/-- The reader takes a document back from its indented text, at any depth and before anything
that may follow a value, given fuel beyond the length of the text. -/
def ReadsBack (width : Nat) (d : Doc) : Prop :=
  ∀ (depth fuel : Nat) (rest : List Char), EndsValue rest →
    (writeIndented width depth "" d).toList.length < fuel →
    readValue fuel ((writeIndented width depth "" d).toList ++ rest) = some (d, rest)


theorem readValue_digit {c : Char} (digit : c.isDigit = true) (fuel : Nat) (cs : List Char) :
    readValue (fuel + 1) (c :: cs) = readNumber (c :: cs) := by
  have opens : c ≠ '{' ∧ c ≠ '[' ∧ c ≠ '"' ∧ c ≠ 't' ∧ c ≠ 'f' ∧ c ≠ 'n' := by
    have bounds := digit
    simp only [Char.isDigit, Bool.and_eq_true, decide_eq_true_eq] at bounds
    refine ⟨?_, ?_, ?_, ?_, ?_, ?_⟩ <;> (rintro rfl; revert bounds; decide)
  obtain ⟨brace, bracket, quote, t, f, n⟩ := opens
  rw [readValue, skipBlank_solid (solid_of_isDigit digit)]
  simp [brace, bracket, quote, t, f, n]

theorem insertField_of_lt {key : String} {value : Doc} {acc : List (String × Doc)}
    (below : ∀ f ∈ acc, f.1 < key) : insertField key value acc = acc ++ [(key, value)] := by
  induction acc with
  | nil => rfl
  | cons f acc ih =>
    have lt : f.1 < key := below f List.mem_cons_self
    simp [insertField, String.lt_asymm lt, (String.ne_of_lt lt).symm,
      ih (fun f member => below f (List.mem_cons_of_mem _ member))]

/-! ## Records -/

theorem mem_insertField {key : String} {value : Doc} {acc : List (String × Doc)}
    {f : String × Doc} (member : f ∈ insertField key value acc) : f = (key, value) ∨ f ∈ acc := by
  induction acc with
  | nil => simpa [insertField] using member
  | cons g acc ih =>
    obtain ⟨k, v⟩ := g
    unfold insertField at member
    split at member
    · simpa using member
    · split at member
      · rcases List.mem_cons.mp member with rfl | member
        · exact .inl rfl
        · exact .inr (List.mem_cons_of_mem _ member)
      · rcases List.mem_cons.mp member with rfl | member
        · exact .inr List.mem_cons_self
        · rcases ih member with rfl | member
          · exact .inl rfl
          · exact .inr (List.mem_cons_of_mem _ member)

/-- Inserting a member keeps the keys strictly ascending. -/
theorem insertField_sorted {key : String} {value : Doc} {acc : List (String × Doc)}
    (sorted : acc.Pairwise (·.1 < ·.1)) : (insertField key value acc).Pairwise (·.1 < ·.1) := by
  induction acc with
  | nil => simp [insertField]
  | cons g acc ih =>
    obtain ⟨k, v⟩ := g
    obtain ⟨above, tailSorted⟩ := List.pairwise_cons.mp sorted
    unfold insertField
    split
    · rename_i below
      refine List.Pairwise.cons ?_ (List.Pairwise.cons above tailSorted)
      intro f member
      rcases List.mem_cons.mp member with rfl | member
      · exact below
      · exact String.lt_trans below (above f member)
    · rename_i notBelow
      split
      · rename_i same
        subst same
        exact List.Pairwise.cons above tailSorted
      · rename_i different
        have lt : k < key := Std.lt_of_le_of_ne (String.not_lt.mp notBelow) (Ne.symm different)
        refine List.Pairwise.cons ?_ (ih tailSorted)
        intro f member
        rcases mem_insertField member with rfl | member
        · exact lt
        · exact above f member

/-- A record of canonical values is canonical. -/
theorem record_canonical {fields : List (String × Doc)} (each : ∀ f ∈ fields, f.2.Canonical) :
    (record fields).Canonical := by
  have build : ∀ (rest acc : List (String × Doc)), acc.Pairwise (·.1 < ·.1) →
      (∀ f ∈ acc, f.2.Canonical) → (∀ f ∈ rest, f.2.Canonical) →
      (rest.foldl (fun acc field => insertField field.1 field.2 acc) acc).Pairwise (·.1 < ·.1) ∧
        ∀ f ∈ rest.foldl (fun acc field => insertField field.1 field.2 acc) acc, f.2.Canonical := by
    intro rest
    induction rest with
    | nil => intro acc sorted canonical _; exact ⟨sorted, canonical⟩
    | cons g rest ih =>
      intro acc sorted canonical more
      refine ih _ (insertField_sorted sorted) ?_
        (fun f member => more f (List.mem_cons_of_mem _ member))
      intro f member
      rcases mem_insertField member with rfl | member
      · exact more g List.mem_cons_self
      · exact canonical f member
  obtain ⟨sorted, canonical⟩ := build fields [] List.Pairwise.nil (by simp) each
  exact .obj sorted canonical

/-- Members given with keys strictly ascending make a record of exactly those members. -/
theorem record_of_sorted {fields : List (String × Doc)} (sorted : fields.Pairwise (·.1 < ·.1)) :
    record fields = .obj fields := by
  have build : ∀ (rest acc : List (String × Doc)), (acc ++ rest).Pairwise (·.1 < ·.1) →
      rest.foldl (fun acc field => insertField field.1 field.2 acc) acc = acc ++ rest := by
    intro rest
    induction rest with
    | nil => intro acc _; simp
    | cons g rest ih =>
      intro acc sorted
      have below : ∀ f ∈ acc, f.1 < g.1 := fun f member =>
        (List.pairwise_append.mp sorted).2.2 f member g List.mem_cons_self
      rw [List.foldl_cons, insertField_of_lt below, ih _ (by simpa using sorted)]
      simp
  simp [record, build fields [] (by simpa using sorted)]

/-- Reading one array item: the blanks before it and its value, up to what follows the value,
which decides between the next item and the closing bracket. -/
theorem readItems_item {width depth fuel : Nat} {y : Doc} {acc : List Doc}
    {blanks after : List Char} (readsY : ReadsBack width y) (blank : Blanks blanks)
    (ends : EndsValue after)
    (enough : (writeIndented width (depth + 1) "" y).toList.length < fuel) :
    readItems (fuel + 1) acc (blanks ++ ((writeIndented width (depth + 1) "" y).toList ++ after)) =
      match skipBlank after with
      | ',' :: rest => readItems fuel (y :: acc) rest
      | ']' :: rest => some (.arr (y :: acc).reverse, rest)
      | _ => none := by
  -- what is left is the reader's own match on what follows the value, as stated
  rewrite [readItems, readValue_blanks blank, readsY (depth + 1) fuel after ends enough]
  rfl

/-- Reading one object member: the blanks before it, its quoted key, the colon and its value, up
to what follows the value, which decides between the next member and the closing brace. -/
theorem readFields_member {width depth fuel : Nat} {key : String} {value : Doc}
    {acc : List (String × Doc)} {blanks after : List Char} (readsValue : ReadsBack width value)
    (blank : Blanks blanks) (ends : EndsValue after)
    (enough : (writeIndented width (depth + 1) "" value).toList.length < fuel) :
    readFields (fuel + 1) acc
        (blanks ++ '"' :: (key.toList.flatMap (fun c => (escapeChar "" c).toList) ++
          '"' :: ':' :: ' ' :: ((writeIndented width (depth + 1) "" value).toList ++ after))) =
      match skipBlank after with
      | ',' :: rest => readFields fuel (insertField key value acc) rest
      | '}' :: rest => some (.obj (insertField key value acc), rest)
      | _ => none := by
  rw [readFields, skipBlank_blanks blank]
  simp only [skipBlank]
  simp
  rw [readString_escaped]
  simp [skipBlank]
  rewrite [readValue_space, readsValue (depth + 1) fuel after ends enough]
  rfl

/-- Array members from the first one left to read on, and the closing bracket. -/
theorem readItems_text (width depth : Nat) {items : List Doc}
    (reads : ∀ d ∈ items, ReadsBack width d) :
    ∀ (y : Doc) (acc : List Doc) (blanks rest : List Char) (fuel : Nat), ReadsBack width y →
      Blanks blanks →
      ((writeIndented width (depth + 1) "" y).toList ++
        (writeIndentedItems width depth "" false items).toList).length + 1 < fuel →
      readItems fuel acc (blanks ++ (writeIndented width (depth + 1) "" y).toList ++
        (writeIndentedItems width depth "" false items).toList ++
          '\n' :: List.replicate (width * depth) ' ' ++ ']' :: rest) =
        some (.arr (acc.reverse ++ y :: items), rest) := by
  induction items with
  | nil =>
    intro y acc blanks rest fuel readsY blank enough
    obtain ⟨fuel, rfl⟩ : ∃ f, fuel = f + 1 := ⟨fuel - 1, by omega⟩
    have closing : EndsValue ('\n' :: (List.replicate (width * depth) ' ' ++ ']' :: rest)) := by
      simp [EndsValue]
    simp only [writeIndentedItems, String.toList_empty, List.append_nil] at enough ⊢
    simp only [List.append_assoc, List.cons_append] at closing ⊢
    rw [readItems_item readsY blank closing (by omega)]
    simp [skipBlank, skipBlank_blanks (blanks_replicate _)]
  | cons z zs ih =>
    intro y acc blanks rest fuel readsY blank enough
    obtain ⟨fuel, rfl⟩ : ∃ f, fuel = f + 1 := ⟨fuel - 1, by omega⟩
    have next := ih (fun d member => reads d (List.mem_cons_of_mem _ member)) z (y :: acc)
      ('\n' :: List.replicate (width * (depth + 1)) ' ') rest fuel (reads z List.mem_cons_self)
      (blanks_line _)
    simp only [writeIndentedItems_cons_toList, Bool.false_eq_true, ↓reduceIte,
      List.length_append, List.length_cons, List.length_replicate] at enough next ⊢
    simp only [List.append_assoc, List.cons_append, List.nil_append] at next ⊢
    rw [readItems_item readsY blank (by simp [EndsValue]) (by omega)]
    simp only [skipBlank]
    simp
    rw [next (by omega)]
    simp

/-- Object members from the first one left to read on, and the closing brace. -/
theorem readFields_text (width depth : Nat) {fields : List (String × Doc)}
    (reads : ∀ f ∈ fields, ReadsBack width f.2) :
    ∀ (key : String) (value : Doc) (acc : List (String × Doc)) (blanks rest : List Char)
      (fuel : Nat), ReadsBack width value → Blanks blanks →
      (acc ++ (key, value) :: fields).Pairwise (·.1 < ·.1) →
      (key.toList.flatMap (fun c => (escapeChar "" c).toList) ++
        (writeIndented width (depth + 1) "" value).toList ++
          (writeIndentedFields width depth "" false fields).toList).length + 5 < fuel →
      readFields fuel acc (blanks ++ '"' :: key.toList.flatMap (fun c => (escapeChar "" c).toList) ++
        '"' :: ':' :: ' ' :: (writeIndented width (depth + 1) "" value).toList ++
          (writeIndentedFields width depth "" false fields).toList ++
            '\n' :: List.replicate (width * depth) ' ' ++ '}' :: rest) =
        some (.obj (acc ++ (key, value) :: fields), rest) := by
  induction fields with
  | nil =>
    intro key value acc blanks rest fuel readsValue blank sorted enough
    obtain ⟨fuel, rfl⟩ : ∃ f, fuel = f + 1 := ⟨fuel - 1, by omega⟩
    have below : ∀ f ∈ acc, f.1 < key := fun f member =>
      (List.pairwise_append.mp sorted).2.2 f member (key, value) List.mem_cons_self
    have closing : EndsValue ('\n' :: (List.replicate (width * depth) ' ' ++ '}' :: rest)) := by
      simp [EndsValue]
    simp only [writeIndentedFields, String.toList_empty, List.append_nil, List.length_append]
      at enough ⊢
    simp only [List.append_assoc, List.cons_append] at closing ⊢
    rw [readFields_member readsValue blank closing (by omega)]
    simp [skipBlank, skipBlank_blanks (blanks_replicate _), insertField_of_lt below]
  | cons field fields ih =>
    intro key value acc blanks rest fuel readsValue blank sorted enough
    obtain ⟨fuel, rfl⟩ : ∃ f, fuel = f + 1 := ⟨fuel - 1, by omega⟩
    obtain ⟨nextKey, nextValue⟩ := field
    have below : ∀ f ∈ acc, f.1 < key := fun f member =>
      (List.pairwise_append.mp sorted).2.2 f member (key, value) List.mem_cons_self
    have next := ih (fun f member => reads f (List.mem_cons_of_mem _ member)) nextKey nextValue
      (acc ++ [(key, value)]) ('\n' :: List.replicate (width * (depth + 1)) ' ') rest fuel
      (reads (nextKey, nextValue) List.mem_cons_self) (blanks_line _) (by simpa using sorted)
    simp only [writeIndentedFields_cons_toList, Bool.false_eq_true, ↓reduceIte,
      List.length_append, List.length_cons, List.length_replicate] at enough next ⊢
    simp only [List.append_assoc, List.cons_append, List.nil_append] at next ⊢
    rw [readFields_member readsValue blank (by simp [EndsValue]) (by omega)]
    simp [skipBlank, insertField_of_lt below]
    rw [next (by omega)]

/-- Every canonical document reads back from its indented text. -/
theorem Canonical.readsBack (width : Nat) {d : Doc} (canonical : d.Canonical) :
    ReadsBack width d := by
  induction canonical with
  | null =>
    intro depth fuel rest _ enough
    obtain ⟨fuel, rfl⟩ : ∃ f, fuel = f + 1 := ⟨fuel - 1, by omega⟩
    simp [writeIndented, writeCompact, readValue, skipBlank]
  | bool b =>
    intro depth fuel rest _ enough
    obtain ⟨fuel, rfl⟩ : ∃ f, fuel = f + 1 := ⟨fuel - 1, by omega⟩
    cases b <;> simp [writeIndented, writeCompact, readValue, skipBlank]
  | nat small =>
    rename_i n
    intro depth fuel rest ends enough
    obtain ⟨fuel, rfl⟩ : ∃ f, fuel = f + 1 := ⟨fuel - 1, by omega⟩
    obtain ⟨c, cs, first⟩ : ∃ c cs, Nat.toDigits 10 n = c :: cs := by
      cases h : Nat.toDigits 10 n with
      | nil => exact absurd h Nat.toDigits_ne_nil
      | cons c cs => exact ⟨c, cs, rfl⟩
    have digit : c.isDigit = true :=
      Nat.isDigit_of_mem_toDigits (by decide) (by decide) (first ▸ List.mem_cons_self)
    have text : (writeIndented width depth "" (.nat n)).toList = Nat.toDigits 10 n := by
      simp [writeIndented, writeCompact, numberText]
    rw [text, first, List.cons_append, readValue_digit digit, ← List.cons_append, ← first,
      readNumber_toDigits small ends]
  | str s =>
    intro depth fuel rest _ enough
    obtain ⟨fuel, rfl⟩ : ∃ f, fuel = f + 1 := ⟨fuel - 1, by omega⟩
    simp only [writeIndented, writeCompact, writeString_toList, String.toList_empty,
      List.nil_append, List.cons_append, List.append_assoc]
    simp [readValue, skipBlank, readString_escaped]
  | arr each reads =>
    rename_i items
    intro depth fuel rest _ enough
    obtain ⟨fuel, rfl⟩ : ∃ f, fuel = f + 1 := ⟨fuel - 1, by omega⟩
    cases items with
    | nil => simp [writeIndented, readValue, skipBlank]
    | cons y ys =>
      obtain ⟨c, tail, first, solid⟩ :=
        writeIndented_cons width (depth + 1) (each y List.mem_cons_self)
      have items := readItems_text width depth
        (fun d member => reads d (List.mem_cons_of_mem _ member)) y [] [] rest fuel
        (reads y List.mem_cons_self) (by simp [Blanks])
      rw [writeIndented_arr_toList, writeIndentedItems_cons_toList] at enough ⊢
      simp only [↓reduceIte, List.nil_append, List.length_cons, List.length_append,
        List.length_replicate] at enough items ⊢
      rw [first] at items enough ⊢
      simp only [List.append_assoc, List.cons_append, List.nil_append, List.reverse_nil] at items ⊢
      rw [readValue, skipBlank_solid (by simp [Solid])]
      simp only [skipBlank_line_solid _ solid]
      split
      · rename_i same
        exact absurd (List.cons.inj same).1 solid.2.2.2.2.1
      · exact items (by simp only [List.length_cons] at enough ⊢; omega)
  | obj sorted each reads =>
    rename_i fields
    intro depth fuel rest _ enough
    obtain ⟨fuel, rfl⟩ : ∃ f, fuel = f + 1 := ⟨fuel - 1, by omega⟩
    cases fields with
    | nil => simp [writeIndented, readValue, skipBlank]
    | cons field fields =>
      obtain ⟨key, value⟩ := field
      have members := readFields_text width depth
        (fun f member => reads f (List.mem_cons_of_mem _ member)) key value [] [] rest fuel
        (reads (key, value) List.mem_cons_self) (by simp [Blanks]) (by simpa using sorted)
      rw [writeIndented_obj_toList, writeIndentedFields_cons_toList] at enough ⊢
      simp only [↓reduceIte, List.nil_append, List.length_cons, List.length_append,
        List.length_replicate] at enough members ⊢
      simp only [List.append_assoc, List.cons_append, List.nil_append] at members ⊢
      rw [readValue, skipBlank_solid (by simp [Solid])]
      simp only [skipBlank_line_solid _ (show Solid '"' by simp [Solid])]
      split
      · rename_i same
        exact absurd (List.cons.inj same).1 (by decide)
      · exact members (by omega)

/-- Reading the indented text of a canonical document gives the document back. -/
theorem read?_indented (width : Nat) {d : Doc} (canonical : d.Canonical) :
    read? (d.indented width) = some d := by
  obtain ⟨c, tail, first, solid⟩ := writeIndented_cons width 0 canonical
  have reads := canonical.readsBack width 0 (tail.length + 2) [] (by simp [EndsValue])
    (by simp [first])
  rw [first, List.append_nil] at reads
  have noMark : c ≠ '\uFEFF' := solid.2.2.2.2.2.2
  unfold read? indented
  rw [first]
  simp [noMark, reads, skipBlank]

end Doc

/-- The reader of this library parses back what its indented writer writes. -/
theorem JsonCodec.standard_readsBack (width : Nat) : JsonCodec.standard.ReadsBack (some width) :=
  fun _ canonical => Doc.read?_indented width canonical

end DriverSynth
