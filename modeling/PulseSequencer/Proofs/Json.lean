import Mathlib.Data.List.Basic
import PulseSequencer.Json.Basic

/-!
# Reading JSON back

What the reader makes of texts that were written without blanks. A text is read to its end and no
further, whatever follows it in the enclosing value, and `depth` never runs out before the text
does.

Results:
1. `text?_points`, `readString_quoted`: a string is read as the characters that were escaped in it.
2. `reads_string`, `reads_natural`: strings and natural numbers.
3. `reads_array`, `reads_object`: arrays and objects, from what is known of their parts.
4. `parse?_of_reads`: a whole text.
-/

namespace PulseSequencer.Json

/-! ## Strings -/

/-- The code points of a text. -/
def points (text : List Char) : List Nat := text.map Char.toNat

/-- No character is half of a surrogate pair. -/
theorem text?_points (text : List Char) : text? (points text) = some text := by
  induction text with
  | nil => rfl
  | cons c rest ih =>
    have valid : c.toNat < 0xd800 ∨ 0xdfff < c.toNat := by
      rcases c.valid with low | ⟨high, _⟩
      · exact .inl low
      · exact .inr high
    have notHigh : isHighSurrogate c.toNat = false := by
      rw [isHighSurrogate, Bool.and_eq_false_iff, decide_eq_false_iff_not, decide_eq_false_iff_not]
      omega
    have notLow : isLowSurrogate c.toNat = false := by
      rw [isLowSurrogate, Bool.and_eq_false_iff, decide_eq_false_iff_not, decide_eq_false_iff_not]
      omega
    rw [points, List.map_cons, text?.eq_def]
    simp only [notHigh, notLow, Bool.false_eq_true, if_false]
    rw [← points, ih]
    simp

/-- Puts a code point before those that were read. -/
def prepend (point : Nat) (read : List Nat × List Char) : List Nat × List Char :=
  (point :: read.1, read.2)

theorem readString_letter {letter : Char} {point : Nat} (escaped : escaped? letter = some point)
    (rest : List Char) :
    readString ('\\' :: letter :: rest) = (readString rest).map (prepend point) := by
  have notHex : letter ≠ 'u' := by
    rintro rfl
    cases escaped
  rw [readString.eq_4 letter rest fun _ _ _ _ _ same _ => notHex same, escaped]
  cases readString rest <;> rfl

theorem readString_hex {a b c d : Char} {i j k l : Nat} (first : hexDigit? a = some i)
    (second : hexDigit? b = some j) (third : hexDigit? c = some k) (fourth : hexDigit? d = some l)
    (rest : List Char) : readString ('\\' :: 'u' :: a :: b :: c :: d :: rest)
      = (readString rest).map (prepend (0x1000 * i + 0x100 * j + 0x10 * k + l)) := by
  rw [readString, first, second, third, fourth]
  cases readString rest <;> rfl

theorem readString_plain {c : Char} (visible : 0x20 ≤ c.toNat) (noQuote : c ≠ '"')
    (noBackslash : c ≠ '\\') (rest : List Char) :
    readString (c :: rest) = (readString rest).map (prepend c.toNat) := by
  have taken : ¬ (c.toNat < 0x20 ∨ c = '\\') := by
    rintro (low | same)
    · omega
    · exact noBackslash same
  rw [readString.eq_5 c rest noQuote (fun _ _ _ _ _ same _ => noBackslash same)
    fun _ _ same _ => noBackslash same, if_neg taken]
  cases readString rest <;> rfl

theorem hexDigit?_digitChar {d : Nat} (small : d < 16) : hexDigit? (Nat.digitChar d) = some d := by
  revert d
  decide

/-- A character is read back, whichever way it was escaped. -/
theorem readString_escape (c : Char) (rest : List Char) :
    readString (escape c ++ rest) = (readString rest).map (prepend c.toNat) := by
  fun_cases escape c with
  | case1 isQuote =>
    subst isQuote
    exact readString_letter rfl rest
  | case2 _ isBackslash =>
    subst isBackslash
    exact readString_letter rfl rest
  | case3 _ _ isLetter =>
    rw [isLetter]
    exact readString_letter rfl rest
  | case4 _ _ _ isLetter =>
    rw [isLetter]
    exact readString_letter rfl rest
  | case5 _ _ _ _ isLetter =>
    rw [isLetter]
    exact readString_letter rfl rest
  | case6 _ _ _ _ _ isLetter =>
    rw [isLetter]
    exact readString_letter rfl rest
  | case7 _ _ _ _ _ _ isLetter =>
    rw [isLetter]
    exact readString_letter rfl rest
  | case8 _ _ _ _ _ _ _ control =>
    have value : c.toNat = 0x1000 * 0 + 0x100 * 0 + 0x10 * (c.toNat / 16) + c.toNat % 16 := by
      omega
    conv_rhs => rw [value]
    exact readString_hex rfl rfl (hexDigit?_digitChar (by omega)) (hexDigit?_digitChar (by omega))
      rest
  | case9 noQuote noBackslash _ _ _ _ _ visible =>
    exact readString_plain (by omega) noQuote noBackslash rest

theorem readString_quoted (text rest : List Char) :
    readString (text.flatMap escape ++ '"' :: rest) = some (points text, rest) := by
  induction text with
  | nil => rfl
  | cons c text ih =>
    rw [List.flatMap_cons, List.append_assoc, readString_escape, ih]
    rfl

/-! ## Values and what follows them -/

/-- What may follow a value: nothing, or a character that separates or closes. -/
def Ends : List Char → Prop
  | [] => True
  | c :: _ => c = ',' ∨ c = ']' ∨ c = '\x7d'

theorem ends_comma (rest : List Char) : Ends (',' :: rest) := .inl rfl

theorem ends_bracket (rest : List Char) : Ends (']' :: rest) := .inr (.inl rfl)

theorem ends_brace (rest : List Char) : Ends ('\x7d' :: rest) := .inr (.inr rfl)

/-- A text is read as a value, to its end and no further. It starts with a character that starts a
value. -/
structure Reads (text : List Char) (value : Json) : Prop where
  start : ∃ c tail, text = c :: tail ∧ isBlank c = false ∧ c ≠ ']'
  read : ∀ depth rest, text.length < depth → Ends rest →
    readValue depth (text ++ rest) = some (value, rest)

theorem skipBlanks_cons {c : Char} (visible : isBlank c = false) (rest : List Char) :
    skipBlanks (c :: rest) = c :: rest := by
  rw [skipBlanks, List.dropWhile_cons, visible]
  rfl

theorem quote_append (text : String) (rest : List Char) :
    quote text ++ rest = '"' :: (text.toList.flatMap escape ++ '"' :: rest) := by
  simp [quote]

theorem reads_string (text : String) : Reads (quote text) (.string (points text.toList)) := by
  refine ⟨⟨'"', _, rfl, by decide, by decide⟩, fun depth rest enough _ => ?_⟩
  obtain ⟨depth, rfl⟩ := Nat.exists_eq_succ_of_ne_zero (Nat.ne_zero_of_lt enough)
  rw [quote_append, readValue, skipBlanks_cons (by decide)]
  simp only [readString_quoted]
  rfl

/-! ## Natural numbers -/

/-- Digits start with zero for zero only. -/
theorem toDigits_leading {n : Nat} (positive : 0 < n) :
    ∃ first rest, Nat.toDigits 10 n = first :: rest ∧ first ≠ '0' := by
  induction n using Nat.strongRecOn with
  | ind n ih =>
    rcases Nat.lt_or_ge n 10 with small | large
    · have nonzero : ∀ d < 10, 0 < d → Nat.digitChar d ≠ '0' := by decide
      exact ⟨_, [], Nat.toDigits_of_lt_base small, nonzero n small positive⟩
    · obtain ⟨first, rest, same, nonzero⟩ := ih (n / 10) (by omega) (by omega)
      rw [Nat.toDigits_of_base_le (by omega) large, same]
      exact ⟨first, rest ++ [Nat.digitChar (n % 10)], rfl, nonzero⟩

theorem isDigit_toDigits (n : Nat) : ∀ c ∈ Nat.toDigits 10 n, c.isDigit = true :=
  fun _ present => Nat.isDigit_of_mem_toDigits (by omega) (by omega) present

theorem Ends.not_digit {c : Char} {rest : List Char} (ends : Ends (c :: rest)) :
    c.isDigit = false := by
  rcases ends with rfl | rfl | rfl <;> rfl

theorem readDigits_append {digits rest : List Char} (nonempty : digits ≠ [])
    (isDigits : ∀ c ∈ digits, c.isDigit = true) (ends : Ends rest) :
    readDigits (digits ++ rest) = some (digits, rest) := by
  have stop : rest.takeWhile Char.isDigit = [] ∧ rest.dropWhile Char.isDigit = rest := by
    cases rest with
    | nil => exact ⟨rfl, rfl⟩
    | cons c rest => simp [ends.not_digit]
  rw [readDigits, List.takeWhile_append_of_pos isDigits, List.dropWhile_append_of_pos isDigits,
    stop.1, stop.2, List.append_nil]
  cases digits with
  | nil => exact absurd rfl nonempty
  | cons c digits => rfl

theorem readWhole_toDigits (n : Nat) {rest : List Char} (ends : Ends rest) :
    readWhole (Nat.toDigits 10 n ++ rest) = some (Nat.toDigits 10 n, rest) := by
  rcases Nat.eq_zero_or_pos n with rfl | positive
  · rfl
  · obtain ⟨first, tail, same, nonzero⟩ := toDigits_leading positive
    rw [readWhole.eq_2, readDigits_append (Nat.toDigits_ne_nil) (isDigit_toDigits n) ends]
    intro tail' zero
    rw [same] at zero
    exact nonzero (List.cons.inj zero).1

theorem readFraction_of_ends {rest : List Char} (ends : Ends rest) :
    readFraction rest = some ([], rest) := by
  refine readFraction.eq_2 rest fun tail same => ?_
  subst same
  rcases ends with dot | dot | dot <;> cases dot

theorem readExponent_of_ends {rest : List Char} (ends : Ends rest) :
    readExponent rest = some ([], rest) := by
  cases rest with
  | nil => rfl
  | cons c rest => rcases ends with rfl | rfl | rfl <;> rfl

theorem exists_digit (n : Nat) :
    ∃ first tail, Nat.toDigits 10 n = first :: tail ∧ first.isDigit = true := by
  obtain ⟨first, tail, same⟩ := List.exists_cons_of_ne_nil (Nat.toDigits_ne_nil (n := n) (b := 10))
  exact ⟨first, tail, same, isDigit_toDigits n first (same ▸ List.mem_cons_self)⟩

theorem readNumber_toDigits (n : Nat) {rest : List Char} (ends : Ends rest) :
    readNumber (Nat.toDigits 10 n ++ rest) = some (Nat.toDigits 10 n, rest) := by
  obtain ⟨first, tail, same, digit⟩ := exists_digit n
  have whole := readWhole_toDigits n ends
  rw [same, List.cons_append] at whole ⊢
  rw [readNumber]
  · simp [whole, readFraction_of_ends ends, readExponent_of_ends ends]
  · intro tail minus
    cases minus
    cases digit

theorem isBlank_of_isDigit {c : Char} (digit : c.isDigit = true) : isBlank c = false := by
  by_contra blank
  rw [Bool.not_eq_false, isBlank] at blank
  simp only [Bool.or_eq_true, beq_iff_eq] at blank
  rcases blank with ((rfl | rfl) | rfl) | rfl <;> cases digit

/-- A digit starts a number. -/
theorem readValue_digit {first : Char} (digit : first.isDigit = true) (depth : Nat)
    (tail : List Char) : readValue (depth + 1) (first :: tail)
      = (readNumber (first :: tail)).map fun read => (.number read.1, read.2) := by
  rw [readValue, skipBlanks_cons (isBlank_of_isDigit digit)]
  split
  all_goals try (next same => cases same; cases digit)
  cases readNumber (first :: tail) <;> rfl

theorem reads_natural (n : Nat) : Reads (Nat.toDigits 10 n) (.number (Nat.toDigits 10 n)) := by
  obtain ⟨first, tail, same, digit⟩ := exists_digit n
  refine ⟨⟨first, tail, same, isBlank_of_isDigit digit, ?_⟩, fun depth rest enough ends => ?_⟩
  · rintro rfl
    cases digit
  · obtain ⟨depth, rfl⟩ := Nat.exists_eq_succ_of_ne_zero (Nat.ne_zero_of_lt enough)
    have number := readNumber_toDigits n ends
    rw [same, List.cons_append] at number ⊢
    rw [readValue_digit digit, number]
    rfl

/-! ## Arrays and objects -/

theorem commaSeparated_singleton (text : List Char) : commaSeparated [text] = text :=
  List.intercalate_singleton

theorem commaSeparated_cons (text next : List Char) (more : List (List Char)) :
    commaSeparated (text :: next :: more) = text ++ ',' :: commaSeparated (next :: more) := by
  rw [commaSeparated, List.intercalate_cons_cons, List.append_assoc]
  rfl

/-- The first character of texts with commas between them. -/
theorem commaSeparated_start {c : Char} {text tail : List Char} (same : text = c :: tail)
    (more : List (List Char)) : ∃ following, commaSeparated (text :: more) = c :: following := by
  cases more with
  | nil => exact ⟨tail, by rw [commaSeparated_singleton, same]⟩
  | cons next more => exact ⟨_, by rw [commaSeparated_cons, same, List.cons_append]⟩

theorem readValue_bracket {c : Char} (visible : isBlank c = false) (opened : c ≠ ']') (depth : Nat)
    (tail : List Char) : readValue (depth + 1) ('[' :: c :: tail)
      = (readItems depth (c :: tail)).map fun read => (.array read.1, read.2) := by
  rw [readValue, skipBlanks_cons (by decide)]
  simp only [skipBlanks_cons visible]
  split
  · next same => exact absurd (List.cons.inj same).1 opened
  · cases readItems depth (c :: tail) <;> rfl

section

variable {α : Type} {text : α → List Char} {value : α → Json} {items : List α}

/-- The items of an array, read one after the other. Every item takes one of the depth, and the text
behind it is shorter by more than that. -/
theorem readItems_of_reads (nonempty : items ≠ [])
    (reads : ∀ item ∈ items, Reads (text item) (value item)) (depth : Nat) (rest : List Char)
    (enough : (commaSeparated (items.map text)).length + 1 < depth) :
    readItems depth (commaSeparated (items.map text) ++ ']' :: rest)
      = some (items.map value, rest) := by
  induction items generalizing depth with
  | nil => exact absurd rfl nonempty
  | cons item more ih =>
    obtain ⟨first, later⟩ := List.forall_mem_cons.mp reads
    obtain ⟨depth, rfl⟩ := Nat.exists_eq_succ_of_ne_zero (Nat.ne_zero_of_lt enough)
    rw [readItems]
    cases more with
    | nil =>
      simp only [List.map_cons, List.map_nil, commaSeparated_singleton] at enough ⊢
      rw [first.read depth _ (by omega) (ends_bracket rest)]
      rfl
    | cons next more =>
      have following := ih (by simp) later depth
      simp only [List.map_cons, commaSeparated_cons, List.length_append, List.length_cons,
        List.append_assoc, List.cons_append] at enough following ⊢
      rw [first.read depth _ (by omega) (ends_comma _)]
      simp [skipBlanks_cons (c := ',') rfl, following (by omega)]

theorem reads_array (reads : ∀ item ∈ items, Reads (text item) (value item)) :
    Reads ('[' :: (commaSeparated (items.map text) ++ [']'])) (.array (items.map value)) := by
  refine ⟨⟨'[', _, rfl, by decide, by decide⟩, fun depth rest enough _ => ?_⟩
  obtain ⟨depth, rfl⟩ := Nat.exists_eq_succ_of_ne_zero (Nat.ne_zero_of_lt enough)
  rw [List.cons_append, List.append_assoc, List.singleton_append]
  cases items with
  | nil => rfl
  | cons item more =>
    simp only [List.length_cons, List.length_append] at enough
    have read := readItems_of_reads (by simp) reads depth rest (by omega)
    obtain ⟨c, tail, same, visible, opened⟩ := (List.forall_mem_cons.mp reads).1.start
    obtain ⟨following, start⟩ := commaSeparated_start same (more.map text)
    rw [List.map_cons, start, List.cons_append] at read ⊢
    rw [readValue_bracket visible opened, read]
    rfl

end

/-- A member of an object, with the text of its value. -/
structure Member where
  name : String
  text : List Char
  value : Json

namespace Member

/-- The text of a member. -/
def written (member : Member) : List Char := quote member.name ++ ':' :: member.text

/-- A member as it is read. -/
def read (member : Member) : List Nat × Json := (points member.name.toList, member.value)

variable (member : Member)

theorem written_append (rest : List Char) : member.written ++ rest
    = '"' :: (member.name.toList.flatMap escape ++ '"' :: ':' :: (member.text ++ rest)) := by
  simp [written, quote]

theorem length_written : member.text.length + 1 < member.written.length := by
  simp only [written, quote, List.length_append, List.length_cons]
  omega

variable {member} {depth : Nat} (reads : Reads member.text member.value)
  (room : member.text.length < depth) (rest : List Char)

include reads room

theorem readMembers_last :
    readMembers (depth + 1) (member.written ++ '\x7d' :: rest) = some ([member.read], rest) := by
  rw [written_append, readMembers]
  simp only [skipBlanks_cons (c := '"') rfl, readString_quoted, Option.bind_eq_bind,
    Option.bind_some, skipBlanks_cons (c := ':') rfl, reads.read depth _ room (ends_brace rest)]
  rfl

theorem readMembers_more : readMembers (depth + 1) (member.written ++ ',' :: rest)
    = (readMembers depth rest).map fun following => (member.read :: following.1, following.2) := by
  rw [written_append, readMembers]
  simp only [skipBlanks_cons (c := '"') rfl, readString_quoted, Option.bind_eq_bind,
    Option.bind_some, skipBlanks_cons (c := ':') rfl, reads.read depth _ room (ends_comma rest),
    skipBlanks_cons (c := ',') rfl]
  cases readMembers depth rest <;> rfl

end Member

/-- The members of an object, read one after the other as the items of an array are. -/
theorem readMembers_of_reads {members : List Member} (nonempty : members ≠ [])
    (reads : ∀ member ∈ members, Reads member.text member.value) (depth : Nat) (rest : List Char)
    (enough : (commaSeparated (members.map Member.written)).length + 1 < depth) :
    readMembers depth (commaSeparated (members.map Member.written) ++ '\x7d' :: rest)
      = some (members.map Member.read, rest) := by
  induction members generalizing depth with
  | nil => exact absurd rfl nonempty
  | cons member more ih =>
    obtain ⟨first, later⟩ := List.forall_mem_cons.mp reads
    obtain ⟨depth, rfl⟩ := Nat.exists_eq_succ_of_ne_zero (Nat.ne_zero_of_lt enough)
    have shorter := member.length_written
    cases more with
    | nil =>
      simp only [List.map_cons, List.map_nil, commaSeparated_singleton] at enough ⊢
      exact Member.readMembers_last first (by omega) rest
    | cons next more =>
      have following := ih (by simp) later depth
      simp only [List.map_cons, commaSeparated_cons, List.length_append, List.length_cons,
        List.append_assoc, List.cons_append] at enough following ⊢
      rw [Member.readMembers_more first (by omega), following (by omega)]
      rfl

theorem readValue_brace (depth : Nat) (tail : List Char) :
    readValue (depth + 1) ('\x7b' :: '"' :: tail)
      = (readMembers depth ('"' :: tail)).map fun read => (.object read.1, read.2) := by
  rw [readValue, skipBlanks_cons (by decide)]
  simp only [skipBlanks_cons (c := '"') rfl]
  split
  · next same => cases same
  · cases readMembers depth ('"' :: tail) <;> rfl

theorem reads_object {members : List Member}
    (reads : ∀ member ∈ members, Reads member.text member.value) :
    Reads ('\x7b' :: (commaSeparated (members.map Member.written) ++ ['\x7d']))
      (.object (members.map Member.read)) := by
  refine ⟨⟨'\x7b', _, rfl, by decide, by decide⟩, fun depth rest enough _ => ?_⟩
  obtain ⟨depth, rfl⟩ := Nat.exists_eq_succ_of_ne_zero (Nat.ne_zero_of_lt enough)
  rw [List.cons_append, List.append_assoc, List.singleton_append]
  cases members with
  | nil => rfl
  | cons member more =>
    simp only [List.length_cons, List.length_append] at enough
    have read := readMembers_of_reads (by simp) reads depth rest (by omega)
    have quoted := member.written_append []
    rw [List.append_nil] at quoted
    obtain ⟨following, start⟩ := commaSeparated_start quoted (more.map Member.written)
    rw [List.map_cons, start, List.cons_append] at read ⊢
    rw [readValue_brace, read]
    rfl

/-! ## Whole texts -/

theorem parse?_of_reads {text : List Char} {value : Json} (reads : Reads text value) :
    parse? (String.ofList text) = some value := by
  have read := reads.read (2 * text.length + 1) [] (by omega) trivial
  rw [List.append_nil] at read
  simp only [parse?, String.toList_ofList, read]
  rfl

end PulseSequencer.Json
