import Mathlib
import Beacon.Json.Parser
import Beacon.Json.Printer

set_option autoImplicit false

/-! # What is written as text is read back

The compact text of a value spells that value (`parse_render`). Each reader takes exactly the
characters that the writer gave, whatever stands after them: the digits of a number
(`unsigned?_digits`), the escapes of a string (`stringCodes_text`), and by recursion on the value
the items of an array and the members of an object. A text is longer than its value is deep, so the
reader's bound on the depth is never met. Values that stand for something other than a text, such as
a string that is not Unicode, are left out (`IsPlain`). -/

namespace Beacon

namespace Json

/-! ## Plain values -/

mutual

/-- A value whose strings are texts and whose numbers have neither sign, fraction nor exponent. -/
def IsPlain : Json → Prop
  | .null | .bool _ | .natural _ | .string _ => True
  | .decimal _ | .rawString _ _ | .unreadable _ => False
  | .array items => AllPlain items
  | .object members => MembersPlain members

/-- All of the values are plain. -/
def AllPlain : List Json → Prop
  | [] => True
  | j :: js => IsPlain j ∧ AllPlain js

/-- The values of all members are plain. -/
def MembersPlain : List (String × Json) → Prop
  | [] => True
  | (_, j) :: ms => IsPlain j ∧ MembersPlain ms

end

/-! ## Numbers -/

/-- What may follow a value in a compact text: nothing, a comma, or a closing bracket or brace. -/
def Ends (rest : List Char) : Prop := ∀ c ∈ rest.head?, c = ',' ∨ c = ']' ∨ c = '\x7d'

theorem Ends.isDigit {c : Char} {rest : List Char} (h : Ends (c :: rest)) : isDigit c = false := by
  rcases h c rfl with rfl | rfl | rfl <;> decide

theorem isDigit_of_mem_digits {n : Nat} {c : Char} (h : c ∈ digits n) : isDigit c = true := by
  have hdigit := Nat.isDigit_of_mem_toDigits (by decide) (by decide) h
  simpa [isDigit, Char.isDigit, Char.le_def] using hdigit

/-- A positive number is not written with a leading zero. -/
theorem head?_digits_ne {n : Nat} (hpos : 0 < n) : (digits n).head? ≠ some '0' := by
  induction n using Nat.strong_induction_on with
  | _ n ih =>
      rw [digits, Nat.toDigits_eq_if (by decide)]
      split
      · next hlt =>
          rw [List.head?_cons, ne_eq, Option.some.injEq, Nat.digitChar_eq_zero]
          exact hpos.ne'
      · next hge =>
          have hfirst := ih (n / 10) (by omega) (by omega)
          rwa [List.head?_append_of_ne_nil _ Nat.toDigits_ne_nil]

theorem takeWhile_digits (n : Nat) {rest : List Char} (hrest : Ends rest) :
    (digits n ++ rest).takeWhile isDigit = digits n ∧
      (digits n ++ rest).dropWhile isDigit = rest := by
  have hall : ∀ c ∈ digits n, isDigit c = true := fun c hc => isDigit_of_mem_digits hc
  rw [List.takeWhile_append_of_pos hall, List.dropWhile_append_of_pos hall]
  cases rest with
  | nil => simp
  | cons c rest => simp [hrest.isDigit]

theorem digitValue_eq_zero {c : Char} (hdigit : isDigit c = true) (hzero : digitValue c = 0) :
    c = '0' := by
  simp only [isDigit, Bool.and_eq_true, decide_eq_true_eq, Char.le_def] at hdigit
  have hle : c.toNat ≤ '0'.toNat := Nat.sub_eq_zero_iff_le.1 hzero
  exact Char.le_antisymm hle hdigit.1

/-- The digits of a number are read as a whole number. -/
theorem whole?_digits (n : Nat) {rest : List Char} (hrest : Ends rest) :
    whole? (digits n ++ rest) = some ((digits n).map digitValue, rest) := by
  obtain ⟨htake, hdrop⟩ := takeWhile_digits n hrest
  have hne : (digits n).isEmpty = false := List.isEmpty_eq_false_iff.2 Nat.toDigits_ne_nil
  have hlead : ¬ (((digits n).map digitValue).head? = some 0 ∧
      ((digits n).map digitValue).length > 1) := by
    rintro ⟨hhead, hlong⟩
    by_cases hzero : n = 0
    · subst hzero
      simp [digits, Nat.toDigits_zero] at hlong
    · rw [List.head?_map, Option.map_eq_some_iff] at hhead
      obtain ⟨c, hc, hvalue⟩ := hhead
      obtain rfl := digitValue_eq_zero (isDigit_of_mem_digits (List.mem_of_mem_head? hc)) hvalue
      exact head?_digits_ne (Nat.pos_of_ne_zero hzero) hc
  rw [whole?, digits1?, htake, hdrop, hne]
  simp only [Bool.false_eq_true, if_false, Option.bind_eq_bind, Option.bind_some]
  rw [if_neg (by simpa using hlead)]

theorem fraction?_ends {rest : List Char} (hrest : Ends rest) :
    fraction? rest = some ([], rest) := by
  cases rest with
  | nil => rfl
  | cons c rest => rcases hrest c rfl with rfl | rfl | rfl <;> rfl

theorem exponent?_ends {rest : List Char} (hrest : Ends rest) :
    exponent? rest = some (none, rest) := by
  cases rest with
  | nil => rfl
  | cons c rest => rcases hrest c rfl with rfl | rfl | rfl <;> rfl

/-- The value of the digits of a number is the number. -/
theorem foldl_digits (n : Nat) :
    ((digits n).map digitValue).foldl (fun n d => n * 10 + d) 0 = n := by
  have hvalue := Nat.ofDigitChars_ten_toDigits (n := n)
  rw [Nat.ofDigitChars_eq_foldl] at hvalue
  rw [List.foldl_map]
  simpa only [digits, digitValue, Nat.mul_comm] using hvalue

/-- The digits of a number spell it. -/
theorem unsigned?_digits (n : Nat) {rest : List Char} (hrest : Ends rest) :
    unsigned? false (digits n ++ rest) = some (.natural n, rest) := by
  simp only [unsigned?, whole?_digits n hrest, fraction?_ends hrest, exponent?_ends hrest,
    Option.bind_eq_bind, Option.bind_some, foldl_digits]
  rfl

/-! ## Strings -/

/-- No character is half of a surrogate pair. -/
theorem toNat_range (c : Char) :
    isLead c.toNat = false ∧ isTrail c.toNat = false ∧ c.toNat < bareMark := by
  have hvalid : c.toNat < 0xD800 ∨ 0xDFFF < c.toNat ∧ c.toNat < 0x110000 := c.valid
  simp only [isLead, isTrail, bareMark, Bool.and_eq_false_iff, decide_eq_false_iff_not]
  omega

theorem joinPairs_toNat (cs : List Char) : joinPairs (cs.map Char.toNat) = cs.map Char.toNat := by
  induction cs with
  | nil => rfl
  | cons c cs ih =>
      cases cs with
      | nil => rfl
      | cons d cs =>
          have hlead : (isLead c.toNat && isTrail d.toNat) = false := by
            rw [(toNat_range c).1, Bool.false_and]
          rw [List.map_cons] at ih ⊢
          rw [List.map_cons, joinPairs, hlead, if_neg Bool.false_ne_true, ih]

theorem anyBare_toNat (cs : List Char) : anyBare (cs.map Char.toNat) = false := by
  simp only [anyBare, List.any_map, List.any_eq_false, Function.comp_apply, decide_eq_true_eq]
  intro c _
  exact Nat.not_le_of_lt (toNat_range c).2.2

/-- The characters of a text are the codes of that text. -/
theorem ofCodes_toNat (s : String) : ofCodes (s.toList.map Char.toNat) = .string s := by
  have hhalf : (s.toList.map Char.toNat).any (fun n => isLead n || isTrail n) = false := by
    simp only [List.any_map, List.any_eq_false, Function.comp_apply]
    intro c _
    rw [(toNat_range c).1, (toNat_range c).2.1]
    decide
  have htext : textOfCodes? (s.toList.map Char.toNat) = some s := by
    rw [textOfCodes?, anyBare_toNat, hhalf]
    simp [Function.comp_def, Char.ofNat_toNat]
  rw [ofCodes, joinPairs_toNat, htext]

/-- A control character is spelled by four hexadecimal digits. -/
theorem hex4?_digit :
    ∀ n < 32, hex4? '0' '0' (Hex.digit (n / 16)) (Hex.digit (n % 16)) = some n := by
  decide

/-- The escape of a character stands for it. -/
theorem stringCodes_escape (c : Char) {rest tail : List Char} {codes : List Nat}
    (h : stringCodes rest = some (codes, tail)) :
    stringCodes (escape c ++ rest) = some (c.toNat :: codes, tail) := by
  unfold escape
  split_ifs with hquote hback hline hreturn htab hbell hfeed hcontrol
  · subst hquote
    simp [stringCodes, escaped?, h]
  · subst hback
    simp [stringCodes, escaped?, h]
  · subst hline
    simp [stringCodes, escaped?, h]
  · subst hreturn
    simp [stringCodes, escaped?, h]
  · subst htab
    simp [stringCodes, escaped?, h]
  · simp [stringCodes, escaped?, h, hbell]
  · simp [stringCodes, escaped?, h, hfeed]
  · simp [stringCodes, hex4?_digit c.toNat hcontrol, h]
  · simp [stringCodes, hback, h, hcontrol]

/-- The characters of a text are read up to the quote after them. -/
theorem stringCodes_text (cs rest : List Char) :
    stringCodes (cs.flatMap escape ++ '"' :: rest) = some (cs.map Char.toNat, rest) := by
  induction cs with
  | nil => rfl
  | cons c cs ih =>
      rw [List.flatMap_cons, List.append_assoc, List.map_cons]
      exact stringCodes_escape c ih

/-! ## Values -/

theorem skipBlanks_cons {c : Char} (h : isBlank c = false) (cs : List Char) :
    skipBlanks (c :: cs) = c :: cs := by
  rw [skipBlanks, List.dropWhile_cons_of_neg (by simp [h])]

theorem exists_digits (n : Nat) : ∃ c cs, digits n = c :: cs ∧ isDigit c = true := by
  cases h : digits n with
  | nil => exact absurd h Nat.toDigits_ne_nil
  | cons c cs => exact ⟨c, cs, rfl, isDigit_of_mem_digits (n := n) (h ▸ List.mem_cons_self ..)⟩

theorem ne_of_isDigit {c d : Char} (h : isDigit c = true) (hd : isDigit d = false) : c ≠ d := by
  rintro rfl
  rw [h] at hd
  cases hd

/-- A text that begins with a digit is read as a number. -/
theorem value?_digit {c : Char} (h : isDigit c = true) (depth : Nat) (cs : List Char) :
    value? (depth + 1) (c :: cs) = unsigned? false (c :: cs) := by
  simp [value?, number?, ne_of_isDigit h (d := 'n') rfl, ne_of_isDigit h (d := 't') rfl,
    ne_of_isDigit h (d := 'f') rfl, ne_of_isDigit h (d := '"') rfl, ne_of_isDigit h (d := '[') rfl,
    ne_of_isDigit h (d := '\x7b') rfl, ne_of_isDigit h (d := '-') rfl]

/-- A character that neither is blank nor closes an array or an object. -/
def Opens (c : Char) : Prop := isBlank c = false ∧ c ≠ ']' ∧ c ≠ '\x7d'

instance (c : Char) : Decidable (Opens c) := inferInstanceAs (Decidable (_ ∧ _))

/-- The text of a value begins with such a character. -/
theorem exists_chars {j : Json} (hplain : j.IsPlain) : ∃ c cs, chars j = c :: cs ∧ Opens c := by
  cases j with
  | null => exact ⟨_, _, rfl, by decide⟩
  | bool b =>
      cases b with
      | false => exact ⟨_, _, rfl, by decide⟩
      | true => exact ⟨_, _, rfl, by decide⟩
  | natural n =>
      obtain ⟨c, cs, hcs, hdigit⟩ := exists_digits n
      refine ⟨c, cs, hcs, ?_, ne_of_isDigit hdigit rfl, ne_of_isDigit hdigit rfl⟩
      simp [isBlank, ne_of_isDigit hdigit (d := ' ') rfl, ne_of_isDigit hdigit (d := '\n') rfl,
        ne_of_isDigit hdigit (d := '\t') rfl, ne_of_isDigit hdigit (d := '\r') rfl]
  | string s => exact ⟨_, _, rfl, by decide⟩
  | array items => exact ⟨_, _, rfl, by decide⟩
  | object members => exact ⟨_, _, rfl, by decide⟩
  | decimal d => exact hplain.elim
  | rawString bare bytes => exact hplain.elim
  | unreadable skippable => exact hplain.elim

/-- Blanks are skipped, and there are none before a value. -/
theorem skipBlanks_chars {j : Json} (hplain : j.IsPlain) (rest : List Char) :
    skipBlanks (chars j ++ rest) = chars j ++ rest := by
  obtain ⟨c, cs, hcs, hopens⟩ := exists_chars hplain
  rw [hcs, List.cons_append, skipBlanks_cons hopens.1]

theorem itemChars_cons (j k : Json) (js : List Json) :
    itemChars (j :: k :: js) = chars j ++ ',' :: itemChars (k :: js) := by
  rw [itemChars]
  simp

theorem memberChars_cons (name : String) (j : Json) (m : String × Json)
    (ms : List (String × Json)) :
    memberChars ((name, j) :: m :: ms)
      = quote name ++ ':' :: chars j ++ ',' :: memberChars (m :: ms) := by
  rw [memberChars]
  simp

theorem exists_itemChars {j : Json} (js : List Json) (hplain : j.IsPlain) :
    ∃ c cs, itemChars (j :: js) = c :: cs ∧ Opens c := by
  obtain ⟨c, cs, hcs, hopens⟩ := exists_chars hplain
  cases js with
  | nil => exact ⟨c, cs, by rw [itemChars, hcs], hopens⟩
  | cons k js => exact ⟨c, _, by rw [itemChars_cons, hcs]; rfl, hopens⟩

theorem exists_memberChars (m : String × Json) (ms : List (String × Json)) :
    ∃ cs, memberChars (m :: ms) = '"' :: cs := by
  cases ms with
  | nil => exact ⟨_, rfl⟩
  | cons k ms => exact ⟨_, by rw [memberChars_cons]; rfl⟩

/-- What stands between the brackets of an array is read by `items?`. -/
theorem value?_bracket {c : Char} (h : Opens c) (depth : Nat) (cs : List Char) :
    value? (depth + 1) ('[' :: c :: cs)
      = (items? depth (c :: cs)).map fun r => (.array r.1, r.2) := by
  simp [value?, skipBlanks_cons h.1, h.2.1]

/-- What stands between the braces of an object is read by `members?`. -/
theorem value?_brace {c : Char} (h : Opens c) (depth : Nat) (cs : List Char) :
    value? (depth + 1) ('\x7b' :: c :: cs)
      = (members? depth (c :: cs)).map fun r => (ofMembers r.1, r.2) := by
  simp [value?, skipBlanks_cons h.1, h.2.2]

/-- Members as they are read, before their names are known to be texts. -/
def named (ms : List (String × Json)) : List (Json × Json) := ms.map fun m => (.string m.1, m.2)

theorem mapM_named {f : Json × Json → Option (String × Json)}
    (hf : ∀ name j, f (.string name, j) = some (name, j)) (ms : List (String × Json)) :
    (named ms).mapM f = some ms := by
  induction ms with
  | nil => rfl
  | cons m ms ih =>
      rw [named] at ih
      simp [named, List.mapM_cons, hf, ih]

theorem ofMembers_named (ms : List (String × Json)) : ofMembers (named ms) = .object ms := by
  rw [ofMembers, mapM_named fun _ _ => rfl]

/-- The characters of a text between quotes are read as that text. -/
theorem stringCodes_quote (s : String) (rest : List Char) :
    ∃ cs, quote s ++ rest = '"' :: cs ∧
      stringCodes cs = some (s.toList.map Char.toNat, rest) := by
  refine ⟨s.toList.flatMap escape ++ '"' :: rest, ?_, stringCodes_text s.toList rest⟩
  simp [quote]

mutual

/-- **The text of a value is read as that value**, up to what follows it. -/
theorem value?_chars : (j : Json) → j.IsPlain → (depth : Nat) → (chars j).length < depth →
    (rest : List Char) → Ends rest → value? depth (chars j ++ rest) = some (j, rest)
  | .null, _, depth + 1, _, rest, _ => rfl
  | .bool true, _, depth + 1, _, rest, _ => rfl
  | .bool false, _, depth + 1, _, rest, _ => rfl
  | .natural n, _, depth + 1, _, rest, hrest => by
      obtain ⟨c, cs, hcs, hdigit⟩ := exists_digits n
      have hread := unsigned?_digits n hrest
      rw [hcs, List.cons_append] at hread
      rw [chars, hcs, List.cons_append, value?_digit hdigit, hread]
  | .string s, _, depth + 1, _, rest, _ => by
      obtain ⟨cs, hcs, hcodes⟩ := stringCodes_quote s rest
      rw [chars, hcs]
      simp only [value?, hcodes, Option.map_some, ofCodes_toNat]
  | .array [], _, depth + 1, _, rest, _ => rfl
  | .array (j :: js), hplain, depth + 1, hdepth, rest, _ => by
      have htext : chars (.array (j :: js)) ++ rest
          = '[' :: (itemChars (j :: js) ++ ']' :: rest) := by
        simp [chars]
      have hlength : (chars (.array (j :: js))).length = (itemChars (j :: js)).length + 2 := by
        simp [chars]
      have hitems := items?_itemChars (j :: js) (List.cons_ne_nil _ _) hplain depth (by omega) rest
      obtain ⟨c, cs, hcs, hopens⟩ := exists_itemChars js hplain.1
      rw [htext]
      rw [hcs, List.cons_append] at hitems ⊢
      rw [value?_bracket hopens, hitems]
      rfl
  | .object [], _, depth + 1, _, rest, _ => rfl
  | .object (m :: ms), hplain, depth + 1, hdepth, rest, _ => by
      have htext : chars (.object (m :: ms)) ++ rest
          = '\x7b' :: (memberChars (m :: ms) ++ '\x7d' :: rest) := by
        simp [chars]
      have hlength : (chars (.object (m :: ms))).length = (memberChars (m :: ms)).length + 2 := by
        simp [chars]
      have hmembers := members?_memberChars (m :: ms) (List.cons_ne_nil _ _) hplain depth (by omega)
        rest
      obtain ⟨cs, hcs⟩ := exists_memberChars m ms
      rw [htext]
      rw [hcs, List.cons_append] at hmembers ⊢
      rw [value?_brace (by decide), hmembers, Option.map_some, ofMembers_named]

/-- The items of an array. -/
theorem items?_itemChars : (js : List Json) → js ≠ [] → AllPlain js → (depth : Nat) →
    (itemChars js).length + 1 < depth → (rest : List Char) →
    items? depth (itemChars js ++ ']' :: rest) = some (js, rest)
  | [j], _, hplain, depth + 1, hdepth, rest => by
      have hj := value?_chars j hplain.1 depth (by rw [itemChars] at hdepth; omega) (']' :: rest)
        (by simp [Ends])
      rw [itemChars, items?, skipBlanks_chars hplain.1, hj]
      rfl
  | j :: k :: js, _, hplain, depth + 1, hdepth, rest => by
      have hlength : (itemChars (j :: k :: js)).length
          = (chars j).length + (itemChars (k :: js)).length + 1 := by
        simp [itemChars_cons]; omega
      obtain ⟨c, cs, hcs, -⟩ := exists_chars hplain.1
      have hpos : 0 < (chars j).length := by simp [hcs]
      have hj := value?_chars j hplain.1 depth (by omega)
        (',' :: (itemChars (k :: js) ++ ']' :: rest)) (by simp [Ends])
      have hjs := items?_itemChars (k :: js) (List.cons_ne_nil _ _) hplain.2 depth (by omega) rest
      rw [itemChars_cons, List.append_assoc, List.cons_append, items?, skipBlanks_chars hplain.1,
        hj]
      simp only [Option.bind_eq_bind, Option.bind_some, skipBlanks_cons (c := ',') rfl, hjs]
      rfl

/-- The members of an object. -/
theorem members?_memberChars : (ms : List (String × Json)) → ms ≠ [] → MembersPlain ms →
    (depth : Nat) → (memberChars ms).length + 1 < depth → (rest : List Char) →
    members? depth (memberChars ms ++ '\x7d' :: rest) = some (named ms, rest)
  | [(name, j)], _, hplain, depth + 1, hdepth, rest => by
      obtain ⟨cs, hcs, hcodes⟩ := stringCodes_quote name (':' :: (chars j ++ '\x7d' :: rest))
      have htext : memberChars [(name, j)] ++ '\x7d' :: rest = '"' :: cs := by
        rw [← hcs, memberChars]
        simp
      have hj := value?_chars j hplain.1 depth (by simp [memberChars] at hdepth; omega)
        ('\x7d' :: rest) (by simp [Ends])
      rw [htext]
      simp only [members?, skipBlanks_cons (c := '"') rfl, Option.bind_eq_bind, hcodes,
        Option.bind_some, anyBare_toNat, Bool.false_eq_true, if_false,
        skipBlanks_cons (c := ':') rfl, skipBlanks_chars hplain.1, hj,
        skipBlanks_cons (c := '\x7d') rfl, ofCodes_toNat]
      rfl
  | (name, j) :: m :: ms, _, hplain, depth + 1, hdepth, rest => by
      obtain ⟨cs, hcs, hcodes⟩ := stringCodes_quote name
        (':' :: (chars j ++ ',' :: (memberChars (m :: ms) ++ '\x7d' :: rest)))
      have htext : memberChars ((name, j) :: m :: ms) ++ '\x7d' :: rest = '"' :: cs := by
        rw [← hcs, memberChars_cons]
        simp
      have hlength : (memberChars ((name, j) :: m :: ms)).length
          = (quote name).length + (chars j).length + (memberChars (m :: ms)).length + 2 := by
        simp [memberChars_cons]; omega
      have hj := value?_chars j hplain.1 depth (by omega)
        (',' :: (memberChars (m :: ms) ++ '\x7d' :: rest)) (by simp [Ends])
      have hms := members?_memberChars (m :: ms) (List.cons_ne_nil _ _) hplain.2 depth (by omega)
        rest
      rw [htext]
      simp only [members?, skipBlanks_cons (c := '"') rfl, Option.bind_eq_bind, hcodes,
        Option.bind_some, anyBare_toNat, Bool.false_eq_true, if_false,
        skipBlanks_cons (c := ':') rfl, skipBlanks_chars hplain.1, hj,
        skipBlanks_cons (c := ',') rfl, hms, ofCodes_toNat]
      rfl

end

/-- A plain value is read back from its text. -/
theorem parse_render {j : Json} (hplain : j.IsPlain) : parse (render j) = some j := by
  have hread := value?_chars j hplain (j.chars.length + 1) (Nat.lt_succ_self _) []
    (fun c hc => by simp at hc)
  have hskip := skipBlanks_chars hplain []
  rw [List.append_nil] at hread hskip
  simp only [parse, render, String.toList_ofList, hskip, hread, Option.bind_eq_bind,
    Option.bind_some]
  rfl

end Json

end Beacon
