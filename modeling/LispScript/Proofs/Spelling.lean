import LispScript.Printer
import LispScript.Reader
import LispScript.Proofs.Numeral

/-!
How the scanners take the printed form of one item: tokens of plain characters, strings and
characters. What follows an item ends it.
-/

namespace LispScript

/-- The characters of a name that is printed as it is. -/
def isNameChar (c : Char) : Bool :=
  c.isUpper || c.isDigit || c == '-' || c == '*' || c == '+' || c == '/' || c == '<' || c == '>' ||
    c == '=' || c == '&' || c == '%' || c == '!' || c == '?' || c == '_'

/-- A word in capitals, which may have digits and hyphens after its first letter. -/
def IsPackageName (name : String) : Prop :=
  ∃ c cs, name.toList = c :: cs ∧ c.isUpper = true ∧
    ∀ d ∈ cs, d.isUpper = true ∨ d.isDigit = true ∨ d = '-'

/-- A name that starts with a capital letter and goes on with what needs no bars. -/
def IsSymbolName (name : String) : Prop :=
  ∃ c cs, name.toList = c :: cs ∧ c.isUpper = true ∧ ∀ d ∈ cs, isNameChar d = true

namespace Reader

/-- A character that neither ends a token nor has a meaning of its own there. -/
structure IsOrdinary (c : Char) : Prop where
  noEscape : c ≠ '\\'
  noBar : c ≠ '|'
  noColon : c ≠ ':'
  goesOn : isTerminating c = false

/-- A character that stands for itself within a token. -/
structure IsPlain (c : Char) : Prop extends IsOrdinary c where
  upper : Text.upcase c = [c]

/-- Nothing, or a character that ends a token. -/
def Ends (text : List Char) : Prop := ∀ c ∈ text.head?, isTerminating c = true

section Characters

theorem isNameChar_of_isUpper {c : Char} (upper : c.isUpper = true) : isNameChar c = true := by
  simp [isNameChar, upper]

theorem isNameChar_of_isDigit {c : Char} (digit : c.isDigit = true) : isNameChar c = true := by
  simp [isNameChar, digit]

/-- The characters of names lie before the small letters, and are none of the special ones. -/
theorem code_of_isNameChar {c : Char} (name : isNameChar c = true) :
    (0x21 ≤ c.toNat ∧ c.toNat ≤ 0x5F) ∧
      c ∉ ['\\', ':', '(', ')', '\'', '"', ';', ',', '#', '.'] := by
  have outside : ∀ low high, 0x30 ≤ low → high ≤ 0x5A → (high ≤ 0x39 ∨ 0x41 ≤ low) →
      low ≤ c.toNat → c.toNat ≤ high → (0x21 ≤ c.toNat ∧ c.toNat ≤ 0x5F) ∧
      c ∉ ['\\', ':', '(', ')', '\'', '"', ';', ',', '#', '.'] := by
    intro low high first last apart lower upper
    refine ⟨⟨by omega, by omega⟩, fun member => ?_⟩
    simp only [List.mem_cons, List.not_mem_nil, or_false] at member
    rcases member with rfl | rfl | rfl | rfl | rfl | rfl | rfl | rfl | rfl | rfl <;>
      simp [Char.toNat] at lower upper <;> omega
  simp only [isNameChar, Bool.or_eq_true, beq_iff_eq, or_assoc] at name
  rcases name with upper | digit | special
  · simp only [Char.isUpper, ge_iff_le, decide_eq_true_eq, UInt32.le_iff_toNat_le] at upper
    exact outside 0x41 0x5A (by decide) (by decide) (by decide) upper.1 upper.2
  · simp only [Char.isDigit, ge_iff_le, Bool.and_eq_true, decide_eq_true_eq,
      UInt32.le_iff_toNat_le] at digit
    exact outside 0x30 0x39 (by decide) (by decide) (by decide) digit.1 digit.2
  · rcases special with rfl | rfl | rfl | rfl | rfl | rfl | rfl | rfl | rfl | rfl | rfl | rfl <;>
      decide

theorem isPlain_of_isNameChar {c : Char} (name : isNameChar c = true) : IsPlain c := by
  obtain ⟨⟨lower, upper⟩, ordinary⟩ := code_of_isNameChar name
  have noBlank : Text.isBlank c = false := by
    simp only [Text.isBlank, Bool.or_eq_false_iff, Bool.and_eq_false_iff, decide_eq_false_iff_not,
      beq_eq_false_iff_ne]
    omega
  have noQuote : c ≠ '\x60' := by
    rintro rfl
    exact absurd upper (by decide)
  simp only [List.mem_cons, List.not_mem_nil, or_false, not_or] at ordinary
  obtain ⟨noEscape, noColon, noOpen, noClose, noQuotation, noDouble, noComment, noComma, -⟩ := ordinary
  refine ⟨⟨noEscape, ?_, noColon, ?_⟩, ?_⟩
  · rintro rfl
    exact absurd upper (by decide)
  · simp [isTerminating, noBlank, noOpen, noClose, noQuotation, noDouble, noComment, noQuote, noComma]
  · rw [Text.upcase, if_pos (by omega), if_neg]
    simp only [Bool.and_eq_true, decide_eq_true_eq]
    omega

end Characters

section Tokens

variable {cs rest : List Char} {token : PartialToken}

/-- Characters that are not escaped are read as capitals. -/
theorem scanTokenFrom_ordinary (ordinary : ∀ c ∈ cs, IsOrdinary c) :
    scanTokenFrom false token (cs ++ rest) =
      scanTokenFrom false (token.add (cs.flatMap Text.upcase)) rest := by
  induction cs generalizing token with
  | nil => rfl
  | cons c cs ih =>
      obtain ⟨noEscape, noBar, noColon, goesOn⟩ := ordinary c List.mem_cons_self
      have next := @ih (token.add (Text.upcase c)) fun d member =>
        ordinary d (List.mem_cons_of_mem _ member)
      rw [List.cons_append, scanTokenFrom, goesOn]
      · simp only [Bool.false_eq_true, if_false]
        rw [next]
        simp [PartialToken.add]
      all_goals assumption

theorem flatMap_upcase (plain : ∀ c ∈ cs, Text.upcase c = [c]) : cs.flatMap Text.upcase = cs := by
  rw [List.flatMap_congr plain, List.flatMap_singleton']

theorem scanTokenFrom_plain (plain : ∀ c ∈ cs, IsPlain c) :
    scanTokenFrom false token (cs ++ rest) = scanTokenFrom false (token.add cs) rest := by
  rw [scanTokenFrom_ordinary fun c member => (plain c member).toIsOrdinary,
    flatMap_upcase fun c member => (plain c member).upper]

theorem scanTokenFrom_ends (ends : Ends rest) :
    scanTokenFrom false token rest = (.ok token.finish, rest) := by
  cases rest with
  | nil => rfl
  | cons c rest =>
      have terminating := ends c rfl
      rw [scanTokenFrom, terminating]
      · rfl
      all_goals
        rintro rfl
        exact absurd terminating (by decide)

/-- A token without escapes that has no package marker. -/
theorem scanToken_plain (plain : ∀ c ∈ cs, IsPlain c) (ends : Ends rest) :
    scanToken (cs ++ rest) =
      (.ok { qualifier := none, name := String.ofList cs, escaped := false }, rest) := by
  rw [scanToken, scanTokenFrom_plain plain, scanTokenFrom_ends ends]
  simp [PartialToken.add, PartialToken.finish]

/-- The first package marker, which is doubled or not. -/
theorem scanTokenFrom_mark (doubled : Bool) (unmarked : token.qualifier = none)
    (noColon : rest.head? ≠ some ':') :
    scanTokenFrom false token ((if doubled then [':', ':'] else [':']) ++ rest) =
      scanTokenFrom false (token.mark doubled) rest := by
  cases doubled
  · simp only [Bool.false_eq_true, if_false, List.cons_append]
    rw [scanTokenFrom, unmarked]
    · rfl
    · rintro more rfl
      exact noColon rfl
  · simp only [if_true, List.cons_append, List.nil_append]
    rw [scanTokenFrom, unmarked]
    rfl

end Tokens

section Literals

variable {rest : List Char}

/-- A string is scanned to its end, escapes taken back. -/
theorem scanString_escaped (text seen rest : List Char) :
    scanString seen ((text.flatMap fun c => if c == '"' || c == '\\' then ['\\', c] else [c]) ++
      '"' :: rest) = some (String.ofList (seen.reverse ++ text), rest) := by
  induction text generalizing seen with
  | nil => simp [scanString]
  | cons c text ih =>
      have next := ih (c :: seen)
      rw [List.reverse_cons, List.append_assoc, List.singleton_append] at next
      rw [List.flatMap_cons, List.append_assoc]
      by_cases special : (c == '"' || c == '\\') = true
      · rw [if_pos special]
        exact next
      · simp only [Bool.or_eq_true, beq_iff_eq, not_or] at special
        rw [if_neg (by simp [special]), List.singleton_append, scanString]
        · exact next
        · exact special.1
        · exact special.2

theorem takeWhile_word (word : List Char) (wordly : ∀ c ∈ word, isTerminating c = false)
    (ends : Ends rest) : (word ++ rest).takeWhile (!isTerminating ·) = word ∧
      (word ++ rest).dropWhile (!isTerminating ·) = rest := by
  have stops : rest.takeWhile (!isTerminating ·) = [] ∧ rest.dropWhile (!isTerminating ·) = rest := by
    cases rest with
    | nil => exact ⟨rfl, rfl⟩
    | cons c rest => simp [ends c rfl]
  rw [List.takeWhile_append_of_pos (by simpa using wordly),
    List.dropWhile_append_of_pos (by simpa using wordly), stops.1, stops.2, List.append_nil]
  exact ⟨rfl, rfl⟩

/-- A character is scanned from its name or from itself. -/
theorem scanCharacter_text (c : Char) (ends : Ends rest) :
    scanCharacter (((Printer.named? c).getD (String.singleton c)).toList ++ rest) =
      (.ok c, rest) := by
  have named : ∀ (text : String) (c : Char), 2 ≤ text.toList.length →
      (∀ d ∈ text.toList, isTerminating d = false) →
      characterNamed? (Text.upcaseText text) = some c →
      scanCharacter (text.toList ++ rest) = (.ok c, rest) := by
    intro text c long wordly found
    rw [← String.ofList_toList (s := text)] at found
    match text.toList, long, wordly, found with
    | first :: second :: word, _, wordly, found =>
        obtain ⟨taken, left⟩ := takeWhile_word (second :: word)
          (fun d member => wordly d (List.mem_cons_of_mem _ member)) ends
        rw [List.cons_append, scanCharacter, taken, left]
        simp only [List.isEmpty_cons, Bool.false_eq_true, if_false, found]
  cases name : Printer.named? c with
  | none =>
      obtain ⟨taken, left⟩ := takeWhile_word [] (by simp) ends
      rw [List.nil_append] at taken left
      simp [scanCharacter, taken, left]
  | some text =>
      rw [Printer.named?.eq_def] at name
      split at name <;> cases name
      all_goals exact named _ _ (by decide) (by simp [isTerminating, Text.isBlank]) (by decide)

end Literals

end Reader

section Names

open Reader

variable {name : String} {c : Char}

/-- A capital letter starts no number. -/
theorem letter_of_isUpper (capital : c.isUpper = true) :
    c.isDigit = false ∧ c ≠ '+' ∧ c ≠ '-' ∧ c ≠ '.' := by
  refine ⟨?_, ?_, ?_, ?_⟩
  · simp only [Char.isUpper, ge_iff_le, decide_eq_true_eq, UInt32.le_iff_toNat_le] at capital
    simp only [Char.isDigit, ge_iff_le, Bool.and_eq_false_iff, decide_eq_false_iff_not,
      UInt32.le_iff_toNat_le]
    have lower : 0x41 ≤ c.val.toNat := capital.1
    exact .inr (Nat.not_le.mpr (Nat.lt_of_lt_of_le (by decide) lower))
  all_goals
    rintro rfl
    exact absurd capital (by decide)

theorem IsSymbolName.isNameChar (isName : IsSymbolName name) :
    ∀ c ∈ name.toList, isNameChar c = true := by
  obtain ⟨c, cs, spelled, capital, more⟩ := isName
  rw [spelled]
  exact List.forall_mem_cons.mpr ⟨isNameChar_of_isUpper capital, more⟩

theorem IsPackageName.isNameChar (isName : IsPackageName name) :
    ∀ c ∈ name.toList, LispScript.isNameChar c = true := by
  obtain ⟨c, cs, spelled, capital, more⟩ := isName
  rw [spelled]
  refine List.forall_mem_cons.mpr ⟨isNameChar_of_isUpper capital, fun d member => ?_⟩
  rcases more d member with upper | digit | rfl
  · exact isNameChar_of_isUpper upper
  · exact isNameChar_of_isDigit digit
  · rfl

/-- A name that starts with a capital letter is printed without bars. -/
theorem IsSymbolName.nameText_eq (isName : IsSymbolName name) : Printer.nameText name = name := by
  have chars := isName.isNameChar
  obtain ⟨c, cs, spelled, capital, -⟩ := isName
  obtain ⟨noDigit, noPlus, noMinus, noPoint⟩ := letter_of_isUpper capital
  have noPoints : (c :: cs).all (· == '.') = false := by simp [noPoint]
  have noNumber : Printer.looksNumeric (c :: cs) = false := by
    simp [Printer.looksNumeric, noPlus, noMinus, noDigit, noPoint]
  have ordinary : ∀ d ∈ c :: cs,
      (Text.isLowercase d || Text.isBlank d || Printer.isDelimiter d) = false := by
    intro d member
    have known := chars d (spelled ▸ member)
    obtain ⟨⟨-, upper⟩, special⟩ := code_of_isNameChar known
    have plain := isPlain_of_isNameChar known
    have goesOn := plain.goesOn
    have noLower : Text.isLowercase d = false := by
      rw [Text.isLowercase, if_pos (by omega)]
      simp only [Bool.and_eq_false_iff, decide_eq_false_iff_not]
      omega
    simp only [isTerminating, Bool.or_eq_false_iff, beq_eq_false_iff_ne] at goesOn
    simp only [List.mem_cons, List.not_mem_nil, or_false, not_or] at special
    simp [noLower, goesOn, Printer.isDelimiter, special, plain.noBar]
  have bare : Printer.needsBars name = false := by
    rw [Printer.needsBars, spelled, noPoints, noNumber, Bool.false_or, Bool.false_or,
      List.any_eq_false]
    exact fun d member => by rw [ordinary d member]; exact Bool.false_ne_true
  rw [Printer.nameText, bare]
  rfl

/-- A name that starts with a capital letter spells no number. -/
theorem IsSymbolName.ofToken?_eq (isName : IsSymbolName name) :
    Number.ofToken? name.toList = none := by
  have chars := isName.isNameChar
  obtain ⟨c, cs, spelled, capital, -⟩ := isName
  obtain ⟨noDigit, noPlus, noMinus, noPoint⟩ := letter_of_isUpper capital
  rw [spelled] at chars ⊢
  have noEnd : (c :: cs).getLast? ≠ some '.' := by
    intro last
    exact (code_of_isNameChar (chars '.' (List.mem_of_getLast? last))).2 (by decide)
  have whole : Number.whole? (c :: cs) = none := by
    simp [Number.whole?, noEnd, noDigit]
  have fractional : Number.fractional? (c :: cs) = none := by
    by_cases marker : Number.isExponentMarker c = true
    · -- Nothing stands before the exponent.
      simp [Number.fractional?, Number.splitExponent, Number.splitPoint, marker]
    · have mantissa : ∃ m, (Number.splitExponent (c :: cs)).1 = c :: m := by
        rw [Number.splitExponent]
        split <;> simp [marker]
      have whole : ∀ m, ∃ m', (Number.splitPoint (c :: m)).1 = c :: m' := by
        intro m
        rw [Number.splitPoint]
        split <;> simp [noPoint]
      obtain ⟨m, mantissa⟩ := mantissa
      obtain ⟨m', whole⟩ := whole m
      simp [Number.fractional?, mantissa, whole, noDigit]
  have sign : Number.splitSign (c :: cs) = (false, c :: cs) := by
    rw [Number.splitSign]
    · exact fun _ same => noPlus (List.cons.inj same).1
    · exact fun _ same => noMinus (List.cons.inj same).1
  simp [Number.ofToken?, sign, whole, fractional]

end Names

end LispScript
