import LispScript.Repl
import LispScript.Proofs.Lexemes

/-!
Where a place in a text stands: between lexemes, in a word, in a string, in a comment. The mode of a
place is told by the characters before it, one at a time, and so is the number of lists that are open
there. Where no bracket, quote or semicolon stands in a name between bars or in a block comment, the
balance that the interactive loop keeps of a text is told by the mode and the depth.
-/

namespace LispScript.Reader

/-- Where a place in a text stands. -/
inductive Mode where
  | between
  /-- After a sharp sign. -/
  | sharp
  /-- After a comma. -/
  | comma
  /-- In a token or the name of a character, whose next character may be escaped. -/
  | word (inBars escaped : Bool)
  | string (escaped : Bool)
  | lineComment
  /-- In a block comment with further ones inside, maybe after the first of two characters that
  together begin or end one. -/
  | blockComment (inner : Nat) (pending : Option Char)
  /-- After something that cannot be read. -/
  | lost
deriving DecidableEq, Repr

namespace Mode

/-- The mode after a character that stands between lexemes. -/
def opening (c : Char) : Mode :=
  if c = ';' then lineComment
  else if c = '"' then string false
  else if c = ',' then comma
  else if isTerminating c then between
  else if c = '#' then sharp
  else if c = '\\' then word false true
  else if c = '|' then word true false
  else word false false

/-- The mode after a character that follows a sharp sign. -/
def dispatching (c : Char) : Mode :=
  if c = '\'' ∨ c = '(' ∨ c = '+' ∨ c = '-' then between
  else if c = ':' then word false false
  else if c = '\\' then word false true
  else if c = '|' then blockComment 0 none
  else lost

/-- The mode after a character of a token that is not escaped. -/
def spelling (inBars : Bool) (c : Char) : Mode :=
  if c = '\\' then word inBars true
  else if c = '|' then word (!inBars) false
  else if !inBars && isTerminating c then opening c
  else word inBars false

/-- The mode after a character of a block comment. -/
def commenting (inner : Nat) (pending : Option Char) (c : Char) : Mode :=
  if pending = some '|' ∧ c = '#' then
    match inner with
    | 0 => between
    | inner + 1 => blockComment inner none
  else if pending = some '#' ∧ c = '|' then blockComment (inner + 1) none
  else blockComment inner (if c = '#' ∨ c = '|' then some c else none)

/-- The mode after one more character. -/
def step : Mode → Char → Mode
  | between, c => opening c
  | sharp, c => dispatching c
  | comma, c => if c = '@' then between else opening c
  | word inBars true, _ => word inBars false
  | word inBars false, c => spelling inBars c
  | string true, _ => string false
  | string false, c => if c = '"' then between else string (c = '\\')
  | lineComment, c => if c = '\n' then between else lineComment
  | blockComment inner pending, c => commenting inner pending c
  | lost, _ => lost

/-- The mode after a text. -/
def after (m : Mode) (text : List Char) : Mode := text.foldl step m

/-- Whether a bracket begins or ends a list. -/
def seesBrackets : Mode → Bool
  | between | sharp | comma | word false false => true
  | _ => false

/-- By how much a character changes the number of open lists. -/
def nesting (m : Mode) (c : Char) : Int :=
  if m.seesBrackets then if c = '(' then 1 else if c = ')' then -1 else 0 else 0

/-- By how much a text changes the number of open lists. -/
def depth : Mode → List Char → Int
  | _, [] => 0
  | m, c :: rest => m.nesting c + (m.step c).depth rest

/-- Whether the text ends inside a string; nothing after something that cannot be read. -/
def inString? : Mode → Option Bool
  | string _ => some true
  | lost => none
  | _ => some false

section Texts

variable {m : Mode} {c : Char} {first second : List Char}

theorem after_append (m : Mode) (first second : List Char) :
    m.after (first ++ second) = (m.after first).after second :=
  List.foldl_append

theorem opening_of_terminating (terminates : isTerminating c = true) :
    (word false false).step c = between.step c := by
  have other : c ≠ '\\' ∧ c ≠ '|' := by
    constructor <;> rintro rfl <;> cases terminates
  simp only [step, spelling, if_neg other.1, if_neg other.2, terminates]
  rfl

/-- A token begins as it goes on. -/
theorem opening_of_going (goes : isTerminating c = false) (other : c ≠ '#') :
    between.step c = (word false false).step c := by
  have plain : c ≠ ';' ∧ c ≠ '"' ∧ c ≠ ',' := by
    refine ⟨?_, ?_, ?_⟩ <;> rintro rfl <;> cases goes
  simp only [step, opening, spelling, plain, other, goes, if_false]
  rfl

theorem opening_of_blank (blank : Text.isBlank c = true) : between.step c = between := by
  have other : c ≠ ';' ∧ c ≠ '"' ∧ c ≠ ',' := by
    refine ⟨?_, ?_, ?_⟩ <;> rintro rfl <;> cases blank
  have terminates : isTerminating c = true := by simp [isTerminating, blank]
  simp only [step, opening, other, terminates, if_false, if_true]

end Texts

section Balance

/-- Whether brackets, quotes and semicolons stand for themselves, though they are not escaped, where a
balance takes them for what they are elsewhere. -/
def hides : Mode → Bool
  | word true false => true
  | blockComment _ _ => true
  | _ => false

def isSign (c : Char) : Bool := c == '(' || c == ')' || c == '"' || c == ';'

/-- Whether no bracket, quote or semicolon of a text stands in a block comment or, unescaped, in a name
between bars. -/
def shows : Mode → List Char → Bool
  | _, [] => true
  | m, c :: rest => !(m.hides && isSign c) && (m.step c).shows rest

/-- What a balance knows of a mode and a depth. -/
def Mirrors (depth : Int) (b : Balance) : Mode → Prop
  | between | sharp | comma => b = { depth }
  | word _ escaped => b = { depth, escaped }
  | string escaped => b = { depth, escaped, inString := true }
  | lineComment => b = { depth, inComment := true }
  | blockComment _ none => ∃ escaped, b = { depth, escaped }
  | blockComment _ (some _) => b = { depth }
  | lost => True

variable {m : Mode} {c : Char} {depth : Int} {b : Balance} {text : List Char}

/-- Any other character leaves a balance as it is outside of strings and comments. -/
theorem step_of_other (noEscape : c ≠ '\\') (noSign : isSign c = false) :
    Balance.step { depth } c = { depth } := by
  simp only [isSign, Bool.or_eq_false_iff, beq_eq_false_iff_ne] at noSign
  obtain ⟨⟨⟨opens, closes⟩, quote⟩, comment⟩ := noSign
  simp only [Balance.step, noEscape, opens, closes, quote, comment, if_false, Bool.false_eq_true]

theorem nesting_of_other (noSign : isSign c = false) (m : Mode) : m.nesting c = 0 := by
  simp only [isSign, Bool.or_eq_false_iff, beq_eq_false_iff_ne] at noSign
  obtain ⟨⟨⟨opens, closes⟩, -⟩, -⟩ := noSign
  simp only [nesting, opens, closes, if_false, ite_self]

theorem Mirrors.unchanged {change : Int} (none : change = 0) (mirrors : m.Mirrors depth b) :
    m.Mirrors (depth + change) b := by
  rw [none, add_zero]
  exact mirrors

theorem mirrors_opening (depth : Int) (c : Char) :
    (opening c).Mirrors (depth + between.nesting c) (Balance.step { depth } c) := by
  by_cases escape : c = '\\'
  · subst escape
    exact .unchanged rfl rfl
  cases sign : isSign c with
  | true =>
      simp only [isSign, Bool.or_eq_true, beq_iff_eq] at sign
      obtain ((rfl | rfl) | rfl) | rfl := sign
      · rfl
      · rfl
      · exact .unchanged rfl rfl
      · exact .unchanged rfl rfl
  | false =>
      rw [step_of_other escape sign, nesting_of_other sign, add_zero]
      simp only [isSign, Bool.or_eq_false_iff, beq_eq_false_iff_ne] at sign
      obtain ⟨⟨-, quote⟩, comment⟩ := sign
      simp only [opening, escape, quote, comment, if_false]
      repeat' split
      all_goals rfl

theorem mirrors_dispatching (depth : Int) (c : Char) :
    (dispatching c).Mirrors (depth + sharp.nesting c) (Balance.step { depth } c) := by
  have same : sharp.nesting c = between.nesting c := rfl
  rw [same]
  unfold dispatching
  split
  · rename_i plain
    obtain rfl | rfl | rfl | rfl := plain
    · exact .unchanged rfl rfl
    · rfl
    · exact .unchanged rfl rfl
    · exact .unchanged rfl rfl
  · split
    · rename_i colon
      subst colon
      exact .unchanged rfl rfl
    · split
      · rename_i escape
        subst escape
        exact .unchanged rfl rfl
      · split
        · rename_i bar
          subst bar
          exact .unchanged rfl ⟨false, rfl⟩
        · trivial

theorem mirrors_spelling (depth : Int) (inBars : Bool) (c : Char)
    (shown : ((word inBars false).hides && isSign c) = false) :
    (spelling inBars c).Mirrors (depth + (word inBars false).nesting c) (Balance.step { depth } c) := by
  cases inBars with
  | true =>
      have sign : isSign c = false := by simpa [hides] using shown
      rw [nesting_of_other sign, add_zero]
      unfold spelling
      split
      · rename_i escape
        subst escape
        rfl
      · rename_i escape
        rw [step_of_other escape sign]
        split <;> rfl
  | false =>
      unfold spelling
      split
      · rename_i escape
        subst escape
        exact .unchanged rfl rfl
      · rename_i escape
        split
        · rename_i bar
          subst bar
          exact .unchanged rfl rfl
        · split
          · exact mirrors_opening depth c
          · rename_i goes
            have sign : isSign c = false := by
              simp only [isTerminating, Bool.not_false, Bool.true_and, Bool.not_eq_true,
                Bool.or_eq_false_iff] at goes
              simp only [isSign, goes, Bool.or_self]
            rw [nesting_of_other sign, add_zero, step_of_other escape sign]
            rfl

theorem mirrors_commenting (depth : Int) (inner : Nat) (pending : Option Char) (c : Char)
    (mirrors : (blockComment inner pending).Mirrors depth b) (sign : isSign c = false) :
    (commenting inner pending c).Mirrors depth (b.step c) := by
  -- A backslash counts in a balance, but two characters that end the comment come after it.
  by_cases escape : c = '\\'
  · subst escape
    have goes : commenting inner pending '\\' = blockComment inner none := by
      simp [commenting]
    rw [goes]
    cases pending with
    | none =>
        obtain ⟨escaped, rfl⟩ := mirrors
        cases escaped <;> exact ⟨_, rfl⟩
    | some p => cases mirrors; exact ⟨_, rfl⟩
  have next : b.step c = { depth } := by
    cases pending with
    | none =>
        obtain ⟨escaped, rfl⟩ := mirrors
        cases escaped with
        | true => rfl
        | false => exact step_of_other escape sign
    | some p => cases mirrors; exact step_of_other escape sign
  rw [next]
  unfold commenting
  split
  · cases inner with
    | zero => rfl
    | succ inner => exact ⟨false, rfl⟩
  · split
    · exact ⟨false, rfl⟩
    · split
      · rfl
      · exact ⟨false, rfl⟩

theorem mirrors_string (depth : Int) (c : Char) :
    ((string false).step c).Mirrors (depth + (string false).nesting c)
      (Balance.step { depth, inString := true } c) := by
  refine .unchanged rfl ?_
  by_cases escape : c = '\\'
  · subst escape
    rfl
  by_cases quote : c = '"'
  · subst quote
    rfl
  simp only [step, Balance.step, escape, quote, if_false, Bool.false_eq_true, if_true, decide_false,
    Mirrors]

/-- A balance follows the mode and the depth over a character that it sees. -/
theorem Mirrors.step (mirrors : m.Mirrors depth b) (shown : (m.hides && isSign c) = false) :
    (m.step c).Mirrors (depth + m.nesting c) (b.step c) := by
  cases m with
  | between => cases mirrors; exact mirrors_opening depth c
  | sharp => cases mirrors; exact mirrors_dispatching depth c
  | comma =>
      cases mirrors
      simp only [Mode.step]
      split
      · rename_i at_
        subst at_
        exact .unchanged rfl rfl
      · exact mirrors_opening depth c
  | word inBars escaped =>
      cases mirrors
      cases escaped with
      | true =>
        refine .unchanged ?_ rfl
        cases inBars <;> rfl
      | false => exact mirrors_spelling depth inBars c shown
  | string escaped =>
      cases mirrors
      cases escaped with
      | true => exact .unchanged rfl rfl
      | false => exact mirrors_string depth c
  | lineComment =>
      cases mirrors
      refine .unchanged rfl ?_
      simp only [Mode.step, Balance.step, if_true]
      split
      · rename_i newline
        subst newline
        rfl
      · rename_i other
        simp only [Mirrors, bne_iff_ne.mpr other]
  | blockComment inner pending =>
      have sign : isSign c = false := by simpa [hides] using shown
      exact .unchanged (nesting_of_other sign _)
        (mirrors_commenting depth inner pending c mirrors sign)
  | lost => trivial

theorem Mirrors.after (mirrors : m.Mirrors depth b) (shown : m.shows text = true) :
    (m.after text).Mirrors (depth + m.depth text) (text.foldl Balance.step b) := by
  induction text generalizing m depth b with
  | nil => exact .unchanged rfl mirrors
  | cons c rest ih =>
      simp only [shows, Bool.and_eq_true, Bool.not_eq_true'] at shown
      have next := ih (mirrors.step shown.1) shown.2
      rw [add_assoc] at next
      exact next

/-- A text is balanced where its depth is not positive and no string is open at its end. -/
theorem isBalanced_of_shows {inString : Bool} (shown : between.shows text = true)
    (ends : (between.after text).inString? = some inString) :
    isBalanced text = (decide (between.depth text ≤ 0) && !inString) := by
  have start : between.Mirrors 0 {} := rfl
  have mirrors := start.after shown
  rw [zero_add] at mirrors
  have same : (text.foldl Balance.step {}).depth = between.depth text ∧
      (text.foldl Balance.step {}).inString = inString := by
    generalize between.after text = m at mirrors ends
    generalize text.foldl Balance.step {} = b at mirrors
    cases m with
    | blockComment inner pending =>
        cases ends
        cases pending with
        | none => obtain ⟨escaped, rfl⟩ := mirrors; exact ⟨rfl, rfl⟩
        | some p => cases mirrors; exact ⟨rfl, rfl⟩
    | lost => cases ends
    | _ => cases mirrors; cases ends; exact ⟨rfl, rfl⟩
  simp only [isBalanced, same]

end Balance

end Mode

end LispScript.Reader
