import LispScript.Proofs.ReadingSteps
import LispScript.Proofs.Spelling
import Mathlib.Logic.Relation

/-!
Where the lexemes of a text end. A lexeme is a blank, a line comment with its newline, a bracket, a
mark, a guard, a block comment or an atom. What follows it matters only by its first character, and
not at all if that ends tokens.
-/

namespace LispScript.Reader

section Scanners

variable {α : Type} {left left' : List Char}

/-- Texts of which each ends a token if the other does, and begins as the other does if not. -/
def Stops (left left' : List Char) : Prop :=
  left'.head? = left.head? ∨ ∃ c rest, left' = c :: rest ∧ isTerminating c = true

theorem Ends.stops (ends : Ends left) (stops : Stops left left') : Ends left' := by
  obtain same | ⟨c, rest, rfl, terminates⟩ := stops
  · rw [Ends, same]
    exact ends
  · rintro _ ⟨⟩
    exact terminates

/-- What is found at the front of a text, with what follows it, is found before any other text where
it stops as well. -/
def IsLocal (find : List Char → Option (α × List Char)) : Prop :=
  ∀ text found left, find text = some (found, left) →
    ∃ front, front ≠ [] ∧ text = front ++ left ∧
      ∀ left', Stops left left' → find (front ++ left') = some (found, left')

/-- A token is scanned from a front of the text, and likewise before other texts that end it. -/
theorem scanTokenFrom_local {inBars : Bool} {partial_ : PartialToken} {cs : List Char}
    {token : Token} (scanned : scanTokenFrom inBars partial_ cs = (.ok token, left)) :
    ∃ front, cs = front ++ left ∧ Ends left ∧ ∀ left', Ends left' →
      scanTokenFrom inBars partial_ (front ++ left') = (.ok token, left') := by
  fun_induction scanTokenFrom inBars partial_ cs with
  | case1 => cases scanned
  | case2 inBars partial_ outside =>
      cases scanned
      obtain rfl := Bool.eq_false_iff.mpr outside
      exact ⟨[], rfl, (by rintro _ ⟨⟩), fun left' => scanTokenFrom_ends⟩
  | case3 => cases scanned
  | case4 _ _ c _ ih =>
      obtain ⟨front, rfl, ends, again⟩ := ih scanned
      refine ⟨'\\' :: c :: front, rfl, ends, fun left' ends' => ?_⟩
      rw [List.cons_append, List.cons_append, scanTokenFrom, again left' ends']
  | case5 _ _ _ ih =>
      obtain ⟨front, rfl, ends, again⟩ := ih scanned
      refine ⟨'|' :: front, rfl, ends, fun left' ends' => ?_⟩
      rw [List.cons_append, scanTokenFrom, again left' ends']
  | case6 _ _ _ literal ih =>
      obtain ⟨front, rfl, ends, again⟩ := ih scanned
      refine ⟨':' :: front, rfl, ends, fun left' ends' => ?_⟩
      rw [List.cons_append, scanTokenFrom_colon, if_pos literal, again left' ends']
  | case7 _ _ marks _ ih =>
      obtain ⟨front, rfl, ends, again⟩ := ih scanned
      refine ⟨':' :: ':' :: front, rfl, ends, fun left' ends' => ?_⟩
      rw [List.cons_append, List.cons_append, scanTokenFrom_colon, if_neg marks, if_pos (by rfl)]
      exact again left' ends'
  | case8 _ _ marks rest single ih =>
      obtain ⟨front, rfl, ends, again⟩ := ih scanned
      refine ⟨':' :: front, rfl, ends, fun left' ends' => ?_⟩
      have other : (front ++ left').head? ≠ some ':' := by
        cases front with
        | nil => exact fun colon => absurd (ends' _ colon) (by decide)
        | cons c front => exact fun same => single (front ++ left) (by cases same; rfl)
      rw [List.cons_append, scanTokenFrom_colon, if_neg marks, if_neg other, again left' ends']
  | case9 _ c _ _ _ _ ih =>
      obtain ⟨front, rfl, ends, again⟩ := ih scanned
      refine ⟨c :: front, rfl, ends, fun left' ends' => ?_⟩
      rw [List.cons_append, scanTokenFrom, if_pos rfl, again left' ends']
      all_goals assumption
  | case10 inBars partial_ c rest notEscape notBar notColon outside terminates =>
      cases scanned
      obtain rfl := Bool.eq_false_iff.mpr outside
      exact ⟨[], rfl, (by rintro _ ⟨⟩; exact terminates), fun left' => scanTokenFrom_ends⟩
  | case11 _ _ c _ _ _ _ outside continues ih =>
      obtain ⟨front, rfl, ends, again⟩ := ih scanned
      refine ⟨c :: front, rfl, ends, fun left' ends' => ?_⟩
      rw [List.cons_append, scanTokenFrom, if_neg outside, if_neg continues, again left' ends']
      all_goals assumption

theorem ends_dropWhile (cs : List Char) : Ends (cs.dropWhile (!isTerminating ·)) := by
  intro c first
  have := List.head?_dropWhile_not (!isTerminating ·) cs
  rw [first] at this
  simpa using this

theorem scanCharacter_local {cs : List Char} {c : Char}
    (scanned : scanCharacter cs = (.ok c, left)) :
    ∃ front, front ≠ [] ∧ cs = front ++ left ∧ Ends left ∧ ∀ left', Ends left' →
      scanCharacter (front ++ left') = (.ok c, left') := by
  cases cs with
  | nil => cases scanned
  | cons first rest =>
      have same : left = rest.dropWhile (!isTerminating ·) := by
        simp only [scanCharacter] at scanned
        split at scanned
        · exact (Prod.mk.inj scanned).2.symm
        · split at scanned
          · exact (Prod.mk.inj scanned).2.symm
          · cases scanned
      have wordly : ∀ c ∈ rest.takeWhile (!isTerminating ·), isTerminating c = false :=
        fun c member => by simpa using List.mem_takeWhile_imp member
      refine ⟨first :: rest.takeWhile (!isTerminating ·), List.cons_ne_nil _ _, ?_,
        same ▸ ends_dropWhile rest, fun left' ends' => ?_⟩
      · rw [same, List.cons_append, List.takeWhile_append_dropWhile]
      · obtain ⟨taken, dropped⟩ := takeWhile_word _ wordly ends'
        simp only [scanCharacter, List.cons_append, taken, dropped] at scanned ⊢
        split at scanned
        · rename_i bare
          rw [if_pos bare, (Prod.mk.inj scanned).1]
        · rename_i named
          rw [if_neg named]
          split at scanned
          · rw [(Prod.mk.inj scanned).1]
          · cases scanned

theorem scanString_local {seen cs : List Char} {text : String}
    (scanned : scanString seen cs = some (text, left)) :
    ∃ front, cs = front ++ left ∧
      ∀ left', scanString seen (front ++ left') = some (text, left') := by
  fun_induction scanString seen cs with
  | case1 | case3 => cases scanned
  | case2 =>
      cases scanned
      exact ⟨['"'], rfl, fun _ => rfl⟩
  | case4 _ c _ ih =>
      obtain ⟨front, rfl, again⟩ := ih scanned
      exact ⟨'\\' :: c :: front, rfl, again⟩
  | case5 _ c _ _ _ ih =>
      obtain ⟨front, rfl, again⟩ := ih scanned
      refine ⟨c :: front, rfl, fun left' => ?_⟩
      rw [List.cons_append, scanString, again]
      all_goals assumption

theorem skipBlockComment_local {inner : Nat} {cs : List Char}
    (skipped : skipBlockComment inner cs = some left) :
    ∃ front, front ≠ [] ∧ cs = front ++ left ∧
      ∀ left', skipBlockComment inner (front ++ left') = some left' := by
  fun_induction skipBlockComment inner cs with
  | case1 _ _ ih =>
      obtain ⟨front, -, rfl, again⟩ := ih skipped
      exact ⟨'#' :: '|' :: front, List.cons_ne_nil _ _, rfl, again⟩
  | case2 =>
      cases skipped
      exact ⟨['|', '#'], List.cons_ne_nil _ _, rfl, fun _ => rfl⟩
  | case3 _ _ ih =>
      obtain ⟨front, -, rfl, again⟩ := ih skipped
      exact ⟨'|' :: '#' :: front, List.cons_ne_nil _ _, rfl, again⟩
  | case4 inner c rest notOpened notClosed ih =>
      obtain ⟨front, some_, rfl, again⟩ := ih skipped
      refine ⟨c :: front, List.cons_ne_nil _ _, rfl, fun left' => ?_⟩
      obtain ⟨d, front, rfl⟩ := List.exists_cons_of_ne_nil some_
      rw [List.cons_append, List.cons_append, skipBlockComment]
      · exact again left'
      · rintro rest rfl same
        cases same
        exact notOpened _ rfl rfl
      · rintro rest rfl same
        cases same
        exact notClosed _ rfl rfl
  | case5 => cases skipped

end Scanners

section Lexemes

variable {text left : List Char}

theorem not_terminating_at : isTerminating '@' = false := by decide

theorem atom?_local : IsLocal atom? := by
  intro text a left found
  unfold atom? at found
  split at found
  · cases found
  · obtain ⟨⟨word, after⟩, scanned, same⟩ := Option.map_eq_some_iff.mp found
    cases same
    obtain ⟨front, rfl, again⟩ := scanString_local scanned
    refine ⟨'"' :: front, List.cons_ne_nil _ _, rfl, fun left' _ => ?_⟩
    change (scanString [] (front ++ left')).map _ = _
    rw [again]
    rfl
  · obtain ⟨c, scanned, rfl⟩ := scanned?_eq found
    obtain ⟨front, -, rfl, ends, again⟩ := scanCharacter_local scanned
    refine ⟨'#' :: '\\' :: front, List.cons_ne_nil _ _, rfl, fun left' stops => ?_⟩
    change scanned? .character (scanCharacter (front ++ left')) = _
    rw [again left' (ends.stops stops)]
    rfl
  · obtain ⟨token, scanned, rfl⟩ := scanned?_eq found
    obtain ⟨front, rfl, ends, again⟩ := scanTokenFrom_local scanned
    refine ⟨'#' :: ':' :: front, List.cons_ne_nil _ _, rfl, fun left' stops => ?_⟩
    change scanned? .uninterned (scanToken (front ++ left')) = _
    rw [scanToken, again left' (ends.stops stops)]
    rfl
  · cases found
  · rename_i c rest notString notCharacter notUninterned other
    split at found
    · cases found
    · rename_i goes
      have goes : isTerminating c = false := by simpa using goes
      obtain ⟨token, scanned, rfl⟩ := scanned?_eq found
      obtain ⟨front, same, ends, again⟩ := scanTokenFrom_local scanned
      cases front with
      | nil =>
          obtain rfl : c :: rest = left := same
          cases goes.symm.trans (ends c rfl)
      | cons first front =>
          obtain ⟨rfl, rfl⟩ := List.cons.inj same
          refine ⟨c :: front, List.cons_ne_nil _ _, rfl, fun left' stops => ?_⟩
          have scanned := again left' (ends.stops stops)
          rw [List.cons_append] at scanned ⊢
          rw [atom?_token goes other, scanToken, scanned]
          rfl

theorem mark?_local : IsLocal mark? := by
  intro text operator left found
  unfold mark? at found
  split at found
  · cases found
    exact ⟨['\''], List.cons_ne_nil _ _, rfl, fun _ _ => rfl⟩
  · cases found
    exact ⟨['\x60'], List.cons_ne_nil _ _, rfl, fun _ _ => rfl⟩
  · split at found
    · rename_i splices
      obtain ⟨rest, rfl⟩ := List.head?_eq_some_iff.mp splices
      cases found
      exact ⟨[',', '@'], List.cons_ne_nil _ _, rfl, fun _ _ => rfl⟩
    · rename_i plain
      cases found
      refine ⟨[','], List.cons_ne_nil _ _, rfl, fun left' stops => if_neg ?_⟩
      obtain same | ⟨c, rest, rfl, terminates⟩ := stops
      · exact same ▸ plain
      · rintro ⟨⟩
        cases terminates.symm.trans not_terminating_at
  · cases found
    exact ⟨['#', '\''], List.cons_ne_nil _ _, rfl, fun _ _ => rfl⟩
  · cases found

theorem guard?_local : IsLocal guard? := by
  intro text wanted left found
  unfold guard? at found
  split at found
  · cases found
    exact ⟨['#', '+'], List.cons_ne_nil _ _, rfl, fun _ _ => rfl⟩
  · cases found
    exact ⟨['#', '-'], List.cons_ne_nil _ _, rfl, fun _ _ => rfl⟩
  · cases found

/-- What follows the next newline. -/
def afterLine? : List Char → Option (List Char)
  | [] => none
  | c :: rest => if c = '\n' then some rest else afterLine? rest

/-- What follows the lexeme that a text begins with. -/
def afterLexeme? : List Char → Option (List Char)
  | [] => none
  | '(' :: rest => some rest
  | ')' :: rest => some rest
  | ';' :: rest => afterLine? rest
  | '#' :: '(' :: rest => some rest
  | '#' :: '|' :: rest => skipBlockComment 0 rest
  | c :: rest =>
      if Text.isBlank c then some rest
      else (mark? (c :: rest)).map Prod.snd <|> (guard? (c :: rest)).map Prod.snd <|>
        (atom? (c :: rest)).map Prod.snd

theorem afterLexeme?_blank {c : Char} (blank : Text.isBlank c = true) (rest : List Char) :
    afterLexeme? (c :: rest) = some rest := by
  unfold afterLexeme?
  split
  · contradiction
  iterate 5
    · rename_i same
      cases same
      exact absurd blank (by decide)
  · rename_i same
    cases same
    exact if_pos blank

theorem afterLexeme?_mark {operator : String} (found : mark? text = some (operator, left)) :
    afterLexeme? text = some left := by
  unfold mark? at found
  split at found
  · cases found
    rfl
  · cases found
    rfl
  · split at found
    · rename_i splices
      obtain ⟨rest, rfl⟩ := List.head?_eq_some_iff.mp splices
      cases found
      rfl
    · rename_i left plain
      cases found
      change ((if _ then _ else _ : Option (String × List Char)).map Prod.snd <|> _) = _
      rw [if_neg plain]
      rfl
  · cases found
    rfl
  · cases found

theorem afterLexeme?_guard {wanted : Bool} (found : guard? text = some (wanted, left)) :
    afterLexeme? text = some left := by
  unfold guard? at found
  split at found
  · cases found
    rfl
  · cases found
    rfl
  · cases found

theorem mark?_token {c : Char} (goes : isTerminating c = false) (other : c ≠ '#')
    (rest : List Char) : mark? (c :: rest) = none := by
  unfold mark?
  split
  iterate 3
    · rename_i same
      cases same
      cases goes
  · rename_i same
    exact absurd (List.cons.inj same).1 other
  · rfl

theorem guard?_token {c : Char} (other : c ≠ '#') (rest : List Char) :
    guard? (c :: rest) = none := by
  unfold guard?
  split
  iterate 2
    · rename_i same
      exact absurd (List.cons.inj same).1 other
  · rfl

theorem afterLexeme?_token {c : Char} (goes : isTerminating c = false) (other : c ≠ '#')
    (rest : List Char) : afterLexeme? (c :: rest) = (atom? (c :: rest)).map Prod.snd := by
  unfold afterLexeme?
  split
  · contradiction
  iterate 3
    · rename_i same
      cases same
      cases goes
  iterate 2
    · rename_i same
      exact absurd (List.cons.inj same).1 other
  · rename_i same
    cases same
    have notBlank : Text.isBlank c = false := by
      simp only [isTerminating, Bool.or_eq_false_iff] at goes
      exact goes.1.1.1.1.1.1.1
    rw [notBlank, mark?_token goes other, guard?_token other]
    rfl

theorem afterLexeme?_atom {a : Atom} (found : atom? text = some (a, left)) :
    afterLexeme? text = some left := by
  have whole := found
  unfold atom? at found
  split at found
  · cases found
  iterate 3
    · change (atom? _).map Prod.snd = _
      rw [whole]
      rfl
  · cases found
  · rename_i c rest _ _ _ other
    split at found
    · cases found
    · rename_i goes
      rw [afterLexeme?_token (by simpa using goes) other, whole]
      rfl

end Lexemes

section Boundaries

variable {b x x' y left : List Char}

/-- The first lexeme of `x ++ b` is the part of `x` before `x'`. -/
def Follows (b x x' : List Char) : Prop := x ≠ [] ∧ afterLexeme? (x ++ b) = some (x' ++ b)

/-- Before `b`, whole lexemes lead from `x` to its rest `x'`. -/
def Leads (b : List Char) : List Char → List Char → Prop := Relation.ReflTransGen (Follows b)

/-- Where whole lexemes lead to `b`, they lead there from after the first one. -/
theorem Leads.after (leads : Leads b x []) (some_ : x ≠ [])
    (found : afterLexeme? (x ++ b) = some left) :
    ∃ x', left = x' ++ b ∧ Follows b x x' ∧ Leads b x' [] := by
  obtain same | ⟨x', first, rest⟩ := leads.cases_head
  · exact absurd same some_
  · exact ⟨x', Option.some.inj (found.symm.trans first.2), first, rest⟩

/-- What stops before `y ++ b` stops before `y` and a blank as well. -/
theorem stops_blank (y b z : List Char) : Stops (y ++ b) (y ++ ' ' :: z) := by
  cases y with
  | nil => exact .inr ⟨' ', z, rfl, by decide⟩
  | cons c y => exact .inl rfl

/-- What is found at the front of `x ++ b`, where a lexeme of `x` is, is found if a blank comes after
`x`. -/
theorem IsLocal.found {α : Type} {find : List Char → Option (α × List Char)} (isLocal : IsLocal find)
    {a : α} (found : find (x ++ b) = some (a, x' ++ b)) (z : List Char) :
    find (x ++ ' ' :: z) = some (a, x' ++ ' ' :: z) := by
  obtain ⟨front, -, same, again⟩ := isLocal _ _ _ found
  rw [← List.append_assoc] at same
  obtain rfl := List.append_cancel_right same
  rw [List.append_assoc]
  exact again _ (stops_blank x' b z)

theorem afterLine?_skipped {text left : List Char} (found : afterLine? text = some left) :
    ∃ line, text = line ++ left ∧ ∀ z, skipBlanksFrom true (line ++ z) = skipBlanks z := by
  induction text with
  | nil => cases found
  | cons c text ih =>
      rw [afterLine?] at found
      split at found
      · rename_i newline
        cases found
        subst newline
        exact ⟨['\n'], rfl, fun _ => rfl⟩
      · rename_i other
        obtain ⟨line, rfl, skips⟩ := ih found
        refine ⟨c :: line, rfl, fun z => ?_⟩
        rw [List.cons_append, skipBlanksFrom, if_pos rfl, bne_iff_ne.mpr other]
        exact skips z

theorem isReady_cons {c : Char} (notBlank : Text.isBlank c = false) (notComment : c ≠ ';')
    (rest : List Char) : skipBlanks (c :: rest) = c :: rest := by
  rw [skipBlanks, skipBlanksFrom, if_neg (by simp), if_neg (by simp [notBlank]), if_neg notComment]

/-- Before a boundary, blanks either reach the boundary or end at a lexeme before it. -/
theorem Leads.blanks (leads : Leads b x []) :
    (∀ z, skipBlanks (x ++ z) = skipBlanks z) ∨
      ∃ x', x' ≠ [] ∧ Leads b x x' ∧ Leads b x' [] ∧ ∀ z, skipBlanks (x ++ z) = x' ++ z := by
  induction leads using Relation.ReflTransGen.head_induction_on with
  | refl => exact .inl fun _ => rfl
  | @head x x₁ first leads ih =>
      have goesOn (same : ∀ z, skipBlanks (x ++ z) = skipBlanks (x₁ ++ z)) :
          (∀ z, skipBlanks (x ++ z) = skipBlanks z) ∨
            ∃ x', x' ≠ [] ∧ Leads b x x' ∧ Leads b x' [] ∧ ∀ z, skipBlanks (x ++ z) = x' ++ z := by
        obtain through | ⟨x', some_, before, after, ends⟩ := ih
        · exact .inl fun z => (same z).trans (through z)
        · exact .inr ⟨x', some_, .head first before, after, fun z => (same z).trans (ends z)⟩
      obtain ⟨c, x, rfl⟩ := List.exists_cons_of_ne_nil first.1
      by_cases blank : Text.isBlank c = true
      · refine goesOn fun z => ?_
        have found := (afterLexeme?_blank blank (x ++ b)).symm.trans first.2
        obtain rfl := List.append_cancel_right (Option.some.inj found)
        rw [List.cons_append, skipBlanks, skipBlanksFrom, if_neg (by simp), if_pos blank]
        rfl
      · by_cases line : c = ';'
        · subst line
          obtain ⟨line, same, skips⟩ := afterLine?_skipped first.2
          rw [← List.append_assoc] at same
          obtain rfl := List.append_cancel_right same
          refine goesOn fun z => ?_
          rw [List.cons_append, skipBlanks, skipBlanksFrom, if_neg (by simp), if_neg blank,
            if_pos rfl, List.append_assoc, skips]
        · exact .inr ⟨c :: x, List.cons_ne_nil _ _, .refl, .head first leads, fun z =>
            isReady_cons (by simpa using blank) line (x ++ z)⟩

theorem atLonePoint_iff (rest : List Char) : atLonePoint ('.' :: rest) = true ↔ Ends rest := by
  cases rest with
  | nil => exact ⟨fun _ => (by rintro _ ⟨⟩), fun _ => rfl⟩
  | cons c rest => exact ⟨fun lone => (by rintro _ ⟨⟩; exact lone), fun ends => ends c rfl⟩

/-- The token that a lone point is scanned as. -/
def pointToken : Token := (({} : PartialToken).add (Text.upcase '.')).finish

theorem scanToken_point (rest : List Char) : scanToken ('.' :: rest) =
    scanTokenFrom false (({} : PartialToken).add (Text.upcase '.')) rest := by
  rw [scanToken, scanTokenFrom]
  · rfl
  all_goals decide

theorem atom?_point (ends : Ends left) : atom? ('.' :: left) = some (.spelled pointToken, left) := by
  rw [atom?_token (by decide) (by decide), scanToken_point, scanTokenFrom_ends ends]
  rfl

theorem afterLexeme?_point (rest : List Char) :
    afterLexeme? ('.' :: rest) = some rest ↔ Ends rest := by
  have after : afterLexeme? ('.' :: rest) = (atom? ('.' :: rest)).map Prod.snd :=
    afterLexeme?_token (by decide) (by decide) rest
  rw [after]
  constructor
  · intro found
    obtain ⟨⟨a, left⟩, scanned, rfl⟩ := Option.map_eq_some_iff.mp found
    rw [atom?_token (by decide) (by decide), scanToken_point] at scanned
    obtain ⟨token, scanned, -⟩ := scanned?_eq scanned
    obtain ⟨-, -, ends, -⟩ := scanTokenFrom_local scanned
    exact ends
  · intro ends
    rw [atom?_point ends]
    rfl

/-- Whether a lexeme is a lone point does not change when a blank comes to stand behind it. -/
theorem Leads.point (leads : Leads b x []) (some_ : x ≠ []) (z : List Char) :
    atLonePoint (x ++ ' ' :: z) = atLonePoint (x ++ b) := by
  obtain ⟨c, x, rfl⟩ := List.exists_cons_of_ne_nil some_
  by_cases point : c = '.'
  · subst point
    cases x with
    | cons d x => rfl
    | nil =>
        obtain same | ⟨x', ⟨-, found⟩, -⟩ := leads.cases_head
        · contradiction
        · have atom : (atom? ('.' :: b)).map Prod.snd = some (x' ++ b) :=
            (afterLexeme?_token (by decide) (by decide) b).symm.trans found
          obtain ⟨⟨a, _⟩, taken, rfl⟩ := Option.map_eq_some_iff.mp atom
          obtain ⟨front, some_, same, -⟩ := atom?_local _ _ _ taken
          have lengths := congrArg List.length same
          have positive := List.length_pos_of_ne_nil some_
          simp only [List.length_append, List.length_cons] at lengths
          obtain rfl : x' = [] := List.eq_nil_of_length_eq_zero (by omega)
          have ends : Ends b := (afterLexeme?_point b).mp found
          exact ((atLonePoint_iff _).mpr (by rintro _ ⟨⟩; decide)).trans
            ((atLonePoint_iff _).mpr ends).symm
  · rw [List.cons_append, List.cons_append]
    simp [atLonePoint, point]

end Boundaries

end LispScript.Reader
