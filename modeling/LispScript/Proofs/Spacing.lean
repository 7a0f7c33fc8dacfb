import LispScript.Proofs.LexicalModes

/-!
Texts that differ in blanks only. Further blanks between lexemes, or in a block comment, leave it as it
is what the scanners find. A scanner also takes a text from one mode to another, and with as many lists
open after it as before.
-/

namespace LispScript.Reader

/-- Whether a reading failed because the text ended inside a list or a string. -/
def isUnfinished : ReadError → Bool
  | .unterminatedList | .unterminatedString => true
  | _ => false

namespace Mode

/-- Where a blank changes nothing. -/
def isOpen : Mode → Bool
  | between | blockComment _ none | lost => true
  | _ => false

/-- The second text is the first with further blanks where blanks change nothing. -/
inductive Spaced : Mode → List Char → List Char → Prop
  | nil {m : Mode} : Spaced m [] []
  | cons {m : Mode} {c : Char} {text text' : List Char} (more : Spaced (m.step c) text text') :
      Spaced m (c :: text) (c :: text')
  | blank {m : Mode} {c : Char} {text text' : List Char} (isOpen : m.isOpen = true)
      (blank : Text.isBlank c = true) (more : Spaced m text text') : Spaced m text (c :: text')

/-- From a text, what is passed before the rest changes the number of open lists by so many and leads
from one mode to another. -/
structure Leads (m : Mode) (text : List Char) (change : Int) (m' : Mode) (rest : List Char) :
    Prop where
  depth : m.depth text = change + m'.depth rest
  ends : (m.after text).inString? = (m'.after rest).inString?

/-- The text ends inside a string or with more lists open than the change tells. -/
def Unfinished (m : Mode) (text : List Char) (change : Int) : Prop :=
  (m.after text).inString? = some true ∨
    (m.after text).inString? = some false ∧ change < m.depth text

variable {m m' m'' : Mode} {c : Char} {text text' rest rest' : List Char} {change more : Int}

section Texts

theorem Leads.refl (m : Mode) (text : List Char) : m.Leads text 0 m text :=
  ⟨(zero_add _).symm, rfl⟩

theorem Leads.trans (first : m.Leads text change m' rest) (second : m'.Leads rest more m'' rest') :
    m.Leads text (change + more) m'' rest' :=
  ⟨by rw [first.depth, second.depth, add_assoc], first.ends.trans second.ends⟩

theorem Leads.cons (m : Mode) (c : Char) (text : List Char) :
    m.Leads (c :: text) (m.nesting c) (m.step c) text :=
  ⟨rfl, rfl⟩

/-- A character that neither begins nor ends a list. -/
theorem Leads.pass (level : m.nesting c = 0) (next : (m.step c).Leads text change m' rest) :
    m.Leads (c :: text) change m' rest := by
  have leads := (Leads.cons m c text).trans next
  rwa [level, zero_add] at leads

/-- Modes that are alike for the next character. -/
theorem Leads.of_step (level : m.nesting c = m'.nesting c) (next : m.step c = m'.step c) :
    m.Leads (c :: text) 0 m' (c :: text) where
  depth := by
    change m.nesting c + (m.step c).depth text = 0 + (m'.nesting c + (m'.step c).depth text)
    rw [level, next, zero_add]
  ends := by
    change ((m.step c).after text).inString? = ((m'.step c).after text).inString?
    rw [next]

theorem Unfinished.before (unfinished : m'.Unfinished rest more)
    (leads : m.Leads text change m' rest) : m.Unfinished text (change + more) := by
  unfold Unfinished at unfinished ⊢
  rw [leads.ends, leads.depth]
  exact unfinished.imp_right fun ⟨ends, less⟩ => ⟨ends, by omega⟩

theorem Unfinished.mono (unfinished : m.Unfinished text change) (fewer : more ≤ change) :
    m.Unfinished text more :=
  unfinished.imp_right fun ⟨ends, less⟩ => ⟨ends, by omega⟩

theorem Spaced.refl (m : Mode) (text : List Char) : m.Spaced text text := by
  induction text generalizing m with
  | nil => exact .nil
  | cons c rest ih => exact .cons (ih _)

theorem Spaced.length_le (spaced : m.Spaced text text') : text.length ≤ text'.length := by
  induction spaced with
  | nil => exact Nat.le_refl _
  | cons _ ih => exact Nat.succ_le_succ ih
  | blank _ _ _ ih => exact Nat.le_succ_of_le ih

/-- Where blanks may matter, a text and a spaced one go on with the same character. -/
theorem Spaced.cons_inv (closed : m.isOpen = false) (spaced : m.Spaced (c :: text) text') :
    ∃ rest', text' = c :: rest' ∧ (m.step c).Spaced text rest' := by
  cases spaced with
  | cons more => exact ⟨_, rfl, more⟩
  | blank open_ => cases closed.symm.trans open_

theorem Spaced.nil_inv (closed : m.isOpen = false) (spaced : m.Spaced [] text') : text' = [] := by
  cases spaced with
  | nil => rfl
  | blank open_ => cases closed.symm.trans open_

theorem Spaced.head_eq (closed : m.isOpen = false) (spaced : m.Spaced text text') :
    text'.head? = text.head? := by
  cases spaced with
  | nil => rfl
  | cons => rfl
  | blank open_ => cases closed.symm.trans open_

theorem step_blank (open_ : m.isOpen = true) (blank : Text.isBlank c = true) : m.step c = m := by
  cases m with
  | between => exact opening_of_blank blank
  | blockComment inner pending =>
      cases pending with
      | none =>
          have other : c ≠ '#' ∧ c ≠ '|' := by
            constructor <;> rintro rfl <;> cases blank
          simp [step, commenting, other]
      | some c => cases open_
  | lost => rfl
  | _ => cases open_

theorem Spaced.append (front : List Char) {text text' : List Char}
    (spaced : (m.after front).Spaced text text') : m.Spaced (front ++ text) (front ++ text') := by
  induction front generalizing m with
  | nil => exact spaced
  | cons c front ih => exact .cons (ih spaced)

theorem Spaced.blanks (open_ : m.isOpen = true) {blanks text text' : List Char}
    (blank : ∀ c ∈ blanks, Text.isBlank c = true) (spaced : m.Spaced text text') :
    m.Spaced text (blanks ++ text') := by
  induction blanks with
  | nil => exact spaced
  | cons c blanks ih =>
      exact .blank open_ (blank c List.mem_cons_self) (ih fun c member =>
        blank c (List.mem_cons_of_mem _ member))

theorem after_blanks (open_ : m.isOpen = true) {blanks : List Char}
    (blank : ∀ c ∈ blanks, Text.isBlank c = true) : m.after blanks = m := by
  induction blanks with
  | nil => rfl
  | cons c blanks ih =>
      have next := step_blank open_ (blank c List.mem_cons_self)
      change (m.step c).after blanks = m
      rw [next]
      exact ih fun c member => blank c (List.mem_cons_of_mem _ member)

/-- After a token, a text goes on as it does between lexemes. -/
theorem Spaced.settle (ends : Ends text) (spaced : (word false false).Spaced text text') :
    between.Spaced text text' ∧ (word false false).Leads text 0 between text := by
  cases text with
  | nil =>
      obtain rfl := spaced.nil_inv rfl
      exact ⟨.nil, rfl, rfl⟩
  | cons c rest =>
      obtain ⟨rest', rfl, more⟩ := spaced.cons_inv rfl
      have same := opening_of_terminating (ends c rfl)
      exact ⟨.cons (same ▸ more), .of_step rfl same⟩

end Texts

section Blanks

/-- Texts that begin with the same character, and not with a blank or a comment, if they do not end. -/
inductive Abreast : List Char → List Char → Prop
  | nil : Abreast [] []
  | cons {c : Char} {text text' : List Char} (noBlank : Text.isBlank c = false) (noComment : c ≠ ';')
      (more : (between.step c).Spaced text text') : Abreast (c :: text) (c :: text')

theorem skipBlanksFrom_spaced (inComment : Bool)
    (spaced : (if inComment then lineComment else between).Spaced text text') :
    Abreast (skipBlanksFrom inComment text) (skipBlanksFrom inComment text') ∧
      (if inComment then lineComment else between).Leads text 0 between
        (skipBlanksFrom inComment text) := by
  generalize mode : (if inComment then lineComment else between) = m at spaced ⊢
  induction spaced generalizing inComment with
  | nil =>
      refine ⟨.nil, rfl, ?_⟩
      subst mode
      cases inComment <;> rfl
  | @cons m c rest rest' spaced ih =>
      cases inComment with
      | true =>
          subst mode
          rw [skipBlanksFrom, if_pos rfl, skipBlanksFrom, if_pos rfl]
          obtain ⟨abreast, leads⟩ := @ih (c != '\n') (by
            by_cases newline : c = '\n' <;> simp [newline, step])
          exact ⟨abreast, leads.pass rfl⟩
      | false =>
          subst mode
          simp only [skipBlanksFrom, Bool.false_eq_true, if_false]
          by_cases blank : Text.isBlank c = true
          · rw [if_pos blank, if_pos blank]
            obtain ⟨abreast, leads⟩ := @ih false (opening_of_blank blank).symm
            refine ⟨abreast, leads.pass (nesting_of_other ?_ between)⟩
            simp only [isSign, Bool.or_eq_false_iff, beq_eq_false_iff_ne]
            refine ⟨⟨⟨?_, ?_⟩, ?_⟩, ?_⟩ <;> rintro rfl <;> cases blank
          · rw [if_neg blank, if_neg blank]
            by_cases comment : c = ';'
            · subst comment
              obtain ⟨abreast, leads⟩ := @ih true rfl
              exact ⟨abreast, leads.pass rfl⟩
            · rw [if_neg comment, if_neg comment]
              exact ⟨.cons (by simpa using blank) comment spaced, .refl _ _⟩
  | @blank m c rest rest' open_ blank spaced ih =>
      cases inComment with
      | true => subst mode; cases open_
      | false =>
          obtain ⟨abreast, leads⟩ := @ih false mode
          refine ⟨?_, leads⟩
          simpa only [skipBlanksFrom, Bool.false_eq_true, if_false, if_pos blank] using abreast

end Blanks

section Scanners

variable {α : Type}

/-- What a scanner finds in a text, and the same in a text with further blanks. -/
inductive Found (m : Mode) (text : List Char) (m' : Mode) :
    Except ReadError α × List Char → Except ReadError α × List Char → Prop
  | ok {a : α} {rest rest' : List Char} (spaced : m'.Spaced rest rest')
      (leads : m.Leads text 0 m' rest) : Found m text m' (.ok a, rest) (.ok a, rest')
  | error {e : ReadError} {rest rest' : List Char}
      (unfinished : isUnfinished e = true → m.Unfinished text 0) :
      Found m text m' (.error e, rest) (.error e, rest')

/-- An error that is not about the end of the text. -/
theorem Found.refused {e : ReadError} {rest rest' : List Char} (finished : isUnfinished e = false) :
    Found (α := α) m text m' (.error e, rest) (.error e, rest') :=
  .error fun unfinished => absurd unfinished (Bool.eq_false_iff.mp finished)

/-- A scanner that leads from one mode to another, and finds the same where there are further blanks. -/
def Conveys (m m' : Mode) (scan : List Char → Except ReadError α × List Char) : Prop :=
  ∀ text text', m.Spaced text text' → Found m text m' (scan text) (scan text')

theorem Found.pass {result result' : Except ReadError α × List Char} (level : m.nesting c = 0)
    (next : m.step c = m'') (found : Found m'' text m' result result') :
    Found m (c :: text) m' result result' := by
  subst next
  cases found with
  | ok spaced leads => exact .ok spaced (leads.pass level)
  | error unfinished =>
      refine .error fun isUnfinished => ?_
      have before := (unfinished isUnfinished).before (Leads.cons m c text)
      rwa [level] at before

theorem nesting_word {inBars : Bool} (goes : isTerminating c = false) :
    (word inBars false).nesting c = 0 := by
  have other : c ≠ '(' ∧ c ≠ ')' := by
    constructor <;> rintro rfl <;> cases goes
  simp only [nesting, other, if_false, ite_self]

theorem step_word {inBars : Bool} (noEscape : c ≠ '\\') (noBar : c ≠ '|')
    (goes : inBars = true ∨ isTerminating c = false) :
    (word inBars false).step c = word inBars false := by
  have inside : ¬ (!inBars && isTerminating c) = true := by
    rcases goes with rfl | goes
    · simp
    · simp [goes]
  simp only [step, spelling, if_neg noEscape, if_neg noBar, if_neg inside]

theorem scanTokenFrom_found (inBars : Bool) (token : PartialToken) (text text' : List Char)
    (spaced : (word inBars false).Spaced text text') :
    Found (word inBars false) text between (scanTokenFrom inBars token text)
      (scanTokenFrom inBars token text') := by
  have colon (inBars : Bool) : (word inBars false).step ':' = word inBars false :=
    step_word (by decide) (by decide) (.inr rfl)
  fun_induction scanTokenFrom inBars token text generalizing text' with
  | case1 token =>
      obtain rfl := spaced.nil_inv rfl
      exact .refused rfl
  | case2 inBars token outside =>
      obtain rfl := spaced.nil_inv rfl
      rw [scanTokenFrom, if_neg outside]
      exact .ok .nil ⟨rfl, rfl⟩
  | case3 inBars token =>
      obtain ⟨rest, rfl, more⟩ := spaced.cons_inv rfl
      obtain rfl := more.nil_inv rfl
      exact .refused rfl
  | case4 inBars token c rest ih =>
      obtain ⟨escaped, rfl, begun⟩ := spaced.cons_inv rfl
      obtain ⟨rest', rfl, more⟩ := begun.cons_inv rfl
      rw [scanTokenFrom]
      have level : (word inBars true).nesting c = 0 := by cases inBars <;> rfl
      exact .pass (nesting_word rfl) rfl (.pass level rfl (ih _ more))
  | case5 inBars token rest ih =>
      obtain ⟨rest', rfl, more⟩ := spaced.cons_inv rfl
      rw [scanTokenFrom]
      exact .pass (nesting_word rfl) rfl (ih _ more)
  | case6 inBars token rest literal ih =>
      obtain ⟨rest', rfl, more⟩ := spaced.cons_inv rfl
      rw [colon] at more
      rw [scanTokenFrom_colon, if_pos literal]
      exact .pass (nesting_word rfl) (colon inBars) (ih _ more)
  | case7 inBars token marks rest ih =>
      obtain ⟨colons, rfl, begun⟩ := spaced.cons_inv rfl
      rw [colon] at begun
      obtain ⟨rest', rfl, more⟩ := begun.cons_inv rfl
      rw [colon] at more
      rw [scanTokenFrom_colon, if_neg marks, if_pos (by rfl)]
      exact .pass (nesting_word rfl) (colon inBars)
        (.pass (nesting_word rfl) (colon inBars) (ih _ more))
  | case8 inBars token marks rest single ih =>
      obtain ⟨rest', rfl, more⟩ := spaced.cons_inv rfl
      rw [colon] at more
      have other : rest'.head? ≠ some ':' := by
        rw [more.head_eq rfl]
        intro doubled
        obtain ⟨left, rfl⟩ := List.head?_eq_some_iff.mp doubled
        exact single left rfl
      rw [scanTokenFrom_colon, if_neg marks, if_neg other]
      exact .pass (nesting_word rfl) (colon inBars) (ih _ more)
  | case9 token c rest noEscape noBar noColon ih =>
      obtain ⟨rest', rfl, more⟩ := spaced.cons_inv rfl
      have next : (word true false).step c = word true false := step_word noEscape noBar (.inl rfl)
      rw [next] at more
      rw [scanTokenFrom, if_pos rfl]
      · exact .pass rfl next (ih _ more)
      all_goals assumption
  | case10 inBars token c rest noEscape noBar noColon outside terminates =>
      obtain rfl := Bool.eq_false_iff.mpr outside
      obtain ⟨settled, leads⟩ := spaced.settle (fun _ first => by cases first; exact terminates)
      obtain ⟨rest', rfl, more⟩ := spaced.cons_inv rfl
      rw [scanTokenFrom, if_neg Bool.false_ne_true, if_pos terminates]
      · exact .ok settled leads
      all_goals assumption
  | case11 inBars token c rest noEscape noBar noColon outside goes ih =>
      have goes := Bool.eq_false_iff.mpr goes
      obtain ⟨rest', rfl, more⟩ := spaced.cons_inv rfl
      have next : (word inBars false).step c = word inBars false :=
        step_word noEscape noBar (.inr goes)
      rw [next] at more
      rw [scanTokenFrom, if_neg outside, if_neg (by simp [goes])]
      · exact .pass (nesting_word goes) next (ih _ more)
      all_goals assumption

theorem Conveys.token : Conveys (word false false) between scanToken :=
  scanTokenFrom_found false {}

theorem scanString_found (seen text text' : List Char) (spaced : (string false).Spaced text text') :
    Found (string false) text between
      (match scanString seen text with
        | some (text, rest) => (.ok text, rest)
        | none => (.error .unterminatedString, []))
      (match scanString seen text' with
        | some (text, rest) => (.ok text, rest)
        | none => (.error .unterminatedString, [])) := by
  fun_induction scanString seen text generalizing text' with
  | case1 seen =>
      obtain rfl := spaced.nil_inv rfl
      exact .error fun _ => .inl rfl
  | case2 seen rest =>
      obtain ⟨rest', rfl, more⟩ := spaced.cons_inv rfl
      exact .pass rfl rfl (.ok more (.refl _ _))
  | case3 seen =>
      obtain ⟨escaped, rfl, begun⟩ := spaced.cons_inv rfl
      obtain rfl := begun.nil_inv rfl
      exact .error fun _ => .inl rfl
  | case4 seen c rest ih =>
      obtain ⟨escaped, rfl, begun⟩ := spaced.cons_inv rfl
      obtain ⟨rest', rfl, more⟩ := begun.cons_inv rfl
      rw [scanString]
      exact .pass rfl rfl (.pass rfl rfl (ih _ more))
  | case5 seen c rest noQuote noEscape ih =>
      obtain ⟨rest', rfl, more⟩ := spaced.cons_inv rfl
      have other : c ≠ '"' ∧ c ≠ '\\' := ⟨noQuote, noEscape⟩
      have next : (string false).step c = string false := by
        simp only [step, other, if_false, decide_false]
      rw [next] at more
      rw [scanString]
      · exact .pass rfl next (ih _ more)
      all_goals assumption

theorem Conveys.string : Conveys (string false) between stringScanner :=
  scanString_found []

/-- The characters of a block comment, with one before them that may belong to its end. -/
def withPending (pending : Option Char) (text : List Char) : List Char := pending.toList ++ text

theorem skipBlockComment_other {inner : Nat} (other : c ≠ '#' ∧ c ≠ '|') :
    skipBlockComment inner (c :: text) = skipBlockComment inner text := by
  rw [skipBlockComment]
  · rintro _ same
    exact absurd same other.1
  · rintro _ same
    exact absurd same other.2

/-- A block comment is skipped one character at a time, with the characters that may belong to its end
pending. -/
theorem none_pending (p : Char) (none_ : (none : Option Char) = some p) : p = '#' ∨ p = '|' :=
  absurd none_ (Option.some_ne_none p).symm

theorem skipBlockComment_step (inner : Nat) {pending : Option Char}
    (sign : ∀ p, pending = some p → p = '#' ∨ p = '|') (c : Char) :
    (commenting inner pending c = between ∧
      ∀ text, skipBlockComment inner (withPending pending (c :: text)) = some text) ∨
    ∃ inner' pending', commenting inner pending c = blockComment inner' pending' ∧
      (∀ p, pending' = some p → p = '#' ∨ p = '|') ∧
      ∀ text, skipBlockComment inner (withPending pending (c :: text)) =
        skipBlockComment inner' (withPending pending' text) := by
  by_cases sharp : c = '#'
  · subst sharp
    cases pending with
    | none => exact .inr ⟨inner, some '#', rfl, fun p same => .inl (by cases same; rfl), fun _ => rfl⟩
    | some p =>
        obtain rfl | rfl := sign p rfl
        · exact .inr ⟨inner, some '#', rfl, sign, fun _ => by
            simp [withPending, skipBlockComment]⟩
        · cases inner with
          | zero => exact .inl ⟨rfl, fun _ => rfl⟩
          | succ inner => exact .inr ⟨inner, none, rfl, none_pending, fun _ => rfl⟩
  by_cases bar : c = '|'
  · subst bar
    cases pending with
    | none => exact .inr ⟨inner, some '|', rfl, fun p same => .inr (by cases same; rfl), fun _ => rfl⟩
    | some p =>
        obtain rfl | rfl := sign p rfl
        · exact .inr ⟨inner + 1, none, rfl, none_pending, fun _ => rfl⟩
        · exact .inr ⟨inner, some '|', rfl, sign, fun _ => by
            simp [withPending, skipBlockComment]⟩
  · have other : c ≠ '#' ∧ c ≠ '|' := ⟨sharp, bar⟩
    refine .inr ⟨inner, none, by simp [commenting, other], none_pending, fun text => ?_⟩
    cases pending with
    | none => exact skipBlockComment_other other
    | some p =>
        refine Eq.trans ?_ (skipBlockComment_other other :
          skipBlockComment inner (c :: text) = skipBlockComment inner text)
        obtain rfl | rfl := sign p rfl
        · change skipBlockComment inner ('#' :: c :: text) = _
          rw [skipBlockComment]
          · exact fun _ _ same => other.2 (List.cons.inj same).1
          · exact fun _ same => absurd same (by decide)
        · change skipBlockComment inner ('|' :: c :: text) = _
          rw [skipBlockComment]
          · exact fun _ same => absurd same (by decide)
          · exact fun _ _ same => other.1 (List.cons.inj same).1

theorem skipBlockComment_found {inner : Nat} {pending : Option Char} (text text' : List Char)
    (sign : ∀ p, pending = some p → p = '#' ∨ p = '|')
    (spaced : (blockComment inner pending).Spaced text text') :
    Found (blockComment inner pending) text between
      (match skipBlockComment inner (withPending pending text) with
        | some rest => (.ok (), rest)
        | none => (.error .unexpectedEnd, []))
      (match skipBlockComment inner (withPending pending text') with
        | some rest => (.ok (), rest)
        | none => (.error .unexpectedEnd, [])) := by
  generalize mode : blockComment inner pending = m at spaced ⊢
  induction spaced generalizing inner pending with
  | nil =>
      have ends : skipBlockComment inner (withPending pending []) = none := by
        cases pending with
        | none => rfl
        | some c => obtain rfl | rfl := sign c rfl <;> rfl
      rw [ends]
      exact .refused rfl
  | @cons m c rest rest' spaced ih =>
      subst mode
      obtain ⟨closes, skipped⟩ | ⟨inner', pending', goes, sign', skipped⟩ :=
        skipBlockComment_step inner sign c
      · rw [skipped, skipped]
        change (commenting inner pending c).Spaced rest rest' at spaced
        rw [closes] at spaced
        exact .pass rfl closes (.ok spaced (.refl _ _))
      · rw [skipped, skipped]
        exact .pass rfl goes (goes ▸ ih sign' goes.symm)
  | @blank m c rest rest' open_ blank spaced ih =>
      subst mode
      cases pending with
      | some c => cases open_
      | none =>
          have other : c ≠ '#' ∧ c ≠ '|' := by
            constructor <;> rintro rfl <;> cases blank
          have same : skipBlockComment inner (withPending none (c :: rest')) =
              skipBlockComment inner (withPending none rest') := skipBlockComment_other other
          rw [same]
          exact @ih inner none none_pending rfl

theorem Conveys.comment : Conveys (blockComment 0 none) between commentScanner := fun text text' =>
  @skipBlockComment_found 0 none text text' none_pending

/-- Characters that go on with a token leave a text in a word. -/
theorem Spaced.word_inv {front rest text' : List Char} {inBars escaped : Bool}
    (goes : ∀ c ∈ front, isTerminating c = false)
    (spaced : (word inBars escaped).Spaced (front ++ rest) text') :
    ∃ inBars' escaped' rest', text' = front ++ rest' ∧ (word inBars' escaped').Spaced rest rest' := by
  induction front generalizing inBars escaped text' with
  | nil => exact ⟨inBars, escaped, text', rfl, spaced⟩
  | cons c front ih =>
      obtain ⟨left, rfl, more⟩ := spaced.cons_inv rfl
      have next : ∃ inBars' escaped', (word inBars escaped).step c = word inBars' escaped' := by
        have goes : isTerminating c = false := goes c List.mem_cons_self
        cases escaped with
        | true => exact ⟨inBars, false, rfl⟩
        | false =>
            simp only [step, spelling, goes, Bool.and_false, Bool.false_eq_true, if_false]
            repeat' split
            all_goals exact ⟨_, _, rfl⟩
      obtain ⟨inBars', escaped', next⟩ := next
      rw [next] at more
      obtain ⟨inBars'', escaped'', rest', rfl, later⟩ :=
        ih (fun c member => goes c (List.mem_cons_of_mem _ member)) more
      exact ⟨inBars'', escaped'', rest', rfl, later⟩

/-- Characters without escapes and bars. -/
theorem Spaced.plain_inv {front rest text' : List Char}
    (goes : ∀ c ∈ front, isTerminating c = false) (plain : ∀ c ∈ front, c ≠ '\\' ∧ c ≠ '|')
    (spaced : (word false false).Spaced (front ++ rest) text') :
    ∃ rest', text' = front ++ rest' ∧ (word false false).Spaced rest rest' ∧
      (word false false).Leads (front ++ rest) 0 (word false false) rest := by
  induction front generalizing text' with
  | nil => exact ⟨text', rfl, spaced, .refl _ _⟩
  | cons c front ih =>
      obtain ⟨left, rfl, more⟩ := spaced.cons_inv rfl
      have goesOn := goes c List.mem_cons_self
      obtain ⟨noEscape, noBar⟩ := plain c List.mem_cons_self
      have next : (word false false).step c = word false false :=
        step_word noEscape noBar (.inr goesOn)
      rw [next] at more
      obtain ⟨rest', rfl, later, leads⟩ :=
        ih (fun c member => goes c (List.mem_cons_of_mem _ member))
          (fun c member => plain c (List.mem_cons_of_mem _ member)) more
      exact ⟨rest', rfl, later, Leads.pass (nesting_word goesOn) (next.symm ▸ leads)⟩

/-- The names of characters have no escapes and no bars. -/
theorem plain_of_characterNamed {name : List Char} {found : Char}
    (named : characterNamed? (Text.upcaseText (String.ofList name)) = some found) :
    ∀ c ∈ name, c ≠ '\\' ∧ c ≠ '|' := by
  have letters : ∀ c ∈ (Text.upcaseText (String.ofList name)).toList, c ≠ '\\' ∧ c ≠ '|' := by
    generalize Text.upcaseText (String.ofList name) = upper at named
    unfold characterNamed? at named
    split at named
    case h_10 => cases named
    all_goals simp
  have member (sign : Char) (same : Text.upcase sign = [sign]) (inside : sign ∈ name) :
      sign ∈ (Text.upcaseText (String.ofList name)).toList := by
    rw [Text.upcaseText, String.toList_ofList, String.toList_ofList]
    exact List.mem_flatMap.mpr ⟨sign, inside, same ▸ List.mem_singleton_self sign⟩
  intro c inside
  constructor
  · rintro rfl
    exact (letters _ (member _ rfl inside)).1 rfl
  · rintro rfl
    exact (letters _ (member _ rfl inside)).2 rfl

theorem Conveys.character : Conveys (word false true) between scanCharacter := by
  intro text text' spaced
  cases text with
  | nil =>
      obtain rfl := spaced.nil_inv rfl
      exact .refused rfl
  | cons c rest =>
      obtain ⟨rest', rfl, more⟩ := spaced.cons_inv rfl
      change (word false false).Spaced rest rest' at more
      have level : (word false true).nesting c = 0 := rfl
      have goes : ∀ c ∈ rest.takeWhile (!isTerminating ·), isTerminating c = false :=
        fun c member => by simpa using List.mem_takeWhile_imp member
      rw [← List.takeWhile_append_dropWhile (p := (!isTerminating ·)) (l := rest)] at more ⊢
      have ends := ends_dropWhile rest
      generalize rest.takeWhile (!isTerminating ·) = front at goes more ⊢
      generalize rest.dropWhile (!isTerminating ·) = left at ends more ⊢
      obtain ⟨inBars, escaped, left', rfl, later⟩ := more.word_inv goes
      have ends' : Ends left' := by
        rw [Ends, later.head_eq rfl]
        exact ends
      obtain ⟨taken, dropped⟩ := takeWhile_word front goes ends
      obtain ⟨taken', dropped'⟩ := takeWhile_word front goes ends'
      simp only [scanCharacter, taken, dropped, taken', dropped']
      have found (plain : ∀ c ∈ front, c ≠ '\\' ∧ c ≠ '|') (d : Char) :
          Found (word false true) (c :: (front ++ left)) between (.ok d, left) (.ok d, left') := by
        obtain ⟨left'', same, later, leads⟩ := more.plain_inv goes plain
        obtain rfl := List.append_cancel_left same
        obtain ⟨settled, ends⟩ := later.settle ends
        exact .ok settled ((leads.trans ends).pass level)
      split
      · rename_i bare
        obtain rfl := List.isEmpty_iff.mp bare
        exact found (fun _ member => absurd member List.not_mem_nil) c
      · split
        · rename_i d named
          exact found (fun c member => plain_of_characterNamed named c (List.mem_cons_of_mem _ member)) d
        · exact .refused rfl

end Scanners

end Mode

end LispScript.Reader
