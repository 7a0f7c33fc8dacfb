import LispScript.Proofs.RenderedExpressions

/-!
The text of a script determines its tree. The scanner takes every statement out of its lines, as it
takes every expression out of its text, and so two trees with one text have what was read in common.
-/

namespace LispScript.Script

open Scan

attribute [simp] Stmt.render renderLines Case.render renderCases Handler.render Cleanup.render
  Scan.afterWord

section Lines

variable {depth : Nat} {text rest cs : List Char} {stmt : Stmt} {body : List Stmt}

@[simp] theorem toList_line (depth : Nat) (text : String) :
    (line depth text).toList = List.replicate (2 * depth) ' ' ++ (text.toList ++ ['\n']) := by
  simp [line, indentation]

theorem unindented_replicate (n : Nat) (cs : List Char) :
    unindented (List.replicate n ' ' ++ cs) = unindented cs := by
  rw [unindented, List.dropWhile_append_of_pos (by simp), ← unindented]

theorem unindented_of_head (other : ∀ c ∈ cs.head?, c ≠ ' ') : unindented cs = cs := by
  cases cs with
  | nil => rfl
  | cons c cs => rw [unindented, List.dropWhile_cons_of_neg (by simpa using other c rfl)]

/-- A text that is no blank, brace or case. -/
structure Opens (cs : List Char) : Prop where
  head : ∃ c rest, cs = c :: rest ∧ c ≠ ' ' ∧ c ≠ '\x7d'
  word : (Scan.word cs).1 ∉ ["case", "default"]

theorem statements_opens (opens : Opens cs) (depth : Nat) :
    statements (List.replicate depth ' ' ++ cs) = (do
      let (first, cs) ← statement cs
      let (others, cs) ← statements cs
      return (first :: others, cs)) := by
  obtain ⟨⟨c, rest, rfl, noBlank, noBrace⟩, noCase⟩ := opens
  rw [statements, unindented_replicate, unindented_of_head (by rintro _ ⟨⟩; exact noBlank),
    if_neg (by simpa [noBrace] using noCase)]

/-- The scanner takes a statement out of its lines, and goes on with the text after them. -/
def Stmt.ReadsBack (depth : Nat) (stmt : Stmt) : Prop :=
  ∀ rest, statements ((stmt.render depth).toList ++ rest) = (do
    let (others, cs) ← statements rest
    return (stmt.canonical :: others, cs))

theorem Stmt.ReadsBack.ofLine {text : String} (rendered : stmt.render depth = line depth text)
    (opens : ∀ rest, Opens (text.toList ++ '\n' :: rest))
    (read : ∀ rest, statement (text.toList ++ '\n' :: rest) = some (stmt.canonical, rest)) :
    stmt.ReadsBack depth := by
  intro rest
  rw [rendered, toList_line, List.append_assoc, List.append_assoc, List.singleton_append,
    statements_opens (opens rest), read]
  rfl

theorem statements_append (all : ∀ stmt ∈ body, stmt.ReadsBack depth) (rest : List Char) :
    statements ((renderLines depth body).flatMap String.toList ++ rest) = (do
      let (others, cs) ← statements rest
      return (Stmt.canonicalAll body ++ others, cs)) := by
  induction body with
  | nil =>
      change statements rest = _
      cases statements rest <;> rfl
  | cons stmt body ih =>
      obtain ⟨here, others⟩ := List.forall_mem_cons.mp all
      rw [renderLines, List.flatMap_cons, List.append_assoc, here, ih others]
      cases statements rest <;> rfl

/-- Statements go no further than here. -/
def Ends (rest : List Char) : Prop := statements rest = some ([], unindented rest)

theorem ends_brace (depth : Nat) (rest : List Char) :
    Ends (List.replicate depth ' ' ++ '\x7d' :: rest) := by
  rw [Ends, statements, if_pos]
  rw [unindented_replicate, unindented_of_head (by rintro _ ⟨⟩; decide)]
  rfl

theorem statements_ends (all : ∀ stmt ∈ body, stmt.ReadsBack depth) (ends : Ends rest) :
    statements ((renderLines depth body).flatMap String.toList ++ rest) =
      some (Stmt.canonicalAll body, unindented rest) := by
  rw [statements_append all, ends]
  simp

theorem blockReadsBack (all : ∀ stmt ∈ body, stmt.ReadsBack (depth + 1)) :
    BlockReadsBack depth body := by
  intro rest
  rw [toList_braced, List.cons_append, List.cons_append, List.append_assoc, List.append_assoc,
    List.singleton_append, block]
  simp only [expect, if_true, Option.bind_eq_bind, Option.bind_some,
    statements_ends all (ends_brace _ _), unindented_replicate,
    @unindented_of_head ('\x7d' :: rest) (by rintro _ ⟨⟩; decide)]
  rfl

end Lines

section Keywords

variable {depth : Nat} {name : String} {text rest cs : List Char}

theorem keyword_word (member : name ∈ keywords) : IsWord name := by
  simp only [keywords, List.mem_cons, List.not_mem_nil, or_false] at member
  rcases member with rfl | rfl | rfl | rfl | rfl | rfl | rfl | rfl | rfl | rfl | rfl | rfl <;>
    exact ⟨by decide, by simp [isWordChar]⟩

/-- What can follow a keyword. -/
def EndsKeyword (cs : List Char) : Prop := ∀ c ∈ cs.head?, isWordChar c = false ∧ c ≠ ':'

theorem EndsKeyword.endsWord (ends : EndsKeyword cs) : EndsWord cs := fun c first => (ends c first).1

theorem label?_word (isWord : IsWord name) (ends : EndsKeyword cs) :
    label? (name.toList ++ cs) = (none, name.toList ++ cs) := by
  have noColon : expect [':', ' '] cs = none := by
    cases cs with
    | nil => rfl
    | cons c cs => rw [expect, if_neg (ends c rfl).2]
  rw [label?, IsWord.word_append isWord ends.endsWord, noColon]

theorem opens_word (isWord : IsWord name) (other : name ∉ ["case", "default"]) (ends : EndsWord cs) :
    Opens (name.toList ++ cs) := by
  obtain ⟨c, rest, spelled, plain⟩ := isWord.first
  refine ⟨⟨c, rest ++ cs, by rw [spelled, List.cons_append], ?_, ?_⟩, ?_⟩
  · rintro rfl
    exact absurd plain (by decide)
  · rintro rfl
    exact absurd plain (by decide)
  · rwa [IsWord.word_append isWord ends]

theorem endsKeyword_cons {c : Char} (other : isWordChar c = false ∧ c ≠ ':') (cs : List Char) :
    EndsKeyword (c :: cs) := by
  rintro _ ⟨⟩
  exact other

/-- A line that starts with a keyword. -/
theorem Stmt.ReadsBack.ofKeyword {stmt : Stmt} {text : String} (name : String) (c : Char)
    (after : List Char) (rendered : stmt.render depth = line depth text)
    (member : name ∈ keywords) (other : name ∉ ["case", "default"])
    (spelled : text.toList = name.toList ++ c :: after) (follows : isWordChar c = false ∧ c ≠ ':')
    (read : ∀ rest whole, afterWord none whole name (c :: (after ++ '\n' :: rest)) =
      some (stmt.canonical, rest)) :
    stmt.ReadsBack depth := by
  have isWord := keyword_word member
  refine .ofLine rendered (fun rest => ?_) fun rest => ?_
  · rw [spelled, List.append_assoc, List.cons_append]
    exact opens_word isWord other (endsWord_cons follows.1 _)
  · rw [spelled, List.append_assoc, List.cons_append, statement,
      label?_word isWord (endsKeyword_cons follows _)]
    simp only [IsWord.word_append isWord (endsWord_cons follows.1 _), read]

theorem readsBack_ret {value : Expr} (read : value.ReadsBack depth) :
    (Stmt.ret value).ReadsBack depth := by
  refine .ofKeyword "return" ' ' ((value.render depth).toList ++ [';']) rfl
    (by decide) (by decide) (by simp) ⟨rfl, by decide⟩ fun rest whole => ?_
  rw [afterWord]
  simp only [expect, if_true, Option.bind_eq_bind, Option.bind_some, List.append_assoc,
    List.singleton_append]
  rw [read.expression (.cons (by decide) _)]
  rfl

theorem readsBack_raise {value : Expr} (read : value.ReadsBack depth) :
    (Stmt.raise value).ReadsBack depth := by
  refine .ofKeyword "throw" ' ' ((value.render depth).toList ++ [';']) rfl
    (by decide) (by decide) (by simp) ⟨rfl, by decide⟩ fun rest whole => ?_
  rw [afterWord]
  simp only [expect, if_true, Option.bind_eq_bind, Option.bind_some, List.append_assoc,
    List.singleton_append]
  rw [read.expression (.cons (by decide) _)]
  rfl

theorem readsBack_declare (isWord : IsWord name) : (Stmt.declare name).ReadsBack depth := by
  refine .ofKeyword "var" ' ' (name.toList ++ [';']) rfl
    (by decide) (by decide) (by simp) ⟨rfl, by decide⟩ fun rest whole => ?_
  rw [afterWord]
  simp only [expect, if_true, Option.bind_eq_bind, Option.bind_some, List.append_assoc,
    List.singleton_append, IsWord.word_append isWord (endsWord_cons (c := ';') rfl _)]
  rfl

theorem readsBack_define {value : Expr} (isWord : IsWord name) (read : value.ReadsBack depth) :
    (Stmt.define name value).ReadsBack depth := by
  refine .ofKeyword "var" ' '
    (name.toList ++ ' ' :: '=' :: ' ' :: ((value.asItem (value.render depth)).toList ++ [';']))
    rfl (by decide) (by decide) (by simp) ⟨rfl, by decide⟩ fun rest whole => ?_
  rw [afterWord]
  simp only [expect, if_true, Option.bind_eq_bind, Option.bind_some, List.append_assoc,
    List.cons_append, List.nil_append, IsWord.word_append isWord (endsWord_cons (c := ' ') rfl _)]
  rw [read.item (.cons (by decide) _)]
  rfl

theorem readsBack_leave {label : Option String} (all : ∀ name ∈ label, IsWord name) :
    (Stmt.leave label).ReadsBack depth := by
  cases label with
  | none =>
      refine .ofKeyword "break" ';' ([]) rfl
        (by decide) (by decide) (by simp) ⟨rfl, by decide⟩ fun rest whole => ?_
      rw [afterWord]
      rfl
  | some name =>
      refine .ofKeyword "break" ' ' (name.toList ++ [';']) rfl
        (by decide) (by decide) (by simp) ⟨rfl, by decide⟩ fun rest whole => ?_
      rw [afterWord]
      simp only [expect, if_true, Option.bind_eq_bind, Option.bind_some, List.append_assoc,
        List.singleton_append, IsWord.word_append (all name rfl) (endsWord_cons (c := ';') rfl _)]
      rfl

theorem readsBack_branch {test : Expr} {yes no : List Stmt} (read : test.ReadsBack depth)
    (readYes : BlockReadsBack depth yes) (readNo : BlockReadsBack depth no) :
    (Stmt.branch test yes no).ReadsBack depth := by
  cases no with
  | nil =>
      refine .ofKeyword "if" ' ' ('(' :: ((test.render depth).toList ++
          ')' :: ' ' :: (braced depth (renderLines (depth + 1) yes)).toList)) rfl
        (by decide) (by decide) (by simp) ⟨rfl, by decide⟩ fun rest whole => ?_
      rw [afterWord]
      simp only [expect, if_true, Option.bind_eq_bind, Option.bind_some, List.append_assoc,
        List.cons_append]
      rw [read.expression (.cons (by decide) _)]
      simp only [expect, if_true, Option.bind_some, readYes _]
      rfl
  | cons first others =>
      refine .ofKeyword "if" ' ' ('(' :: ((test.render depth).toList ++
          ')' :: ' ' :: ((braced depth (renderLines (depth + 1) yes)).toList ++
            ' ' :: 'e' :: 'l' :: 's' :: 'e' :: ' ' ::
              (braced depth (renderLines (depth + 1) (first :: others))).toList))) rfl
        (by decide) (by decide) (by simp) ⟨rfl, by decide⟩ fun rest whole => ?_
      rw [afterWord]
      simp only [expect, if_true, Option.bind_eq_bind, Option.bind_some, List.append_assoc,
        List.cons_append]
      rw [read.expression (.cons (by decide) _)]
      simp only [expect, if_true, Option.bind_some, readYes _, readNo _]
      rfl

/-- What the scanner makes of a loop, with the label in front of it. -/
theorem afterWord_while {test : Expr} {body : List Stmt} (read : test.ReadsBack depth)
    (inside : BlockReadsBack depth body) (label : Option String) (whole rest : List Char) :
    afterWord label whole "while" (' ' :: '(' :: ((test.render depth).toList ++
      ')' :: ' ' :: ((braced depth (renderLines (depth + 1) body)).toList ++ '\n' :: rest))) =
      some (.loop label test.canonical (Stmt.canonicalAll body), rest) := by
  rw [afterWord]
  simp only [expect, if_true, Option.bind_eq_bind, Option.bind_some]
  rw [read.expression (.cons (by decide) _)]
  simp only [expect, if_true, Option.bind_some, inside _]
  rfl

theorem readsBack_loop {label : Option String} {test : Expr} {body : List Stmt}
    (all : ∀ name ∈ label, IsName name) (read : test.ReadsBack depth)
    (inside : BlockReadsBack depth body) : (Stmt.loop label test body).ReadsBack depth := by
  cases label with
  | none =>
      refine .ofKeyword "while" ' ' ('(' :: ((test.render depth).toList ++
          ')' :: ' ' :: (braced depth (renderLines (depth + 1) body)).toList)) rfl
        (by decide) (by decide) (by simp [labelText]) ⟨rfl, by decide⟩ fun rest whole => ?_
      simp only [List.append_assoc, List.cons_append]
      exact afterWord_while read inside none whole rest
  | some name =>
      have isName := all name rfl
      have keyword : IsWord "while" := keyword_word (by decide)
      have text (rest : List Char) : (labelText (some name) ++ "while (" ++ test.render depth ++ ") " ++
          braced depth (renderLines (depth + 1) body)).toList ++ '\n' :: rest =
          name.toList ++ ':' :: ' ' :: ("while".toList ++ ' ' :: '(' :: ((test.render depth).toList ++
            ')' :: ' ' :: ((braced depth (renderLines (depth + 1) body)).toList ++ '\n' :: rest))) := by
        simp [labelText]
      refine .ofLine rfl (fun rest => ?_) fun rest => ?_
      · rw [text]
        refine opens_word isName.toIsWord (fun member => isName.unreserved ?_) (endsWord_cons rfl _)
        have within : ["case", "default"] ⊆ reservedWords := by decide
        exact within member
      · rw [text, statement, label?, IsWord.word_append isName.toIsWord (endsWord_cons rfl _)]
        simp only [expect, if_true, IsWord.word_append keyword (endsWord_cons (c := ' ') rfl _)]
        exact afterWord_while read inside (some name) _ rest

theorem readsBack_iterate {start test update : Expr} {body : List Stmt}
    (readStart : start.ReadsBack depth) (readTest : test.ReadsBack depth)
    (readUpdate : update.ReadsBack depth) (inside : BlockReadsBack depth body) :
    (Stmt.iterate start test update body).ReadsBack depth := by
  refine .ofKeyword "for" ' ' ('(' :: ((start.render depth).toList ++
      ';' :: ' ' :: ((test.render depth).toList ++ ';' :: ' ' :: ((update.render depth).toList ++
        ')' :: ' ' :: (braced depth (renderLines (depth + 1) body)).toList)))) rfl
    (by decide) (by decide) (by simp) ⟨rfl, by decide⟩ fun rest whole => ?_
  rw [afterWord]
  simp only [expect, if_true, Option.bind_eq_bind, Option.bind_some, List.append_assoc,
    List.cons_append]
  rw [readStart.expression (.cons (by decide) _)]
  simp only [expect, if_true, Option.bind_some]
  rw [readTest.expression (.cons (by decide) _)]
  simp only [expect, if_true, Option.bind_some]
  rw [readUpdate.expression (.cons (by decide) _)]
  simp only [expect, if_true, Option.bind_some, inside _]
  rfl

/-- An expression as a statement. -/
theorem asStatement_append {value : Expr} (read : value.ReadsBack depth) :
    Lead starters (value.asStatement (value.render depth)).toList ∧ ∀ {rest}, Stops closers rest →
      expression ((value.asStatement (value.render depth)).toList ++ rest) =
        some (value.canonical, rest) := by
  by_cases literal : value.isFunction = true
  · have text : value.asStatement (value.render depth) = parenthesize (value.render depth) := by
      cases value <;> cases literal
      rfl
    have lead : Lead openers (parenthesize (value.render depth)).toList := by
      rw [toList_parenthesize]
      exact .mark (by decide)
    rw [text]
    refine ⟨lead.mono openers_within, fun stops => expression_of_item stops
      (item_of_operand lead (fun _ => ?_) stops.item)⟩
    rw [toList_parenthesize, operand_parenthesized read.expression]
  · have text : value.asStatement (value.render depth) = value.render depth := by
      cases value <;> first | rfl | exact absurd rfl literal
    rw [text]
    exact ⟨read.lead (Bool.eq_false_iff.mpr literal), read.expression⟩

theorem afterWord_other (other : name ∉ keywords) (label : Option String) (whole cs : List Char) :
    afterWord label whole name cs = (do
      let (value, cs) ← expression whole
      return (.effect value, ← expect [';', '\n'] cs)) := by
  have apart (keyword : String) (member : keyword ∈ keywords) : name ≠ keyword := by
    rintro rfl
    exact other member
  rw [afterWord]
  · exact apart "var" (by decide)
  · exact apart "return" (by decide)
  · exact apart "throw" (by decide)
  · exact apart "break" (by decide)
  · exact apart "if" (by decide)
  · exact apart "while" (by decide)
  · exact apart "for" (by decide)
  · exact apart "switch" (by decide)
  · exact apart "try" (by decide)

theorem readsBack_effect {value : Expr} (read : value.ReadsBack depth) :
    (Stmt.effect value).ReadsBack depth := by
  obtain ⟨lead, whole⟩ := asStatement_append read
  have text (rest : List Char) : (value.asStatement (value.render depth) ++ ";").toList ++ '\n' :: rest =
      (value.asStatement (value.render depth)).toList ++ ';' :: '\n' :: rest := by simp
  have free (rest : List Char) := lead.word_free (List.Subset.refl _)
    (endsWord_cons (c := ';') rfl ('\n' :: rest))
  refine .ofLine rfl (fun rest => ?_) fun rest => ?_
  · rw [text]
    refine ⟨?_, fun member => free rest ?_⟩
    · obtain ⟨c, cs, spelled, start⟩ := lead.first
      refine ⟨c, cs ++ ';' :: '\n' :: rest, by rw [spelled, List.cons_append], ?_, ?_⟩
      · rintro rfl
        rcases start with start | start
        · exact absurd start (by decide)
        · exact absurd start (by decide)
      · rintro rfl
        rcases start with start | start
        · exact absurd start (by decide)
        · exact absurd start (by decide)
    · have within : ["case", "default"] ⊆ keywords := by decide
      exact within member
  · rw [text, statement, lead.label?_eq (List.Subset.refl _) (by rintro _ ⟨⟩; exact ⟨rfl, by decide⟩)]
    simp only [afterWord_other (free rest)]
    rw [whole (.cons (by decide) _)]
    rfl

end Keywords

section Parts

variable {depth : Nat} {rest : List Char} {test : Expr} {body : List Stmt}

theorem case_word {name : String} (member : name ∈ ["case", "default"]) : IsWord name :=
  keyword_word (by revert name; decide)

/-- A line that starts with `case` or `default` is no statement. -/
theorem ends_case {name : String} (member : name ∈ ["case", "default"]) {cs : List Char}
    (ends : EndsWord cs) (depth : Nat) : Ends (List.replicate depth ' ' ++ (name.toList ++ cs)) := by
  have isWord := case_word member
  obtain ⟨c, others, spelled, plain⟩ := isWord.first
  have noBlank : ∀ c ∈ (name.toList ++ cs).head?, c ≠ ' ' := by
    rw [spelled]
    rintro _ ⟨⟩ rfl
    exact absurd plain (by decide)
  have found : ["case", "default"].contains name = true := by simpa using member
  rw [Ends, statements, if_pos]
  rw [unindented_replicate, unindented_of_head noBlank, IsWord.word_append isWord ends, found,
    Bool.or_true]

/-- The scanner takes a case out of its lines, and goes on with the text after them. -/
def Case.ReadsBack (depth : Nat) (case : Case) : Prop :=
  (∀ rest, Ends ((case.render depth).toList ++ rest)) ∧ ∀ rest, Ends rest →
    sections ((case.render depth).toList ++ rest) = (do
      let (others, cs) ← sections rest
      return (case.canonical :: others, cs))

theorem sections_unindented (rest : List Char) : sections (unindented rest) = sections rest := by
  have same : unindented (unindented rest) = unindented rest := List.dropWhile_idempotent _ _
  rw [sections, sections, same]

theorem readsBack_case (read : test.ReadsBack depth)
    (all : ∀ stmt ∈ body, stmt.ReadsBack (depth + 1)) : (Case.case test body).ReadsBack depth := by
  have text (rest : List Char) : ((Case.case test body).render depth).toList ++ rest =
      List.replicate (2 * depth) ' ' ++ ("case".toList ++ ' ' :: ((test.render depth).toList ++
        ':' :: '\n' :: ((renderLines (depth + 1) body).flatMap String.toList ++ rest))) := by
    simp [String.toList_join]
  have isWord : IsWord "case" := case_word (by decide)
  refine ⟨fun rest => ?_, fun rest ends => ?_⟩
  · rw [text]
    exact ends_case (by decide) (endsWord_cons rfl _) _
  · rw [text, sections, unindented_replicate, unindented_of_head (by rintro _ ⟨⟩; decide),
      IsWord.word_append isWord (endsWord_cons rfl _)]
    simp only [expect, if_true, Option.bind_eq_bind, Option.bind_some]
    rw [read.expression (.cons (by decide) _)]
    simp only [expect, if_true, Option.bind_some, statements_ends all ends, sections_unindented]
    rfl

theorem readsBack_otherwise (all : ∀ stmt ∈ body, stmt.ReadsBack (depth + 1)) :
    (Case.otherwise body).ReadsBack depth := by
  have text (rest : List Char) : ((Case.otherwise body).render depth).toList ++ rest =
      List.replicate (2 * depth) ' ' ++ ("default".toList ++
        ':' :: '\n' :: ((renderLines (depth + 1) body).flatMap String.toList ++ rest)) := by
    simp [String.toList_join]
  have isWord : IsWord "default" := case_word (by decide)
  refine ⟨fun rest => ?_, fun rest ends => ?_⟩
  · rw [text]
    exact ends_case (by decide) (endsWord_cons rfl _) _
  · rw [text, sections, unindented_replicate, unindented_of_head (by rintro _ ⟨⟩; decide),
      IsWord.word_append isWord (endsWord_cons rfl _)]
    simp only [expect, if_true, Option.bind_eq_bind, Option.bind_some, statements_ends all ends,
      sections_unindented]
    rfl

theorem sections_append {cases : List Case} (all : ∀ case ∈ cases, case.ReadsBack depth)
    (outer : Nat) (rest : List Char) :
    sections ((renderCases depth cases).flatMap String.toList ++
      (List.replicate outer ' ' ++ '\x7d' :: rest)) = some (Case.canonicalAll cases, '\x7d' :: rest) ∧
    Ends ((renderCases depth cases).flatMap String.toList ++
      (List.replicate outer ' ' ++ '\x7d' :: rest)) := by
  induction cases with
  | nil =>
      refine ⟨?_, ends_brace _ _⟩
      change sections (List.replicate outer ' ' ++ '\x7d' :: rest) = _
      rw [sections, unindented_replicate, unindented_of_head (by rintro _ ⟨⟩; decide),
        word_of_endsWord (endsWord_cons rfl _)]
      rfl
  | cons case cases ih =>
      obtain ⟨⟨begins, here⟩, others⟩ := List.forall_mem_cons.mp all
      obtain ⟨read, ends⟩ := ih others
      rw [renderCases, List.flatMap_cons, List.append_assoc]
      refine ⟨?_, begins _⟩
      rw [here _ ends, read]
      rfl

theorem readsBack_select {subject : Expr} {cases : List Case} (read : subject.ReadsBack depth)
    (all : ∀ case ∈ cases, case.ReadsBack (depth + 1)) :
    (Stmt.select subject cases).ReadsBack depth := by
  refine .ofKeyword "switch" ' ' ('(' :: ((subject.render depth).toList ++
      ')' :: ' ' :: (braced depth (renderCases (depth + 1) cases)).toList)) rfl
    (by decide) (by decide) (by simp) ⟨rfl, by decide⟩ fun rest whole => ?_
  rw [afterWord]
  simp only [expect, if_true, Option.bind_eq_bind, Option.bind_some, List.append_assoc,
    List.cons_append]
  rw [read.expression (.cons (by decide) _), toList_braced]
  simp only [expect, if_true, Option.bind_some, List.cons_append, List.append_assoc, List.nil_append,
    (sections_append all _ _).1]
  rfl

/-- The scanner takes the rest of a guarded statement out of its text. -/
def Cleanup.ReadsBack (depth : Nat) (cleanup : Cleanup) : Prop :=
  ∀ rest, Scan.cleanup ((cleanup.render depth).toList ++ '\n' :: rest) =
    some (cleanup.canonical, '\n' :: rest)

def Handler.ReadsBack (depth : Nat) (handler : Handler) : Prop :=
  ∀ cleanup rest, Scan.handler ((handler.render depth).toList ++
      ((Cleanup.render depth cleanup).toList ++ '\n' :: rest)) =
    some (handler.canonical, (Cleanup.render depth cleanup).toList ++ '\n' :: rest)

theorem readsBack_noCleanup : Cleanup.none.ReadsBack depth := by
  intro rest
  rw [Scan.cleanup]
  simp [expect, Cleanup.canonical]

theorem readsBack_always (inside : BlockReadsBack depth body) :
    (Cleanup.always body).ReadsBack depth := by
  intro rest
  have text : ((Cleanup.always body).render depth).toList ++ '\n' :: rest =
      ' ' :: 'f' :: 'i' :: 'n' :: 'a' :: 'l' :: 'l' :: 'y' :: ' ' ::
        ((braced depth (renderLines (depth + 1) body)).toList ++ '\n' :: rest) := by simp
  rw [text, Scan.cleanup]
  simp only [expect, if_true, Option.bind_eq_bind, Option.bind_some, inside _]
  rfl

theorem readsBack_noHandler : Handler.none.ReadsBack depth := by
  intro cleanup rest
  rw [Scan.handler]
  cases cleanup with
  | none => simp [expect, Handler.canonical]
  | always body => simp [expect, Handler.canonical]

theorem readsBack_catching {param : String} (isWord : IsWord param)
    (inside : BlockReadsBack depth body) : (Handler.catching param body).ReadsBack depth := by
  intro cleanup rest
  have text : ((Handler.catching param body).render depth).toList ++
      ((Cleanup.render depth cleanup).toList ++ '\n' :: rest) =
      ' ' :: 'c' :: 'a' :: 't' :: 'c' :: 'h' :: ' ' :: '(' :: (param.toList ++ ')' :: ' ' ::
        ((braced depth (renderLines (depth + 1) body)).toList ++
          ((Cleanup.render depth cleanup).toList ++ '\n' :: rest))) := by simp
  rw [text, Scan.handler]
  simp only [expect, if_true, Option.bind_eq_bind, Option.bind_some,
    IsWord.word_append isWord (endsWord_cons (c := ')') rfl _), inside _]
  rfl

theorem readsBack_guarded {block : List Stmt} {handler : Handler} {cleanup : Cleanup}
    (inside : BlockReadsBack depth block) (readHandler : handler.ReadsBack depth)
    (readCleanup : cleanup.ReadsBack depth) :
    (Stmt.guarded block handler cleanup).ReadsBack depth := by
  refine .ofKeyword "try" ' '
    ((braced depth (renderLines (depth + 1) block)).toList ++
      ((handler.render depth).toList ++ (cleanup.render depth).toList)) rfl
    (by decide) (by decide) (by simp) ⟨rfl, by decide⟩ fun rest whole => ?_
  rw [afterWord]
  simp only [expect, if_true, Option.bind_eq_bind, Option.bind_some, List.append_assoc, inside _,
    readHandler _ _, readCleanup _]
  rfl

end Parts

section Trees

mutual

theorem Expr.IsPlain.readsBack :
    ∀ (e : Expr) (_ : e.IsPlain) (depth : Nat), e.ReadsBack depth
  | .number _, plain, _ => readsBack_number plain
  | .string text, _, _ => readsBack_string text
  | .bool b, _, _ => readsBack_bool b
  | .undefined, _, _ => readsBack_undefined
  | .ident _, plain, _ => readsBack_ident plain.isName
  | .support _, plain, _ => readsBack_support plain
  | .member object _, ⟨_, plain, isWord⟩, depth =>
      readsBack_member (Expr.IsPlain.readsBack object plain depth) isWord
  | .index object position, ⟨_, plain, inside⟩, depth =>
      readsBack_index (Expr.IsPlain.readsBack object plain depth)
        (Expr.IsPlain.readsBack position inside depth)
  | .call callee args, ⟨_, plain, all⟩, depth =>
      readsBack_call (Expr.IsPlain.readsBack callee plain depth) (Expr.ArePlain.readBack args all depth)
  | .function _ body, ⟨names, all⟩, depth =>
      readsBack_function (fun param member => (names param member).isName.toIsWord)
        (blockReadsBack (Stmt.ArePlain.readBack body all (depth + 1)))
  | .array items, all, depth => readsBack_array (Expr.ArePlain.readBack items all depth)
  | .binary op left right, ⟨plain, plain'⟩, depth =>
      readsBack_binary op (Expr.IsPlain.readsBack left plain depth)
        (Expr.IsPlain.readsBack right plain' depth)
  | .unary op operand, plain, depth =>
      readsBack_unary op (Expr.IsPlain.readsBack operand plain depth)
  | .cond test yes no, ⟨plain, plain', plain''⟩, depth =>
      readsBack_cond (Expr.IsPlain.readsBack test plain depth)
        (Expr.IsPlain.readsBack yes plain' depth) (Expr.IsPlain.readsBack no plain'' depth)
  | .assign target value, ⟨place, plain, plain'⟩, depth =>
      readsBack_assign place (Expr.IsPlain.readsBack target plain depth)
        (Expr.IsPlain.readsBack value plain' depth)
  | .comma items, ⟨many, noFunction, all⟩, depth =>
      readsBack_comma many noFunction (Expr.ArePlain.readBack items all depth)

theorem Expr.ArePlain.readBack :
    ∀ (es : List Expr) (_ : Expr.ArePlain es) (depth : Nat), ∀ e ∈ es, e.ReadsBack depth
  | [], _, _ => nofun
  | e :: es, ⟨plain, all⟩, depth =>
      List.forall_mem_cons.mpr ⟨Expr.IsPlain.readsBack e plain depth,
        Expr.ArePlain.readBack es all depth⟩

theorem Stmt.IsPlain.readsBack :
    ∀ (stmt : Stmt) (_ : stmt.IsPlain) (depth : Nat), stmt.ReadsBack depth
  | .declare _, plain, _ => readsBack_declare plain.isName.toIsWord
  | .define _ value, ⟨plain, plain'⟩, depth =>
      readsBack_define plain.isName.toIsWord (Expr.IsPlain.readsBack value plain' depth)
  | .effect value, plain, depth => readsBack_effect (Expr.IsPlain.readsBack value plain depth)
  | .ret value, plain, depth => readsBack_ret (Expr.IsPlain.readsBack value plain depth)
  | .raise value, plain, depth => readsBack_raise (Expr.IsPlain.readsBack value plain depth)
  | .branch test yes no, ⟨plain, all, all'⟩, depth =>
      readsBack_branch (Expr.IsPlain.readsBack test plain depth)
        (blockReadsBack (Stmt.ArePlain.readBack yes all (depth + 1)))
        (blockReadsBack (Stmt.ArePlain.readBack no all' (depth + 1)))
  | .loop _ test body, ⟨names, plain, all⟩, depth =>
      readsBack_loop (fun name member => (names name member).isName)
        (Expr.IsPlain.readsBack test plain depth)
        (blockReadsBack (Stmt.ArePlain.readBack body all (depth + 1)))
  | .iterate start test update body, ⟨plain, plain', plain'', all⟩, depth =>
      readsBack_iterate (Expr.IsPlain.readsBack start plain depth)
        (Expr.IsPlain.readsBack test plain' depth) (Expr.IsPlain.readsBack update plain'' depth)
        (blockReadsBack (Stmt.ArePlain.readBack body all (depth + 1)))
  | .select subject cases, ⟨plain, all⟩, depth =>
      readsBack_select (Expr.IsPlain.readsBack subject plain depth)
        (Case.ArePlain.readBack cases all (depth + 1))
  | .leave _, names, _ => readsBack_leave fun name member => (names name member).isName.toIsWord
  | .guarded block handler cleanup, ⟨all, plain, plain'⟩, depth =>
      readsBack_guarded (blockReadsBack (Stmt.ArePlain.readBack block all (depth + 1)))
        (Handler.IsPlain.readsBack handler plain depth) (Cleanup.IsPlain.readsBack cleanup plain' depth)

theorem Stmt.ArePlain.readBack :
    ∀ (body : List Stmt) (_ : Stmt.ArePlain body) (depth : Nat), ∀ stmt ∈ body, stmt.ReadsBack depth
  | [], _, _ => nofun
  | stmt :: body, ⟨plain, all⟩, depth =>
      List.forall_mem_cons.mpr ⟨Stmt.IsPlain.readsBack stmt plain depth,
        Stmt.ArePlain.readBack body all depth⟩

theorem Case.IsPlain.readsBack :
    ∀ (case : Case) (_ : case.IsPlain) (depth : Nat), case.ReadsBack depth
  | .case test body, ⟨plain, all⟩, depth =>
      readsBack_case (Expr.IsPlain.readsBack test plain depth)
        (Stmt.ArePlain.readBack body all (depth + 1))
  | .otherwise body, all, depth => readsBack_otherwise (Stmt.ArePlain.readBack body all (depth + 1))

theorem Case.ArePlain.readBack :
    ∀ (cases : List Case) (_ : Case.ArePlain cases) (depth : Nat), ∀ case ∈ cases, case.ReadsBack depth
  | [], _, _ => nofun
  | case :: cases, ⟨plain, all⟩, depth =>
      List.forall_mem_cons.mpr ⟨Case.IsPlain.readsBack case plain depth,
        Case.ArePlain.readBack cases all depth⟩

theorem Handler.IsPlain.readsBack :
    ∀ (handler : Handler) (_ : handler.IsPlain) (depth : Nat), handler.ReadsBack depth
  | .none, _, _ => readsBack_noHandler
  | .catching _ body, ⟨plain, all⟩, depth =>
      readsBack_catching plain.isName.toIsWord
        (blockReadsBack (Stmt.ArePlain.readBack body all (depth + 1)))

theorem Cleanup.IsPlain.readsBack :
    ∀ (cleanup : Cleanup) (_ : cleanup.IsPlain) (depth : Nat), cleanup.ReadsBack depth
  | .none, _, _ => readsBack_noCleanup
  | .always body, all, depth =>
      readsBack_always (blockReadsBack (Stmt.ArePlain.readBack body all (depth + 1)))

end

end Trees

section Unambiguous

theorem statements_nil : statements [] = some ([], []) := by
  rw [statements]
  rfl

theorem Expr.IsPlain.eq_of_render {e e' : Expr} {depth depth' : Nat} (plain : e.IsPlain)
    (plain' : e'.IsPlain) (same : e.render depth = e'.render depth') :
    e.canonical = e'.canonical := by
  have stops : Stops closers [] := nofun
  have read := (Expr.IsPlain.readsBack e plain depth).expression stops
  have read' := (Expr.IsPlain.readsBack e' plain' depth').expression stops
  rw [same, read'] at read
  exact (Prod.mk.inj (Option.some.inj read)).1.symm

theorem Stmt.IsPlain.eq_of_render {stmt stmt' : Stmt} {depth depth' : Nat} (plain : stmt.IsPlain)
    (plain' : stmt'.IsPlain) (same : stmt.render depth = stmt'.render depth') :
    stmt.canonical = stmt'.canonical := by
  have read := Stmt.IsPlain.readsBack stmt plain depth []
  have read' := Stmt.IsPlain.readsBack stmt' plain' depth' []
  rw [same, read', statements_nil] at read
  exact (List.cons.inj (Prod.mk.inj (Option.some.inj read)).1).1.symm

theorem Program.eq_of_render {program program' : Program} (plain : Stmt.ArePlain program.body)
    (plain' : Stmt.ArePlain program'.body) (same : program.render = program'.render) :
    Stmt.canonicalAll program.body = Stmt.canonicalAll program'.body := by
  have read (program : Program) (plain : Stmt.ArePlain program.body) :
      statements program.render.toList = some (Stmt.canonicalAll program.body, []) := by
    have whole := statements_append (Stmt.ArePlain.readBack program.body plain 0) []
    rw [statements_nil, List.append_nil] at whole
    rw [Program.render, String.toList_join, whole]
    simp
  have one := read program plain
  rw [same, read program' plain'] at one
  exact (Prod.mk.inj (Option.some.inj one)).1.symm

/-- What the canonical tree of a number forgets is the sign of a zero. -/
theorem wholeMagnitude_eq {n : Float} (short : Number.IsShortWhole n) :
    (n < 0 → n = -wholeMagnitude n) ∧
      (¬ n < 0 → n = wholeMagnitude n ∨ n = -0 ∧ wholeMagnitude n = 0) := by
  have count := short.eq_count
  refine ⟨fun negative => ?_, fun nonNegative => ?_⟩
  · have sign := short.lt_zero_iff.mp negative
    rw [Bool.and_eq_true_iff] at sign
    rwa [if_pos sign.1] at count
  · rw [short.lt_zero_iff] at nonNegative
    by_cases sign : Number.isNegative n = true
    · have zero : (Number.Binary.ofFloat n).significand = 0 := by simpa [sign] using nonNegative
      rw [if_pos sign, Number.truncate_eq_zero zero] at count
      refine .inr ⟨count, ?_⟩
      rw [wholeMagnitude, Number.truncate_eq_zero zero]
      rfl
    · rw [if_neg sign] at count
      exact .inl count

/-- Plain trees with the same text are the same up to how a number gets its sign, at any
indentation: expressions, statements and programs. Texts have different literals, which end at
their first quote and stay on one line. -/
theorem render_determines :
    (∀ (e e' : Expr) (depth depth' : Nat), e.IsPlain → e'.IsPlain →
      e.render depth = e'.render depth' → e.canonical = e'.canonical) ∧
    (∀ (stmt stmt' : Stmt) (depth depth' : Nat), stmt.IsPlain → stmt'.IsPlain →
      stmt.render depth = stmt'.render depth' → stmt.canonical = stmt'.canonical) ∧
    (∀ program program' : Program, Stmt.ArePlain program.body → Stmt.ArePlain program'.body →
      program.render = program'.render →
        Stmt.canonicalAll program.body = Stmt.canonicalAll program'.body) ∧
    (∀ n, Number.IsShortWhole n → (n < 0 → n = -wholeMagnitude n) ∧
      (¬ n < 0 → n = wholeMagnitude n ∨ n = -0 ∧ wholeMagnitude n = 0)) ∧
    Function.Injective quote ∧
    ∀ text, ∃ inside, (quote text).toList = '"' :: (inside ++ ['"']) ∧
      (∀ c ∈ inside, c ∉ lineTerminators) ∧ hasBareQuote inside = false ∧
        hasBareQuote (inside ++ ['"']) = true := by
  refine ⟨fun _ _ _ _ => Expr.IsPlain.eq_of_render, fun _ _ _ _ => Stmt.IsPlain.eq_of_render,
    fun _ _ => Program.eq_of_render, fun _ => wholeMagnitude_eq, quote_injective, fun text => ?_⟩
  refine ⟨quoteChars text.toList, toList_quote text, fun c member => ?_, ?_, ?_⟩
  · obtain ⟨d, -, inside⟩ := List.mem_flatMap.mp member
    exact quoteChar_oneLine d c inside
  · rw [← List.append_nil (quoteChars _), hasBareQuote_quoteChars]
    rfl
  · rw [hasBareQuote_quoteChars]
    rfl

theorem minus_one_plain : (Expr.number (-1)).IsPlain ∧ (Expr.unary .neg (.number 1)).IsPlain ∧
    (Expr.number (-1)).render 0 = (Expr.unary .neg (.number 1)).render 0 ∧
      (Expr.number (-1)).canonical = (Expr.unary .neg (.number 1)).canonical := by
  have negative : (Expr.number (-1)).IsPlain := ⟨by decide +kernel, by decide +kernel⟩
  have positive : (Expr.unary .neg (.number 1)).IsPlain := ⟨by decide +kernel, by decide +kernel⟩
  have same : (Expr.number (-1)).render 0 = (Expr.unary .neg (.number 1)).render 0 := by
    decide +kernel
  exact ⟨negative, positive, same, render_determines.1 _ _ 0 0 negative positive same⟩

end Unambiguous

end LispScript.Script
