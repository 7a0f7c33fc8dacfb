import LispScript.Proofs.ScriptText

/-!
Expressions read back. After each kind of expression the scanner stands where the text of the
expression ends, and has the tree.
-/

namespace LispScript.Script

open Scan

section Leads

variable {marks others text more rest : List Char} {e : Expr}

/-- Nothing, or one of the given characters. -/
def Stops (marks rest : List Char) : Prop := ∀ c ∈ rest.head?, c ∈ marks

/-- What ends an expression. -/
def closers : List Char := [')', ']', ';', ':']

/-- What ends an item of a list. -/
def itemEnds : List Char := ',' :: closers

def operandEnds : List Char := ' ' :: itemEnds

theorem Stops.cons {c : Char} (member : c ∈ marks) (rest : List Char) : Stops marks (c :: rest) := by
  rintro _ ⟨⟩
  exact member

theorem Stops.mono (stops : Stops marks rest) (within : marks ⊆ others) : Stops others rest :=
  fun c first => within (stops c first)

theorem Stops.endsWord (stops : Stops operandEnds rest) : EndsWord rest := by
  have checked : operandEnds.all (!isWordChar ·) = true := rfl
  exact fun c first => by simpa using List.all_eq_true.mp checked c (stops c first)

theorem Stops.operand (stops : Stops itemEnds rest) : Stops operandEnds rest :=
  stops.mono (List.subset_cons_self _ _)

theorem Stops.item (stops : Stops closers rest) : Stops itemEnds rest :=
  stops.mono (List.subset_cons_self _ _)

theorem accesses_stop (stops : Stops operandEnds rest) (e : Expr) :
    accesses e rest = some (e, rest) := by
  have other : ∀ c ∈ ['.', '[', '('], c ∉ operandEnds := by
    simp [operandEnds, itemEnds, closers]
  exact accesses_other e fun c first member => other c member (stops c first)

theorem operation_stop (stops : Stops itemEnds rest) (e : Expr) :
    operation e rest = some (e, rest) := by
  refine operation_other e ?_
  rintro c first rfl
  exact absurd (stops _ first) (by decide)

theorem moreItems_stop (stops : Stops closers rest) : moreItems rest = some ([], rest) := by
  have noComma : expect [',', ' '] rest = none := by
    cases rest with
    | nil => rfl
    | cons c rest =>
        have other : c ≠ ',' := by
          rintro rfl
          exact absurd (stops _ rfl) (by decide)
        rw [expect, if_neg other]
  rw [moreItems, noComma]

/-- The marks that an expression can start with. -/
def starters : List Char := '!' :: '-' :: openers

/-- How a text starts: with a mark, or with a word that is no keyword and that no colon follows. -/
inductive Lead (marks : List Char) : List Char → Prop where
  | mark (member : c ∈ marks) : Lead marks (c :: cs)
  | word (isWord : IsWord name) (free : name ∉ keywords)
      (ends : ∀ c ∈ cs.head?, isWordChar c = false ∧ c ≠ ':') : Lead marks (name.toList ++ cs)

theorem Lead.append (lead : Lead marks text)
    (ends : ∀ c ∈ more.head?, isWordChar c = false ∧ c ≠ ':') :
    Lead marks (text ++ more) := by
  cases lead with
  | mark member => exact .mark member
  | @word name cs isWord free ends' =>
      rw [List.append_assoc]
      refine .word isWord free fun c first => ?_
      cases cs with
      | nil => exact ends c first
      | cons d cs => exact ends' c first

theorem Lead.mono (lead : Lead marks text) (within : marks ⊆ others) : Lead others text := by
  cases lead with
  | mark member => exact .mark (within member)
  | word isWord free ends => exact .word isWord free ends

/-- A name or a constant. -/
theorem Lead.ofWord {name : String} (isWord : IsWord name) (free : name ∉ keywords) :
    Lead marks name.toList := by
  have lead := @Lead.word marks name [] isWord free nofun
  rwa [List.append_nil] at lead

theorem IsWord.first {name : String} (isWord : IsWord name) :
    ∃ c cs, name.toList = c :: cs ∧ isWordChar c = true := by
  cases spelled : name.toList with
  | nil => exact absurd (String.toList_eq_nil_iff.mp spelled) isWord.1
  | cons c cs => exact ⟨c, cs, rfl, isWord.2 c (by rw [spelled]; exact List.mem_cons_self)⟩

theorem Lead.first (lead : Lead marks text) :
    ∃ c cs, text = c :: cs ∧ (c ∈ marks ∨ isWordChar c = true) := by
  cases lead with
  | mark member => exact ⟨_, _, rfl, .inl member⟩
  | @word name cs isWord free ends =>
      obtain ⟨c, rest, spelled, plain⟩ := isWord.first
      exact ⟨c, rest ++ cs, by rw [spelled, List.cons_append], .inr plain⟩

theorem starters_noWord : ∀ c ∈ starters, isWordChar c = false := by
  have checked : starters.all (!isWordChar ·) = true := rfl
  exact fun c member => by simpa using List.all_eq_true.mp checked c member

/-- The word in front is no keyword. -/
theorem Lead.word_free (lead : Lead marks text) (within : marks ⊆ starters) (ends : EndsWord rest) :
    (Scan.word (text ++ rest)).1 ∉ keywords := by
  have noEmpty : "" ∉ keywords := by decide
  cases lead with
  | @mark c cs member =>
      have none_ : EndsWord (c :: cs ++ rest) := by
        rintro _ ⟨⟩
        exact starters_noWord c (within member)
      rw [word_of_endsWord none_]
      exact noEmpty
  | @word name cs isWord free ends' =>
      have ends'' : EndsWord (cs ++ rest) := by
        cases cs with
        | nil => exact ends
        | cons c cs => exact fun d first => (ends' d first).1
      rw [List.append_assoc, IsWord.word_append isWord ends'']
      exact free

/-- No label stands in front. -/
theorem Lead.label?_eq (lead : Lead marks text) (within : marks ⊆ starters)
    (ends : ∀ c ∈ rest.head?, isWordChar c = false ∧ c ≠ ':') :
    label? (text ++ rest) = (none, text ++ rest) := by
  have noColon : ∀ cs : List Char, (∀ c ∈ cs.head?, c ≠ ':') → expect [':', ' '] cs = none := by
    intro cs first
    cases cs with
    | nil => rfl
    | cons c cs => rw [expect, if_neg (first c rfl)]
  rw [label?]
  cases lead with
  | @mark c cs member =>
      have none_ : EndsWord (c :: cs ++ rest) := by
        rintro _ ⟨⟩
        exact starters_noWord c (within member)
      rw [word_of_endsWord none_, noColon]
      rintro _ ⟨⟩ rfl
      exact absurd (within member) (by decide)
  | @word name cs isWord free ends' =>
      have ends'' : ∀ c ∈ (cs ++ rest).head?, isWordChar c = false ∧ c ≠ ':' := by
        cases cs with
        | nil => exact ends
        | cons c cs => exact fun d first => ends' d first
      rw [List.append_assoc, IsWord.word_append isWord fun c first => (ends'' c first).1,
        noColon _ fun c first => (ends'' c first).2]

theorem openers_within : openers ⊆ starters := by decide

/-- An item that starts like an operand is one, or goes on with an operator. -/
theorem item_of_lead (lead : Lead openers text) (ends : EndsWord rest) :
    item (text ++ rest) = (do let (left, cs) ← operand (text ++ rest); operation left cs) := by
  have noFunction : (Scan.word (text ++ rest)).1 ≠ "function" := fun same =>
    lead.word_free openers_within ends (same ▸ by decide)
  obtain ⟨c, cs, rfl, start⟩ := lead.first
  have operators : ∀ mark ∈ ['!', '-'], mark ∉ openers ∧ mark ∈ starters := by
    simp [starters, openers]
  rw [item_plain, if_neg noFunction]
  rintro _ ⟨⟩ member
  obtain ⟨noOpener, starter⟩ := operators c member
  rcases start with start | start
  · exact noOpener start
  · rw [starters_noWord c starter] at start
    cases start

end Leads

section Expressions

attribute [simp] Expr.render renderItems

variable {depth : Nat} {rest : List Char}

@[simp] theorem toList_parenthesize (text : String) :
    (parenthesize text).toList = '(' :: (text.toList ++ [')']) := by
  simp [parenthesize]

/-- The scanner takes the tree out of the text of an expression, wherever such a text can stand. -/
structure Expr.ReadsBack (depth : Nat) (e : Expr) : Prop where
  operand {rest : List Char} (ends : EndsWord rest) :
    Scan.operand ((e.asOperand (e.render depth)).toList ++ rest) = accesses e.canonical rest
  item {rest : List Char} (stops : Stops itemEnds rest) :
    Scan.item ((e.asItem (e.render depth)).toList ++ rest) = some (e.canonical, rest)
  expression {rest : List Char} (stops : Stops closers rest) :
    Scan.expression ((e.render depth).toList ++ rest) = some (e.canonical, rest)
  operandLead : Lead openers (e.asOperand (e.render depth)).toList
  lead (other : e.isFunction = false) : Lead starters (e.render depth).toList

theorem asItem_of_not_comma {e : Expr} (other : e.isComma = false) (text : String) :
    e.asItem text = text := by
  cases e <;> first | rfl | cases other

theorem Expr.isComma_of_isPrimary {e : Expr} (primary : e.isPrimary = true) : e.isComma = false := by
  cases e <;> simp_all [isPrimary, isComma]

theorem Expr.isPrimary_of_isPlace {e : Expr} (place : e.isPlace = true) : e.isPrimary = true := by
  cases e <;> simp_all [isPrimary, isPlace]

/-- An item is an expression. -/
theorem expression_of_item {text : List Char} {e : Expr} (stops : Stops closers rest)
    (read : item (text ++ rest) = some (e, rest)) : expression (text ++ rest) = some (e, rest) := by
  rw [expression, read]
  simp [moreItems_stop stops]

/-- An expression in parentheses is an operand. -/
theorem operand_parenthesized {text : List Char} {e : Expr}
    (read : ∀ {rest}, Stops closers rest → expression (text ++ rest) = some (e, rest)) :
    operand ('(' :: (text ++ [')']) ++ rest) = accesses e rest := by
  rw [List.cons_append, List.append_assoc, operand_open, List.singleton_append,
    read (.cons (by decide) _)]
  rfl

theorem item_of_operand {text : List Char} {e : Expr} (lead : Lead openers text)
    (read : ∀ {rest}, EndsWord rest → operand (text ++ rest) = accesses e rest)
    (stops : Stops itemEnds rest) : item (text ++ rest) = some (e, rest) := by
  rw [item_of_lead lead stops.operand.endsWord, read stops.operand.endsWord,
    accesses_stop stops.operand]
  exact operation_stop stops e

theorem Expr.ReadsBack.ofPrimary {e : Expr} (primary : e.isPrimary = true)
    (lead : Lead openers (e.render depth).toList)
    (read : ∀ {rest}, EndsWord rest →
      Scan.operand ((e.render depth).toList ++ rest) = accesses e.canonical rest) :
    e.ReadsBack depth := by
  have asOperand : e.asOperand (e.render depth) = e.render depth := if_pos primary
  have asItem : e.asItem (e.render depth) = e.render depth :=
    asItem_of_not_comma (Expr.isComma_of_isPrimary primary) _
  constructor
  · intro rest ends
    rw [asOperand, read ends]
  · intro rest stops
    rw [asItem, item_of_operand lead read stops]
  · intro rest stops
    exact expression_of_item stops (item_of_operand lead read stops.item)
  · rwa [asOperand]
  · exact fun _ => lead.mono openers_within

theorem Expr.ReadsBack.ofItem {e : Expr} (primary : e.isPrimary = false)
    (noComma : e.isComma = false)
    (read : ∀ {rest}, Stops itemEnds rest →
      Scan.item ((e.render depth).toList ++ rest) = some (e.canonical, rest))
    (lead : e.isFunction = false → Lead starters (e.render depth).toList) : e.ReadsBack depth := by
  have asOperand : e.asOperand (e.render depth) = parenthesize (e.render depth) :=
    if_neg (by rw [primary]; decide)
  have whole : ∀ {rest}, Stops closers rest →
      Scan.expression ((e.render depth).toList ++ rest) = some (e.canonical, rest) :=
    fun stops => expression_of_item stops (read stops.item)
  constructor
  · intro rest _
    rw [asOperand, toList_parenthesize, operand_parenthesized whole]
  · intro rest stops
    rw [asItem_of_not_comma noComma, read stops]
  · exact whole
  · rw [asOperand, toList_parenthesize]
    exact .mark (by decide)
  · exact lead

section Primaries

theorem readsBack_string (text : String) : (Expr.string text).ReadsBack depth := by
  refine .ofPrimary rfl ?_ fun {rest} _ => ?_
  · rw [Expr.render, toList_quote]
    exact .mark (by decide)
  · rw [Expr.render, toList_quote, List.cons_append, List.append_assoc, operand_quote,
      List.singleton_append, stringText_quoteChars]
    simp [Expr.canonical]

/-- An operand that starts with a word is no number. -/
theorem operand_word {name : String} (isName : IsWord name)
    (noDigit : ∀ c ∈ name.toList.head?, c.isDigit = false) (ends : EndsWord rest) :
    operand (name.toList ++ rest) = (do let (e, cs) ← named name rest; accesses e cs) := by
  obtain ⟨c, cs, spelled, plain⟩ := isName.first
  have head : (name.toList ++ rest).head?.any Char.isDigit = false := by
    rw [spelled] at noDigit ⊢
    simpa using noDigit c rfl
  rw [operand_plain, if_neg (by rw [head]; decide), IsWord.word_append isName ends]
  rw [spelled]
  rintro _ ⟨⟩ member
  rw [starters_noWord c (openers_within member)] at plain
  cases plain

/-- Names and constants. -/
theorem Expr.ReadsBack.ofWord {e : Expr} {name : String} (primary : e.isPrimary = true)
    (text : e.render depth = name) (isWord : IsWord name) (apart : name ∉ keywords)
    (noDigit : ∀ c ∈ name.toList.head?, c.isDigit = false)
    (known : ∀ cs, Scan.named name cs = some (e.canonical, cs)) : e.ReadsBack depth := by
  refine .ofPrimary primary ?_ fun ends => ?_
  · rw [text]
    exact .ofWord isWord apart
  · rw [text, operand_word isWord noDigit ends, known]
    rfl

theorem readsBack_ident {name : String} (isName : IsName name) : (Expr.ident name).ReadsBack depth := by
  have constant (other : String) (member : other ∈ reservedWords) : name ≠ other := by
    rintro rfl
    exact isName.unreserved member
  refine .ofWord rfl (show _ = name from rfl) isName.toIsWord
    (fun member => isName.unreserved (List.mem_append_right _ member)) isName.noDigit fun cs => ?_
  rw [named]
  · rfl
  · exact constant "true" (by decide)
  · exact constant "false" (by decide)
  · exact constant "undefined" (by decide)
  · exact constant "internals" (by decide)

theorem readsBack_bool (b : Bool) : (Expr.bool b).ReadsBack depth := by
  cases b with
  | true =>
      exact .ofWord rfl (show _ = "true" from rfl) ⟨by decide, by simp [isWordChar]⟩ (by decide)
        (by rintro _ ⟨⟩; rfl) fun _ => rfl
  | false =>
      exact .ofWord rfl (show _ = "false" from rfl) ⟨by decide, by simp [isWordChar]⟩ (by decide)
        (by rintro _ ⟨⟩; rfl) fun _ => rfl

theorem readsBack_undefined : Expr.undefined.ReadsBack depth :=
  .ofWord rfl (show _ = "undefined" from rfl) ⟨by decide, by simp [isWordChar]⟩ (by decide)
    (by rintro _ ⟨⟩; rfl) fun _ => rfl

theorem readsBack_support {member : Support} (present : (Image.support? member).isSome) :
    (Expr.support member).ReadsBack depth := by
  obtain ⟨isWord, known⟩ := Support.word_of_present present
  have root : IsWord "internals" := ⟨by decide, by simp [isWordChar]⟩
  have text : ((Expr.support member).render depth).toList =
      "internals".toList ++ '.' :: member.name.toList := by simp
  refine .ofPrimary rfl ?_ fun {rest} ends => ?_
  · rw [text]
    refine .word root (by decide) ?_
    rintro _ ⟨⟩
    exact ⟨rfl, by decide⟩
  · have dot : EndsWord ('.' :: (member.name.toList ++ rest)) := by
      rintro _ ⟨⟩
      rfl
    rw [text, List.append_assoc, List.cons_append, operand_word root (by rintro _ ⟨⟩; rfl) dot, named]
    simp only [expect, if_true, Option.bind_eq_bind, Option.bind_some, IsWord.word_append isWord ends,
      known]
    rfl

theorem isWord_digits (n : Nat) : IsWord (String.ofList (Nat.toDigits 10 n)) ∧
    String.ofList (Nat.toDigits 10 n) ∉ keywords := by
  have digits : ∀ c ∈ Nat.toDigits 10 n, c.isDigit = true := fun c member =>
    Nat.isDigit_of_mem_toDigits (by decide) (by decide) member
  have nonempty : Nat.toDigits 10 n ≠ [] := Nat.toDigits_ne_nil
  refine ⟨⟨fun empty => nonempty (by simpa using congrArg String.toList empty), fun c member => ?_⟩,
    fun member => ?_⟩
  · rw [String.toList_ofList] at member
    exact isWordChar_of_isDigit (digits c member)
  · obtain ⟨c, inside⟩ := List.exists_mem_of_ne_nil _ nonempty
    have noDigit := reservedWords_digitless _ (List.mem_append_right _ member) c (by
      rwa [String.toList_ofList])
    rw [digits c inside] at noDigit
    cases noDigit

theorem operand_digits {n : Nat} (small : n < Number.wholeBound) (ends : EndsWord rest) :
    operand (Nat.toDigits 10 n ++ rest) = accesses (.number (Float.ofNat n)) rest := by
  have digits : ∀ c ∈ Nat.toDigits 10 n, c.isDigit = true := fun c member =>
    Nat.isDigit_of_mem_toDigits (by decide) (by decide) member
  have noMore : ∀ c ∈ rest.head?, c.isDigit = false := fun c first =>
    Bool.eq_false_iff.mpr fun digit => by
      have := ends c first
      rw [isWordChar_of_isDigit digit] at this
      cases this
  obtain ⟨taken, dropped⟩ := takeWhile_append digits noMore
  have whole := Number.whole?_digits small
  obtain ⟨c, cs, spelled⟩ := List.exists_cons_of_ne_nil (Nat.toDigits_ne_nil (b := 10) (n := n))
  have digit : c.isDigit = true := digits c (by rw [spelled]; exact List.mem_cons_self)
  have noDigit : ∀ mark ∈ openers, mark.isDigit = false := by simp [openers]
  have head : (Nat.toDigits 10 n ++ rest).head?.any Char.isDigit = true := by
    rw [spelled]
    simpa using digit
  rw [operand_plain, if_pos head, taken, dropped, whole]
  · rfl
  · rw [spelled]
    rintro _ ⟨⟩ member
    rw [noDigit c member] at digit
    cases digit

theorem readsBack_number {n : Float} (short : Number.IsShortWhole n) :
    (Expr.number n).ReadsBack depth := by
  have text := short.text_eq
  obtain ⟨isWord, free⟩ := isWord_digits (Number.Binary.ofFloat n).truncate
  have lead : ∀ marks, Lead marks (Nat.toDigits 10 (Number.Binary.ofFloat n).truncate) := fun marks => by
    have word : Lead marks _ := .ofWord isWord free
    rwa [String.toList_ofList] at word
  by_cases negative : n < 0
  · rw [if_pos (short.lt_zero_iff.mp negative)] at text
    refine .ofItem (by simp [Expr.isPrimary, negative]) rfl (fun {rest} stops => ?_) fun _ => ?_
    · rw [Expr.render, text, List.append_assoc, List.singleton_append, item_neg,
        operand_digits short.2 stops.operand.endsWord, accesses_stop stops.operand, Expr.canonical,
        if_pos negative]
      rfl
    · rw [Expr.render, text]
      exact .mark (by decide)
  · rw [if_neg (mt short.lt_zero_iff.mpr negative), List.nil_append] at text
    have finite := (Bool.and_eq_true_iff.mp short.1).1
    refine .ofPrimary (by simp [Expr.isPrimary, negative, finite]) ?_ fun {rest} ends => ?_
    · rw [Expr.render, text]
      exact lead openers
    · rw [Expr.render, text, operand_digits short.2 ends, Expr.canonical, if_neg negative]
      rfl

end Primaries

section Lists

variable {first : Expr} {es : List Expr}

/-- The items after the first, each with the comma before it. -/
def moreText (texts : List String) : List Char := texts.flatMap fun text => ',' :: ' ' :: text.toList

theorem toList_commaSeparated_cons (text : String) (texts : List String) :
    (commaSeparated (text :: texts)).toList = text.toList ++ moreText texts := by
  rw [commaSeparated, String.toList_intercalate]
  induction texts generalizing text with
  | nil => simp [moreText]
  | cons next texts ih => simp_all [List.intercalate_cons_cons, moreText]

theorem Stops.moreText (stops : Stops itemEnds rest) (texts : List String) :
    Stops itemEnds (moreText texts ++ rest) := by
  cases texts with
  | nil => exact stops
  | cons text texts => exact .cons (by decide) _

theorem moreItems_append (all : ∀ e ∈ es, e.ReadsBack depth) (stops : Stops closers rest) :
    moreItems (moreText (renderItems depth es) ++ rest) = some (Expr.canonicalAll es, rest) := by
  induction es with
  | nil => exact moreItems_stop stops
  | cons e es ih =>
      obtain ⟨here, others⟩ := List.forall_mem_cons.mp all
      have text : moreText (renderItems depth (e :: es)) ++ rest =
          ',' :: ' ' :: ((e.asItem (e.render depth)).toList ++
            (moreText (renderItems depth es) ++ rest)) := by simp [moreText]
      rw [text, moreItems]
      simp only [expect, if_true]
      rw [here.item (stops.item.moreText _)]
      simp only [Option.bind_eq_bind, Option.bind_some, ih others]
      rfl

theorem items_of_expression (all : ∀ e ∈ first :: es, e.ReadsBack depth) (stops : Stops closers rest) :
    item ((commaSeparated (renderItems depth (first :: es))).toList ++ rest) =
      some (first.canonical, moreText (renderItems depth es) ++ rest) := by
  rw [renderItems, toList_commaSeparated_cons, List.append_assoc]
  exact (all first List.mem_cons_self).item (stops.item.moreText _)

theorem Expr.ReadsBack.itemLead {e : Expr} (read : e.ReadsBack depth) (other : e.isFunction = false) :
    Lead starters (e.asItem (e.render depth)).toList := by
  by_cases comma : e.isComma = true
  · cases e <;> cases comma
    rw [asItem, toList_parenthesize]
    exact .mark (by decide)
  · rw [asItem_of_not_comma (Bool.eq_false_iff.mpr comma)]
    exact read.lead other

/-- An item does not start with the end of a list. -/
theorem Expr.ReadsBack.item_first {e : Expr} (read : e.ReadsBack depth) :
    ∃ c cs, (e.asItem (e.render depth)).toList = c :: cs ∧ c ≠ ')' ∧ c ≠ ']' := by
  by_cases literal : e.isFunction = true
  · cases e <;> cases literal
    rw [asItem, render]
    · simp
    · exact nofun
  obtain ⟨c, cs, text, start⟩ := (read.itemLead (Bool.eq_false_iff.mpr literal)).first
  refine ⟨c, cs, text, ?_, ?_⟩
  · rintro rfl
    rcases start with start | start
    · exact absurd start (by decide)
    · exact absurd start (by decide)
  · rintro rfl
    rcases start with start | start
    · exact absurd start (by decide)
    · exact absurd start (by decide)

/-- A list is read up to its bracket. -/
theorem items_append {close : Char} (bracket : close = ')' ∨ close = ']')
    (all : ∀ e ∈ es, e.ReadsBack depth) (rest : List Char) :
    items close ((commaSeparated (renderItems depth es)).toList ++ close :: rest) =
      some (Expr.canonicalAll es, rest) := by
  have stops : Stops closers (close :: rest) := by
    rcases bracket with rfl | rfl <;> exact .cons (by decide) _
  cases es with
  | nil => simp [items, commaSeparated, expect, Expr.canonicalAll]
  | cons e es =>
      obtain ⟨here, others⟩ := List.forall_mem_cons.mp all
      have open_ : expect [close] ((commaSeparated (renderItems depth (e :: es))).toList ++
          close :: rest) = none := by
        obtain ⟨c, cs, text, round, square⟩ := here.item_first
        rw [renderItems, toList_commaSeparated_cons, text, List.cons_append, List.cons_append, expect,
          if_neg (by rcases bracket with rfl | rfl <;> assumption)]
      rw [items, open_, items_of_expression all stops]
      simp only [Option.bind_eq_bind, Option.bind_some, moreItems_append others stops]
      simp [expect, Expr.canonicalAll]

theorem words_append {names : List String} {name : String} (all : ∀ other ∈ name :: names, IsWord other)
    (rest : List Char) :
    words ((commaSeparated (name :: names)).toList ++ ')' :: rest) =
      some (name :: names, ')' :: rest) := by
  induction names generalizing name with
  | nil =>
      have ends : EndsWord (')' :: rest) := by
        rintro _ ⟨⟩
        rfl
      rw [toList_commaSeparated_cons, moreText, List.flatMap_nil, List.append_nil, words,
        IsWord.word_append (all name List.mem_cons_self) ends]
      rfl
  | cons next names ih =>
      obtain ⟨here, others⟩ := List.forall_mem_cons.mp all
      have text : (commaSeparated (name :: next :: names)).toList ++ ')' :: rest =
          name.toList ++ ',' :: ' ' :: ((commaSeparated (next :: names)).toList ++ ')' :: rest) := by
        simp [toList_commaSeparated_cons, moreText]
      have ends : EndsWord (',' :: ' ' :: ((commaSeparated (next :: names)).toList ++ ')' :: rest)) := by
        rintro _ ⟨⟩
        rfl
      rw [text, words, IsWord.word_append here ends]
      simp only [expect, if_true, ih others]
      rfl

theorem params_append {names : List String} (all : ∀ name ∈ names, IsWord name) (rest : List Char) :
    params ((commaSeparated names).toList ++ ')' :: rest) = some (names, rest) := by
  cases names with
  | nil => simp [params, commaSeparated, expect]
  | cons name names =>
      obtain ⟨c, cs, spelled, plain⟩ := (all name List.mem_cons_self).first
      have open_ : expect [')'] ((commaSeparated (name :: names)).toList ++ ')' :: rest) = none := by
        rw [toList_commaSeparated_cons, spelled, List.cons_append, List.cons_append, expect, if_neg]
        rintro rfl
        exact absurd plain (by decide)
      rw [params, open_]
      simp only [words_append all, Option.bind_eq_bind, Option.bind_some]
      rfl

end Lists

section Compounds

variable {e object callee left right target value : Expr}

theorem endsWord_cons {c : Char} (other : isWordChar c = false) (rest : List Char) :
    EndsWord (c :: rest) := by
  rintro _ ⟨⟩
  exact other

theorem readsBack_member {property : String} (read : object.ReadsBack depth) (isWord : IsWord property) :
    (Expr.member object property).ReadsBack depth := by
  have text : ((Expr.member object property).render depth).toList =
      (object.asOperand (object.render depth)).toList ++ '.' :: property.toList := by
    simp
  refine .ofPrimary rfl ?_ fun {rest} ends => ?_
  · rw [text]
    exact read.operandLead.append (by rintro _ ⟨⟩; exact ⟨rfl, by decide⟩)
  · rw [text, List.append_assoc, List.cons_append, read.operand (endsWord_cons rfl _), accesses_dot,
      IsWord.word_append isWord ends]
    rfl

theorem readsBack_index {position : Expr} (read : object.ReadsBack depth)
    (inside : position.ReadsBack depth) : (Expr.index object position).ReadsBack depth := by
  have text : ((Expr.index object position).render depth).toList =
      (object.asOperand (object.render depth)).toList ++
        '[' :: ((position.render depth).toList ++ [']']) := by
    simp
  refine .ofPrimary rfl ?_ fun {rest} _ => ?_
  · rw [text]
    exact read.operandLead.append (by rintro _ ⟨⟩; exact ⟨rfl, by decide⟩)
  · rw [text, List.append_assoc, List.cons_append, List.append_assoc,
      read.operand (endsWord_cons rfl _), accesses_index, List.singleton_append, inside.expression (.cons (by decide) _)]
    rfl

theorem readsBack_call {args : List Expr} (read : callee.ReadsBack depth)
    (all : ∀ e ∈ args, e.ReadsBack depth) : (Expr.call callee args).ReadsBack depth := by
  have text : ((Expr.call callee args).render depth).toList =
      (callee.asOperand (callee.render depth)).toList ++
        '(' :: ((commaSeparated (renderItems depth args)).toList ++ [')']) := by
    simp
  refine .ofPrimary rfl ?_ fun {rest} _ => ?_
  · rw [text]
    exact read.operandLead.append (by rintro _ ⟨⟩; exact ⟨rfl, by decide⟩)
  · rw [text, List.append_assoc, List.cons_append, List.append_assoc,
      read.operand (endsWord_cons rfl _), accesses_call, List.singleton_append, items_append (.inl rfl) all]
    rfl

theorem readsBack_array {items : List Expr} (all : ∀ e ∈ items, e.ReadsBack depth) :
    (Expr.array items).ReadsBack depth := by
  have text : ((Expr.array items).render depth).toList =
      '[' :: ((commaSeparated (renderItems depth items)).toList ++ [']']) := by
    simp
  refine .ofPrimary rfl ?_ fun {rest} _ => ?_
  · rw [text]
    exact .mark (by decide)
  · rw [text, List.cons_append, List.append_assoc, operand_list, List.singleton_append,
      items_append (.inr rfl) all]
    rfl

/-- What follows an operand after a blank is an operation. -/
theorem item_operation (read : left.ReadsBack depth) (rest : List Char) :
    item ((left.asOperand (left.render depth)).toList ++ ' ' :: rest) =
      operation left.canonical (' ' :: rest) := by
  have ends : EndsWord (' ' :: rest) := endsWord_cons rfl _
  rw [item_of_lead read.operandLead ends, read.operand ends, accesses_stop (.cons (by decide) _)]
  rfl

/-- An operand at the end of an item. -/
theorem operand_stop (read : e.ReadsBack depth) (stops : Stops operandEnds rest) :
    operand ((e.asOperand (e.render depth)).toList ++ rest) = some (e.canonical, rest) := by
  rw [read.operand stops.endsWord, accesses_stop stops]

theorem takeWhile_sign (sign : String) (noBlank : ' ' ∉ sign.toList) (rest : List Char) :
    String.ofList ((sign.toList ++ ' ' :: rest).takeWhile (· != ' ')) = sign ∧
      ((sign.toList ++ ' ' :: rest).dropWhile (· != ' ')).drop 1 = rest := by
  have unblank : ∀ c ∈ sign.toList, (c != ' ') = true := by
    intro c member
    rw [bne_iff_ne]
    rintro rfl
    exact noBlank member
  have blank : ∀ c ∈ (' ' :: rest).head?, (c != ' ') = false := by
    rintro _ ⟨⟩
    rfl
  obtain ⟨taken, dropped⟩ := takeWhile_append unblank blank
  rw [taken, dropped, String.ofList_toList]
  exact ⟨rfl, rfl⟩

theorem BinaryOp.noBlank (op : BinaryOp) : ' ' ∉ op.sign.toList := by
  cases op <;> simp [BinaryOp.sign]

theorem operation_binary (op : BinaryOp) (left : Expr) (rest : List Char) :
    operation left (' ' :: (op.sign.toList ++ ' ' :: rest)) =
      (do let (right, cs) ← operand rest; return (.binary op left right, cs)) := by
  obtain ⟨sign, next⟩ := takeWhile_sign _ op.noBlank rest
  rw [operation]
  simp only [sign, next]
  cases op <;> rfl

/-- What is written after a blank does not go on with the word in front of the blank. -/
theorem Lead.blank {text : List Char} (lead : Lead openers text) (rest : List Char) :
    Lead starters (text ++ ' ' :: rest) :=
  (lead.append (by rintro _ ⟨⟩; exact ⟨rfl, by decide⟩)).mono openers_within

theorem readsBack_binary (op : BinaryOp) (readLeft : left.ReadsBack depth)
    (readRight : right.ReadsBack depth) : (Expr.binary op left right).ReadsBack depth := by
  have text : ((Expr.binary op left right).render depth).toList =
      (left.asOperand (left.render depth)).toList ++
        ' ' :: (op.sign.toList ++ ' ' :: (right.asOperand (right.render depth)).toList) := by
    simp
  refine .ofItem rfl rfl (fun {rest} stops => ?_) fun _ => ?_
  · rw [text, List.append_assoc, List.cons_append, List.append_assoc, List.cons_append,
      item_operation readLeft, operation_binary, operand_stop readRight stops.operand]
    rfl
  · rw [text]
    exact readLeft.operandLead.blank _

theorem readsBack_unary (op : UnaryOp) (read : e.ReadsBack depth) :
    (Expr.unary op e).ReadsBack depth := by
  have text : ∃ mark ∈ starters, ((Expr.unary op e).render depth).toList =
      mark :: (e.asOperand (e.render depth)).toList ∧ ∀ rest, item (mark :: rest) =
        (do let (operand, cs) ← operand rest; return (.unary op operand, cs)) := by
    cases op
    · exact ⟨'!', by decide, by simp, item_not⟩
    · exact ⟨'-', by decide, by simp, item_neg⟩
  obtain ⟨mark, starter, text, read_⟩ := text
  refine .ofItem rfl rfl (fun {rest} stops => ?_) fun _ => ?_
  · rw [text, List.cons_append, read_, operand_stop read stops.operand]
    rfl
  · rw [text]
    exact .mark starter

theorem readsBack_cond {test yes no : Expr} (readTest : test.ReadsBack depth)
    (readYes : yes.ReadsBack depth) (readNo : no.ReadsBack depth) :
    (Expr.cond test yes no).ReadsBack depth := by
  have text : ((Expr.cond test yes no).render depth).toList =
      (test.asOperand (test.render depth)).toList ++
        ' ' :: ("?".toList ++ ' ' :: ((yes.asOperand (yes.render depth)).toList ++
          ' ' :: ':' :: ' ' :: (no.asOperand (no.render depth)).toList)) := by
    simp
  refine .ofItem rfl rfl (fun {rest} stops => ?_) fun _ => ?_
  · obtain ⟨sign, next⟩ := takeWhile_sign "?" (by decide)
      ((yes.asOperand (yes.render depth)).toList ++
        ' ' :: ':' :: ' ' :: ((no.asOperand (no.render depth)).toList ++ rest))
    simp only [text, List.append_assoc, List.cons_append]
    rw [item_operation readTest, operation]
    simp only [sign, next]
    rw [operand_stop readYes (.cons (by decide) _)]
    simp only [Option.bind_eq_bind, Option.bind_some, expect, if_true,
      operand_stop readNo stops.operand]
    rfl
  · rw [text]
    exact readTest.operandLead.blank _

theorem readsBack_assign (place : target.isPlace = true) (readTarget : target.ReadsBack depth)
    (readValue : value.ReadsBack depth) : (Expr.assign target value).ReadsBack depth := by
  have primary : target.asOperand (target.render depth) = target.render depth :=
    if_pos (Expr.isPrimary_of_isPlace place)
  have text : ((Expr.assign target value).render depth).toList =
      (target.asOperand (target.render depth)).toList ++
        ' ' :: ("=".toList ++ ' ' :: (value.asItem (value.render depth)).toList) := by
    simp [primary]
  refine .ofItem rfl rfl (fun {rest} stops => ?_) fun _ => ?_
  · obtain ⟨sign, next⟩ := takeWhile_sign "=" (by decide)
      ((value.asItem (value.render depth)).toList ++ rest)
    simp only [text, List.append_assoc, List.cons_append]
    rw [item_operation readTarget, operation]
    simp only [sign, next]
    rw [readValue.item stops]
    rfl
  · rw [text]
    exact readTarget.operandLead.blank _

theorem toList_braced (depth : Nat) (lines : List String) :
    (braced depth lines).toList =
      '\x7b' :: '\n' :: (lines.flatMap String.toList ++ (List.replicate (2 * depth) ' ' ++ ['\x7d'])) := by
  simp [braced, indentation, String.toList_join]

/-- Statements between braces are read up to the brace. -/
def BlockReadsBack (depth : Nat) (body : List Stmt) : Prop :=
  ∀ rest, block ((braced depth (renderLines (depth + 1) body)).toList ++ rest) =
    some (Stmt.canonicalAll body, rest)

theorem readsBack_function {params : List String} {body : List Stmt}
    (all : ∀ param ∈ params, IsWord param) (read : BlockReadsBack depth body) :
    (Expr.function params body).ReadsBack depth := by
  have keyword : IsWord "function" := ⟨by decide, by simp [isWordChar]⟩
  have text : ((Expr.function params body).render depth).toList =
      "function".toList ++ '(' :: ((commaSeparated params).toList ++
        ')' :: ' ' :: (braced depth (renderLines (depth + 1) body)).toList) := by
    simp
  refine .ofItem rfl rfl (fun {rest} _ => ?_) (by simp [Expr.isFunction])
  simp only [text, List.append_assoc, List.cons_append]
  rw [item_plain (by rintro _ ⟨⟩; decide), IsWord.word_append keyword (endsWord_cons rfl _), if_pos rfl]
  simp only [Option.bind_eq_bind, Option.bind_some, expect, if_true, params_append all, read rest]
  rfl

theorem readsBack_comma {es : List Expr} (many : 2 ≤ es.length)
    (noFunction : ∀ first ∈ es.head?, first.isFunction = false)
    (all : ∀ e ∈ es, e.ReadsBack depth) : (Expr.comma es).ReadsBack depth := by
  obtain ⟨first, second, others, rfl⟩ : ∃ first second others, es = first :: second :: others := by
    match es, many with
    | first :: second :: others, _ => exact ⟨first, second, others, rfl⟩
  have text : (Expr.comma (first :: second :: others)).render depth =
      commaSeparated (renderItems depth (first :: second :: others)) := by rw [Expr.render]
  have read : ∀ {rest}, Stops closers rest → Scan.expression
      (((Expr.comma (first :: second :: others)).render depth).toList ++ rest) =
        some ((Expr.comma (first :: second :: others)).canonical, rest) := by
    intro rest stops
    rw [text, expression, items_of_expression all stops]
    simp only [Option.bind_eq_bind, Option.bind_some,
      moreItems_append (List.forall_mem_cons.mp all).2 stops]
    rfl
  have parenthesized : Lead openers (parenthesize
      ((Expr.comma (first :: second :: others)).render depth)).toList := by
    rw [toList_parenthesize]
    exact .mark (by decide)
  have asOperand : ∀ {rest}, EndsWord rest → Scan.operand ((parenthesize
      ((Expr.comma (first :: second :: others)).render depth)).toList ++ rest) =
        accesses (Expr.comma (first :: second :: others)).canonical rest := by
    intro rest _
    rw [toList_parenthesize, operand_parenthesized read]
  refine ⟨asOperand, item_of_operand parenthesized asOperand, read, parenthesized, fun _ => ?_⟩
  rw [text, renderItems, toList_commaSeparated_cons]
  exact ((all first List.mem_cons_self).itemLead (noFunction first rfl)).append
    (by rintro _ ⟨⟩; exact ⟨rfl, by decide⟩)

end Compounds
end Expressions

end LispScript.Script
