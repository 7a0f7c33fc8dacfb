import LispScript.Proofs.Copies
import LispScript.Proofs.SymbolText

/-!
Printed data reads back as the same data. Each printed item is read to its end whatever follows it,
as long as that ends it, and the symbols in it are found where their names say.
-/

namespace LispScript

/-- Lists and vectors nest at most so deep. A list nests deeper than its elements and its tail. -/
def Heap.Nests (heap : Heap) : Nat → Value → Prop
  | 0, value => value.isCons = false ∧ value.isVector = false
  | depth + 1, .cons a =>
      (∀ item ∈ (heap.splitDotted (.cons a)).1, heap.Nests depth item) ∧
        heap.Nests depth (heap.splitDotted (.cons a)).2
  | depth + 1, .vector a => ∀ item ∈ (heap.vector a).toList, heap.Nests depth item
  | _ + 1, _ => True

namespace SymbolTable

/-- A symbol with a home, both with names that are printed as they are. -/
structure IsPlain (table : SymbolTable) (id : SymbolId) : Prop where
  has : table.HasSymbol id
  name : IsSymbolName (table.symbolName id)
  home : ∃ home, (table.symbol id).home = some home ∧ IsPackageName (table.packageName home)

end SymbolTable

namespace Image

/-- Values without parts that are printed as data. -/
inductive Atom (image : Image) : Value → Prop where
  | nil : Atom image .nil
  | number {x : Float} (short : Number.IsShortWhole x) : Atom image (.number x)
  | character (c : Char) : Atom image (.character c)
  | string (a : Address) (text : String) : Atom image (.string a text)
  | symbol {id : SymbolId} (plain : image.symbols.IsPlain id) (some_symbol : id ≠ SymbolId.nil) :
      Atom image (.symbol id)

/-- What is built from atoms with conses and vectors. -/
inductive Datum (image : Image) : Value → Prop where
  | atom {value : Value} (isAtom : image.Atom value) : Datum image value
  | cons {a : Address} (bound : a < image.heap.cells.size)
      (car : Datum image (image.heap.cell a).car) (cdr : Datum image (image.heap.cell a).cdr) :
      Datum image (.cons a)
  | vector {a : Address} (bound : a < image.heap.vectors.size)
      (items : ∀ item ∈ (image.heap.vector a).toList, Datum image item) : Datum image (.vector a)

variable {image : Image} {value : Value}

section Data

/-- Data contains no cycles, also when more is in the heap. -/
theorem Datum.acyclic {later : Heap} (datum : image.Datum value) (keeps : image.heap.Keeps later) :
    Acc later.Part value := by
  induction datum with
  | atom isAtom =>
      refine ⟨_, fun part step => ?_⟩
      cases step <;> cases isAtom
  | cons bound _ _ car cdr =>
      rw [← keeps.cell _ bound] at car cdr
      refine ⟨_, fun part step => ?_⟩
      cases step with
      | car => exact car
      | cdr => exact cdr
  | vector bound _ items =>
      rw [← keeps.vector _ bound] at items
      refine ⟨_, fun part step => ?_⟩
      cases step with
      | item _ member => exact items _ member

/-- A datum is a chain of conses, none at all for an atom or a vector. -/
theorem Datum.spine (datum : image.Datum value) : ∃ items tail,
    image.heap.Spine value items tail ∧ (∀ item ∈ items, image.Datum item) ∧ image.Datum tail := by
  induction datum with
  | @atom value isAtom =>
      refine ⟨[], value, .done ?_, by simp, .atom isAtom⟩
      cases isAtom <;> rfl
  | cons bound car cdr _ ih =>
      obtain ⟨items, tail, spine, elements, ending⟩ := ih
      refine ⟨_ :: items, tail, .cons bound spine, ?_, ending⟩
      exact List.forall_mem_cons.mpr ⟨car, elements⟩
  | vector bound items => exact ⟨[], _, .done rfl, by simp, .vector bound items⟩

end Data

end Image

namespace Reader

/-- The first character of an item, neither skipped nor the end of a list nor its point. -/
structure Begins (c : Char) : Prop where
  noBlank : Text.isBlank c = false
  noComment : c ≠ ';'
  noClose : c ≠ ')'
  noPoint : c ≠ '.'

/-- A copy of a value was read, up to what is left. -/
structure Copied (s s' : ReadState) (value copy : Value) (left : List Char) : Prop where
  rest : s'.rest = left
  symbols : s'.image.symbols = s.image.symbols
  keeps : s.image.heap.Keeps s'.image.heap
  same : s'.image.heap.Same value copy

/-- A text is read as a copy of a value of the image, whatever follows and ends it. -/
structure Spells (features : List String) (image : Image) (text : List Char) (value : Value) :
    Prop where
  begins : ∃ c cs, text = c :: cs ∧ Begins c
  reads : ∀ (fuel : Nat) (s : ReadState) (left : List Char), 2 * text.length ≤ fuel →
    s.rest = text ++ left → Ends left → s.image.symbols = image.symbols →
    image.heap.Keeps s.image.heap →
    ∃ copy s', readItem features fuel s = .ok (some copy) s' ∧ Copied s s' value copy left

section Steps

variable {features : List String} {fuel : Nat} {s s' : ReadState} {cs left : List Char}
  {items : List Value} {tail : Value}

theorem advance_eq (count : Nat) (s : ReadState) :
    advance count s = .ok () { s with rest := s.rest.drop count } := rfl

theorem skip_eq (s : ReadState) : skip s = .ok () { s with rest := skipBlanks s.rest } := rfl

/-- A state further on in the text, with another heap. -/
def withHeap (s : ReadState) (heap : Heap) (rest : List Char) : ReadState :=
  { rest, image := { s.image with heap } }

theorem readItem_string {text : String} (rest : s.rest = '"' :: cs)
    (scanned : scanString [] cs = some (text, left)) :
    readItem features (fuel + 1) s = .ok (some (s.image.heap.allocString text).1)
      (withHeap s (s.image.heap.allocString text).2 left) := by
  rw [readItem]
  change EStateM.bind peek _ s = _
  simp only [EStateM.bind, peek, rest, List.head?_cons]
  change EStateM.bind (advance 1) _ s = _
  simp only [EStateM.bind, advance_eq, rest, List.drop_succ_cons, List.drop_zero]
  change EStateM.bind (lex _) _ _ = _
  simp only [EStateM.bind, lex, scanned]
  rfl

theorem readItem_list (rest : s.rest = '(' :: cs)
    (elements : readElements features fuel [] { s with rest := cs } = .ok (items, tail) s') :
    readItem features (fuel + 1) s = .ok (some (s'.image.heap.allocListWithTail items tail).1)
      (withHeap s' (s'.image.heap.allocListWithTail items tail).2 s'.rest) := by
  rw [readItem]
  change EStateM.bind peek _ s = _
  simp only [EStateM.bind, peek, rest, List.head?_cons]
  change EStateM.bind (advance 1) _ s = _
  simp only [EStateM.bind, advance_eq, rest, List.drop_succ_cons, List.drop_zero]
  change EStateM.bind (readElements features fuel []) _ _ = _
  simp only [EStateM.bind, elements]
  rfl

theorem readItem_dispatch (rest : s.rest = '#' :: cs) :
    readItem features (fuel + 1) s = readDispatch features fuel { s with rest := cs } := by
  rw [readItem]
  change EStateM.bind peek _ s = _
  simp only [EStateM.bind, peek, rest, List.head?_cons]
  change EStateM.bind (advance 1) _ s = _
  simp only [EStateM.bind, advance_eq, rest, List.drop_succ_cons, List.drop_zero]

theorem readDispatch_character {c : Char} (rest : s.rest = '\\' :: cs)
    (scanned : scanCharacter cs = (.ok c, left)) :
    readDispatch features (fuel + 1) s =
      .ok (some (.character c)) { s with rest := left } := by
  rw [readDispatch]
  change EStateM.bind peek _ s = _
  simp only [EStateM.bind, peek, rest, List.head?_cons]
  change EStateM.bind (advance 1) _ s = _
  simp only [EStateM.bind, advance_eq, rest, List.drop_succ_cons, List.drop_zero]
  change EStateM.bind (lex scanCharacter) _ _ = _
  simp only [EStateM.bind, lex, scanned]
  rfl

/-- The elements of a vector are read as a list first. -/
theorem readDispatch_vector (rest : s.rest = '(' :: cs)
    (elements : readElements features fuel [] { s with rest := cs } = .ok (items, .nil) s') :
    let heap := (s'.image.heap.allocListWithTail items .nil).2
    readDispatch features (fuel + 1) s = .ok (some (heap.allocVector items.toArray).1)
      (withHeap s' (heap.allocVector items.toArray).2 s'.rest) := by
  intro heap
  obtain ⟨-, size, spine⟩ := s'.image.heap.spine_allocListWithTail items
    (show Value.nil.isCons = false from rfl)
  have split : heap.splitDotted (s'.image.heap.allocListWithTail items .nil).1 = (items, .nil) :=
    Heap.spineFrom_eq spine (by rw [size]; exact Nat.le_add_left _ _) []
  rw [readDispatch]
  change EStateM.bind peek _ s = _
  simp only [EStateM.bind, peek, rest, List.head?_cons]
  change EStateM.bind (advance 1) _ s = _
  simp only [EStateM.bind, advance_eq, rest, List.drop_succ_cons, List.drop_zero]
  change EStateM.bind (readElements features fuel []) _ _ = _
  simp only [EStateM.bind, elements]
  change EStateM.bind (onHeap _) _ _ = _
  simp only [EStateM.bind, onHeap]
  change EStateM.bind EStateM.get _ _ = _
  simp only [EStateM.bind, EStateM.get]
  change EStateM.map _ (onHeap fun h => h.allocVector
    (heap.splitDotted (s'.image.heap.allocListWithTail items .nil).1).1.toArray) _ = _
  rw [split]
  rfl

/-- The end of a list. -/
theorem readElements_close {seen : List Value} (rest : skipBlanks s.rest = ')' :: left) :
    readElements features (fuel + 1) seen s = .ok (seen.reverse, .nil) { s with rest := left } := by
  rw [readElements]
  change EStateM.bind skip _ s = _
  simp only [EStateM.bind, skip_eq, rest]
  change EStateM.bind EStateM.get _ _ = _
  simp only [EStateM.bind, EStateM.get]
  change EStateM.bind (advance 1) _ _ = _
  simp only [EStateM.bind, advance_eq, List.drop_succ_cons, List.drop_zero]
  rfl

/-- An element of a list is read, then those that follow. -/
theorem readElements_item {seen : List Value} {c : Char} {value : Value}
    (rest : skipBlanks s.rest = c :: cs) (begins : Begins c)
    (item : readItem features fuel { s with rest := c :: cs } = .ok (some value) s') :
    readElements features (fuel + 1) seen s =
      readElements features fuel (value :: seen) s' := by
  obtain ⟨noBlank, noComment, noClose, noPoint⟩ := begins
  have noLonePoint : atLonePoint (c :: cs) = false := by
    rw [atLonePoint.eq_def]
    split
    · rename_i same
      exact absurd (List.cons.inj same).1 noPoint
    · rename_i same
      exact absurd (List.cons.inj same).1 noPoint
    · rfl
  rw [readElements]
  change EStateM.bind skip _ s = _
  simp only [EStateM.bind, skip_eq, rest]
  change EStateM.bind EStateM.get _ _ = _
  simp only [EStateM.bind, EStateM.get, noLonePoint, Bool.false_eq_true, if_false, List.cons.injEq,
    noClose, false_and, imp_self, implies_true]
  change EStateM.bind (readItem features fuel) _ _ = _
  simp only [EStateM.bind, item]

theorem readDatum_item {c : Char} {value : Value} (rest : skipBlanks s.rest = c :: cs)
    (begins : Begins c)
    (item : readItem features fuel { s with rest := c :: cs } = .ok (some value) s') :
    readDatum features (fuel + 1) s = .ok value s' := by
  have noClose := begins.noClose
  rw [readDatum]
  change EStateM.bind skip _ s = _
  simp only [EStateM.bind, skip_eq, rest]
  change EStateM.bind peek _ _ = _
  simp only [EStateM.bind, peek, List.head?_cons]
  change EStateM.bind (readItem features fuel) _ _ = _
  simp only [EStateM.bind, item]
  rfl

theorem skipBlanks_begins {c : Char} (begins : Begins c) : skipBlanks (c :: cs) = c :: cs := by
  rw [skipBlanks, skipBlanksFrom, begins.noBlank, if_neg Bool.false_ne_true,
    if_neg Bool.false_ne_true, if_neg begins.noComment]

/-- A tail after a lone point, and the end of the list. -/
theorem readElements_tail {seen : List Value} {c : Char} {value : Value} (some_items : seen ≠ [])
    (rest : skipBlanks s.rest = '.' :: ' ' :: c :: cs) (begins : Begins c)
    (item : readItem features fuel { s with rest := c :: cs } = .ok (some value) s')
    (close : s'.rest = ')' :: left) :
    readElements features (fuel + 2) seen s =
      .ok (seen.reverse, value) { s' with rest := left } := by
  have lonePoint : atLonePoint ('.' :: ' ' :: c :: cs) = true := rfl
  have spaced : skipBlanks (' ' :: c :: cs) = c :: cs := skipBlanks_begins begins
  have datum : readDatum features (fuel + 1) { s with rest := ' ' :: c :: cs } = .ok value s' :=
    readDatum_item spaced begins item
  have closing : skipBlanks s'.rest = ')' :: left := by rw [close]; rfl
  rw [readElements]
  change EStateM.bind skip _ s = _
  simp only [EStateM.bind, skip_eq, rest]
  change EStateM.bind EStateM.get _ _ = _
  simp only [EStateM.bind, EStateM.get, lonePoint, if_true, List.isEmpty_eq_false_iff.mpr some_items,
    Bool.false_eq_true, if_false]
  change EStateM.bind (advance 1) _ _ = _
  simp only [EStateM.bind, advance_eq, List.drop_succ_cons, List.drop_zero]
  change EStateM.bind (readDatum features (fuel + 1)) _ _ = _
  simp only [EStateM.bind, datum]
  change EStateM.bind skip _ _ = _
  simp only [EStateM.bind, skip_eq, closing]
  change EStateM.bind peek _ _ = _
  simp only [EStateM.bind, peek, List.head?_cons]
  rfl

end Steps

section Atoms

variable {features : List String} {image : Image} {value : Value} {text : List Char}

/-- The first character of a token. -/
theorem readItem_token {fuel : Nat} {s s' : ReadState} {left : List Char} {token : Token} {c : Char}
    (ordinary : c ∉ ['(', ')', '\'', '\x60', ',', '"', '#']) (first : s.rest.head? = some c)
    (scanned : scanToken s.rest = (.ok token, left))
    (atom : atomOfToken token { s with rest := left } = .ok value s') :
    readItem features (fuel + 1) s = .ok (some value) s' := by
  simp only [List.mem_cons, List.not_mem_nil, or_false, not_or] at ordinary
  obtain ⟨noOpen, noClose, noQuote, noBackquote, noComma, noString, noDispatch⟩ := ordinary
  have lexed : lex scanToken s = .ok token { s with rest := left } := by
    simp only [lex, scanned]
  rw [readItem]
  change EStateM.bind peek _ s = _
  simp only [EStateM.bind, peek, first]
  change EStateM.bind (lex scanToken) _ s = _
  simp only [EStateM.bind, lexed]
  change EStateM.map _ _ _ = _
  simp only [EStateM.map, atom]

/-- A token spells an atom if it is scanned and looked up as such. -/
theorem spells_token {c : Char} {cs : List Char} (shape : text = c :: cs)
    (first : isNameChar c = true ∨ c = ':') (flat : value.hasParts = false)
    (reads : ∀ (s : ReadState) (left : List Char), Ends left → s.image.symbols = image.symbols →
      ∃ token copy, scanToken (text ++ left) = (.ok token, left) ∧
        atomOfToken token s = .ok copy s ∧ value.strictEq copy = true) :
    Spells features image text value := by
  have ordinary : c ∉ ['(', ')', '\'', '\x60', ',', '"', '#'] ∧ Begins c := by
    rcases first with name | rfl
    · obtain ⟨⟨-, upper⟩, special⟩ := code_of_isNameChar name
      have goesOn := (isPlain_of_isNameChar name).goesOn
      simp only [isTerminating, Bool.or_eq_false_iff, beq_eq_false_iff_ne] at goesOn
      simp only [List.mem_cons, List.not_mem_nil, or_false, not_or] at special ⊢
      exact ⟨by simp [goesOn, special], ⟨goesOn.1.1.1.1.1.1.1, by simp [special], by simp [special],
        by simp [special]⟩⟩
    · exact ⟨by decide, by decide, by decide, by decide, by decide⟩
  refine ⟨⟨c, cs, shape, ordinary.2⟩, fun fuel s left enough rest ends symbols _ => ?_⟩
  obtain ⟨fuel, rfl⟩ : ∃ n, fuel = n + 1 := by
    rw [shape, List.length_cons] at enough
    exact ⟨fuel - 1, by omega⟩
  obtain ⟨token, copy, scanned, atom, equal⟩ := reads { s with rest := left } left ends symbols
  refine ⟨copy, _, readItem_token ordinary.1 (by simp [rest, shape]) (rest ▸ scanned) atom, rfl, rfl,
    .refl _, .atom flat equal⟩

theorem spells_number {x : Float} (short : Number.IsShortWhole x) :
    Spells features image (Number.text x).toList (.number x) := by
  obtain ⟨some_text, chars⟩ := short.text_shape
  have names : ∀ c ∈ (Number.text x).toList, isNameChar c = true := by
    intro c member
    rcases chars c member with rfl | digit
    · rfl
    · exact isNameChar_of_isDigit digit
  obtain ⟨c, cs, shape⟩ := List.exists_cons_of_ne_nil some_text
  obtain ⟨y, read, equal⟩ := short.ofToken?_text
  refine spells_token shape (.inl (names c (by simp [shape]))) rfl fun s left ends _ => ?_
  refine ⟨_, .number y, scanToken_plain (fun c member => isPlain_of_isNameChar (names c member)) ends,
    ?_, equal⟩
  have noPoints : (Number.text x).toList.all (· == '.') = false := by
    rw [shape, List.all_cons]
    have notPoint : c ≠ '.' := by
      rintro rfl
      exact (code_of_isNameChar (names '.' (by simp [shape]))).2 (by decide)
    simp [notPoint]
  rw [atomOfToken]
  simp only [Token.isPlain, Option.isNone_none, Bool.not_false, Bool.and_self, if_true,
    String.toList_ofList, noPoints, Bool.and_false, Bool.false_eq_true, if_false, read]
  rfl

theorem spells_nil {visibility : Visibility}
    (visible : image.symbols.findSymbol? "NIL" image.symbols.current =
      some (SymbolId.nil, visibility)) : Spells features image "NIL".toList .nil := by
  have isName : IsSymbolName "NIL" := ⟨'N', ['I', 'L'], rfl, rfl, by simp [isNameChar]⟩
  refine spells_token (show "NIL".toList = ['N', 'I', 'L'] by decide) (.inl (by decide)) rfl
    fun s left ends symbols => ?_
  rw [← symbols] at visible
  refine ⟨_, .nil, scanToken_plain (fun c member => isPlain_of_isNameChar (isName.isNameChar c member))
    ends, ?_, rfl⟩
  rw [String.ofList_toList]
  exact read_here (fun _ => ⟨isName.noPoints, isName.ofToken?_eq⟩) visible

/-- The text of a symbol is read as that symbol. -/
theorem spells_symbol {id : SymbolId} (wellFormed : image.symbols.WellFormed)
    (plain : image.symbols.IsPlain id) (some_symbol : id ≠ SymbolId.nil) :
    Spells features image (Printer.symbolText image.symbols true id).toList (.symbol id) := by
  obtain ⟨has, isName, home, homed, isPackageName⟩ := plain
  have itself : Value.ofSymbol id = .symbol id := if_neg some_symbol
  have faithful : IsFaithful (image.symbols.symbolName id) := .inr fun c member =>
    (isPlain_of_isNameChar (isName.isNameChar c member)).upper
  obtain ⟨token, scanned, read⟩ := symbolText_token wellFormed has homed (.inr (.inr isPackageName))
    faithful fun _ _ => isName.ofToken?_eq
  obtain ⟨c, cs, shape, first⟩ := isName.symbolText_begins homed isPackageName
  refine spells_token shape first rfl fun s left ends symbols => ?_
  exact ⟨token, _, scanned left ends, read s symbols, by simp [itself, Value.strictEq, Value.eql]⟩

theorem spells_string (a : Address) (text : String) :
    Spells features image (Printer.stringText true text).toList (.string a text) := by
  have shape : (Printer.stringText true text).toList = '"' ::
      ((text.toList.flatMap fun c => if c == '"' || c == '\\' then ['\\', c] else [c]) ++ ['"']) := by
    simp [Printer.stringText, Printer.escaped, String.toList_append]
  refine ⟨⟨_, _, shape, by decide, by decide, by decide, by decide⟩,
    fun fuel s left enough rest _ _ _ => ?_⟩
  obtain ⟨fuel, rfl⟩ : ∃ n, fuel = n + 1 := by
    rw [shape, List.length_cons] at enough
    exact ⟨fuel - 1, by omega⟩
  have scanned := scanString_escaped text.toList [] left
  rw [List.reverse_nil, List.nil_append, String.ofList_toList] at scanned
  rw [shape, List.cons_append, List.append_assoc, List.singleton_append] at rest
  exact ⟨_, _, readItem_string rest scanned, rfl, rfl,
    Heap.keeps_allocString _ text,
    .atom rfl (by simp [Value.strictEq, Heap.allocString])⟩

theorem spells_character (c : Char) :
    Spells features image (Printer.characterText true c).toList (.character c) := by
  have shape : (Printer.characterText true c).toList = '#' :: '\\' ::
      ((Printer.named? c).getD (String.singleton c)).toList := by
    rw [Printer.characterText, if_pos rfl, String.toList_append]
    rfl
  refine ⟨⟨_, _, shape, by decide, by decide, by decide, by decide⟩,
    fun fuel s left enough rest ends _ _ => ?_⟩
  obtain ⟨fuel, rfl⟩ : ∃ n, fuel = n + 2 := by
    rw [shape, List.length_cons, List.length_cons] at enough
    exact ⟨fuel - 2, by omega⟩
  rw [shape, List.cons_append, List.cons_append] at rest
  refine ⟨_, _, (readItem_dispatch rest).trans (readDispatch_character rfl
    (scanCharacter_text c ends)), rfl, rfl, .refl _, .atom rfl ?_⟩
  simp [Value.strictEq, Value.eql]

end Atoms

section Lists

variable {features : List String} {image : Image}

/-- What stands between the brackets of a list when each element has a blank before it. -/
def bodyText (texts : List (List Char)) (tailText : List Char) : List Char :=
  texts.flatMap (' ' :: ·) ++ tailText

theorem bodyText_cons (text : List Char) (texts : List (List Char)) (tailText : List Char) :
    bodyText (text :: texts) tailText = ' ' :: (text ++ bodyText texts tailText) := by
  simp [bodyText]

/-- The texts of the elements of a list. -/
abbrev AllSpell (features : List String) (image : Image) (texts : List (List Char))
    (items : List Value) : Prop :=
  List.Forall₂ (Spells features image) texts items

/-- What is printed of a tail: nothing if it is empty, otherwise its text after a point. -/
def TailSpells (features : List String) (image : Image) (text : List Char) (tail : Value) : Prop :=
  text = [] ∧ tail = .nil ∨
    ∃ tailText, text = ' ' :: '.' :: ' ' :: tailText ∧ Spells features image tailText tail

/-- Elements were read up to the end of their list. -/
structure CopiedAll (s s' : ReadState) (items : List Value) (tail : Value) (copies : List Value)
    (tailCopy : Value) (left : List Char) : Prop where
  rest : s'.rest = left
  symbols : s'.image.symbols = s.image.symbols
  keeps : s.image.heap.Keeps s'.image.heap
  same : List.Forall₂ s'.image.heap.Same items copies
  tails : s'.image.heap.Same tail tailCopy

/-- What follows an element ends it. -/
theorem ends_body {texts : List (List Char)} {tailText left : List Char} {tail : Value}
    (tailSpells : TailSpells features image tailText tail) :
    Ends (bodyText texts tailText ++ ')' :: left) := by
  cases texts with
  | nil =>
      rcases tailSpells with ⟨rfl, -⟩ | ⟨tailText, rfl, -⟩ <;> exact fun c first => by cases first; rfl
  | cons text texts => exact fun c first => by cases first; rfl

/-- The elements of a list are read one by one, each up to the blank or bracket after it. -/
theorem readElements_body {texts : List (List Char)} {items : List Value} {tailText : List Char}
    {tail : Value} (spells : AllSpell features image texts items)
    (tailSpells : TailSpells features image tailText tail) (fuel : Nat) (s : ReadState)
    (left : List Char) (seen : List Value) (some_items : tailText = [] ∨ seen ≠ [] ∨ texts ≠ [])
    (enough : 2 * ((bodyText texts tailText).length + 1) ≤ fuel + 1)
    (rest : skipBlanks s.rest = skipBlanks (bodyText texts tailText ++ ')' :: left))
    (symbols : s.image.symbols = image.symbols) (keeps : image.heap.Keeps s.image.heap) :
    ∃ copies tailCopy s', readElements features fuel seen s =
        .ok (seen.reverse ++ copies, tailCopy) s' ∧
      CopiedAll s s' items tail copies tailCopy left := by
  induction spells generalizing fuel s seen with
  | nil =>
      rcases tailSpells with ⟨rfl, rfl⟩ | ⟨tailText, rfl, spelled⟩
      · obtain ⟨fuel, rfl⟩ : ∃ n, fuel = n + 1 := ⟨fuel - 1, by omega⟩
        refine ⟨[], .nil, { s with rest := left }, ?_, rfl, rfl, .refl _, .nil, .atom rfl rfl⟩
        rw [readElements_close rest, List.append_nil]
      · obtain ⟨⟨c, cs, rfl, begins⟩, reads⟩ := spelled
        have enough : 2 * ((c :: cs).length + 4) ≤ fuel + 1 := enough
        obtain ⟨fuel, rfl⟩ : ∃ n, fuel = n + 2 := ⟨fuel - 2, by omega⟩
        have point : skipBlanks s.rest = '.' :: ' ' :: c :: (cs ++ ')' :: left) := rest
        obtain ⟨copy, s', read, copied⟩ := reads fuel { s with rest := c :: (cs ++ ')' :: left) }
          (')' :: left) (by omega) rfl (fun d first => by cases first; rfl) symbols keeps
        have some_seen : seen ≠ [] := by simpa using some_items
        refine ⟨[], copy, { s' with rest := left }, ?_, rfl, copied.symbols, copied.keeps, .nil,
          copied.same⟩
        rw [readElements_tail some_seen point begins read copied.rest, List.append_nil]
  | @cons text item texts items spelled spells ih =>
      obtain ⟨⟨c, cs, rfl, begins⟩, reads⟩ := spelled
      rw [bodyText_cons, List.length_cons, List.length_append] at enough
      obtain ⟨fuel, rfl⟩ : ∃ n, fuel = n + 1 := ⟨fuel - 1, by omega⟩
      set after := bodyText texts tailText ++ ')' :: left with after_eq
      have item_ahead : skipBlanks s.rest = c :: (cs ++ after) := by
        rw [rest, bodyText_cons, List.cons_append, List.append_assoc]
        exact skipBlanks_begins begins
      obtain ⟨copy, middle, read, copied⟩ := reads fuel { s with rest := c :: (cs ++ after) } after
        (by omega) rfl (ends_body tailSpells) symbols keeps
      obtain ⟨copies, tailCopy, s', readRest, copiedAll⟩ := @ih fuel middle (copy :: seen)
        (.inr (.inl (List.cons_ne_nil _ _))) (by omega)
        (by rw [copied.rest]) (copied.symbols.trans symbols) (keeps.trans copied.keeps)
      refine ⟨copy :: copies, tailCopy, s', ?_, copiedAll.rest,
        copiedAll.symbols.trans copied.symbols, copied.keeps.trans copiedAll.keeps,
        .cons (copied.same.kept copiedAll.keeps) copiedAll.same, copiedAll.tails⟩
      rw [readElements_item item_ahead begins read, readRest]
      simp

/-- The elements are printed with blanks between them. -/
theorem spaced_body (strings : List String) (tailText left : List Char) :
    skipBlanks ((Printer.spaced strings).toList ++ tailText ++ left) =
        skipBlanks (bodyText (strings.map String.toList) tailText ++ left) ∧
      (bodyText (strings.map String.toList) tailText).length ≤
        (Printer.spaced strings).toList.length + tailText.length + 1 := by
  have joined : ∀ (text : List Char) (texts : List (List Char)),
      [' '].intercalate (text :: texts) = text ++ texts.flatMap (' ' :: ·) := by
    intro text texts
    induction texts generalizing text with
    | nil => simp
    | cons next texts ih => simp [ih]
  rw [Printer.spaced, String.toList_intercalate]
  cases strings with
  | nil => exact ⟨rfl, Nat.le_succ_of_le (by simp [bodyText])⟩
  | cons string strings =>
      have blank : " ".toList = [' '] := rfl
      rw [List.map_cons, bodyText_cons, blank, joined, bodyText]
      constructor
      · rw [List.append_assoc string.toList]
        rfl
      · simp
        omega

variable {value : Value} {strings : List String} {items : List Value} {tail : Value}

/-- A list is read as a list of copies. -/
theorem spells_list {tailText : List Char} (spine : image.heap.Spine value items tail)
    (spells : AllSpell features image (strings.map String.toList) items)
    (tailSpells : TailSpells features image tailText tail) (some_items : items ≠ []) :
    Spells features image ('(' :: ((Printer.spaced strings).toList ++ tailText ++ [')'])) value := by
  refine ⟨⟨_, _, rfl, by decide, by decide, by decide, by decide⟩,
    fun fuel s left enough rest _ symbols keeps => ?_⟩
  rw [List.length_cons, List.length_append, List.length_append] at enough
  obtain ⟨fuel, rfl⟩ : ∃ n, fuel = n + 1 := ⟨fuel - 1, by omega⟩
  set inner := (Printer.spaced strings).toList ++ tailText ++ ')' :: left with inner_eq
  have rest : s.rest = '(' :: inner := by
    rw [rest, inner_eq]
    simp
  obtain ⟨start, size⟩ := spaced_body strings tailText (')' :: left)
  have some_texts : strings.map String.toList ≠ [] := by
    intro none
    rw [none] at spells
    cases spells
    exact some_items rfl
  obtain ⟨copies, tailCopy, s', read, copied⟩ := readElements_body spells tailSpells fuel
    { s with rest := inner } left [] (.inr (.inr some_texts)) (by simp at enough; omega) start symbols keeps
  have ends : tailCopy.isCons = false := copied.tails.isCons_eq.trans spine.ends
  obtain ⟨grows, -, copySpine⟩ := s'.image.heap.spine_allocListWithTail copies ends
  refine ⟨_, _, readItem_list rest read, copied.rest, copied.symbols, copied.keeps.trans grows, ?_⟩
  exact .list (spine.kept (keeps.trans (copied.keeps.trans grows))) copySpine
    (copied.same.imp fun _ _ same => same.kept grows) (copied.tails.kept grows)

/-- A vector is read as a vector of copies. -/
theorem spells_vector {a : Address} (bound : a < image.heap.vectors.size)
    (spells : AllSpell features image (strings.map String.toList) (image.heap.vector a).toList) :
    Spells features image ('#' :: '(' :: ((Printer.spaced strings).toList ++ [')'])) (.vector a) := by
  refine ⟨⟨_, _, rfl, by decide, by decide, by decide, by decide⟩,
    fun fuel s left enough rest _ symbols keeps => ?_⟩
  rw [List.length_cons, List.length_cons, List.length_append] at enough
  obtain ⟨fuel, rfl⟩ : ∃ n, fuel = n + 2 := ⟨fuel - 2, by omega⟩
  set inner := (Printer.spaced strings).toList ++ ')' :: left with inner_eq
  have rest : s.rest = '#' :: '(' :: inner := by
    rw [rest, inner_eq]
    simp
  obtain ⟨start, size⟩ := spaced_body strings [] (')' :: left)
  rw [List.append_nil] at start
  obtain ⟨copies, tailCopy, s', read, copied⟩ := readElements_body spells (.inl ⟨rfl, rfl⟩)
    fuel { s with rest := inner } left [] (.inl rfl) (by simp at enough size; omega) start symbols keeps
  obtain rfl : tailCopy = .nil := by
    cases copied.tails with
    | atom _ equal => cases tailCopy <;> first | rfl | cases equal
  rw [List.reverse_nil, List.nil_append] at read
  obtain ⟨grows, -, -⟩ := s'.image.heap.spine_allocListWithTail copies
    (show Value.nil.isCons = false from rfl)
  have grows := grows.trans (Heap.keeps_allocVector
    (s'.image.heap.allocListWithTail copies .nil).2 copies.toArray)
  have before := keeps.trans (copied.keeps.trans grows)
  refine ⟨_, _, (readItem_dispatch rest).trans (readDispatch_vector rfl read), copied.rest,
    copied.symbols, copied.keeps.trans grows, ?_⟩
  refine .ofItems (Nat.lt_of_lt_of_le bound before.vectors) (by simp [withHeap, Heap.allocVector]) ?_
  generalize (s'.image.heap.allocListWithTail copies .nil).2 = heap at grows before
  have elements : ((heap.allocVector copies.toArray).2.vector heap.vectors.size).toList = copies := by
    simp [Heap.allocVector, Heap.vector]
  change List.Forall₂ (heap.allocVector copies.toArray).2.Same
    ((heap.allocVector copies.toArray).2.vector a).toList
    ((heap.allocVector copies.toArray).2.vector heap.vectors.size).toList
  rw [before.vector a bound, elements]
  exact copied.same.imp fun _ _ same => same.kept grows

end Lists

section Data

variable {features : List String} {image : Image} {value : Value}

/-- Atoms are printed alike at every depth. -/
theorem spells_atom {visibility : Visibility} (wellFormed : image.symbols.WellFormed)
    (visible : image.symbols.findSymbol? "NIL" image.symbols.current =
      some (SymbolId.nil, visibility)) (atom : image.Atom value) (budget : Nat) :
    Spells features image (Printer.print image true (budget + 1) value).toList value := by
  cases atom with
  | nil => exact spells_nil visible
  | number short => exact spells_number short
  | character c => exact spells_character c
  | string a text => exact spells_string a text
  | symbol plain some_symbol => exact spells_symbol wellFormed plain some_symbol

theorem all_spell {items : List Value} {budget : Nat}
    (spells : ∀ item ∈ items,
      Spells features image (Printer.print image true budget item).toList item) :
    AllSpell features image ((items.map (Printer.print image true budget)).map String.toList)
      items := by
  rw [AllSpell, List.map_map, List.forall₂_map_left_iff, List.forall₂_same]
  exact spells

/-- Data within the depth is printed so that it reads back. -/
theorem spells_datum {visibility : Visibility} (wellFormed : image.symbols.WellFormed)
    (visible : image.symbols.findSymbol? "NIL" image.symbols.current =
      some (SymbolId.nil, visibility)) {depth : Nat} (datum : image.Datum value)
    (nests : image.heap.Nests depth value) :
    Spells features image (Printer.print image true (depth + 1) value).toList value := by
  induction depth generalizing value with
  | zero =>
      cases datum with
      | atom isAtom => exact spells_atom wellFormed visible isAtom 0
      | cons => cases nests.1
      | vector => cases nests.2
  | succ depth ih =>
      cases datum with
      | atom isAtom => exact spells_atom wellFormed visible isAtom _
      | @cons a bound car cdr =>
          have whole : image.Datum (.cons a) := .cons bound car cdr
          obtain ⟨items, tail, spine, elements, ending⟩ := whole.spine
          have split := spine.splitDotted_eq (whole.acyclic (.refl _))
          rw [Heap.Nests, split] at nests
          have each := all_spell fun item member => ih (elements item member) (nests.1 item member)
          have tailSpells : TailSpells features image (if tail.isNil then "" else
              " . " ++ Printer.print image true (depth + 1) tail).toList tail := by
            by_cases empty : tail = .nil
            · subst empty
              exact .inl ⟨rfl, rfl⟩
            · have some_tail : tail.isNil = false := by
                cases tail <;> first | rfl | exact absurd rfl empty
              refine .inr ⟨_, ?_, ih ending nests.2⟩
              rw [some_tail, if_neg Bool.false_ne_true, String.toList_append]
              rfl
          have text_eq : (Printer.print image true (depth + 1 + 1) (.cons a)).toList =
              '(' :: ((Printer.spaced (items.map (Printer.print image true (depth + 1)))).toList ++
                (if tail.isNil then "" else
                  " . " ++ Printer.print image true (depth + 1) tail).toList ++ [')']) := by
            rw [Printer.print, split]
            simp only [String.toList_append]
            rfl
          rw [text_eq]
          have some_items : items ≠ [] := by
            cases spine with
            | done ends => cases ends
            | cons => exact List.cons_ne_nil _ _
          exact spells_list spine each tailSpells some_items
      | @vector a bound items =>
          have each := all_spell fun item member => ih (items item member) (nests item member)
          have text_eq : (Printer.print image true (depth + 1 + 1) (.vector a)).toList =
              '#' :: '(' :: ((Printer.spaced ((image.heap.vector a).toList.map
                (Printer.print image true (depth + 1)))).toList ++ [')']) := by
            rw [Printer.print, String.toList_append, String.toList_append]
            rfl
          rw [text_eq]
          exact spells_vector bound each

/-- An item at the beginning of a text is what is read of it. -/
theorem read_item {s s' : ReadState} {c : Char} {cs : List Char} (shape : s.rest = c :: cs)
    (start : skipBlanks s.rest = s.rest)
    (item : readItem features (4 * s.rest.length + 3) s = .ok (some value) s') :
    read features s = .ok (some value) s' := by
  rw [read]
  change EStateM.bind EStateM.get _ _ = _
  simp only [EStateM.bind, EStateM.get]
  change readNext features (4 * s.rest.length + 3 + 1) s = _
  rw [readNext]
  change EStateM.bind skip _ _ = _
  simp only [EStateM.bind, skip_eq, start]
  change EStateM.bind peek _ _ = _
  simp only [EStateM.bind, peek, shape, List.head?_cons]
  rw [← shape]
  change EStateM.bind (readItem features _) _ _ = _
  simp only [EStateM.bind, item]
  rfl

/-- Printed data reads back as the same data. In every session, what is built from whole numbers,
characters, strings, plain symbols and the empty list with conses and vectors, and nests no deeper than
is printed, is read from its text to the end. No symbol is interned, and the copy is equal. -/
theorem printed_reads_back {ops : List SymbolTable.Operation} {visibility : Visibility}
    (reachable : SymbolTable.Runs .initial ops image.symbols)
    (visible : image.symbols.findSymbol? "NIL" image.symbols.current =
      some (SymbolId.nil, visibility)) (datum : image.Datum value)
    (nests : image.heap.Nests ({} : PrintOptions).maxDepth value) :
    ∃ copy s', read features ⟨(image.print value).toList, image⟩ = .ok (some copy) s' ∧
      s'.rest = [] ∧ s'.image.symbols = image.symbols ∧ image.heap.Keeps s'.image.heap ∧
      s'.image.heap.similar value copy = true := by
  obtain ⟨wellFormed, -⟩ := SymbolTable.initial_wellFormed.runs reachable
  have spells : Spells features image _ value := spells_datum wellFormed visible datum nests
  obtain ⟨⟨c, cs, shape, begins⟩, reads⟩ := spells
  set text := (image.print value).toList with text_eq
  have shape : text = c :: cs := shape
  have start : skipBlanks text = text := by rw [shape, skipBlanks_begins begins]
  obtain ⟨copy, s', readText, copied⟩ := reads (4 * text.length + 3) ⟨text, image⟩ []
    (by change 2 * text.length ≤ _; omega) (List.append_nil _).symm nofun rfl (.refl _)
  exact ⟨copy, s', read_item shape start readText, copied.rest, copied.symbols, copied.keeps,
    copied.same.similar (datum.acyclic copied.keeps)⟩

/-- A dotted list of a symbol and a vector before a keyword. -/
theorem printed_reads_back_of_list :
    let ops : List SymbolTable.Operation :=
      [.intern "A" PackageId.commonLispUser, .internKeyword "K"]
    let image : Image :=
      { symbols := ops.foldl (fun table op => op.after table) .initial
        heap :=
          { cells := #[⟨.symbol ⟨2⟩, .cons 1⟩, ⟨.vector 0, .symbol ⟨3⟩⟩]
            vectors := #[#[.string 0 "x", .number (Float.ofNat 1), .character ' ', .nil]] }
        depthLimit := 0 }
    ∃ copy s', read [] ⟨(image.print (.cons 0)).toList, image⟩ = .ok (some copy) s' ∧
      s'.rest = [] ∧ s'.image.symbols = image.symbols ∧ image.heap.Keeps s'.image.heap ∧
      s'.image.heap.similar (.cons 0) copy = true := by
  intro ops image
  have reachable : SymbolTable.Runs .initial ops image.symbols :=
    .cons (by decide +kernel) (.cons (by decide +kernel) .nil)
  have visible : image.symbols.findSymbol? "NIL" image.symbols.current =
      some (SymbolId.nil, .inherited) := by decide +kernel
  have first : image.Atom (.symbol ⟨2⟩) := .symbol
    ⟨by decide +kernel, ⟨'A', [], by decide +kernel, rfl, by simp⟩, PackageId.commonLispUser,
      by decide +kernel, 'C', "OMMON-LISP-USER".toList, by decide +kernel, rfl, by simp [Char.isUpper]⟩
    (by decide)
  have last : image.Atom (.symbol ⟨3⟩) := .symbol
    ⟨by decide +kernel, ⟨'K', [], by decide +kernel, rfl, by simp⟩, PackageId.keyword,
      by decide +kernel, 'K', "EYWORD".toList, by decide +kernel, rfl, by simp [Char.isUpper]⟩
    (by decide)
  have vector : image.Datum (.vector 0) := by
    refine .vector (by decide) fun item member => .atom ?_
    change item ∈ [Value.string 0 "x", .number (Float.ofNat 1), .character ' ', .nil] at member
    simp only [List.mem_cons, List.not_mem_nil, or_false] at member
    rcases member with rfl | rfl | rfl | rfl
    · exact .string 0 "x"
    · exact .number ⟨by decide +kernel, by decide +kernel⟩
    · exact .character ' '
    · exact .nil
  have datum : image.Datum (.cons 0) :=
    .cons (by decide) (.atom first) (.cons (by decide) vector (.atom last))
  have spine : image.heap.splitDotted (.cons 0) = ([.symbol ⟨2⟩, .vector 0], .symbol ⟨3⟩) := rfl
  have nests : image.heap.Nests ({} : PrintOptions).maxDepth (.cons 0) := by
    change (∀ item ∈ (image.heap.splitDotted (.cons 0)).1, image.heap.Nests 199 item) ∧
      image.heap.Nests 199 (image.heap.splitDotted (.cons 0)).2
    rw [spine]
    refine ⟨fun item member => ?_, trivial⟩
    simp only [List.mem_cons, List.not_mem_nil, or_false] at member
    rcases member with rfl | rfl
    · trivial
    · change ∀ item ∈ [Value.string 0 "x", .number (Float.ofNat 1), .character ' ', .nil],
        image.heap.Nests 198 item
      simp [Heap.Nests]
  exact printed_reads_back reachable visible datum nests

end Data

end Reader

end LispScript
