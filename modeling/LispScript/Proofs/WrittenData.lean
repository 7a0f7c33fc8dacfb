import LispScript.Proofs.Copies
import LispScript.Proofs.Lexemes
import LispScript.Proofs.ReadingRules

/-!
What becomes of the data that a text writes. Every datum that is read stands somewhere in what the
text is read as, apart from feature expressions, excluded forms and what follows the point of a
vector: a vector has just the elements before its point.
-/

namespace LispScript

namespace Heap

variable {heap later : Heap} {whole part tail : Value} {items : List Value}

/-- A value is a part of another, of one of its parts and so on, or it is the value itself. -/
def Within (heap : Heap) : Value → Value → Prop := Relation.ReflTransGen heap.Part

theorem Part.kept (is : heap.Part part whole) (keeps : heap.Keeps later) : later.Part part whole := by
  cases is with
  | car bound => exact keeps.cell _ bound ▸ .car (bound.trans_le keeps.cells)
  | cdr bound => exact keeps.cell _ bound ▸ .cdr (bound.trans_le keeps.cells)
  | item bound member =>
      exact .item (bound.trans_le keeps.vectors) (keeps.vector _ bound ▸ member)

theorem Within.kept (within : heap.Within part whole) (keeps : heap.Keeps later) :
    later.Within part whole :=
  within.lift id fun _ _ is => is.kept keeps

theorem Heads.item_within (heads : heap.Heads whole items tail) : ∀ item ∈ items, heap.Within item whole := by
  induction heads with
  | done tail => exact fun _ member => absurd member List.not_mem_nil
  | cons bound rest ih =>
      rintro item member
      obtain rfl | member := List.mem_cons.mp member
      · exact .single (.car bound)
      · exact (ih item member).tail (.cdr bound)

theorem Heads.tail_within (heads : heap.Heads whole items tail) : heap.Within tail whole := by
  induction heads with
  | done tail => exact .refl
  | cons bound rest ih => exact ih.tail (.cdr bound)

/-- A chain that is split begins with its first values. -/
theorem Heads.spineFrom_eq (heads : heap.Heads whole items tail) (more : Nat) (seen : List Value) :
    heap.spineFrom (items.length + more) seen whole =
      heap.spineFrom more (items.reverse ++ seen) tail := by
  induction heads generalizing seen with
  | done tail => simp
  | cons bound rest ih =>
      rw [List.length_cons, Nat.succ_add, spineFrom, ih, List.reverse_cons, List.append_assoc]
      rfl

theorem allocVector_vector (heap : Heap) (items : Array Value) :
    (heap.allocVector items).2.vector heap.vectors.size = items := by
  simp [allocVector, vector]

theorem spineFrom_seen (heap : Heap) (limit : Nat) (seen : List Value) (value : Value) :
    (heap.spineFrom limit seen value).1 = seen.reverse ++ (heap.spineFrom limit [] value).1 := by
  induction limit generalizing seen value with
  | zero => simp [spineFrom]
  | succ limit ih =>
      cases value with
      | cons a =>
          rw [spineFrom, spineFrom, ih, ih [_], List.reverse_cons, List.append_assoc]
          rfl
      | _ => simp [spineFrom]

end Heap

namespace Reader

section Steps

variable {α β : Type} {features : List String} {s s' : ReadState} {x : Read α}

/-- A step that only adds objects. -/
def AddsObjects (x : Read α) : Prop :=
  ∀ s a s', x s = .ok a s' → s.image.heap.Keeps s'.image.heap

theorem AddsObjects.pure (a : α) : AddsObjects (pure a : Read α) := by
  rintro s _ _ ⟨⟩
  exact .refl _

theorem AddsObjects.throw (e : ReadError) : AddsObjects (throw e : Read α) := by
  rintro s _ _ ⟨⟩

theorem AddsObjects.onSymbols (change_ : SymbolTable → α × SymbolTable) :
    AddsObjects (onSymbols change_) := by
  rintro s _ _ ⟨⟩
  exact .refl _

theorem AddsObjects.onHeap {change_ : Heap → α × Heap}
    (keeps : ∀ heap : Heap, heap.Keeps (change_ heap).2) :
    AddsObjects (onHeap change_) := by
  rintro s _ _ ⟨⟩
  exact keeps s.image.heap

theorem AddsObjects.get : AddsObjects (get : Read ReadState) := by
  rintro s _ _ ⟨⟩
  exact .refl _

theorem AddsObjects.bind {f : α → Read β} (first : AddsObjects x) (next : ∀ a, AddsObjects (f a)) :
    AddsObjects (x >>= f) := by
  intro s b s' ended
  obtain ⟨a, s₁, middle, ended⟩ := ok_of_bind ended
  exact (first _ _ _ middle).trans (next a _ _ _ ended)

theorem AddsObjects.symbolOfToken (token : Token) : AddsObjects (symbolOfToken token) := by
  have current : AddsObjects currentPackage := by
    rintro s _ _ ⟨⟩
    exact .refl _
  unfold Reader.symbolOfToken
  split
  · exact .bind current fun _ => .onSymbols _
  · exact .onSymbols _
  · refine .bind .get fun s => ?_
    dsimp only
    split
    · exact .throw _
    · split
      · exact .onSymbols _
      · split
        · exact .pure _
        · exact .throw _

theorem AddsObjects.atomOfToken (token : Token) : AddsObjects (atomOfToken token) := by
  have symbol : AddsObjects (do return Value.ofSymbol (← Reader.symbolOfToken token)) :=
    .bind (.symbolOfToken token) fun _ => .pure _
  unfold Reader.atomOfToken
  dsimp only
  split
  · split
    · split
      · exact .bind (.throw _) fun _ => .pure _
      · exact .bind (.throw _) fun _ => symbol
    · split
      · exact .pure _
      · exact symbol
  · exact symbol

theorem Atom.make_adds (a : Atom) : AddsObjects a.make := by
  cases a with
  | string text => exact .onHeap (Heap.keeps_allocString · text)
  | character c => exact .pure _
  | uninterned token => exact .bind (.onSymbols _) fun _ => .pure _
  | spelled token => exact .atomOfToken token

/-- A list that is read keeps what there was and holds its elements and its tail. -/
theorem makeList_heads {items : List Value} {tail v : Value}
    (made : onHeap (·.allocListWithTail items tail) s = .ok v s') :
    s.image.heap.Keeps s'.image.heap ∧
      s'.image.heap.cells.size = s.image.heap.cells.size + items.length ∧
      s'.image.heap.Heads v items tail := by
  have all := Heap.heads_allocListWithTail s.image.heap items tail
  cases made
  exact all

/-- A datum that is read after a mark is the second element of a list. -/
theorem wrapIn_heads {operator : String} {datum v : Value}
    (made : wrapIn operator datum s = .ok v s') : ∃ id,
    s.image.heap.Keeps s'.image.heap ∧ s'.image.heap.Heads v [.symbol id, datum] .nil := by
  obtain ⟨id, s₁, interned, made⟩ := ok_of_bind made
  obtain ⟨keeps, -, heads⟩ := makeList_heads made
  cases interned
  exact ⟨_, keeps, heads⟩

/-- A vector that is read keeps what there was and begins with the elements before the point. What
follows the point is left out unless it is a list itself. -/
theorem makeVector_elements {items : List Value} {tail v : Value}
    (made : makeVector items tail s = .ok v s') :
    s.image.heap.Keeps s'.image.heap ∧ ∃ a more, v = .vector a ∧ a < s'.image.heap.vectors.size ∧
      s'.image.heap.vector a = (items ++ more).toArray ∧ (tail.isCons = false → more = []) := by
  obtain ⟨list, s₁, first, made⟩ := ok_of_bind made
  obtain ⟨_, s₂, got, made⟩ := ok_of_bind made
  obtain ⟨rfl, rfl⟩ := EStateM.Result.ok.inj got
  obtain ⟨keeps, size, heads⟩ := makeList_heads first
  have split : (s₁.image.heap.splitDotted list).1 =
      items ++ (s₁.image.heap.spineFrom s.image.heap.cells.size [] tail).1 := by
    rw [Heap.splitDotted, size, Nat.add_comm, heads.spineFrom_eq, Heap.spineFrom_seen]
    simp
  cases made
  refine ⟨keeps.trans (Heap.keeps_allocVector _ _), s₁.image.heap.vectors.size,
    (s₁.image.heap.spineFrom s.image.heap.cells.size [] tail).1, rfl, ?_, ?_, fun ends => ?_⟩
  · exact (Array.size_push _).symm ▸ Nat.lt_succ_self _
  · rw [← split]
    exact Heap.allocVector_vector _ _
  · rw [Heap.spineFrom_eq (.done ends) (Nat.zero_le _)]
    rfl

end Steps

section Data

variable {features : List String} {s s' : ReadState} {data : List Value}

/-- Where the data that were written stand in what was read. -/
def Judgment.Holds (heap : Heap) (data : List Value) : Judgment → Prop
  | item value? => ∀ d ∈ data, ∃ v ∈ value?, heap.Within d v
  | datum v => ∀ d ∈ data, heap.Within d v
  | elements seen items tail behind =>
      (∀ v ∈ seen, v ∈ items) ∧ (∀ d ∈ data, ∃ v ∈ items, heap.Within d v) ∧
        ∀ d ∈ behind, heap.Within d tail
  | all forms => ∀ d ∈ data, ∃ v ∈ forms, heap.Within d v

theorem Reads.holds {judgment : Judgment} (reads : Reads features judgment s data s') :
    s.image.heap.Keeps s'.image.heap ∧ judgment.Holds s'.image.heap data := by
  induction reads with
  | @atom s s' rest a v found made =>
      refine ⟨a.make_adds (s.withRest rest) _ _ made, fun d member => ⟨v, rfl, ?_⟩⟩
      obtain rfl := List.mem_singleton.mp member
      exact .refl
  | marked found _ made datum =>
      obtain ⟨keeps, holds⟩ := datum
      obtain ⟨operator, keeps', heads⟩ := wrapIn_heads made
      refine ⟨keeps.trans keeps', fun d member => ⟨_, rfl, ?_⟩⟩
      obtain rfl | member := List.mem_cons.mp member
      · exact .refl
      · exact ((holds d member).kept keeps').trans (heads.item_within _ (by simp))
  | list opens _ made elements =>
      obtain ⟨keeps, -, inside, behind⟩ := elements
      obtain ⟨keeps', -, heads⟩ := makeList_heads made
      refine ⟨keeps.trans keeps', fun d member => ⟨_, rfl, ?_⟩⟩
      obtain rfl | member := List.mem_cons.mp member
      · exact .refl
      · obtain member | member := List.mem_append.mp member
        · obtain ⟨v, item, within⟩ := inside d member
          exact (within.kept keeps').trans (heads.item_within v item)
        · exact ((behind d member).kept keeps').trans heads.tail_within
  | vector opens _ made elements =>
      obtain ⟨keeps, -, inside, -⟩ := elements
      obtain ⟨keeps', a, more, rfl, bound, items, -⟩ := makeVector_elements made
      refine ⟨keeps.trans keeps', fun d member => ⟨_, rfl, ?_⟩⟩
      obtain rfl | member := List.mem_cons.mp member
      · exact .refl
      · obtain ⟨v, item, within⟩ := inside d member
        exact (within.kept keeps').tail (.item bound (by simp [items, item]))
  | comment opens closes => exact ⟨.refl _, fun _ member => absurd member List.not_mem_nil⟩
  | kept guard _ holds _ tested form =>
      exact ⟨tested.1.trans form.1, fun d member => ⟨_, rfl, form.2 d member⟩⟩
  | excluded guard _ fails _ tested form =>
      exact ⟨tested.1.trans form.1, fun _ member => absurd member List.not_mem_nil⟩
  | here _ item =>
      refine ⟨item.1, fun d member => ?_⟩
      obtain ⟨v, same, within⟩ := item.2 d member
      cases same
      exact within
  | later _ _ gap next => exact ⟨gap.1.trans next.1, next.2⟩
  | close closes =>
      exact ⟨.refl _, fun v member => List.mem_reverse.mpr member, by simp, by simp⟩
  | point point lone some_ _ closes datum =>
      exact ⟨datum.1, fun v member => List.mem_reverse.mpr member, by simp, datum.2⟩
  | element notPoint _ _ item next =>
      obtain ⟨keeps, seen, inside, behind⟩ := next
      refine ⟨item.1.trans keeps, fun v member => seen v (List.mem_cons_of_mem _ member),
        fun d member => ?_, behind⟩
      obtain member | member := List.mem_append.mp member
      · obtain ⟨v, same, within⟩ := item.2 d member
        cases same
        exact ⟨_, seen _ List.mem_cons_self, within.kept keeps⟩
      · exact inside d member
  | gap notPoint _ _ gap next => exact ⟨gap.1.trans next.1, next.2⟩
  | done ends => exact ⟨.refl _, fun _ member => absurd member List.not_mem_nil⟩
  | form _ _ item next =>
      obtain ⟨keeps, inside⟩ := next
      refine ⟨item.1.trans keeps, fun d member => ?_⟩
      obtain member | member := List.mem_append.mp member
      · obtain ⟨v, same, within⟩ := item.2 d member
        cases same
        exact ⟨_, List.mem_cons_self, within.kept keeps⟩
      · obtain ⟨v, later, within⟩ := inside d member
        exact ⟨v, List.mem_cons_of_mem _ later, within⟩
  | nothing _ _ gap next => exact ⟨gap.1.trans next.1, next.2⟩

/-- So many data one after another. -/
inductive ReadsEach (features : List String) : ReadState → List Value → ReadState → Prop where
  | none (s : ReadState) : ReadsEach features s [] s
  | one {s s₁ s' : ReadState} {d : Value} {ds : List Value}
      (first : datum features s = .ok d s₁) (rest : ReadsEach features s₁ ds s') :
      ReadsEach features s (d :: ds) s'

/-- A lone point is not an item. -/
theorem Reads.not_point {value? : Option Value} (reads : Reads features (.item value?) s data s') :
    atLonePoint s.rest = false := by
  by_contra lone
  obtain ⟨rest, shape⟩ := atLonePoint_cons (by simpa using lone)
  rw [shape] at lone
  have ends := (atLonePoint_iff rest).mp (by simpa using lone)
  cases reads with
  | atom found made =>
      rw [shape, atom?_point ends] at found
      cases found
      cases made
  | marked found | list found | vector found | comment found | kept found | excluded found =>
      rw [shape] at found
      cases found

/-- A datum is the next element of a list. -/
theorem Reads.element_of_datum {judgment : Judgment} {v tail : Value} {s₁ : ReadState}
    {seen items behind more : List Value}
    (first : Reads features judgment s data s₁) (datum : judgment = .datum v)
    (next : Reads features (.elements (v :: seen) items tail behind) s₁ more s') :
    Reads features (.elements seen items tail behind) s (data ++ more) s' := by
  induction first with
  | here item =>
      cases datum
      exact .element item.not_point item next
  | later gap _ _ ih => exact .gap gap.not_point gap (ih datum next)
  | _ => cases datum

theorem ReadsEach.elements {ds : List Value} {s₁ : ReadState} {rest : List Char}
    (each : ReadsEach features s ds s₁) (closes : skipBlanks s₁.rest = ')' :: rest)
    (seen : List Value) :
    ∃ data, Reads features (.elements seen (seen.reverse ++ ds) .nil []) s data
      (s₁.withRest rest) := by
  induction each generalizing seen with
  | none s =>
      rw [List.append_nil]
      exact ⟨_, .close closes⟩
  | @one s _ _ d ds first _ ih =>
      obtain ⟨more, next⟩ := ih closes (d :: seen)
      obtain ⟨data, first⟩ := Reads.of_datum first
      rw [List.reverse_cons, List.append_assoc] at next
      exact ⟨_, first.element_of_datum rfl next⟩

/-- No datum that is read is lost, apart from those in feature expressions, in excluded forms and
after the point of a vector: each stands in one of the data of the text. A vector of so many data
has just these as its elements. -/
theorem readAll_keeps_written {text : List Char} {image : Image} {forms : List Value}
    (readable : readAll features ⟨text, image⟩ = .ok forms s') :
    (∃ data, Reads features (.all forms) ⟨text, image⟩ data s') ∧
      (∀ data, Reads features (.all forms) ⟨text, image⟩ data s' →
        ∀ d ∈ data, ∃ form ∈ forms, s'.image.heap.Within d form) ∧
      ∀ inside before ds s₁ rest, ReadsEach features ⟨inside, before⟩ ds s₁ →
        skipBlanks s₁.rest = ')' :: rest →
        ∃ a later, item features ⟨'#' :: '(' :: inside, before⟩ =
            .ok (some (.vector a)) ⟨rest, later⟩ ∧
          later.heap.vector a = ds.toArray := by
  refine ⟨Reads.of_readAll readable, fun data reads => reads.holds.2, ?_⟩
  intro inside before ds s₁ rest each closes
  obtain ⟨data, elements⟩ := each.elements closes []
  obtain ⟨v, s₂, made⟩ : ∃ v s₂, makeVector ds .nil (s₁.withRest rest) = .ok v s₂ := ⟨_, _, rfl⟩
  obtain ⟨-, a, more, rfl, -, items, nothing⟩ := makeVector_elements made
  obtain rfl := nothing rfl
  rw [List.append_nil] at items
  obtain ⟨left, -⟩ := (makeVector_apart ds .nil).ok made
  have vector : Reads features (.item (some (.vector a))) ⟨'#' :: '(' :: inside, before⟩
      (.vector a :: data) s₂ := .vector rfl elements made
  exact ⟨a, s₂.image, vector.sound.trans
    (congrArg (fun text => EStateM.Result.ok _ (ReadState.mk text s₂.image)) left), items⟩

/-- A list is read together with the characters in it. -/
theorem readAll_keeps_written_list :
    ∃ forms s', readAll [] ⟨"(#\\a #(#\\b))".toList, Image.initial 0⟩ = .ok forms s' ∧
      (∃ data, Reads [] (.all forms) ⟨"(#\\a #(#\\b))".toList, Image.initial 0⟩ data s') ∧
      (∀ data, Reads [] (.all forms) ⟨"(#\\a #(#\\b))".toList, Image.initial 0⟩ data s' →
        ∀ d ∈ data, ∃ form ∈ forms, s'.image.heap.Within d form) ∧
      ∀ inside before ds s₁ rest, ReadsEach [] ⟨inside, before⟩ ds s₁ →
        skipBlanks s₁.rest = ')' :: rest →
        ∃ a later, item [] ⟨'#' :: '(' :: inside, before⟩ = .ok (some (.vector a)) ⟨rest, later⟩ ∧
          later.heap.vector a = ds.toArray := by
  have succeeds :
      failure? (readAll [] ⟨"(#\\a #(#\\b))".toList, Image.initial 0⟩) = none := by
    decide +kernel
  obtain ⟨forms, s', readable⟩ := ok_of_failure? succeeds
  exact ⟨forms, s', readable, readAll_keeps_written readable⟩

/-- The elements of the only vector that is read, if they are characters. -/
def charactersOfVector? : EStateM.Result ReadError ReadState (List Value) → Option (List Char)
  | .ok [.vector a] s => (s.image.heap.vector a).toList.mapM fun
      | .character c => some c
      | _ => none
  | _ => none

/-- What follows the point of a vector is lost, if it is not a list. -/
theorem readAll_dotted_vector :
    charactersOfVector? (readAll [] ⟨"#(#\\a . #\\b)".toList, Image.initial 0⟩) = some ['a'] := by
  decide +kernel

end Data

end Reader

end LispScript
