import LispScript.Proofs.Isolation
import LispScript.Proofs.MacroLists

/-!
What a macro lambda list is lowered to. Each sublist becomes a fresh parameter, and the body becomes a
form that spreads the value of that parameter over the variables of the sublist.
-/

namespace LispScript.Compiler

open Script

section Assembly

variable {s s' t u : CompileState}

/-- The compiler has made conses and symbols, and changed nothing that was there. -/
structure Assembles (s t : CompileState) : Prop where
  rest : ∃ heap symbols, t = { s with image := { s.image with heap, symbols } }
  heap : s.image.heap.Keeps t.image.heap
  symbols : s.image.symbols.OnlyGains t.image.symbols

theorem Assembles.refl (s : CompileState) : Assembles s s := ⟨⟨_, _, rfl⟩, .refl _, .refl _⟩

theorem Assembles.trans (first : Assembles s t) (second : Assembles t u) : Assembles s u := by
  obtain ⟨⟨_, _, rfl⟩, heap, symbols⟩ := first
  obtain ⟨⟨_, _, rfl⟩, heap', symbols'⟩ := second
  exact ⟨⟨_, _, rfl⟩, heap.trans heap', symbols.trans symbols'⟩

theorem newListWithTail_ok {items : List Value} {tail value : Value}
    (ok : newListWithTail items tail s = .ok value t) :
    Assembles s t ∧ t.image.heap.Heads value items tail := by
  cases ok
  obtain ⟨keeps, -, heads⟩ := s.image.heap.heads_allocListWithTail items tail
  exact ⟨⟨⟨_, _, rfl⟩, keeps, .refl _⟩, heads⟩

theorem newList_ok {items : List Value} {value : Value} (ok : newList items s = .ok value t) :
    Assembles s t ∧ t.image.heap.Spine value items .nil := by
  obtain ⟨assembles, heads⟩ :=
    newListWithTail_ok (show newListWithTail items .nil s = .ok value t from ok)
  exact ⟨assembles, heads.spine rfl⟩

/-- A symbol that was made for a parameter since the table had so many symbols. -/
structure IsNew (count : Nat) (table : SymbolTable) (id : SymbolId) : Prop where
  new : count ≤ id.index
  known : table.HasSymbol id
  uninterned : (table.symbol id).home = none

theorem IsNew.gains {count : Nat} {table later : SymbolTable} {id : SymbolId}
    (isNew : IsNew count table id) (gains : table.OnlyGains later) : IsNew count later id where
  new := isNew.new
  known := Nat.lt_of_lt_of_le isNew.known gains.count
  uninterned := by rw [gains.symbol id isNew.known, isNew.uninterned]

theorem IsNew.fewer {count more : Nat} {table : SymbolTable} {id : SymbolId}
    (isNew : IsNew more table id) (fewer : count ≤ more) : IsNew count table id :=
  ⟨Nat.le_trans fewer isNew.new, isNew.known, isNew.uninterned⟩

theorem gensym_ok {stem : String} {id : SymbolId} (ok : onSymbols (·.gensym stem) s = .ok id t) :
    Assembles s t ∧ IsNew s.image.symbols.symbolCount t.image.symbols id := by
  cases ok
  have size : (s.image.symbols.gensym stem).2.symbolCount = s.image.symbols.symbolCount + 1 :=
    Array.size_push ..
  have made : (s.image.symbols.gensym stem).2.symbol ⟨s.image.symbols.symbols.size⟩ =
      { name := stem ++ toString (s.image.symbols.generated + 1), home := none } := by
    simp [SymbolTable.symbol, SymbolTable.gensym, SymbolTable.makeSymbol]
  refine ⟨⟨⟨_, _, rfl⟩, .refl _, ?_, fun other has => ?_, rfl, fun _ => rfl⟩, ⟨Nat.le_refl _, ?_, ?_⟩⟩
  · exact size ▸ Nat.le_succ _
  · change (s.image.symbols.symbols.push _).getD other.index default = _
    rw [Discipline.getD_push, if_neg (Nat.ne_of_lt has)]
    rfl
  · exact Nat.lt_of_lt_of_eq (Nat.lt_succ_self _) size.symm
  · exact congrArg Symbol.home made

end Assembly

section Sorting

variable {s t : CompileState} {list tail : Value} {heap : Heap} {α : Type}
  {Reads : List Value → α → Prop} {items flat : List Value} {pattern : Pattern α}

/-- Parameters have taken the places of the sublists. -/
inductive Sorted : List Value → List Value → List (SymbolId × Value) → Prop where
  | others {items : List Value} (others : AreOthers items) : Sorted items items []
  | variable_ {item : Value} {var : SymbolId} {items flat : List Value}
      {params : List (SymbolId × Value)} (isVar : IsVariable item var) (rest : Sorted items flat params) :
      Sorted (item :: items) (item :: flat) params
  | sublist {item : Value} {items flat : List Value} {params : List (SymbolId × Value)}
      (param : SymbolId) (isCons : item.isCons = true) (rest : Sorted items flat params) :
      Sorted (item :: items) (.symbol param :: flat) ((param, item) :: params)

theorem sortItems_plain {first required : Bool} {sorted : MacroItems} {item : Value}
    (plain : IsPlain item) (kept : (required && item.isCons) = false) (items : List Value) :
    sortItems list first required sorted (item :: items) =
      sortItems list false required { sorted with flat := sorted.flat ++ [item] } items := by
  conv_lhs => unfold sortItems
  simp only [show item.asSymbol?.filter (·.isLambdaKeyword) = none from plain, kept]
  rfl

theorem sortItems_marker {first required : Bool} {sorted : MacroItems} {id : SymbolId}
    (marker : id.isLambdaKeyword = true) (notWhole : id ≠ SymbolId.ampWhole)
    (notEnvironment : id ≠ SymbolId.ampEnvironment) (items : List Value) :
    sortItems list first required sorted (.symbol id :: items) =
      sortItems list false false { sorted with flat := sorted.flat ++ [.symbol id] } items := by
  have found : (Value.symbol id).asSymbol?.filter (·.isLambdaKeyword) = some id := by
    simp [Value.asSymbol?, marker]
  conv_lhs => unfold sortItems
  simp only [found, if_neg notWhole, if_neg notEnvironment]

theorem sortItems_sublist {first : Bool} {sorted : MacroItems} {item : Value}
    (isCons : item.isCons = true) (items : List Value) :
    sortItems list first true sorted (item :: items) = onSymbols (·.gensym "ARG") >>= fun param =>
      sortItems list false true { sorted with
        flat := sorted.flat ++ [.symbol param]
        destructured := sorted.destructured ++ [(param, item)] } items := by
  obtain ⟨a, rfl⟩ : ∃ a, item = .cons a := by cases item <;> first | exact ⟨_, rfl⟩ | cases isCons
  conv_lhs => unfold sortItems
  rfl

theorem sortItems_whole {sorted : MacroItems} (var : SymbolId) (items : List Value) :
    sortItems list true true sorted (.symbol SymbolId.ampWhole :: .symbol var :: items) =
      sortItems list false true { sorted with whole := some var } items := by
  conv_lhs => unfold sortItems
  rfl

/-- What stands behind the required parameters stays as it is. -/
theorem sortItems_others {first required : Bool} {sorted : MacroItems}
    (behind : required = true → ∀ item ∈ items.head?, ¬ IsPlain item)
    (ordinary : ∀ item ∈ items, item ≠ .symbol SymbolId.ampWhole ∧
      item ≠ .symbol SymbolId.ampEnvironment) :
    sortItems list first required sorted items =
      pure { sorted with flat := sorted.flat ++ items } := by
  induction items generalizing first required sorted with
  | nil =>
      rw [sortItems, List.append_nil]
  | cons item items ih =>
      have onward : sortItems list false false { sorted with flat := sorted.flat ++ [item] } items =
          pure { sorted with flat := sorted.flat ++ [item] ++ items } :=
        ih (by simp) fun other member => ordinary other (List.mem_cons_of_mem _ member)
      rw [List.append_assoc] at onward
      rcases isPlain_or_marker item with plain | ⟨id, rfl, marker⟩
      · have passed : required = false := by
          cases required with
          | false => rfl
          | true => exact absurd plain (behind rfl item rfl)
        subst passed
        rw [sortItems_plain plain (Bool.false_and _)]
        exact onward
      · obtain ⟨notWhole, notEnvironment⟩ := ordinary _ List.mem_cons_self
        rw [sortItems_marker marker (fun same => notWhole (congrArg _ same))
          (fun same => notEnvironment (congrArg _ same))]
        exact onward

/-- The items of a macro lambda list are sorted. -/
theorem sortItems_ok {first : Bool} {sorted result : MacroItems}
    (isPattern : IsPattern heap Reads items tail pattern)
    (ok : sortItems list first true sorted items s = .ok result t) :
    ∃ flat params, Sorted items flat params ∧ result = { sorted with
        flat := sorted.flat ++ flat, destructured := sorted.destructured ++ params } ∧
      Assembles s t ∧ (params.map Prod.fst).Nodup ∧
      ∀ id ∈ params.map Prod.fst, IsNew s.image.symbols.symbolCount t.image.symbols id := by
  induction isPattern generalizing first sorted s with
  | others others =>
      rw [sortItems_others (fun _ => others.opened) others.ordinary] at ok
      cases ok
      exact ⟨_, [], .others others, by simp, .refl _, by simp, by simp⟩
  | variable_ isVar _ ih =>
      rw [sortItems_plain isVar.isPlain (by rw [isVar.item_eq]; rfl)] at ok
      obtain ⟨flat, params, isSorted, rfl, assembles, distinct, new⟩ := ih ok
      exact ⟨_, params, .variable_ isVar isSorted, by simp, assembles, distinct, new⟩
  | @sublist item _ _ _ _ items _ _ _ _ isCons _ _ _ _ _ ih =>
      rw [sortItems_sublist isCons] at ok
      obtain ⟨param, s₁, made, ok⟩ := ok_of_bind ok
      obtain ⟨assembles, isNew⟩ := gensym_ok made
      obtain ⟨flat, params, isSorted, rfl, assembles', distinct, new⟩ := ih ok
      refine ⟨_, (param, item) :: params, .sublist param isCons isSorted, by simp,
        assembles.trans assembles', List.nodup_cons.mpr ⟨fun member => ?_, distinct⟩, ?_⟩
      · exact Nat.lt_irrefl _ (Nat.lt_of_lt_of_le isNew.known (new param member).new)
      · intro id member
        rcases List.mem_cons.mp member with rfl | member
        · exact isNew.gains assembles'.symbols
        · exact (new id member).fewer assembles.symbols.count

end Sorting

section Lowering

variable {s t : CompileState} {heap later : Heap}

namespace Pattern

/-- The items of the ordinary lambda list in which parameters stand for the sublists. -/
def items : Pattern (List Value) → List Value
  | others items => items
  | variable_ var rest => .symbol var :: rest.items
  | sublist param _ _ rest => .symbol param :: rest.items

end Pattern

/-- `(APPLY (FUNCTION (LAMBDA list . forms)) param)` -/
def IsSpread (heap : Heap) (list : Value) (forms : List Value) (param : SymbolId) (form : Value) :
    Prop :=
  ∃ function lambda, heap.Spine form [.symbol SymbolId.apply, function, .ofSymbol param] .nil ∧
    heap.Spine function [.symbol SymbolId.function, lambda] .nil ∧
    heap.Spine lambda (.symbol SymbolId.lambda :: list :: forms) .nil

/-- `(LET ((var param)) inner)`, or the inner form where there is no variable for the whole. -/
inductive BindsWhole (heap : Heap) (param : SymbolId) (inner : Value) :
    Option SymbolId → Value → Prop where
  | none : BindsWhole heap param inner none inner
  | some {var : SymbolId} {form bindings binding : Value}
      (form_ : heap.Spine form [.symbol SpecialForm.bind.symbol, bindings, inner] .nil)
      (bindings_ : heap.Spine bindings [binding] .nil)
      (binding_ : heap.Spine binding [.ofSymbol var, .ofSymbol param] .nil) :
      BindsWhole heap param inner (some var) form

/-- The forms into which a body becomes when the parameters that stand for sublists are spread over
the variables of these: those of the first sublist around those of the sublists in it, and these around
those of the sublists after it. -/
inductive Spreads (heap : Heap) : Pattern (List Value) → List Value → List Value → Prop where
  | others (items body : List Value) : Spreads heap (.others items) body body
  | variable_ (var : SymbolId) {pattern : Pattern (List Value)} {body forms : List Value}
      (rest : Spreads heap pattern body forms) : Spreads heap (.variable_ var pattern) body forms
  | sublist {body middle forms : List Value} {whole : Option SymbolId}
      {inner pattern : Pattern (List Value)} {param : SymbolId} {list spread form : Value}
      (rest : Spreads heap pattern body middle) (inside : Spreads heap inner middle forms)
      (items : heap.Spine list inner.items .nil) (isSpread : IsSpread heap list forms param spread)
      (bindsWhole : BindsWhole heap param spread whole form) :
      Spreads heap (.sublist param whole inner pattern) body [form]

theorem IsSpread.kept {list form : Value} {forms : List Value} {param : SymbolId}
    (isSpread : IsSpread heap list forms param form) (keeps : heap.Keeps later) :
    IsSpread later list forms param form := by
  obtain ⟨function, lambda, form_, function_, lambda_⟩ := isSpread
  exact ⟨function, lambda, form_.kept keeps, function_.kept keeps, lambda_.kept keeps⟩

theorem BindsWhole.kept {inner form : Value} {param : SymbolId} {whole : Option SymbolId}
    (bindsWhole : BindsWhole heap param inner whole form) (keeps : heap.Keeps later) :
    BindsWhole later param inner whole form := by
  cases bindsWhole with
  | none => exact .none
  | some form_ bindings_ binding_ =>
      exact .some (form_.kept keeps) (bindings_.kept keeps) (binding_.kept keeps)

theorem Spreads.kept {pattern : Pattern (List Value)} {body forms : List Value}
    (spreads : Spreads heap pattern body forms) (keeps : heap.Keeps later) :
    Spreads later pattern body forms := by
  induction spreads with
  | others items body => exact .others items body
  | variable_ var _ ih => exact .variable_ var ih
  | sublist _ _ items isSpread bindsWhole rest inside =>
      exact .sublist rest inside (items.kept keeps) (isSpread.kept keeps) (bindsWhole.kept keeps)

theorem spreadForm_ok {lowered : Lowered} {param : SymbolId} {form : Value}
    (ok : spreadForm lowered param s = .ok form t) :
    Assembles s t ∧ IsSpread t.image.heap lowered.list lowered.body param form := by
  obtain ⟨body, s₁, body_, ok⟩ := ok_of_bind ok
  obtain ⟨lambda, s₂, lambda_, ok⟩ := ok_of_bind ok
  obtain ⟨function, s₃, function_, form_⟩ := ok_of_bind ok
  obtain ⟨assembles₁, body_⟩ := newList_ok body_
  obtain ⟨assembles₂, lambda_⟩ := newListWithTail_ok lambda_
  obtain ⟨assembles₃, function_⟩ := newList_ok function_
  obtain ⟨assembles₄, form_⟩ := newList_ok form_
  refine ⟨((assembles₁.trans assembles₂).trans assembles₃).trans assembles₄,
    function, lambda, form_, function_.kept assembles₄.heap, ?_⟩
  exact (lambda_.append (body_.kept assembles₂.heap)).kept (assembles₃.trans assembles₄).heap

theorem letForm_ok {var param : SymbolId} {inner form : Value}
    (ok : letForm var (.ofSymbol param) [inner] s = .ok form t) :
    Assembles s t ∧ BindsWhole t.image.heap param inner (some var) form := by
  obtain ⟨binding, s₁, binding_, ok⟩ := ok_of_bind ok
  obtain ⟨bindings, s₂, bindings_, ok⟩ := ok_of_bind ok
  obtain ⟨body, s₃, body_, form_⟩ := ok_of_bind ok
  obtain ⟨assembles₁, binding_⟩ := newList_ok binding_
  obtain ⟨assembles₂, bindings_⟩ := newList_ok bindings_
  obtain ⟨assembles₃, body_⟩ := newList_ok body_
  obtain ⟨assembles₄, form_⟩ := newListWithTail_ok form_
  have last := assembles₃.trans assembles₄
  exact ⟨(assembles₁.trans assembles₂).trans last, .some (form_.append (body_.kept assembles₄.heap))
    (bindings_.kept last.heap) (binding_.kept (assembles₂.trans last).heap)⟩

theorem spreadBody_ok {lowered : Lowered} {param : SymbolId} {forms : List Value}
    (ok : spreadBody param lowered s = .ok forms t) :
    Assembles s t ∧ ∃ spread form, forms = [form] ∧
      IsSpread t.image.heap lowered.list lowered.body param spread ∧
      BindsWhole t.image.heap param spread lowered.whole form := by
  obtain ⟨spread, s₁, made, ok⟩ := ok_of_bind ok
  obtain ⟨assembles, isSpread⟩ := spreadForm_ok made
  cases whole : lowered.whole with
  | none =>
      rw [whole] at ok
      cases ok
      exact ⟨assembles, spread, spread, rfl, isSpread, .none⟩
  | some var =>
      rw [whole] at ok
      obtain ⟨form, s₂, wrapped, ended⟩ := ok_of_bind ok
      cases ended
      obtain ⟨assembles', bindsWhole⟩ := letForm_ok wrapped
      exact ⟨assembles.trans assembles', spread, form, rfl, isSpread.kept assembles'.heap, bindsWhole⟩

variable {α : Type} {Reads : List Value → α → Prop}

/-- What a macro lambda list and a body are lowered to. -/
structure LowersTo (heap : Heap) (Reads : List Value → α → Prop) (value : Value) (body : List Value)
    (pattern : Pattern α) (s : CompileState) (lowered : Lowered) (t : CompileState)
    (lists : Pattern (List Value)) : Prop where
  assembles : Assembles s t
  isMacroList : IsMacroList heap Eq value lowered.whole lists
  along : lists.Along Reads pattern
  items : t.image.heap.Spine lowered.list lists.items .nil
  spreads : Spreads t.image.heap lists body lowered.body
  distinct : lists.params.Nodup
  new : ∀ id ∈ lists.params, IsNew s.image.symbols.symbolCount t.image.symbols id

/-- What follows for lists that nest less deep. -/
def LowersWithin (heap : Heap) (Reads : List Value → α → Prop) (depth : Nat) : Prop :=
  ∀ {value body whole pattern s t lowered},
    IsMacroList heap Reads value whole pattern → heap.Keeps s.image.heap →
    lowerWithin depth value body s = .ok lowered t →
    lowered.whole = whole ∧ ∃ lists, LowersTo heap Reads value body pattern s lowered t lists

theorem isPlain_of_isCons {item : Value} (isCons : item.isCons = true) : IsPlain item := by
  cases item <;> first | rfl | cases isCons

/-- The body in which one more sublist is spread. -/
def spreadOver (depth : Nat) (item : SymbolId × Value) (body : List Value) : Compile (List Value) := do
  spreadBody item.1 (← lowerWithin depth item.2 body)

/-- The sublists are spread, the last one innermost. -/
theorem spreadAll_ok {depth : Nat} (within : LowersWithin heap Reads depth)
    {items flat dots : List Value} {tail : Value} {pattern : Pattern α}
    {params : List (SymbolId × Value)} {body forms : List Value}
    (isPattern : IsPattern heap Reads items tail pattern) (dotted : Dots tail dots)
    (isSorted : Sorted items flat params) (keeps : heap.Keeps s.image.heap)
    (distinct : (params.map Prod.fst).Nodup)
    (known : ∀ id ∈ params.map Prod.fst, IsNew 0 s.image.symbols id)
    (ok : params.foldrM (spreadOver depth) body s = .ok forms t) :
    ∃ lists, Assembles s t ∧ IsPattern heap Eq items tail lists ∧ lists.Along Reads pattern ∧
      lists.items = flat ++ dots ∧ Spreads t.image.heap lists body forms ∧ lists.params.Nodup ∧
      ∀ id ∈ lists.params, id ∈ params.map Prod.fst ∨
        IsNew s.image.symbols.symbolCount t.image.symbols id := by
  induction isPattern generalizing flat params forms t with
  | @others items dots' _ known others dotted' reads =>
      obtain rfl : dots' = dots := by cases dotted <;> cases dotted' <;> rfl
      cases isSorted with
      | others =>
          cases ok
          exact ⟨.others (items ++ dots'), .refl _, .others others dotted rfl, .others reads, rfl,
            .others _ _, List.nodup_nil, nofun⟩
      | variable_ isVar rest => exact absurd isVar.isPlain (others.opened _ rfl)
      | sublist param isCons rest => exact absurd (isPlain_of_isCons isCons) (others.opened _ rfl)
  | @variable_ item _ var items _ isVar _ ih =>
      cases isSorted with
      | others others => exact absurd isVar.isPlain (others.opened _ rfl)
      | sublist param isCons rest =>
          rw [isVar.item_eq] at isCons
          cases isCons
      | variable_ _ isSorted =>
          obtain ⟨lists, assembles, isPattern, along, items_eq, spreads, nodup, new⟩ :=
            ih dotted isSorted distinct known ok
          refine ⟨.variable_ var lists, assembles, .variable_ isVar isPattern, .variable_ var along, ?_,
            .variable_ var spreads, nodup, new⟩
          rw [Pattern.items, items_eq, isVar.item_eq]
          rfl
  | @sublist item _ tail' elements required items whole inner _ param₀ isCons spine opens inside rest _
      ih =>
      cases isSorted with
      | others others => exact absurd (isPlain_of_isCons isCons) (others.opened _ rfl)
      | variable_ isVar rest =>
          rw [isVar.item_eq] at isCons
          cases isCons
      | @sublist _ _ flat params param _ isSorted =>
          rw [List.foldrM_cons] at ok
          obtain ⟨middle, s₁, others, ok⟩ := ok_of_bind ok
          obtain ⟨lowered, s₂, lowers, ok⟩ := ok_of_bind ok
          obtain ⟨new, distinct⟩ := List.nodup_cons.mp distinct
          obtain ⟨lists, assembles₁, isPattern, along, items_eq, spreads, nodup, newest⟩ :=
            ih dotted isSorted distinct (fun id member => known id (List.mem_cons_of_mem _ member))
              others
          obtain ⟨rfl, listsInside, lowersTo⟩ :=
            within ⟨_, _, _, spine, opens, inside⟩ (keeps.trans assembles₁.heap) lowers
          obtain ⟨assembles₃, spread, form, rfl, isSpread, bindsWhole⟩ := spreadBody_ok ok
          have assembles₂ := lowersTo.assembles
          refine ⟨.sublist param lowered.whole listsInside lists,
            (assembles₁.trans assembles₂).trans assembles₃, ?_, ?_, ?_, ?_, ?_, ?_⟩
          · obtain ⟨_, _, _, spine', opens', isPatternInside⟩ := lowersTo.isMacroList
            exact .sublist param isCons spine' opens' isPatternInside isPattern
          · exact .sublist _ _ _ lowersTo.along along
          · exact congrArg (Value.symbol param :: ·) items_eq
          · exact .sublist (spreads.kept (assembles₂.trans assembles₃).heap)
              (lowersTo.spreads.kept assembles₃.heap) (lowersTo.items.kept assembles₃.heap) isSpread
              bindsWhole
          · -- Those of the sublists after it are older than those of the sublists in it.
            have older : ∀ id ∈ param :: lists.params, id.index < s₁.image.symbols.symbolCount := by
              intro id member
              rcases List.mem_cons.mp member with rfl | member
              · exact Nat.lt_of_lt_of_le (known _ List.mem_cons_self).known assembles₁.symbols.count
              · rcases newest id member with member | isNew
                · exact Nat.lt_of_lt_of_le (known id (List.mem_cons_of_mem _ member)).known
                    assembles₁.symbols.count
                · exact isNew.known
            have apart : ∀ id ∈ listsInside.params, id ∉ param :: lists.params := fun id member also =>
              Nat.not_le_of_lt (older id also) (lowersTo.new id member).new
            have first : param ∉ lists.params := fun member => (newest param member).elim new
              fun isNew => Nat.not_le_of_lt (known param List.mem_cons_self).known isNew.new
            refine List.nodup_cons.mpr ⟨fun member => ?_, lowersTo.distinct.append nodup ?_⟩
            · exact (List.mem_append.mp member).elim (fun inside => apart _ inside List.mem_cons_self) first
            · exact fun id member also => apart id member (List.mem_cons_of_mem _ also)
          · intro id member
            rcases List.mem_cons.mp member with rfl | member
            · exact .inl List.mem_cons_self
            rcases List.mem_append.mp member with member | member
            · exact .inr (((lowersTo.new id member).fewer assembles₁.symbols.count).gains
                assembles₃.symbols)
            · exact (newest id member).imp (List.mem_cons_of_mem _)
                (·.gains (assembles₂.trans assembles₃).symbols)

theorem tailItems_ok {list tail : Value} {dots : List Value} (dotted : Dots tail dots) :
    tailItems list tail = pure dots := by
  cases dotted <;> rfl

theorem IsPattern.dotted {items : List Value} {tail : Value} {pattern : Pattern α}
    (isPattern : IsPattern heap Reads items tail pattern) : ∃ dots, Dots tail dots := by
  induction isPattern with
  | others _ dotted => exact ⟨_, dotted⟩
  | variable_ _ _ ih => exact ih
  | sublist _ _ _ _ _ _ _ ih => exact ih

theorem sortItems_opens {whole : Option SymbolId} {elements required : List Value}
    (opens : Opens whole elements required) (list : Value) (sorted : MacroItems) :
    ∃ first, sortItems list true true sorted elements =
      sortItems list first true { sorted with whole := whole.or sorted.whole } required := by
  cases opens with
  | absent => exact ⟨true, rfl⟩
  | present isVar items =>
      obtain ⟨rfl, -⟩ := isVar
      exact ⟨false, sortItems_whole _ _⟩

/-- A macro lambda list is lowered to an ordinary one, and the body to forms that spread the values of
the parameters that stand for sublists. -/
theorem lowerWithin_ok (heap : Heap) (Reads : List Value → α → Prop) (depth : Nat) :
    LowersWithin heap Reads depth := by
  induction depth with
  | zero =>
      intro value body whole pattern s t lowered isMacroList keeps ok
      cases ok
  | succ depth within =>
      intro value body whole pattern s t lowered isMacroList keeps ok
      obtain ⟨elements, required, tail, spine, opens, isPattern⟩ := isMacroList
      rw [lowerWithin] at ok
      have split := (spine.kept keeps).splitDotted
      obtain ⟨heap', s', same, ok⟩ := ok_of_bind ok
      cases same
      rw [split] at ok
      dsimp only at ok
      obtain ⟨sorted, s₁, sorts, ok⟩ := ok_of_bind ok
      obtain ⟨first, opened⟩ := sortItems_opens opens value {}
      rw [opened] at sorts
      obtain ⟨flat, params, isSorted, rfl, assembles₁, distinct, new⟩ := sortItems_ok isPattern sorts
      obtain ⟨dots, dotted⟩ := isPattern.dotted
      rw [tailItems_ok dotted, pure_bind] at ok
      have ok : (params.foldrM (spreadOver depth) body >>= fun body => newList (flat ++ dots) >>=
          fun list => pure { list, body, whole := whole.or none } : Compile Lowered) s₁ =
            .ok lowered t := ok
      obtain ⟨forms, s₂, spread, ok⟩ := ok_of_bind ok
      obtain ⟨list, s₃, made, ended⟩ := ok_of_bind ok
      cases ended
      obtain ⟨lists, assembles₂, isPattern, along, items_eq, spreads, nodup, newest⟩ :=
        spreadAll_ok within isPattern dotted isSorted (keeps.trans assembles₁.heap) distinct
          (fun id member => (new id member).fewer (Nat.zero_le _)) spread
      obtain ⟨assembles₃, items⟩ := newList_ok made
      refine ⟨Option.or_none, lists, ⟨(assembles₁.trans assembles₂).trans assembles₃, ?_, along,
        items_eq ▸ items, spreads.kept assembles₃.heap, nodup, fun id member => ?_⟩⟩
      · rw [Option.or_none]
        exact ⟨elements, required, tail, spine, opens, isPattern⟩
      · rcases newest id member with member | isNew
        · exact (new id member).gains (assembles₂.trans assembles₃).symbols
        · exact (isNew.fewer assembles₁.symbols.count).gains assembles₃.symbols

end Lowering

end LispScript.Compiler
