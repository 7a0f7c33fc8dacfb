import LispScript.Proofs.ReadingSteps

/-!
What reading means, as rules without fuel: an item is an atom, a marked datum, a list, a vector, a
block comment or a guarded datum, and data, list elements and whole texts are sequences of items with
blanks before them. Beside its value each rule tells the data that were written in the text that was
read, apart from feature expressions, from what a guard excludes and from the tail of a dotted vector.
The rules describe just the readings that succeed.
-/

namespace LispScript

namespace Reader

section Rules

/-- What is read: an item, a datum that must be there, the elements of a list and its tail after the
elements in `seen`, which stand in reverse, or all data of a text. `behind` are the data that were
written in the tail. -/
inductive Judgment where
  | item (value : Option Value)
  | datum (value : Value)
  | elements (seen items : List Value) (tail : Value) (behind : List Value)
  | all (forms : List Value)

/-- The rules of reading. The list of values holds the data that were written in what was read. -/
inductive Reads (features : List String) :
    Judgment → ReadState → List Value → ReadState → Prop where
  | atom {s s' : ReadState} {rest : List Char} {a : Atom} {v : Value}
      (found : atom? s.rest = some (a, rest)) (made : a.make (s.withRest rest) = .ok v s') :
      Reads features (.item (some v)) s [v] s'
  | marked {s s₁ s' : ReadState} {rest : List Char} {operator : String} {v whole : Value}
      {data : List Value} (found : mark? s.rest = some (operator, rest))
      (datum : Reads features (.datum v) (s.withRest rest) data s₁)
      (made : wrapIn operator v s₁ = .ok whole s') :
      Reads features (.item (some whole)) s (whole :: data) s'
  | list {s s₁ s' : ReadState} {rest : List Char} {items data behind : List Value} {tail v : Value}
      (opens : s.rest = '(' :: rest)
      (elements : Reads features (.elements [] items tail behind) (s.withRest rest) data s₁)
      (made : onHeap (·.allocListWithTail items tail) s₁ = .ok v s') :
      Reads features (.item (some v)) s (v :: (data ++ behind)) s'
  | vector {s s₁ s' : ReadState} {rest : List Char} {items data behind : List Value}
      {tail v : Value} (opens : s.rest = '#' :: '(' :: rest)
      (elements : Reads features (.elements [] items tail behind) (s.withRest rest) data s₁)
      (made : makeVector items tail s₁ = .ok v s') :
      Reads features (.item (some v)) s (v :: data) s'
  | comment {s : ReadState} {rest after : List Char} (opens : s.rest = '#' :: '|' :: rest)
      (closes : skipBlockComment 0 rest = some after) :
      Reads features (.item none) s [] (s.withRest after)
  | kept {s s₁ s' : ReadState} {rest : List Char} {wanted : Bool} {expression v : Value}
      {unused data : List Value} (guard : guard? s.rest = some (wanted, rest))
      (tested : Reads features (.datum expression)
        ((s.withRest rest).withCurrent PackageId.keyword) unused s₁)
      (holds : featureHolds features (s₁.withCurrent s.image.symbols.current).image
        s₁.image.heap.size expression = wanted)
      (form : Reads features (.datum v) (s₁.withCurrent s.image.symbols.current) data s') :
      Reads features (.item (some v)) s data s'
  | excluded {s s₁ s' : ReadState} {rest : List Char} {wanted : Bool} {expression v : Value}
      {unused data : List Value} (guard : guard? s.rest = some (wanted, rest))
      (tested : Reads features (.datum expression)
        ((s.withRest rest).withCurrent PackageId.keyword) unused s₁)
      (fails : featureHolds features (s₁.withCurrent s.image.symbols.current).image
        s₁.image.heap.size expression ≠ wanted)
      (form : Reads features (.datum v) (s₁.withCurrent s.image.symbols.current) data s') :
      Reads features (.item none) s [] s'
  | here {s s' : ReadState} {v : Value} {data : List Value}
      (item : Reads features (.item (some v)) (pastBlanks s) data s') :
      Reads features (.datum v) s data s'
  | later {s s₁ s' : ReadState} {v : Value} {data : List Value}
      (gap : Reads features (.item none) (pastBlanks s) [] s₁)
      (next : Reads features (.datum v) s₁ data s') : Reads features (.datum v) s data s'
  | close {s : ReadState} {rest : List Char} {seen : List Value}
      (closes : skipBlanks s.rest = ')' :: rest) :
      Reads features (.elements seen seen.reverse .nil []) s [] (s.withRest rest)
  | point {s s₁ : ReadState} {rest after : List Char} {seen behind : List Value} {tail : Value}
      (point : skipBlanks s.rest = '.' :: rest) (lone : atLonePoint ('.' :: rest) = true)
      (some_ : seen ≠ []) (datum : Reads features (.datum tail) (s.withRest rest) behind s₁)
      (closes : skipBlanks s₁.rest = ')' :: after) :
      Reads features (.elements seen seen.reverse tail behind) s [] (s₁.withRest after)
  | element {s s₁ s' : ReadState} {v tail : Value} {seen items behind data more : List Value}
      (notPoint : atLonePoint (skipBlanks s.rest) = false)
      (item : Reads features (.item (some v)) (pastBlanks s) data s₁)
      (next : Reads features (.elements (v :: seen) items tail behind) s₁ more s') :
      Reads features (.elements seen items tail behind) s (data ++ more) s'
  | gap {s s₁ s' : ReadState} {tail : Value} {seen items behind data : List Value}
      (notPoint : atLonePoint (skipBlanks s.rest) = false)
      (gap : Reads features (.item none) (pastBlanks s) [] s₁)
      (next : Reads features (.elements seen items tail behind) s₁ data s') :
      Reads features (.elements seen items tail behind) s data s'
  | done {s : ReadState} (ends : skipBlanks s.rest = []) :
      Reads features (.all []) s [] (pastBlanks s)
  | form {s s₁ s' : ReadState} {v : Value} {forms data more : List Value}
      (item : Reads features (.item (some v)) (pastBlanks s) data s₁)
      (next : Reads features (.all forms) s₁ more s') :
      Reads features (.all (v :: forms)) s (data ++ more) s'
  | nothing {s s₁ s' : ReadState} {forms data : List Value}
      (gap : Reads features (.item none) (pastBlanks s) [] s₁)
      (next : Reads features (.all forms) s₁ data s') : Reads features (.all forms) s data s'

end Rules

section Complete

variable {features : List String} {fuel : Nat} {s s' : ReadState} {rest : List Char}

/-- Readings within so many steps go by the rules. -/
structure Ruled (features : List String) (fuel : Nat) : Prop where
  item : ∀ s value? s', IsReady s.rest → readItem features fuel s = .ok value? s' →
    ∃ data, Reads features (.item value?) s data s'
  dispatch : ∀ s value? s', readDispatch features fuel s = .ok value? s' →
    ∃ data, Reads features (.item value?) (s.withRest ('#' :: s.rest)) data s'
  guarded : ∀ s wanted rest value? s', guard? rest = some (wanted, s.rest) →
    readGuarded features fuel wanted s = .ok value? s' →
    ∃ data, Reads features (.item value?) (s.withRest rest) data s'
  elements : ∀ seen s items tail s', readElements features fuel seen s = .ok (items, tail) s' →
    ∃ data behind, Reads features (.elements seen items tail behind) s data s'
  datum : ∀ s value s', readDatum features fuel s = .ok value s' →
    ∃ data, Reads features (.datum value) s data s'

theorem Reads.item_none {data : List Value} (reads : Reads features (.item none) s data s') :
    data = [] := by
  cases reads <;> rfl

theorem Ruled.marked (ruled : Ruled features fuel) {operator : String} {value? : Option Value}
    {text : List Char} (found : mark? text = some (operator, s.rest))
    (ended : (some <$> (wrapIn operator =<< readDatum features fuel)) s = .ok value? s') :
    ∃ data, Reads features (.item value?) (s.withRest text) data s' := by
  obtain ⟨whole, wrapped, rfl⟩ := ok_of_map ended
  obtain ⟨v, s₁, read, made⟩ := ok_of_bind wrapped
  obtain ⟨data, datum⟩ := ruled.datum s v s₁ read
  exact ⟨_, .marked found datum made⟩

theorem Ruled.datum_succ (ruled : Ruled features fuel) (s : ReadState) (value : Value)
    (s' : ReadState) (ended : readDatum features (fuel + 1) s = .ok value s') :
    ∃ data, Reads features (.datum value) s data s' := by
  rw [readDatum] at ended
  obtain ⟨_, s₀, skipped, ended⟩ := ok_of_bind ended
  obtain rfl : pastBlanks s = s₀ := (EStateM.Result.ok.inj skipped).2
  obtain ⟨next?, s₁, peeked, ended⟩ := ok_of_bind ended
  obtain ⟨-, rfl⟩ := EStateM.Result.ok.inj peeked
  split at ended
  · cases ended
  · cases ended
  · obtain ⟨value?, s₁, read, ended⟩ := ok_of_bind ended
    obtain ⟨data, item⟩ := ruled.item _ _ _ (skipBlanksFrom_ready false s.rest) read
    split at ended
    · cases ended
      exact ⟨data, .here item⟩
    · obtain ⟨more, next⟩ := ruled.datum _ _ _ ended
      obtain rfl := item.item_none
      exact ⟨more, .later item next⟩

theorem Ruled.guarded_succ (ruled : Ruled features fuel) (s : ReadState) (wanted : Bool)
    (rest : List Char) (value? : Option Value) (s' : ReadState)
    (guard : guard? rest = some (wanted, s.rest))
    (ended : readGuarded features (fuel + 1) wanted s = .ok value? s') :
    ∃ data, Reads features (.item value?) (s.withRest rest) data s' := by
  rw [readGuarded] at ended
  obtain ⟨expression, s₁, tested, ended⟩ := ok_of_bind ended
  obtain ⟨s₂, s₃, got, ended⟩ := ok_of_bind ended
  cases got
  obtain ⟨v, s₄, read, ended⟩ := ok_of_bind ended
  unfold withPackage at tested
  dsimp only at tested
  split at tested
  · rename_i middle
    cases tested
    obtain ⟨unused, tested⟩ := ruled.datum _ _ _ middle
    obtain ⟨data, form⟩ := ruled.datum _ _ _ read
    cases ended
    dsimp only
    split
    · rename_i same
      exact ⟨data, .kept guard tested same form⟩
    · rename_i other
      exact ⟨[], .excluded guard tested other form⟩
  · cases tested

theorem Ruled.dispatch_succ (ruled : Ruled features fuel) (s : ReadState) (value? : Option Value)
    (s' : ReadState) (ended : readDispatch features (fuel + 1) s = .ok value? s') :
    ∃ data, Reads features (.item value?) (s.withRest ('#' :: s.rest)) data s' := by
  obtain ⟨rest, image⟩ := s
  rw [readDispatch] at ended
  obtain ⟨next?, s₀, peeked, ended⟩ := ok_of_bind ended
  cases peeked
  cases rest with
  | nil => cases ended
  | cons c rest =>
      simp only [List.head?_cons, advance_cons] at ended
      split at ended
      · exact ruled.marked (s := ⟨rest, image⟩) (show mark? ('#' :: '\'' :: rest) = _ from rfl) ended
      · obtain ⟨⟨items, tail⟩, s₁, read, ended⟩ := ok_of_bind ended
        obtain ⟨data, behind, elements⟩ := ruled.elements _ _ _ _ _ read
        change (some <$> makeVector items tail) s₁ = _ at ended
        obtain ⟨v, made, rfl⟩ := ok_of_map ended
        exact ⟨_, .vector rfl elements made⟩
      · obtain ⟨token, s₁, scanned, ended⟩ := ok_of_bind ended
        obtain ⟨scanned, at_⟩ := ok_of_lex scanned
        obtain ⟨id, s₂, made, ended⟩ := ok_of_bind ended
        cases ended
        refine ⟨_, .atom (show atom? _ = some (.uninterned token, s₁.rest) from ?_) ?_⟩
        · change scanned? .uninterned _ = _
          dsimp only at scanned
          rw [scanned]
          rfl
        · rw [at_] at made
          exact bind_of_ok made
      · obtain ⟨c, s₁, scanned, ended⟩ := ok_of_bind ended
        obtain ⟨scanned, at_⟩ := ok_of_lex scanned
        cases ended
        refine ⟨_, .atom (show atom? _ = some (.character c, s'.rest) from ?_) ?_⟩
        · change scanned? .character _ = _
          dsimp only at scanned
          rw [scanned]
          rfl
        · rw [at_]
          rfl
      · obtain ⟨_, s₁, scanned, ended⟩ := ok_of_bind ended
        obtain ⟨scanned, at_⟩ := ok_of_lex scanned
        cases ended
        dsimp only at scanned
        split at scanned
        · rename_i after closes
          obtain rfl : after = s'.rest := congrArg Prod.snd scanned
          rw [at_]
          exact ⟨[], .comment rfl closes⟩
        · cases scanned
      · exact ruled.guarded ⟨rest, image⟩ _ ('#' :: '+' :: rest) _ _ rfl ended
      · exact ruled.guarded ⟨rest, image⟩ _ ('#' :: '-' :: rest) _ _ rfl ended
      · cases ended

theorem ok_of_closing {items : List Value} {tail : Value} {found : List Value × Value}
    (ended : closing items tail s = .ok found s') :
    ∃ after, skipBlanks s.rest = ')' :: after ∧ found = (items, tail) ∧ s' = s.withRest after := by
  obtain ⟨_, s₁, skipped, ended⟩ := ok_of_bind ended
  obtain rfl : pastBlanks s = s₁ := (EStateM.Result.ok.inj skipped).2
  obtain ⟨next?, s₁, peeked, ended⟩ := ok_of_bind ended
  obtain ⟨rfl, rfl⟩ := EStateM.Result.ok.inj peeked
  generalize first : (pastBlanks s).rest.head? = next? at ended
  split at ended
  · obtain ⟨after, closes⟩ := List.head?_eq_some_iff.mp first
    rw [pastBlanks_eq closes, advance_cons] at ended
    cases ended
    exact ⟨after, closes, rfl, rfl⟩
  · cases ended
  · cases ended

theorem Ruled.elements_succ (ruled : Ruled features fuel) (seen : List Value) (s : ReadState)
    (items : List Value) (tail : Value) (s' : ReadState)
    (ended : readElements features (fuel + 1) seen s = .ok (items, tail) s') :
    ∃ data behind, Reads features (.elements seen items tail behind) s data s' := by
  rw [readElements] at ended
  obtain ⟨_, s₀, skipped, ended⟩ := ok_of_bind ended
  obtain rfl : pastBlanks s = s₀ := (EStateM.Result.ok.inj skipped).2
  obtain ⟨_, s₁, got, ended⟩ := ok_of_bind ended
  obtain ⟨rfl, rfl⟩ := EStateM.Result.ok.inj got
  have found : skipBlanks s.rest = (pastBlanks s).rest := rfl
  generalize (pastBlanks s).rest = text at ended found
  dsimp only at ended
  split at ended
  · cases ended
  · rw [pastBlanks_eq found, advance_cons] at ended
    cases ended
    exact ⟨[], [], .close found⟩
  · split at ended
    · rename_i lone
      obtain ⟨rest, rfl⟩ := atLonePoint_cons lone
      split at ended
      · cases ended
      · rename_i some_
        rw [pastBlanks_eq found, advance_cons] at ended
        obtain ⟨tail, s₁, read, ended⟩ := ok_of_bind ended
        obtain ⟨behind, datum⟩ := ruled.datum _ _ _ read
        obtain ⟨after, closes, same, rfl⟩ := ok_of_closing ended
        cases same
        exact ⟨[], behind, .point found lone (by simpa using some_) datum closes⟩
    · rename_i notPoint
      have notPoint := Bool.eq_false_iff.mpr notPoint
      obtain ⟨value?, s₁, read, ended⟩ := ok_of_bind ended
      obtain ⟨data, item⟩ := ruled.item _ _ _ (skipBlanksFrom_ready false s.rest) read
      split at ended
      · obtain ⟨more, behind, next⟩ := ruled.elements _ _ _ _ _ ended
        exact ⟨_, behind, .element (found.symm ▸ notPoint) item next⟩
      · obtain ⟨more, behind, next⟩ := ruled.elements _ _ _ _ _ ended
        obtain rfl := item.item_none
        exact ⟨_, behind, .gap (found.symm ▸ notPoint) item next⟩

theorem Ruled.unquoted (ruled : Ruled features fuel) {rest : List Char} {image : Image}
    {value? : Option Value}
    (ended : (do
      if (← peek) = some '@' then
        advance 1
        some <$> (wrapIn "UNQUOTE-SPLICING" =<< readDatum features fuel)
      else some <$> (wrapIn "UNQUOTE" =<< readDatum features fuel)) ⟨rest, image⟩ = .ok value? s') :
    ∃ data, Reads features (.item value?) ⟨',' :: rest, image⟩ data s' := by
  obtain ⟨next?, s₀, peeked, ended⟩ := ok_of_bind ended
  obtain ⟨rfl, rfl⟩ := EStateM.Result.ok.inj peeked
  split at ended
  · rename_i splices
    obtain ⟨rest, rfl⟩ := List.head?_eq_some_iff.mp splices
    rw [advance_cons] at ended
    exact ruled.marked (s := ⟨rest, image⟩) rfl ended
  · rename_i plain
    exact ruled.marked (s := ⟨rest, image⟩) (if_neg plain) ended

theorem Reads.string {rest : List Char} {image : Image} {value? : Option Value}
    (ended : (lex stringScanner >>= fun text => some <$> onHeap (·.allocString text))
      ⟨rest, image⟩ = .ok value? s') :
    ∃ data, Reads features (.item value?) ⟨'"' :: rest, image⟩ data s' := by
  obtain ⟨text, s₁, scanned, ended⟩ := ok_of_bind ended
  obtain ⟨scanned, at_⟩ := ok_of_lex scanned
  obtain ⟨v, made, rfl⟩ := ok_of_map ended
  rw [stringScanner] at scanned
  refine ⟨_, .atom (show atom? _ = some (.string text, s₁.rest) from ?_) ?_⟩
  · split at scanned
    · rename_i closed
      cases scanned
      change (scanString [] rest).map _ = _
      rw [closed]
      rfl
    · cases scanned
  · rw [at_] at made
    exact made

theorem Reads.spelled {c : Char} {rest : List Char} {image : Image} {value? : Option Value}
    (goes : isTerminating c = false) (other : c ≠ '#')
    (ended : (lex scanToken >>= fun token => some <$> atomOfToken token)
      ⟨c :: rest, image⟩ = .ok value? s') :
    ∃ data, Reads features (.item value?) ⟨c :: rest, image⟩ data s' := by
  obtain ⟨token, s₁, scanned, ended⟩ := ok_of_bind ended
  obtain ⟨scanned, at_⟩ := ok_of_lex scanned
  obtain ⟨v, made, rfl⟩ := ok_of_map ended
  rw [at_] at made
  refine ⟨_, .atom (show atom? _ = some (.spelled token, s₁.rest) from ?_) made⟩
  dsimp only at scanned ⊢
  rw [atom?_token goes other, scanned]
  rfl

theorem Ruled.item_succ (ruled : Ruled features fuel) (s : ReadState) (value? : Option Value)
    (s' : ReadState) (ready : IsReady s.rest)
    (ended : readItem features (fuel + 1) s = .ok value? s') :
    ∃ data, Reads features (.item value?) s data s' := by
  obtain ⟨rest, image⟩ := s
  rw [readItem] at ended
  obtain ⟨next?, s₀, peeked, ended⟩ := ok_of_bind ended
  obtain ⟨rfl, rfl⟩ := EStateM.Result.ok.inj peeked
  cases rest with
  | nil => cases ended
  | cons c rest =>
      generalize first : (ReadState.mk (c :: rest) image).rest.head? = next? at ended
      split at ended
      · cases ended
      · obtain rfl : c = '(' := Option.some.inj first
        rw [advance_cons] at ended
        obtain ⟨⟨items, tail⟩, s₁, read, ended⟩ := ok_of_bind ended
        obtain ⟨data, behind, elements⟩ := ruled.elements _ _ _ _ _ read
        obtain ⟨v, made, rfl⟩ := ok_of_map ended
        exact ⟨_, .list rfl elements made⟩
      · cases ended
      · obtain rfl : c = '\'' := Option.some.inj first
        exact ruled.marked (s := ⟨rest, image⟩) rfl ended
      · obtain rfl : c = '\x60' := Option.some.inj first
        exact ruled.marked (s := ⟨rest, image⟩) rfl ended
      · obtain rfl : c = ',' := Option.some.inj first
        exact ruled.unquoted ended
      · obtain rfl : c = '"' := Option.some.inj first
        exact Reads.string ended
      · obtain rfl : c = '#' := Option.some.inj first
        exact ruled.dispatch ⟨rest, image⟩ _ _ ended
      · rename_i opens closes quote backquote comma string sharp
        obtain rfl := Option.some.inj first
        obtain ⟨notBlank, notComment⟩ := ready.head
        refine Reads.spelled ?_ sharp ended
        simp only [isTerminating, notBlank, Bool.false_or, Bool.or_eq_false_iff,
          beq_eq_false_iff_ne]
        exact ⟨⟨⟨⟨⟨⟨opens, closes⟩, quote⟩, string⟩, notComment⟩, backquote⟩, comma⟩

theorem Ruled.all (features : List String) (fuel : Nat) : Ruled features fuel := by
  induction fuel with
  | zero =>
      constructor
      · intro _ _ _ _ ended
        rw [readItem] at ended
        cases ended
      · intro _ _ _ ended
        rw [readDispatch] at ended
        cases ended
      · intro _ _ _ _ _ _ ended
        rw [readGuarded] at ended
        cases ended
      · intro _ _ _ _ _ ended
        rw [readElements] at ended
        cases ended
      · intro _ _ _ ended
        rw [readDatum] at ended
        cases ended
  | succ fuel ih =>
      exact ⟨ih.item_succ, ih.dispatch_succ, ih.guarded_succ, ih.elements_succ, ih.datum_succ⟩

theorem Reads.of_item {value? : Option Value} (ready : IsReady s.rest)
    (ended : item features s = .ok value? s') :
    ∃ data, Reads features (.item value?) s data s' :=
  (Ruled.all features _).item s value? s' ready ended

theorem Reads.of_datum {v : Value} (ended : Reader.datum features s = .ok v s') :
    ∃ data, Reads features (.datum v) s data s' :=
  (Ruled.all features _).datum s v s' ended

/-- Every text that can be read is read by the rules. -/
theorem Reads.of_readAll {forms : List Value} (ended : readAll features s = .ok forms s') :
    ∃ data, Reads features (.all forms) s data s' := by
  induction length : s.rest.length using Nat.strongRecOn generalizing s forms with
  | ind n ih =>
      rw [readAll_item] at ended
      split at ended
      · rename_i ends
        cases ended
        exact ⟨[], .done ends⟩
      · rename_i some_
        have shorter := pastBlanks_length s
        have ready := atItem_pastBlanks some_
        cases found : Reader.item features (pastBlanks s) with
        | error e s₁ =>
            rw [found] at ended
            cases ended
        | ok value? s₁ =>
            rw [found] at ended
            obtain ⟨data, item⟩ := Reads.of_item ready.ready found
            obtain ⟨taken, -⟩ := item_ok ready found
            cases value? with
            | none =>
                obtain ⟨after, next⟩ := ih _ (by omega) ended rfl
                obtain rfl := item.item_none
                exact ⟨_, .nothing item next⟩
            | some v =>
                change withBefore [v] (readAll features s₁) = _ at ended
                cases rest : readAll features s₁ with
                | error e s₂ =>
                    rw [rest] at ended
                    cases ended
                | ok more s₂ =>
                    rw [rest] at ended
                    cases ended
                    obtain ⟨after, next⟩ := ih _ (by omega) rest rfl
                    exact ⟨_, .form item next⟩

end Complete

section Sound

variable {features : List String} {s s' : ReadState} {data : List Value}

/-- What the reader gives where the rules tell that something is read. -/
def Judgment.Succeeds (features : List String) (s s' : ReadState) : Judgment → Prop
  | item value? => Reader.item features s = .ok value? s'
  | datum v => Reader.datum features s = .ok v s'
  | elements seen items tail _ => Reader.elements features seen s = .ok (items, tail) s'
  | all forms => readAll features s = .ok forms s'

theorem Reads.item_opens {value? : Option Value}
    (reads : Reads features (.item value?) s data s') : ∃ c rest, s.rest = c :: rest ∧ c ≠ ')' := by
  cases shape : s.rest with
  | nil =>
      cases reads with
      | atom found | marked found | list found | vector found | comment found | kept found
      | excluded found =>
          rw [shape] at found
          cases found
  | cons c rest =>
      refine ⟨c, rest, rfl, ?_⟩
      rintro rfl
      cases reads with
      | atom found | marked found | list found | vector found | comment found | kept found
      | excluded found =>
          rw [shape] at found
          cases found

theorem datum_of_item {value? : Option Value} {s₁ : ReadState}
    (reads : Reads features (.item value?) (pastBlanks s) data s₁)
    (item : Reader.item features (pastBlanks s) = .ok value? s₁) :
    Reader.datum features s = continueWithDatum (Reader.datum features) (.ok value? s₁) := by
  obtain ⟨c, rest, shape, other⟩ := reads.item_opens
  change skipBlanks s.rest = _ at shape
  have notClosing : (c :: rest).head? ≠ some ')' := fun same => other (Option.some.inj same)
  rw [datum_eq, item, shape, if_neg (List.cons_ne_nil _ _), if_neg notClosing]

theorem elements_of_item {value? : Option Value} {s₁ : ReadState} (seen : List Value)
    (notPoint : atLonePoint (skipBlanks s.rest) = false)
    (reads : Reads features (.item value?) (pastBlanks s) data s₁)
    (item : Reader.item features (pastBlanks s) = .ok value? s₁) :
    Reader.elements features seen s =
      continueWithElements (Reader.elements features) seen (.ok value? s₁) := by
  obtain ⟨c, rest, shape, other⟩ := reads.item_opens
  change skipBlanks s.rest = _ at shape
  rw [shape] at notPoint
  rw [elements_eq, shape, atElement_other _ _ _ _ other, if_neg (by simp [notPoint]), item]

theorem readAll_of_item {value? : Option Value} {s₁ : ReadState}
    (reads : Reads features (.item value?) (pastBlanks s) data s₁)
    (item : Reader.item features (pastBlanks s) = .ok value? s₁) :
    readAll features s = continueWithAll (readAll features) (.ok value? s₁) := by
  obtain ⟨c, rest, shape, -⟩ := reads.item_opens
  change skipBlanks s.rest = _ at shape
  rw [readAll_item, item, shape, if_neg (List.cons_ne_nil _ _)]

theorem closing_of_closes {rest : List Char} (items : List Value) (tail : Value)
    (closes : skipBlanks s.rest = ')' :: rest) :
    closing items tail s = .ok (items, tail) (s.withRest rest) := by
  rw [closing, bind_of_ok (show skip s = .ok () (pastBlanks s) from rfl), pastBlanks_eq closes]
  rfl

theorem guarded_of_tested {wanted : Bool} {expression v : Value} {s₁ : ReadState}
    (tested : Reader.datum features (s.withCurrent PackageId.keyword) = .ok expression s₁)
    (form : Reader.datum features (s₁.withCurrent s.image.symbols.current) = .ok v s') :
    guarded features wanted s =
      .ok (if featureHolds features (s₁.withCurrent s.image.symbols.current).image
        s₁.image.heap.size expression = wanted then some v else none) s' := by
  have within : withPackage PackageId.keyword (Reader.datum features) s =
      .ok expression (s₁.withCurrent s.image.symbols.current) := by
    rw [withPackage_eq, tested]
  rw [guarded, bind_of_ok within]
  exact bind_of_ok form

/-- Whatever the rules read is read by the reader. -/
theorem Reads.sound {judgment : Judgment} (reads : Reads features judgment s data s') :
    judgment.Succeeds features s s' := by
  induction reads with
  | atom found made => exact (item_atom found).trans (map_of_ok made)
  | marked found _ made datum =>
      exact (item_marked found).trans (map_of_ok ((bind_of_ok datum).trans made))
  | @list s _ _ rest _ _ _ _ _ opens _ made elements =>
      obtain ⟨text, image⟩ := s
      obtain rfl : text = _ := opens
      exact item_list.trans ((bind_of_ok elements).trans (map_of_ok made))
  | @vector s _ _ rest _ _ _ _ _ opens _ made elements =>
      obtain ⟨text, image⟩ := s
      obtain rfl : text = _ := opens
      exact item_vector.trans ((bind_of_ok elements).trans (map_of_ok made))
  | @comment s rest after opens closes =>
      obtain ⟨text, image⟩ := s
      obtain rfl : text = _ := opens
      refine item_comment.trans (bind_of_ok (lex_of_ok (a := ()) (r := after) ?_))
      rw [commentScanner, closes]
  | kept guard _ holds _ tested form =>
      refine (item_guarded guard).trans ((guarded_of_tested tested form).trans ?_)
      exact congrArg (EStateM.Result.ok · _) (if_pos holds)
  | excluded guard _ fails _ tested form =>
      refine (item_guarded guard).trans ((guarded_of_tested tested form).trans ?_)
      exact congrArg (EStateM.Result.ok · _) (if_neg fails)
  | here reads item => exact datum_of_item reads item
  | later reads _ gap next => exact (datum_of_item reads gap).trans next
  | close closes =>
      refine (elements_eq _ _).trans ?_
      rw [closes]
      rfl
  | point point lone some_ _ closes datum =>
      refine (elements_eq _ _).trans ?_
      rw [point, atElement_other _ _ _ _ (by decide), if_pos lone, pastBlanks_eq point,
        dotted_cons some_]
      exact (bind_of_ok datum).trans (closing_of_closes _ _ closes)
  | element notPoint reads _ item next => exact (elements_of_item _ notPoint reads item).trans next
  | gap notPoint reads _ gap next => exact (elements_of_item _ notPoint reads gap).trans next
  | done ends => exact (readAll_item _).trans (if_pos ends)
  | form reads _ item next =>
      exact (readAll_of_item reads item).trans (congrArg (withBefore [_]) next)
  | nothing reads _ gap next => exact (readAll_of_item reads gap).trans next

end Sound

end Reader

end LispScript
