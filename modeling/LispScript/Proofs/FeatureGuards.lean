import LispScript.Proofs.Interning
import LispScript.Proofs.WrittenData

/-!
Forms that a feature guard excludes. The reader reads them like all others before it drops them: where
it can, it goes on behind them as if nothing but a blank had been there, with whatever symbols they
added, and where it cannot, it fails as they do.
-/

namespace LispScript.Reader

variable {features : List String} {text rest : List Char} {image : Image} {wanted : Bool}
  {expression : Value} {s₁ : ReadState}

section Blanks

theorem datum_blank (text : List Char) (image : Image) :
    datum features ⟨' ' :: text, image⟩ = datum features ⟨text, image⟩ := by
  rw [datum_eq, datum_eq]
  rfl

theorem elements_blank (seen : List Value) (text : List Char) (image : Image) :
    elements features seen ⟨' ' :: text, image⟩ = elements features seen ⟨text, image⟩ := by
  rw [elements_eq, elements_eq]
  rfl

theorem readAll_blank (text : List Char) (image : Image) :
    readAll features ⟨' ' :: text, image⟩ = readAll features ⟨text, image⟩ := by
  rw [readAll_item, readAll_item]
  rfl

end Blanks

section Guards

theorem guard?_opens (guard : guard? text = some (wanted, rest)) :
    ∃ c left, text = c :: left ∧ c ≠ ')' ∧ atLonePoint text = false := by
  unfold guard? at guard
  split at guard
  · exact ⟨'#', _, rfl, by decide, rfl⟩
  · exact ⟨'#', _, rfl, by decide, rfl⟩
  · cases guard

/-- After blanks, a guarded form is the first item wherever items are read. -/
theorem reads_guarded (guard : guard? (skipBlanks text) = some (wanted, rest)) :
    readAll features ⟨text, image⟩ =
        continueWithAll (readAll features) (guarded features wanted ⟨rest, image⟩) ∧
      datum features ⟨text, image⟩ =
        continueWithDatum (datum features) (guarded features wanted ⟨rest, image⟩) ∧
      ∀ seen, elements features seen ⟨text, image⟩ =
        continueWithElements (elements features) seen (guarded features wanted ⟨rest, image⟩) := by
  obtain ⟨c, left, shape, other, notPoint⟩ := guard?_opens guard
  have found : item features (pastBlanks ⟨text, image⟩) = guarded features wanted ⟨rest, image⟩ :=
    item_guarded guard
  refine ⟨?_, ?_, fun seen => ?_⟩
  · rw [readAll_item, found, if_neg (by rw [shape]; exact List.cons_ne_nil _ _)]
  · rw [datum_eq, found, if_neg (by rw [shape]; exact List.cons_ne_nil _ _),
      if_neg (by rw [shape]; exact fun same => other (Option.some.inj same))]
  · rw [elements_eq, found]
    dsimp only
    rw [shape] at notPoint ⊢
    rw [atElement_other _ _ _ _ other, if_neg (by simp [notPoint])]

/-- A guarded form that cannot be read fails, kept or not. -/
theorem guarded_of_failed {s s₂ : ReadState} {e : ReadError}
    (tested : datum features (s.withCurrent PackageId.keyword) = .ok expression s₁)
    (failed : datum features (s₁.withCurrent s.image.symbols.current) = .error e s₂) :
    guarded features wanted s = .error e s₂ := by
  have within : withPackage PackageId.keyword (datum features) s =
      .ok expression (s₁.withCurrent s.image.symbols.current) := by
    rw [withPackage_eq, tested]
  rw [guarded, bind_of_ok within]
  exact bind_of_error (x := datum features) failed

/-- A guard and the form that it excludes only add symbols and objects. -/
theorem guarded_adds {later : ReadState} (packages : HasReadingPackages image.symbols)
    (guard : guard? (skipBlanks text) = some (wanted, rest))
    (ended : guarded features wanted ⟨rest, image⟩ = .ok none later) :
    Adds (MayIntern rest image.symbols) image.symbols later.image.symbols ∧
      later.image.symbols.current = image.symbols.current ∧
      image.heap.Keeps later.image.heap := by
  have datum : OnlyGathers rest image.symbols (datum features) :=
    .ofState fun s _ => (gathersItems packages features _).datum
  have gathers : OnlyGathers rest image.symbols (guarded features wanted) :=
    (Gathers.withKeywords datum).bind fun expression _ =>
      Gathers.ofState fun s _ => datum.bind fun form _ => .pure trivial
  have adds := gathers.adds
  rw [ended] at adds
  have ready : IsReady (skipBlanks text) := skipBlanksFrom_ready false text
  obtain ⟨data, reads⟩ := Reads.of_item (s := ⟨skipBlanks text, image⟩) ready
    ((item_guarded guard).trans ended)
  exact ⟨adds.1, adds.2, reads.holds.1⟩

/-- A guard and the form that it excludes are a blank wherever data are read, if the form can be read:
reading goes on behind them, with the symbols and objects that they added. If it cannot be read,
reading fails as it does. -/
theorem excluded_is_blank (packages : HasReadingPackages image.symbols)
    (guard : guard? (skipBlanks text) = some (wanted, rest))
    (tested : datum features (ReadState.withCurrent ⟨rest, image⟩ PackageId.keyword) =
      .ok expression s₁)
    (excludes : featureHolds features (s₁.withCurrent image.symbols.current).image
      s₁.image.heap.size expression ≠ wanted) :
    (∀ form after later,
      datum features (s₁.withCurrent image.symbols.current) = .ok form ⟨after, later⟩ →
        readAll features ⟨text, image⟩ = readAll features ⟨' ' :: after, later⟩ ∧
        datum features ⟨text, image⟩ = datum features ⟨' ' :: after, later⟩ ∧
        (∀ seen, elements features seen ⟨text, image⟩ =
          elements features seen ⟨' ' :: after, later⟩) ∧
        Adds (MayIntern rest image.symbols) image.symbols later.symbols ∧
        later.symbols.current = image.symbols.current ∧ image.heap.Keeps later.heap) ∧
    ∀ e s₂, datum features (s₁.withCurrent image.symbols.current) = .error e s₂ →
      readAll features ⟨text, image⟩ = .error e s₂ ∧
      datum features ⟨text, image⟩ = .error e s₂ ∧
      ∀ seen, elements features seen ⟨text, image⟩ = .error e s₂ := by
  obtain ⟨all, one, each⟩ := @reads_guarded features text rest image wanted guard
  constructor
  · intro form after later read
    have dropped : guarded features wanted ⟨rest, image⟩ = .ok none ⟨after, later⟩ :=
      (guarded_of_tested tested read).trans
        (congrArg (EStateM.Result.ok · (ReadState.mk after later)) (if_neg excludes))
    rw [dropped] at all one
    refine ⟨all.trans (readAll_blank _ _).symm, one.trans (datum_blank _ _).symm, fun seen => ?_,
      guarded_adds packages guard dropped⟩
    rw [each seen, dropped]
    exact (elements_blank _ _ _).symm
  · intro e s₂ failed
    have fails : guarded features wanted ⟨rest, image⟩ = .error e s₂ :=
      guarded_of_failed tested failed
    rw [fails] at all one
    refine ⟨all, one, fun seen => ?_⟩
    rw [each seen, fails]
    rfl

/-- Whether a feature expression excludes what follows it, and that can be read. -/
def excludesReadable (features : List String) (wanted : Bool) (s : ReadState) : Bool :=
  match datum features (s.withCurrent PackageId.keyword) with
  | .error _ _ => false
  | .ok expression s₁ =>
      let back := s₁.withCurrent s.image.symbols.current
      featureHolds features back.image s₁.image.heap.size expression != wanted &&
        (failure? (datum features back)).isNone

/-- An image with no more symbols than `NIL` and `T`, and no objects. -/
def smallImage : Image := { symbols := .initial, heap := {}, depthLimit := 0 }

/-- A character that a missing feature excludes is a blank. -/
theorem excluded_character_is_blank :
    HasReadingPackages smallImage.symbols ∧
    guard? (skipBlanks "#+x #\\a #\\b".toList) = some (true, "x #\\a #\\b".toList) ∧
    ∃ expression s₁ form after later,
      datum [] (ReadState.withCurrent ⟨"x #\\a #\\b".toList, smallImage⟩ PackageId.keyword) =
        .ok expression s₁ ∧
      featureHolds [] (s₁.withCurrent smallImage.symbols.current).image
        s₁.image.heap.size expression ≠ true ∧
      datum [] (s₁.withCurrent smallImage.symbols.current) = .ok form ⟨after, later⟩ ∧
      readAll [] ⟨"#+x #\\a #\\b".toList, smallImage⟩ = readAll [] ⟨' ' :: after, later⟩ := by
  have packages : HasReadingPackages smallImage.symbols :=
    .of_wellFormed SymbolTable.initial_wellFormed (by decide +kernel)
  have guard : guard? (skipBlanks "#+x #\\a #\\b".toList) = some (true, "x #\\a #\\b".toList) := by
    decide +kernel
  have readable : excludesReadable [] true ⟨"x #\\a #\\b".toList, smallImage⟩ = true := by
    decide +kernel
  unfold excludesReadable at readable
  split at readable
  · cases readable
  · rename_i expression s₁ tested
    obtain ⟨excludes, succeeds⟩ := Bool.and_eq_true_iff.mp readable
    obtain ⟨form, ⟨after, later⟩, read⟩ := ok_of_failure? (Option.isNone_iff_eq_none.mp succeeds)
    have excludes := bne_iff_ne.mp excludes
    exact ⟨packages, guard, expression, s₁, form, after, later, tested, excludes, read,
      ((excluded_is_blank packages guard tested excludes).1 form after later read).1⟩

/-- A symbol of an unknown package makes reading fail where it is excluded. -/
theorem excluded_unknown_package :
    excludesReadable [] true ⟨"x #\\y #\\a".toList, Image.initial 0⟩ = true ∧
      failure? (readAll [] ⟨"#+x y:z #\\a".toList, Image.initial 0⟩) =
        some (.package (.noSuchPackage "Y")) ∧
      failure? (readAll [] ⟨" #\\a".toList, Image.initial 0⟩) = none := by
  decide +kernel

end Guards

end LispScript.Reader
