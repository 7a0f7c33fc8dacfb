import LispScript.Proofs.Builtin
import LispScript.Reader

/-!
Texts that are read in: what the reader makes is data, and the image that it makes it in is described
again, whether or not the text is well formed.
-/

namespace LispScript.Discipline

/-- How a step of the reader ends. -/
inductive Takes (W : World) (good : World → α → Prop) :
    EStateM.Result ReadError ReadState α → Prop where
  | ok (W' : World) (extends_ : W.Extends W') (describes : W'.Describes s'.image)
      (held : good W' a) : Takes W good (.ok a s')
  | error (W' : World) (extends_ : W.Extends W') (describes : W'.Describes s'.image) :
      Takes W good (.error e s')

/-- A step of the reader that adds data to the image. -/
def Reads (W : World) (step : Read α) (good : World → α → Prop) : Prop :=
  ∀ s, W.Describes s.image → Takes W good (step s)

section Steps

variable {W : World} {good wider : World → α → Prop} {image : Image}

theorem Takes.since {W' : World} {result : EStateM.Result ReadError ReadState α}
    (takes : Takes W' good result) (extends_ : W.Extends W') :
    Takes W good result := by
  cases takes with
  | ok W'' more describes held => exact .ok W'' (extends_.trans more) describes held
  | error W'' more describes => exact .error W'' (extends_.trans more) describes

theorem Reads.bind {step : Read α} {rest : α → Read β} {last : World → β → Prop}
    (reads : Reads W step good)
    (onward : ∀ W' a, W.Extends W' → good W' a → Reads W' (rest a) last) :
    Reads W (step >>= rest) last := by
  intro s describes
  have first := reads s describes
  change Takes W last (EStateM.bind step rest s)
  unfold EStateM.bind
  cases step_eq : step s with
  | ok a s' =>
      rw [step_eq] at first
      cases first with
      | ok W' extends_ describes held =>
          exact (onward W' a extends_ held s' describes).since extends_
  | error e s' =>
      rw [step_eq] at first
      cases first with
      | error W' extends_ describes => exact .error W' extends_ describes

theorem Reads.gives {a : α} (held : good W a) : Reads W (pure a) good :=
  fun _ describes => .ok W (World.Extends.refl W) describes held

theorem Reads.fails {e : ReadError} : Reads W (throw e) good :=
  fun _ describes => .error W (World.Extends.refl W) describes

theorem Reads.map {step : Read α} {f : α → β} {last : World → β → Prop} (reads : Reads W step good)
    (held : ∀ W' a, W.Extends W' → good W' a → last W' (f a)) :
    Reads W (f <$> step) last := by
  rw [map_eq_pure_bind]
  exact reads.bind fun W' a extends_ known => .gives (held W' a extends_ known)

theorem Reads.ofState {f : ReadState → Read α}
    (reads : ∀ s, W.Describes s.image → Reads W (f s) good) :
    Reads W (get >>= f) good :=
  fun s describes => reads s describes s describes

theorem Reads.peek : Reads W Reader.peek fun _ _ => True :=
  fun _ describes => .ok W (World.Extends.refl W) describes trivial

theorem Reads.advance (count : Nat) : Reads W (Reader.advance count) fun _ _ => True :=
  fun _ describes => .ok W (World.Extends.refl W) describes trivial

theorem Reads.skip : Reads W Reader.skip fun _ _ => True :=
  fun _ describes => .ok W (World.Extends.refl W) describes trivial

theorem Reads.lex (scan : List Char → Except ReadError α × List Char) :
    Reads W (Reader.lex scan) fun _ _ => True := by
  intro s describes
  unfold Reader.lex
  split
  · exact .ok W (World.Extends.refl W) describes trivial
  · exact .error W (World.Extends.refl W) describes

/-- What the reader does to objects as running code does it. -/
theorem Reads.onHeap {f : Heap → α × Heap}
    (safe : ∀ image, W.Describes image → Safe W image (Run.onHeap f) good) :
    Reads W (Reader.onHeap f) good := by
  intro s describes
  have safe := safe s.image describes
  have run_eq : Run.onHeap f s.image =
      .ok (f s.image.heap).1 { s.image with heap := (f s.image.heap).2 } := rfl
  rw [Safe, run_eq] at safe
  cases safe with
  | ok W' extends_ _ describes _ held => exact .ok W' extends_ describes held

theorem Reads.onSymbols {f : SymbolTable → α × SymbolTable}
    (safe : ∀ image, W.Describes image → Safe W image (Run.onSymbols f) good) :
    Reads W (Reader.onSymbols f) good := by
  intro s describes
  have safe := safe s.image describes
  have run_eq : Run.onSymbols f s.image =
      .ok (f s.image.symbols).1 { s.image with symbols := (f s.image.symbols).2 } := rfl
  rw [Safe, run_eq] at safe
  cases safe with
  | ok W' extends_ _ describes _ held => exact .ok W' extends_ describes held

theorem World.Describes.setCurrent (describes : W.Describes image) (package : PackageId) :
    W.Describes { image with symbols := image.symbols.setCurrent package } :=
  { describes with symbols :=
      ⟨describes.symbols.symbols, describes.symbols.nil, describes.symbols.packages,
        describes.symbols.named, describes.symbols.nilName, describes.symbols.entries⟩ }

theorem Reads.withPackage {package : PackageId} {step : Read α} (reads : Reads W step good) :
    Reads W (Reader.withPackage package step) good := by
  intro s describes
  have takes := reads { s with image := { s.image with
    symbols := s.image.symbols.setCurrent package } } (describes.setCurrent package)
  unfold Reader.withPackage
  dsimp only
  cases step_eq : step { s with image := { s.image with
      symbols := s.image.symbols.setCurrent package } } with
  | ok a s' =>
      rw [step_eq] at takes
      cases takes with
      | ok W' extends_ describes held => exact .ok W' extends_ (describes.setCurrent _) held
  | error e s' =>
      rw [step_eq] at takes
      cases takes with
      | error W' extends_ describes => exact .error W' extends_ (describes.setCurrent _)

end Steps

section Atoms

variable {W : World}

theorem Reads.intern (name : String) (package : PackageId) :
    Reads W (Reader.onSymbols (·.intern name package)) fun _ _ => True :=
  .onSymbols fun _ describes =>
    Safe.onSymbols describes (describes.symbols.intern name package) trivial

theorem Reads.currentPackage : Reads W Reader.currentPackage fun _ _ => True :=
  fun _ describes => .ok W (World.Extends.refl W) describes trivial

theorem Reads.symbolOfToken (token : Reader.Token) :
    Reads W (Reader.symbolOfToken token) fun _ _ => True := by
  unfold Reader.symbolOfToken
  split
  · exact Reads.currentPackage.bind fun W' package _ _ => Reads.intern _ _
  · exact Reads.intern _ _
  · refine Reads.ofState fun s _ => ?_
    dsimp only
    split
    · exact .fails
    · split
      · exact Reads.intern _ _
      · split
        · exact .gives trivial
        · exact .fails

theorem Reads.atomOfToken (token : Reader.Token) :
    Reads W (Reader.atomOfToken token) World.Datum := by
  have symbol : Reads W (do return Value.ofSymbol (← Reader.symbolOfToken token)) World.Datum :=
    (Reads.symbolOfToken token).bind fun W' id _ _ => .gives (W'.datum_ofSymbol id)
  unfold Reader.atomOfToken
  dsimp only
  split
  · split
    · exact Reads.fails
    · split
      · exact .gives trivial
      · exact symbol
  · exact symbol

theorem Reads.wrapIn {operator : String} {datum : Value} (operator_ne : operator ≠ "NIL")
    (known : W.Datum datum) :
    Reads W (Reader.wrapIn operator datum) World.Datum := by
  have interned : Reads W (Reader.onSymbols (·.internStandard operator)) fun _ id =>
      id ≠ SymbolId.nil :=
    .onSymbols fun _ describes => Safe.onSymbols describes
      (describes.symbols.internStandard operator) (describes.symbols.intern_ne_nil operator_ne _)
  exact interned.bind fun _ id extends_ id_ne => .onHeap fun _ describes =>
    Safe.newList describes (World.data_cons.mpr ⟨id_ne,
      World.data_cons.mpr ⟨extends_.grows.datum known, World.data_nil⟩⟩)

end Atoms

section Items

/-- What a syntactic item yields, if it yields anything. -/
abbrev ReadsItem (W : World) (step : Read (Option Value)) : Prop :=
  Reads W step fun W' form? => ∀ form ∈ form?, W'.Datum form

abbrev ReadsElements (W : World) (step : Read (List Value × Value)) : Prop :=
  Reads W step fun W' elements => W'.Data elements.1 ∧ W'.Datum elements.2

/-- All that the reader makes within so many steps is data. -/
structure ReadsData (features : List String) (fuel : Nat) : Prop where
  item : ∀ W, ReadsItem W (Reader.readItem features fuel)
  dispatch : ∀ W, ReadsItem W (Reader.readDispatch features fuel)
  guarded : ∀ W wanted, ReadsItem W (Reader.readGuarded features fuel wanted)
  elements : ∀ (W : World) seen, W.Data seen →
    ReadsElements W (Reader.readElements features fuel seen)
  datum : ∀ W, Reads W (Reader.readDatum features fuel) World.Datum

variable {features : List String} {fuel : Nat} {W : World}

theorem Reads.some {step : Read Value} (reads : Reads W step World.Datum) :
    ReadsItem W (some <$> step) :=
  reads.map fun _ _ _ datum _ found => Option.some.inj found ▸ datum

theorem ReadsData.wrapped (reads : ReadsData features fuel) {operator : String}
    (operator_ne : operator ≠ "NIL") :
    ReadsItem W (some <$> (Reader.wrapIn operator =<< Reader.readDatum features fuel)) :=
  .some ((reads.datum W).bind fun _ _ _ datum => .wrapIn operator_ne datum)

theorem Reads.newList {items : List Value} {tail : Value} (data : W.Data items)
    (datum : W.Datum tail) :
    Reads W (Reader.onHeap (·.allocListWithTail items tail)) World.Datum :=
  .onHeap fun _ describes => Safe.newListWithTail describes data datum

theorem World.Data.extended {W' : World} {seen : List Value} (data : W.Data seen)
    (extends_ : W.Extends W') :
    W'.Data seen :=
  fun value member => extends_.grows.datum (data value member)

theorem World.Data.reverse {seen : List Value} (data : W.Data seen) : W.Data seen.reverse :=
  fun value member => data value (List.mem_reverse.mp member)

theorem ReadsData.stepItem (reads : ReadsData features fuel) (W : World) :
    ReadsItem W (Reader.readItem features (fuel + 1)) := by
  rw [Reader.readItem]
  refine Reads.peek.bind fun W₁ next? _ _ => ?_
  split
  · exact .fails
  · refine (Reads.advance 1).bind fun W₂ _ _ _ => ?_
    refine (reads.elements W₂ [] nofun).bind fun W₃ elements _ data => ?_
    exact .some (.newList data.1 data.2)
  · exact .fails
  · exact (Reads.advance 1).bind fun W₂ _ _ _ => reads.wrapped (by decide)
  · exact (Reads.advance 1).bind fun W₂ _ _ _ => reads.wrapped (by decide)
  · refine (Reads.advance 1).bind fun W₂ _ _ _ => Reads.peek.bind fun W₃ next? _ _ => ?_
    split
    · exact (Reads.advance 1).bind fun W₄ _ _ _ => reads.wrapped (by decide)
    · exact reads.wrapped (by decide)
  · refine (Reads.advance 1).bind fun W₂ _ _ _ => (Reads.lex _).bind fun W₃ text _ _ => ?_
    exact .some (.onHeap fun _ describes => Safe.newString describes text)
  · exact (Reads.advance 1).bind fun W₂ _ _ _ => reads.dispatch W₂
  · exact (Reads.lex _).bind fun W₂ token _ _ => .some (.atomOfToken token)

theorem ReadsData.stepDispatch (reads : ReadsData features fuel) (W : World) :
    ReadsItem W (Reader.readDispatch features (fuel + 1)) := by
  rw [Reader.readDispatch]
  refine Reads.peek.bind fun W₁ next? _ _ => ?_
  split
  · refine (Reads.advance 1).bind fun W₂ _ _ _ => ?_
    split
    · exact reads.wrapped (by decide)
    · refine (reads.elements W₂ [] nofun).bind fun W₃ elements _ data => ?_
      refine (Reads.newList data.1 data.2).bind fun W₄ list _ datum => ?_
      refine Reads.ofState fun s describes => ?_
      have items := (spineFrom_data describes s.image.heap.cells.size World.data_nil datum).1
      exact .some (.onHeap fun _ describes => Safe.newVector describes items)
    · refine (Reads.lex _).bind fun W₃ token _ _ => ?_
      have made : Reads W₃ (Reader.onSymbols (·.makeSymbol token.text)) fun W' id =>
          W'.Datum (.symbol id) :=
        .onSymbols fun _ describes => Safe.onSymbols describes
          (describes.symbols.makeSymbol token.text) describes.symbols.newSymbol.1
      exact made.bind fun W₄ id _ datum => .gives fun form found => Option.some.inj found ▸ datum
    · refine (Reads.lex _).bind fun W₃ c _ _ => .gives fun form found => ?_
      obtain rfl := Option.some.inj found
      trivial
    · exact (Reads.lex _).bind fun W₃ _ _ _ => .gives nofun
    · exact reads.guarded W₂ true
    · exact reads.guarded W₂ false
    · exact .fails
  · exact .fails

theorem ReadsData.stepGuarded (reads : ReadsData features fuel) (W : World) (wanted : Bool) :
    ReadsItem W (Reader.readGuarded features (fuel + 1) wanted) := by
  rw [Reader.readGuarded]
  refine (Reads.withPackage (reads.datum W)).bind fun W₁ expression _ _ => ?_
  refine Reads.ofState fun s _ => ?_
  refine (reads.datum W₁).bind fun W₂ form _ datum => .gives fun kept found => ?_
  split at found
  · exact Option.some.inj found ▸ datum
  · cases found

theorem ReadsData.stepElements (reads : ReadsData features fuel) (W : World) (seen : List Value)
    (data : W.Data seen) :
    ReadsElements W (Reader.readElements features (fuel + 1) seen) := by
  rw [Reader.readElements]
  refine Reads.skip.bind fun W₁ _ step₁ _ => Reads.ofState fun s _ => ?_
  dsimp only
  split
  · exact .fails
  · exact (Reads.advance 1).bind fun W₂ _ step₂ _ =>
      .gives ⟨(data.extended (step₁.trans step₂)).reverse, trivial⟩
  · split
    · split
      · exact .fails
      · refine (Reads.advance 1).bind fun W₂ _ step₂ _ => ?_
        refine (reads.datum W₂).bind fun W₃ tail step₃ datum => ?_
        refine Reads.skip.bind fun W₄ _ step₄ _ => Reads.peek.bind fun W₅ next? step₅ _ => ?_
        have before := ((step₁.trans step₂).trans step₃).trans (step₄.trans step₅)
        split
        · refine (Reads.advance 1).bind fun W₆ _ step₆ _ => .gives ⟨?_, ?_⟩
          · exact (data.extended (before.trans step₆)).reverse
          · exact ((step₄.trans step₅).trans step₆).grows.datum datum
        · exact (Reads.advance 1).bind fun _ _ _ _ => .fails
        · exact .fails
    · refine (reads.item W₁).bind fun W₂ item? step₂ datum => ?_
      have kept := data.extended (step₁.trans step₂)
      split
      · exact reads.elements W₂ _ (World.data_cons.mpr ⟨datum _ rfl, kept⟩)
      · exact reads.elements W₂ _ kept

theorem ReadsData.stepDatum (reads : ReadsData features fuel) (W : World) :
    Reads W (Reader.readDatum features (fuel + 1)) World.Datum := by
  rw [Reader.readDatum]
  refine Reads.skip.bind fun W₁ _ _ _ => Reads.peek.bind fun W₂ next? _ _ => ?_
  split
  · exact .fails
  · exact .fails
  · refine (reads.item W₂).bind fun W₃ item? _ datum => ?_
    split
    · exact .gives (datum _ rfl)
    · exact reads.datum W₃

theorem readsData (features : List String) (fuel : Nat) : ReadsData features fuel := by
  induction fuel with
  | zero =>
      refine ⟨fun W => ?_, fun W => ?_, fun W wanted => ?_, fun W seen data => ?_, fun W => ?_⟩
      · rw [Reader.readItem]
        exact .fails
      · rw [Reader.readDispatch]
        exact .fails
      · rw [Reader.readGuarded]
        exact .fails
      · rw [Reader.readElements]
        exact .fails
      · rw [Reader.readDatum]
        exact .fails
  | succ fuel ih =>
      exact ⟨ih.stepItem, ih.stepDispatch, ih.stepGuarded, ih.stepElements, ih.stepDatum⟩

theorem Reads.readNext (fuel : Nat) : ReadsItem W (Reader.readNext features fuel) := by
  induction fuel generalizing W with
  | zero => exact .fails
  | succ fuel ih =>
      rw [Reader.readNext]
      refine Reads.skip.bind fun W₁ _ _ _ => Reads.peek.bind fun W₂ next? _ _ => ?_
      split
      · exact .gives nofun
      · refine ((readsData features fuel).item W₂).bind fun W₃ item? _ datum => ?_
        split
        · exact .gives datum
        · exact ih

theorem Reads.read : ReadsItem W (Reader.read features) :=
  .ofState fun _ _ => Reads.readNext _

theorem Reads.readManyFrom (count : Nat) {seen : List Value} (data : W.Data seen) :
    Reads W (Reader.readManyFrom features count seen) World.Data := by
  induction count generalizing W seen with
  | zero => exact .gives data.reverse
  | succ count ih =>
      rw [Reader.readManyFrom]
      refine Reads.read.bind fun W₁ form? step₁ datum => ?_
      split
      · exact ih (World.data_cons.mpr ⟨datum _ rfl, data.extended step₁⟩)
      · exact .gives (data.extended step₁).reverse

theorem Reads.readAll : Reads W (Reader.readAll features) World.Data :=
  .ofState fun _ _ => Reads.readManyFrom _ World.data_nil

end Items

end LispScript.Discipline
