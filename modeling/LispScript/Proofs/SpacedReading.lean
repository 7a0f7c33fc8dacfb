import LispScript.Proofs.Spacing

/-!
Reading and lexical modes. A reader finds the same in a text with further blanks; it leads from one
place between lexemes to another, with as many lists open; and where it misses the end of a list or of a
string, the modes say that the text ends inside one. Each holds of a step, and then of steps in a row.
-/

namespace LispScript.Reader

open Mode

section Steps

variable {α β : Type} {before earlier : List Char → List Char → Prop} {m m' m'' : Mode}
  {change more : Int} {x : Read α} {f : α → Read β}

/-- A step that ends alike at the two texts of each pair told by `before`, and leads from one mode to
another. -/
structure Tracks (before : List Char → List Char → Prop) (m : Mode) (change : Int) (m' : Mode)
    (x : Read α) : Prop where
  ok : ∀ {text text' image a s}, before text text' → x ⟨text, image⟩ = .ok a s →
    ∃ rest', x ⟨text', image⟩ = .ok a ⟨rest', s.image⟩ ∧ m'.Spaced s.rest rest' ∧
      m.Leads text change m' s.rest
  error : ∀ {text text' image e s}, before text text' → x ⟨text, image⟩ = .error e s →
    (∃ rest', x ⟨text', image⟩ = .error e ⟨rest', s.image⟩) ∧
      (isUnfinished e = true → m.Unfinished text change)

theorem Tracks.pure (a : α) : Tracks m.Spaced m 0 m (pure a : Read α) where
  ok spaced ended := by
    cases ended
    exact ⟨_, rfl, spaced, .refl _ _⟩
  error _ ended := by cases ended

theorem Tracks.throw {e : ReadError} (other : isUnfinished e = false) :
    Tracks before m change m' (MonadExcept.throw e : Read α) where
  ok _ ended := by cases ended
  error _ ended := by
    cases ended
    exact ⟨⟨_, rfl⟩, fun unfinished => by cases other.symm.trans unfinished⟩

theorem Tracks.missing {e : ReadError}
    (unfinished : ∀ text text', before text text' → m.Unfinished text change) :
    Tracks before m change m' (MonadExcept.throw e : Read α) where
  ok _ ended := by cases ended
  error held ended := by
    cases ended
    exact ⟨⟨_, rfl⟩, fun _ => unfinished _ _ held⟩

/-- The step may be seen as one from another mode where the text goes on alike. -/
theorem Tracks.since (tracks : Tracks before m change m' x)
    (leads : ∀ text text', earlier text text' → before text text' ∧ m''.Leads text 0 m text) :
    Tracks earlier m'' change m' x where
  ok held ended := by
    obtain ⟨held, start⟩ := leads _ _ held
    obtain ⟨rest', same, spaced, through⟩ := tracks.ok held ended
    exact ⟨rest', same, spaced, by simpa using start.trans through⟩
  error held ended := by
    obtain ⟨held, start⟩ := leads _ _ held
    obtain ⟨same, unfinished⟩ := tracks.error held ended
    exact ⟨same, fun isUnfinished => by simpa using (unfinished isUnfinished).before start⟩

theorem Tracks.mono (tracks : Tracks before m change m' x)
    (weaker : ∀ text text', earlier text text' → before text text') :
    Tracks earlier m change m' x :=
  tracks.since fun _ _ held => ⟨weaker _ _ held, .refl _ _⟩

/-- Steps in a row, of which the second closes no fewer lists than it opens. -/
theorem Tracks.bind (first : Tracks before m change m' x)
    (next : ∀ a, Tracks m'.Spaced m' more m'' (f a)) (closes : more ≤ 0) :
    Tracks before m (change + more) m'' (x >>= f) where
  ok held ended := by
    change EStateM.bind x f _ = _ at ended
    rw [EStateM.bind] at ended
    split at ended
    · rename_i a s middle
      obtain ⟨rest, same, spaced, leads⟩ := first.ok held middle
      obtain ⟨rest', same', spaced', leads'⟩ := (next a).ok spaced ended
      refine ⟨rest', ?_, spaced', leads.trans leads'⟩
      change EStateM.bind x f _ = _
      rw [EStateM.bind, same]
      exact same'
    · cases ended
  error held ended := by
    change EStateM.bind x f _ = _ at ended
    rw [EStateM.bind] at ended
    split at ended
    · rename_i a s middle
      obtain ⟨rest, same, spaced, leads⟩ := first.ok held middle
      obtain ⟨⟨rest', same'⟩, unfinished⟩ := (next a).error spaced ended
      refine ⟨⟨rest', ?_⟩, fun isUnfinished => (unfinished isUnfinished).before leads⟩
      change EStateM.bind x f _ = _
      rw [EStateM.bind, same]
      exact same'
    · rename_i middle
      cases ended
      obtain ⟨⟨rest', same⟩, unfinished⟩ := first.error held middle
      refine ⟨⟨rest', ?_⟩, fun isUnfinished => (unfinished isUnfinished).mono (by omega)⟩
      change EStateM.bind x f _ = _
      rw [EStateM.bind, same]

/-- Steps in a row, of which the second leaves as many lists open. -/
theorem Tracks.andThen (first : Tracks before m change m' x)
    (next : ∀ a, Tracks m'.Spaced m' 0 m'' (f a)) : Tracks before m change m'' (x >>= f) := by
  have tracks := first.bind next (Int.le_refl 0)
  rwa [add_zero] at tracks

theorem Tracks.map (first : Tracks before m change m' x) (h : α → β) :
    Tracks before m change m' (h <$> x) := by
  have tracks : Tracks before m change m' (x >>= fun a => Pure.pure (h a)) :=
    first.andThen fun a => .pure (h a)
  rwa [bind_pure_comp] at tracks

/-- A step that does not look at the text. -/
theorem Tracks.ofApart (apart : IsApart x)
    (finished : ∀ {s e s'}, x s = .error e s' → isUnfinished e = false) :
    Tracks m.Spaced m 0 m x where
  ok spaced ended := by
    have same := apart.ok ended
    refine ⟨_, same.2 _, ?_, ?_⟩
    · rw [same.1]; exact spaced
    · rw [same.1]; exact .refl _ _
  error {text text' image e s} spaced ended := by
    refine ⟨?_, fun isUnfinished => by cases (finished ended).symm.trans isUnfinished⟩
    rw [apart] at ended
    split at ended
    · cases ended
    · rename_i bare
      cases ended
      exact ⟨text', by rw [apart, bare]⟩

theorem Tracks.lex {scan : List Char → Except ReadError α × List Char} (conveys : Conveys m m' scan) :
    Tracks m.Spaced m 0 m' (lex scan) where
  ok {text text' image a s} spaced ended := by
    have found := conveys text text' spaced
    obtain ⟨scanned, same⟩ := ok_of_lex ended
    rw [scanned] at found
    generalize scanned' : scan text' = result at found
    cases found with
    | ok spaced leads => exact ⟨_, by rw [Reader.lex, scanned', same]; rfl, spaced, leads⟩
  error {text text' image e s} spaced ended := by
    have found := conveys text text' spaced
    unfold Reader.lex at ended
    dsimp only at ended
    split at ended
    · cases ended
    · rename_i scanned
      cases ended
      rw [scanned] at found
      generalize scanned' : scan text' = result at found
      cases found with
      | error unfinished => exact ⟨⟨_, by rw [Reader.lex, scanned']⟩, unfinished⟩

/-- Texts that begin with the given character in the given mode. -/
def OpensAt (m : Mode) (c : Char) (text text' : List Char) : Prop :=
  ∃ rest rest', text = c :: rest ∧ text' = c :: rest' ∧ (m.step c).Spaced rest rest'

/-- Texts that have ended. -/
def BothEnd (text text' : List Char) : Prop := text = [] ∧ text' = []

/-- The character ahead is passed, and something is known of what follows it. -/
theorem Tracks.past {after : List Char → List Char → Prop} {c : Char} {next : Unit → Read α}
    (tracks : Tracks after m'' more m' (next ())) (reaches : m.step c = m'')
    (level : m.nesting c + more = change)
    (known : ∀ text text', before text text' →
      ∃ rest rest', text = c :: rest ∧ text' = c :: rest' ∧ after rest rest') :
    Tracks before m change m' (advance 1 >>= next) where
  ok {text text' image a s} held ended := by
    obtain ⟨rest, rest', rfl, rfl, later⟩ := known _ _ held
    subst reaches level
    obtain ⟨left, same, spaced, leads⟩ := tracks.ok later ended
    exact ⟨left, same, spaced, (Leads.cons m c rest).trans leads⟩
  error {text text' image e s} held ended := by
    obtain ⟨rest, rest', rfl, rfl, later⟩ := known _ _ held
    subst reaches level
    obtain ⟨same, unfinished⟩ := tracks.error later ended
    exact ⟨same, fun isUnfinished => (unfinished isUnfinished).before (Leads.cons m c rest)⟩

theorem Tracks.pass {c : Char} {next : Unit → Read α} (tracks : Tracks m''.Spaced m'' more m' (next ()))
    (reaches : m.step c = m'') (level : m.nesting c + more = change) :
    Tracks (OpensAt m c) m change m' (advance 1 >>= next) := by
  refine tracks.past reaches level ?_
  rintro text text' ⟨rest, rest', rfl, rfl, spaced⟩
  exact ⟨rest, rest', rfl, rfl, reaches ▸ spaced⟩

/-- The character ahead is an error. -/
theorem Tracks.refused {c : Char} {e : ReadError} (other : isUnfinished e = false) :
    Tracks (OpensAt m c) m change m' (advance 1 >>= fun _ => (MonadExcept.throw e : Read α)) where
  ok _ ended := by cases ended
  error {text text' image e s} opens ended := by
    obtain ⟨rest, rest', rfl, rfl, spaced⟩ := opens
    cases ended
    exact ⟨⟨rest', rfl⟩, fun unfinished => by cases other.symm.trans unfinished⟩

/-- Texts that have ended, or begin with the same character, of which something is known. -/
def Ahead (m : Mode) (known : Char → Prop) (text text' : List Char) : Prop :=
  BothEnd text text' ∨ ∃ c, known c ∧ OpensAt m c text text'

theorem Mode.Spaced.ahead {text text' : List Char} (closed : m.isOpen = false)
    (spaced : m.Spaced text text') : Ahead m (fun _ => True) text text' := by
  cases text with
  | nil => exact .inl ⟨rfl, spaced.nil_inv closed⟩
  | cons c rest =>
      obtain ⟨rest', rfl, more⟩ := spaced.cons_inv closed
      exact .inr ⟨c, trivial, rest, rest', rfl, rfl, more⟩

theorem Mode.Abreast.ahead {text text' : List Char} (abreast : Abreast text text') :
    Ahead between (fun c => Text.isBlank c = false ∧ c ≠ ';') text text' := by
  cases abreast with
  | nil => exact .inl ⟨rfl, rfl⟩
  | cons noBlank noComment more =>
      exact .inr ⟨_, ⟨noBlank, noComment⟩, _, _, rfl, rfl, more⟩

/-- What is done next depends on the character ahead. -/
theorem Tracks.peek {known : Char → Prop} {next : Option Char → Read α}
    (none : Tracks BothEnd m change m' (next none))
    (some : ∀ c, known c → Tracks (OpensAt m c) m change m' (next (some c))) :
    Tracks (Ahead m known) m change m' (peek >>= next) where
  ok {text text' image a s} held ended := by
    obtain ⟨rfl, rfl⟩ | ⟨c, known, opens⟩ := held
    · exact none.ok ⟨rfl, rfl⟩ ended
    · obtain ⟨rest, rest', rfl, rfl, spaced⟩ := id opens
      exact (some c known).ok opens ended
  error {text text' image e s} held ended := by
    obtain ⟨rfl, rfl⟩ | ⟨c, known, opens⟩ := held
    · exact none.error ⟨rfl, rfl⟩ ended
    · obtain ⟨rest, rest', rfl, rfl, spaced⟩ := id opens
      exact (some c known).error opens ended

theorem Tracks.skip {next : Unit → Read α} (tracks : Tracks Abreast between change m' (next ())) :
    Tracks between.Spaced between change m' (skip >>= next) where
  ok {text text' image a s} spaced ended := by
    obtain ⟨abreast, leads⟩ := skipBlanksFrom_spaced false spaced
    obtain ⟨rest', same, spaced', through⟩ := tracks.ok abreast ended
    exact ⟨rest', same, spaced', by simpa using leads.trans through⟩
  error {text text' image e s} spaced ended := by
    obtain ⟨abreast, leads⟩ := skipBlanksFrom_spaced false spaced
    obtain ⟨same, unfinished⟩ := tracks.error abreast ended
    exact ⟨same, fun isUnfinished => by simpa using (unfinished isUnfinished).before leads⟩

/-- What is done next may depend on the state, where that is alike for both texts. -/
theorem Tracks.get {next : ReadState → Read α}
    (tracks : ∀ s, Tracks (fun text text' => text = s.rest ∧ before text text') m change m' (next s))
    (same : ∀ text text' image, before text text' → next ⟨text', image⟩ = next ⟨text, image⟩) :
    Tracks before m change m' (get >>= next) where
  ok {text text' image a s} held ended := by
    obtain ⟨rest', ended', spaced⟩ := (tracks ⟨text, image⟩).ok ⟨rfl, held⟩ ended
    refine ⟨rest', ?_, spaced⟩
    change next ⟨text', image⟩ _ = _
    rw [same _ _ _ held]
    exact ended'
  error {text text' image e s} held ended := by
    obtain ⟨⟨rest', ended'⟩, unfinished⟩ := (tracks ⟨text, image⟩).error ⟨rfl, held⟩ ended
    refine ⟨⟨rest', ?_⟩, unfinished⟩
    change next ⟨text', image⟩ _ = _
    rw [same _ _ _ held]
    exact ended'

theorem withPackage_ok {package : PackageId} {s s' : ReadState} {a : α}
    (ended : x (s.withCurrent package) = .ok a s') :
    withPackage package x s = .ok a (s'.withCurrent s.image.symbols.current) := by
  rw [withPackage_eq, ended]

theorem withPackage_error {package : PackageId} {s s' : ReadState} {e : ReadError}
    (ended : x (s.withCurrent package) = .error e s') :
    withPackage package x s = .error e (s'.withCurrent s.image.symbols.current) := by
  rw [withPackage_eq, ended]

theorem Tracks.withPackage (package : PackageId) (step : Tracks before m change m' x) :
    Tracks before m change m' (withPackage package x) where
  ok {text text' image a s} held ended := by
    rw [withPackage_eq] at ended
    split at ended
    · rename_i middle
      cases ended
      obtain ⟨rest', same, spaced, leads⟩ := step.ok held middle
      have ended' := withPackage_ok (s := ⟨text', image⟩) same
      exact ⟨rest', ended', spaced, leads⟩
    · cases ended
  error {text text' image e s} held ended := by
    rw [withPackage_eq] at ended
    split at ended
    · cases ended
    · rename_i middle
      cases ended
      obtain ⟨⟨rest', same⟩, unfinished⟩ := step.error held middle
      have ended' := withPackage_error (s := ⟨text', image⟩) same
      exact ⟨⟨rest', ended'⟩, unfinished⟩

end Steps

section Atoms

variable {α : Type} {m : Mode} {change : Int} {x : Read α}

theorem Tracks.onHeap (f : Heap → α × Heap) : Tracks m.Spaced m 0 m (onHeap f) :=
  .ofApart (.onHeap f) nofun

theorem Tracks.onSymbols (f : SymbolTable → α × SymbolTable) :
    Tracks m.Spaced m 0 m (onSymbols f) :=
  .ofApart (.onSymbols f) nofun

theorem Tracks.symbolOfToken (token : Token) : Tracks m.Spaced m 0 m (symbolOfToken token) := by
  unfold Reader.symbolOfToken
  split
  · exact (Tracks.ofApart (x := currentPackage) (fun _ _ => rfl) nofun).andThen fun package =>
      .onSymbols _
  · exact .onSymbols _
  · refine .get (fun s => .mono (?_ : Tracks m.Spaced m 0 m _) fun _ _ held => held.2)
      fun _ _ _ _ => rfl
    dsimp only
    split
    · exact .throw rfl
    · split
      · exact .onSymbols _
      · split
        · exact .pure _
        · exact .throw rfl

theorem Tracks.atomOfToken (token : Token) : Tracks m.Spaced m 0 m (atomOfToken token) := by
  have symbol : Tracks m.Spaced m 0 m (do return Value.ofSymbol (← Reader.symbolOfToken token)) :=
    (Tracks.symbolOfToken token).andThen fun _ => .pure _
  have invalid {e : ReadError} (other : isUnfinished e = false) :
      Tracks m.Spaced m 0 m (MonadExcept.throw e : Read PUnit) := .throw other
  unfold Reader.atomOfToken
  dsimp only
  split
  · split
    · split
      · exact (invalid rfl).andThen fun _ => .pure _
      · exact (invalid rfl).andThen fun _ => symbol
    · split
      · exact .pure _
      · exact symbol
  · exact symbol

end Atoms

section Items

variable {features : List String} {fuel : Nat}

/-- The readers keep track of the mode, whatever fuel they have. The elements of a list close it. -/
structure Tracked (features : List String) (fuel : Nat) : Prop where
  item : Tracks Abreast between 0 between (readItem features fuel)
  dispatch : Tracks sharp.Spaced sharp 0 between (readDispatch features fuel)
  guarded : ∀ wanted, Tracks between.Spaced between 0 between (readGuarded features fuel wanted)
  elements : ∀ seen, Tracks between.Spaced between (-1) between (readElements features fuel seen)
  datum : Tracks between.Spaced between 0 between (readDatum features fuel)

theorem Tracked.zero (features : List String) : Tracked features 0 where
  item := by rw [readItem]; exact .throw rfl
  dispatch := by rw [readDispatch]; exact .throw rfl
  guarded wanted := by rw [readGuarded]; exact .throw rfl
  elements seen := by rw [readElements]; exact .throw rfl
  datum := by rw [readDatum]; exact .throw rfl

theorem Tracked.datum_succ (tracked : Tracked features fuel) :
    Tracks between.Spaced between 0 between (readDatum features (fuel + 1)) := by
  rw [readDatum]
  refine .skip (.mono (.peek (.throw rfl) fun c known => ?_) fun _ _ => Abreast.ahead)
  split
  · rename_i closing
    cases closing
  · exact .throw rfl
  · refine (tracked.item.mono ?_).andThen fun value => ?_
    · rintro _ _ ⟨rest, rest', rfl, rfl, spaced⟩
      exact .cons known.1 known.2 spaced
    cases value with
    | none => exact tracked.datum
    | some value => exact .pure value

theorem Tracked.guarded_succ (tracked : Tracked features fuel) (wanted : Bool) :
    Tracks between.Spaced between 0 between (readGuarded features (fuel + 1) wanted) := by
  rw [readGuarded]
  refine (tracked.datum.withPackage PackageId.keyword).andThen fun expression => ?_
  refine .get (fun s => ?_) fun _ _ _ _ => rfl
  exact (tracked.datum.mono fun _ _ held => held.2).andThen fun form => .pure _

theorem Tracks.closing (items : List Value) (tail : Value) :
    Tracks between.Spaced between (-1) between (closing items tail) := by
  refine .skip (.mono (.peek (.missing ?_) fun c _ => ?_) fun _ _ => Abreast.ahead)
  · rintro _ _ ⟨rfl, rfl⟩
    exact .inr ⟨rfl, by decide⟩
  · split
    · rename_i same
      cases same
      exact .pass (.pure _) rfl rfl
    · exact .refused rfl
    · rename_i same
      cases same

theorem Mode.Abreast.atElement {β : Type} {text text' : List Char} (abreast : Abreast text text')
    (ended closing point item : β) :
    atElement ended closing point item text' = atElement ended closing point item text := by
  cases abreast with
  | nil => rfl
  | @cons c text text' noBlank noComment more =>
      have lone : atLonePoint (c :: text') = atLonePoint (c :: text) := by
        by_cases isPoint : c = '.'
        · subst isPoint
          have heads := more.head_eq rfl
          cases text <;> cases text' <;> cases heads <;> rfl
        · simp [atLonePoint, isPoint]
      by_cases closes : c = ')'
      · subst closes
        rfl
      · rw [atElement_other _ _ _ _ closes, atElement_other _ _ _ _ closes, lone]

theorem Mode.Abreast.opensAt {c : Char} {text text' : List Char} (abreast : Abreast (c :: text) text') :
    OpensAt between c (c :: text) text' := by
  cases abreast with
  | cons _ _ more => exact ⟨_, _, rfl, rfl, more⟩

theorem ends_of_atLonePoint {left : List Char} (lone : atLonePoint ('.' :: left) = true) :
    Ends left := by
  cases left with
  | nil => exact nofun
  | cons c left =>
      rintro _ ⟨⟩
      exact lone

theorem Tracked.elements_succ (tracked : Tracked features fuel) (seen : List Value) :
    Tracks between.Spaced between (-1) between (readElements features (fuel + 1) seen) := by
  rw [readElements]
  refine .skip (.get (fun s => ?_) fun text text' image abreast => abreast.atElement _ _ _ _)
  have opens (c : Char) (left : List Char) (begins : s.rest = c :: left) (text text' : List Char)
      (held : text = s.rest ∧ Abreast text text') : OpensAt between c text text' := by
    obtain ⟨rfl, abreast⟩ := held
    rw [begins] at abreast ⊢
    exact abreast.opensAt
  dsimp only
  split
  · rename_i ends
    refine .missing ?_
    rintro _ _ ⟨rfl, -⟩
    rw [ends]
    exact .inr ⟨rfl, by decide⟩
  · rename_i left closes
    exact .mono (.pass (.pure _) rfl rfl) fun _ _ held => opens _ _ closes _ _ held
  · rename_i noEnd noClose
    split
    · rename_i lone
      obtain ⟨left, begins⟩ := atLonePoint_cons lone
      have tail : Tracks (fun text text' => (word false false).Spaced text text' ∧ Ends text)
          (word false false) (-1) between
          (readDatum features fuel >>= Reader.closing seen.reverse) :=
        (tracked.datum.bind (fun _ => .closing _ _) (by decide)).since
          fun _ _ held => held.1.settle held.2
      have known (text text' : List Char) (held : text = s.rest ∧ Abreast text text') :
          ∃ rest rest', text = '.' :: rest ∧ text' = '.' :: rest' ∧
            (word false false).Spaced rest rest' ∧ Ends rest := by
        obtain ⟨rest, rest', rfl, rfl, spaced⟩ := opens _ _ begins _ _ held
        rw [← held.1] at lone
        exact ⟨rest, rest', rfl, rfl, spaced, ends_of_atLonePoint lone⟩
      have dotted : Tracks (fun text text' => text = s.rest ∧ Abreast text text') between (-1) between
          (advance 1 >>= fun _ => readDatum features fuel >>= Reader.closing seen.reverse) :=
        tail.past rfl rfl known
      split
      · exact .throw rfl
      · exact dotted
    · have begun := tracked.item.mono
        fun text text' (held : text = s.rest ∧ Abreast text text') => held.2
      refine begun.bind (fun value => ?_) (by decide : (-1 : Int) ≤ 0)
      cases value with
      | none => exact tracked.elements _
      | some value => exact tracked.elements _

theorem Tracked.wrapped (tracked : Tracked features fuel) (operator : String) :
    Tracks between.Spaced between 0 between
      (some <$> (wrapIn operator =<< readDatum features fuel)) :=
  .map (tracked.datum.andThen fun _ => (Tracks.onSymbols _).andThen fun _ => .onHeap _) _

theorem Tracked.list (tracked : Tracked features fuel) {α : Type} {build : List Value × Value → Read α}
    (builds : ∀ parts, Tracks between.Spaced between 0 between (build parts)) :
    Tracks between.Spaced between (-1) between (readElements features fuel [] >>= build) :=
  (tracked.elements []).andThen builds

theorem Tracked.dispatch_succ (tracked : Tracked features fuel) :
    Tracks sharp.Spaced sharp 0 between (readDispatch features (fuel + 1)) := by
  rw [readDispatch]
  refine .mono (.peek (.throw rfl) fun c _ => ?_) fun _ _ => Mode.Spaced.ahead rfl
  dsimp only
  split
  · exact .pass (tracked.wrapped _) rfl rfl
  · refine .pass (tracked.list fun parts => (Tracks.onHeap _).andThen fun list => ?_) rfl rfl
    exact .get (fun s => .mono (.map (.onHeap _) _) fun _ _ held => held.2) fun _ _ _ _ => rfl
  · exact .pass ((Tracks.lex .token).andThen fun _ => (Tracks.onSymbols _).andThen fun _ => .pure _)
      rfl rfl
  · exact .pass ((Tracks.lex .character).andThen fun _ => .pure _) rfl rfl
  · exact .pass ((Tracks.lex .comment).andThen fun _ => .pure _) rfl rfl
  · exact .pass (tracked.guarded true) rfl rfl
  · exact .pass (tracked.guarded false) rfl rfl
  · exact .refused rfl

theorem Tracked.unquoted (tracked : Tracked features fuel) :
    Tracks comma.Spaced comma 0 between
      (do
        if (← peek) = some '@' then
          advance 1
          some <$> (wrapIn "UNQUOTE-SPLICING" =<< readDatum features fuel)
        else some <$> (wrapIn "UNQUOTE" =<< readDatum features fuel)) := by
  refine .mono (.peek ?_ fun c _ => ?_) fun _ _ => Mode.Spaced.ahead rfl
  · refine (tracked.wrapped _).since ?_
    rintro _ _ ⟨rfl, rfl⟩
    exact ⟨.nil, rfl, rfl⟩
  · split
    · rename_i same
      cases same
      exact .pass (tracked.wrapped _) rfl rfl
    · rename_i other
      refine (tracked.wrapped _).since ?_
      rintro _ _ ⟨rest, rest', rfl, rfl, spaced⟩
      have step : comma.step c = between.step c := if_neg fun same => other (congrArg some same)
      exact ⟨.cons (step ▸ spaced), .of_step rfl step⟩

theorem Tracked.item_succ (tracked : Tracked features fuel) :
    Tracks Abreast between 0 between (readItem features (fuel + 1)) := by
  rw [readItem]
  refine .mono (.peek (.throw rfl) fun c known => ?_) fun _ _ => Abreast.ahead
  split
  · contradiction
  · rename_i same; cases same
    exact .pass (tracked.list fun _ => .map (.onHeap _) _) rfl rfl
  · exact .throw rfl
  · rename_i same; cases same
    exact .pass (tracked.wrapped _) rfl rfl
  · rename_i same; cases same
    exact .pass (tracked.wrapped _) rfl rfl
  · rename_i same; cases same
    exact .pass tracked.unquoted rfl rfl
  · rename_i same; cases same
    exact .pass ((Tracks.lex .string).andThen fun _ => .map (.onHeap _) _) rfl rfl
  · rename_i same; cases same
    exact .pass tracked.dispatch rfl rfl
  · rename_i opens closes quote backquote comma string sharp same
    cases same
    refine .since ((Tracks.lex .token).andThen fun token => .map (.atomOfToken token) _) ?_
    rintro _ _ ⟨rest, rest', rfl, rfl, spaced⟩
    have goes : isTerminating c = false := by
      simp only [isTerminating, known.1, Bool.false_or, Bool.or_eq_false_iff,
        beq_eq_false_iff_ne]
      exact ⟨⟨⟨⟨⟨⟨opens, closes⟩, quote⟩, string⟩, known.2⟩, backquote⟩, comma⟩
    have step := opening_of_going goes sharp
    exact ⟨.cons (step ▸ spaced), .of_step rfl step⟩

/-- The readers keep track of the mode. -/
theorem Tracked.all (features : List String) (fuel : Nat) : Tracked features fuel := by
  induction fuel with
  | zero => exact .zero features
  | succ fuel ih =>
      exact ⟨ih.item_succ, ih.dispatch_succ, ih.guarded_succ, ih.elements_succ, ih.datum_succ⟩

end Items

section Texts

theorem error_of_failure? {α : Type} {result : EStateM.Result ReadError ReadState α} {e : ReadError}
    (fails : failure? result = some e) : ∃ s, result = .error e s := by
  cases result with
  | ok a s => cases fails
  | error e' s => cases fails; exact ⟨s, rfl⟩

variable {features : List String}

theorem Tracks.readNext (features : List String) (fuel : Nat) :
    Tracks between.Spaced between 0 between (readNext features fuel) := by
  induction fuel with
  | zero => rw [Reader.readNext]; exact .throw rfl
  | succ fuel ih =>
      rw [Reader.readNext]
      refine .skip (.mono (.peek ?_ fun c known => ?_) fun _ _ => Abreast.ahead)
      · refine .mono (.pure _) ?_
        rintro _ _ ⟨rfl, rfl⟩
        exact .nil
      · refine ((Tracked.all features fuel).item.mono ?_).andThen fun value => ?_
        · rintro _ _ ⟨rest, rest', rfl, rfl, spaced⟩
          exact .cons known.1 known.2 spaced
        · cases value with
          | none => exact ih
          | some value => exact .pure _

/-- The longer of two texts tells how much fuel is enough. -/
theorem Tracks.ofLength {α : Type} {m m' : Mode} {change : Int} {x : Read α} {withFuel : Nat → Read α}
    (tracks : ∀ length, Tracks m.Spaced m change m' (withFuel length))
    (same : ∀ s length, s.rest.length ≤ length → x s = withFuel length s) :
    Tracks m.Spaced m change m' x where
  ok {text text' image a s} spaced ended := by
    rw [same ⟨text, image⟩ _ spaced.length_le] at ended
    rw [same ⟨text', image⟩ text'.length (Nat.le_refl _)]
    exact (tracks _).ok spaced ended
  error {text text' image e s} spaced ended := by
    rw [same ⟨text, image⟩ _ spaced.length_le] at ended
    rw [same ⟨text', image⟩ text'.length (Nat.le_refl _)]
    exact (tracks _).error spaced ended

theorem Tracks.read (features : List String) :
    Tracks between.Spaced between 0 between (read features) := by
  refine .ofLength (fun length => .readNext features (stepsFor length)) fun s length enough => ?_
  exact readNext_enough (by rw [stepsFor]; omega) (by rw [stepsFor]; omega)

theorem Tracks.readManyFrom (features : List String) (count : Nat) (seen : List Value) :
    Tracks between.Spaced between 0 between (readManyFrom features count seen) := by
  induction count generalizing seen with
  | zero => exact .pure _
  | succ count ih =>
      rw [Reader.readManyFrom]
      refine (Tracks.read features).andThen fun value => ?_
      cases value with
      | none => exact .pure _
      | some value => exact ih _

theorem Tracks.readAll (features : List String) :
    Tracks between.Spaced between 0 between (readAll features) := by
  refine .ofLength (fun length => .readManyFrom features (length + 1) []) fun s length enough => ?_
  rw [readManyFrom_eq _ (Nat.lt_succ_of_le enough)]
  cases Reader.readAll features s <;> rfl

theorem readAll_rest {s s' : ReadState} {data : List Value}
    (ended : readAll features s = .ok data s') : s'.rest = [] := by
  induction length : s.rest.length using Nat.strongRecOn generalizing s data with
  | ind n ih =>
      rw [readAll_eq] at ended
      cases found : Reader.read features s with
      | error e later => rw [found] at ended; cases ended
      | ok got later =>
          rw [found] at ended
          cases got with
          | none =>
              cases ended
              exact (read_none found).1
          | some value =>
              obtain ⟨taken, -⟩ := read_some found
              change withBefore [value] (Reader.readAll features later) = _ at ended
              cases rest : Reader.readAll features later with
              | error e later' => rw [rest] at ended; cases ended
              | ok more later' =>
                  rw [rest] at ended
                  cases ended
                  exact ih _ (by omega) rest rfl

/-- The interactive loop waits exactly while a text is incomplete, if no bracket, quote or semicolon
stands in a block comment or, unescaped, in a name between bars: a text that can be read is balanced,
and one that ends inside a list or a string is not. -/
theorem isBalanced_of_reading (features : List String) (text : List Char) (image : Image)
    (shown : between.shows text = true) :
    (∀ data s, readAll features ⟨text, image⟩ = .ok data s → isBalanced text = true) ∧
      ∀ e s, readAll features ⟨text, image⟩ = .error e s →
        e = .unterminatedList ∨ e = .unterminatedString → isBalanced text = false := by
  refine ⟨fun data s ended => ?_, fun e s ended incomplete => ?_⟩
  · obtain ⟨-, -, -, leads⟩ := (Tracks.readAll features).ok (.refl between text) ended
    rw [readAll_rest ended] at leads
    have level : between.depth text = 0 := leads.depth
    rw [isBalanced_of_shows shown leads.ends, level]
    rfl
  · have isUnfinished : isUnfinished e = true := by
      obtain rfl | rfl := incomplete <;> rfl
    obtain ⟨-, unfinished⟩ := (Tracks.readAll features).error (.refl between text) ended
    obtain inside | ⟨outside, opened⟩ := unfinished isUnfinished
    · rw [isBalanced_of_shows shown inside, Bool.not_true, Bool.and_false]
    · rw [isBalanced_of_shows shown outside, decide_eq_false (Int.not_le.mpr opened), Bool.false_and]

/-- Brackets in a string, in a character and in a line comment, a name between bars and a nested block
comment, in a text that is complete and in two that are not. -/
theorem isBalanced_of_reading_lists :
    isBalanced "(1 \"(;\" #\\( #:|a b| #| #| x |# |# ) ; (".toList = true ∧
      isBalanced "(#\\) ; )".toList = false ∧ isBalanced "(\"a\\\" )".toList = false := by
  refine ⟨?_, ?_, ?_⟩
  · have succeeds : failure? (readAll []
        ⟨"(1 \"(;\" #\\( #:|a b| #| #| x |# |# ) ; (".toList, Image.initial 0⟩) = none := by
      decide +kernel
    obtain ⟨data, s, ended⟩ := ok_of_failure? succeeds
    exact (isBalanced_of_reading _ _ _ (by decide +kernel)).1 data s ended
  · have fails : failure? (readAll [] ⟨"(#\\) ; )".toList, Image.initial 0⟩) =
        some .unterminatedList := by
      decide +kernel
    obtain ⟨s, ended⟩ := error_of_failure? fails
    exact (isBalanced_of_reading _ _ _ (by decide +kernel)).2 _ s ended (.inl rfl)
  · have fails : failure? (readAll [] ⟨"(\"a\\\" )".toList, Image.initial 0⟩) =
        some .unterminatedString := by
      decide +kernel
    obtain ⟨s, ended⟩ := error_of_failure? fails
    exact (isBalanced_of_reading _ _ _ (by decide +kernel)).2 _ s ended (.inr rfl)

/-- A bracket in a block comment is counted, which keeps a complete text waiting, and one in a name
between bars closes a list that is still open. -/
theorem isBalanced_of_hidden :
    (failure? (readAll [] ⟨"#| ( |#".toList, Image.initial 0⟩) = none ∧
        isBalanced "#| ( |#".toList = false) ∧
      failure? (readAll [] ⟨"(|)|".toList, Image.initial 0⟩) = some .unterminatedList ∧
        isBalanced "(|)|".toList = true := by
  decide +kernel

end Texts

end LispScript.Reader
