import LispScript.Proofs.Registry
import LispScript.Proofs.Scanning

/-!
Reading only adds symbols. Whatever a text makes the reader do, and wherever that fails, nothing that
was registered changes, and each new symbol is at home in a package that the text could mean, or in
none.
-/

namespace LispScript

namespace SymbolTable

/-- A later table that has all that an earlier one has, as it was, and besides new symbols that may be
at home where they are. Only keywords are external from the start. -/
structure Gains (may : String → PackageId → Prop) (table later : SymbolTable) : Prop where
  symbols : ∀ id, table.HasSymbol id → later.HasSymbol id ∧ later.symbol id = table.symbol id
  packages : later.packages.size = table.packages.size
  packageNames : later.packageNames = table.packageNames
  name : ∀ p, (later.package p).name = (table.package p).name
  nicknames : ∀ p, (later.package p).nicknames = (table.package p).nicknames
  uses : ∀ p, (later.package p).uses = (table.package p).uses
  own : ∀ p name id, (table.package p).own? name = some id → (later.package p).own? name = some id
  internals : ∀ p name id, (table.package p).internals.find? name = some id →
    (later.package p).internals.find? name = some id
  externals : ∀ p, p ≠ PackageId.keyword →
    (later.package p).externals = (table.package p).externals
  keywords : ∀ name id, (table.package PackageId.keyword).externals.find? name = some id →
    (later.package PackageId.keyword).externals.find? name = some id
  added : ∀ id, later.HasSymbol id → table.HasSymbol id ∨ (later.symbol id).home = none ∨
    ∃ p, (later.symbol id).home = some p ∧
      (later.package p).own? (later.symbolName id) = some id ∧ may (later.symbolName id) p
  entered : ∀ p name id, (later.package p).own? name = some id →
    (table.package p).own? name = some id ∨ ¬table.HasSymbol id
  apart : ∀ p name id, (later.package p).internals.find? name = some id →
    (table.package p).internals.find? name = some id ∨ (table.package p).own? name = none

section Gaining

variable {may : String → PackageId → Prop} {table later last : SymbolTable} {id : SymbolId}
  {p : PackageId} {name : String}

theorem Gains.refl (table : SymbolTable) : Gains may table table where
  symbols _ has := ⟨has, rfl⟩
  packages := rfl
  packageNames := rfl
  name _ := rfl
  nicknames _ := rfl
  uses _ := rfl
  own _ _ _ found := found
  internals _ _ _ found := found
  externals _ _ := rfl
  keywords _ _ found := found
  added _ has := .inl has
  entered _ _ _ found := .inl found
  apart _ _ _ found := .inl found

theorem Gains.trans (first : Gains may table later) (second : Gains may later last) :
    Gains may table last where
  symbols id has := by
    obtain ⟨has', same⟩ := first.symbols id has
    obtain ⟨has'', same'⟩ := second.symbols id has'
    exact ⟨has'', same'.trans same⟩
  packages := second.packages.trans first.packages
  packageNames := second.packageNames.trans first.packageNames
  name p := (second.name p).trans (first.name p)
  nicknames p := (second.nicknames p).trans (first.nicknames p)
  uses p := (second.uses p).trans (first.uses p)
  own p name id found := second.own p name id (first.own p name id found)
  internals p name id found := second.internals p name id (first.internals p name id found)
  externals p other := (second.externals p other).trans (first.externals p other)
  keywords name id found := second.keywords name id (first.keywords name id found)
  added id has := by
    rcases second.added id has with between | new
    · obtain ⟨-, same⟩ := second.symbols id between
      rw [symbolName, same]
      rcases first.added id between with old | homeless | ⟨p, homed, own, allowed⟩
      · exact .inl old
      · exact .inr (.inl homeless)
      · exact .inr (.inr ⟨p, homed, second.own _ _ _ own, allowed⟩)
    · exact .inr new
  entered p name id found := by
    rcases second.entered p name id found with between | new
    · exact first.entered p name id between
    · exact .inr fun old => new (first.symbols id old).1
  apart p name id found := by
    rcases second.apart p name id found with between | free
    · exact first.apart p name id between
    · refine .inr (Option.eq_none_iff_forall_ne_some.mpr fun held own => ?_)
      rw [first.own p name held own] at free
      cases free

/-- Which package is current is not registered. -/
theorem Gains.setCurrent (gains : Gains may table later) (p : PackageId) :
    Gains may table (later.setCurrent p) :=
  { gains with }

/-- Interning a name adds one symbol at most. -/
theorem gains_intern (has : table.HasPackage p) (allowed : may name p) :
    Gains may table (table.intern name p).2 := by
  cases found : table.findSymbol? name p with
  | some entry =>
      obtain ⟨id, visibility⟩ := entry
      rw [intern_of_found found]
      exact .refl table
  | none =>
      rw [intern_of_absent found]
      dsimp only
      set new : SymbolId := ⟨table.symbols.size⟩
      set exported : Bool := decide (p = PackageId.keyword)
      set later := SymbolTable.updatePackage
        { table with symbols := table.symbols.push (newSymbol name p new) } p
        (·.withEntry exported name new)
      have absent : (table.package p).own? name = none := own?_of_findSymbol?_eq_none found
      have package_eq : ∀ q, later.package q =
          if q = p then (table.package p).withEntry exported name new else table.package q :=
        package_update _ has
      have symbol_eq : ∀ id, later.symbol id =
          if id.index = table.symbols.size then newSymbol name p new else table.symbol id :=
        symbol_push _
      have size : later.symbols.size = table.symbols.size + 1 := Array.size_push ..
      have own_eq : ∀ q other, (later.package q).own? other =
          if q = p ∧ other = name then some new else (table.package q).own? other := by
        intro q other
        rw [package_eq]
        by_cases same : q = p
        · subst same
          rw [if_pos rfl, Package.own?_withEntry absent]
          simp
        · rw [if_neg same, if_neg fun both => same both.1]
      have elsewhere : ∀ {q other id}, (table.package q).own? other = some id →
          ¬(q = p ∧ other = name) := by
        rintro q other id entry ⟨rfl, rfl⟩
        rw [absent] at entry
        cases entry
      have head : ∀ q, (later.package q).name = (table.package q).name ∧
          (later.package q).nicknames = (table.package q).nicknames ∧
          (later.package q).uses = (table.package q).uses := by
        intro q
        rw [package_eq]
        split
        · rename_i same
          subst same
          cases exported <;> exact ⟨rfl, rfl, rfl⟩
        · exact ⟨rfl, rfl, rfl⟩
      constructor
      case symbols =>
        intro id hasId
        rw [HasSymbol, size, symbol_eq, if_neg (Nat.ne_of_lt hasId)]
        exact ⟨Nat.lt_succ_of_lt hasId, rfl⟩
      case packages => exact Array.size_modify ..
      case packageNames => rfl
      case name => exact fun q => (head q).1
      case nicknames => exact fun q => (head q).2.1
      case uses => exact fun q => (head q).2.2
      case own =>
        intro q other id found
        rw [own_eq, if_neg (elsewhere found)]
        exact found
      case internals =>
        intro q other id entry
        have own : (table.package q).own? other = some id := by rw [Package.own?, entry]; rfl
        rw [package_eq]
        split
        · rename_i same
          subst same
          have different : other ≠ name := fun same => elsewhere own ⟨rfl, same⟩
          cases exported
          · exact (NameTable.find?_insert_of_ne different).trans entry
          · exact entry
        · exact entry
      case externals =>
        intro q other
        rw [package_eq]
        split
        · rename_i same
          subst same
          have internal : exported = false := decide_eq_false other
          rw [internal]
          rfl
        · rfl
      case keywords =>
        intro other id entry
        rw [package_eq]
        split
        · rename_i same
          subst same
          have different : other ≠ name := by
            rintro rfl
            rw [(Package.own?_eq_none.mp absent).2] at entry
            cases entry
          cases exported
          · exact entry
          · exact (NameTable.find?_insert_of_ne different).trans entry
        · exact entry
      case added =>
        intro id hasId
        rw [HasSymbol, size] at hasId
        rcases Nat.lt_succ_iff_lt_or_eq.mp hasId with old | isNew
        · exact .inl old
        · have isNew : id = new := congrArg SymbolId.mk isNew
          subst isNew
          have itself : later.symbol new = newSymbol name p new := by
            rw [symbol_eq, if_pos rfl]
          rw [symbolName, itself]
          exact .inr (.inr ⟨p, rfl, by rw [own_eq]; exact if_pos ⟨rfl, rfl⟩, allowed⟩)
      case entered =>
        intro q other id found
        rw [own_eq] at found
        split at found
        · cases found
          exact .inr (Nat.lt_irrefl _)
        · exact .inl found
      case apart =>
        intro q other id entry
        have own : (later.package q).own? other = some id := by rw [Package.own?, entry]; rfl
        rw [own_eq] at own
        split at own
        · rename_i both
          exact .inr (by rw [both.1, both.2, absent])
        · rename_i elsewhere
          rw [package_eq] at entry
          split at entry
          · rename_i same
            subst same
            have different : other ≠ name := fun same => elsewhere ⟨rfl, same⟩
            rw [Package.withEntry] at entry
            split at entry
            · exact .inl entry
            · exact .inl ((NameTable.find?_insert_of_ne different).symm.trans entry)
          · exact .inl entry

/-- Interning leaves alone which package is current, and how many there are under which names. -/
theorem intern_sameFrame (table : SymbolTable) (name : String) (p : PackageId) :
    (table.intern name p).2.current = table.current ∧
      (table.intern name p).2.packages.size = table.packages.size ∧
      (table.intern name p).2.packageNames = table.packageNames := by
  cases found : table.findSymbol? name p with
  | some entry =>
      obtain ⟨id, visibility⟩ := entry
      rw [intern_of_found found]
      exact ⟨rfl, rfl, rfl⟩
  | none =>
      rw [intern_of_absent found]
      exact ⟨rfl, Array.size_modify .., rfl⟩

theorem internStandard_sameFrame (table : SymbolTable) (name : String) :
    (table.internStandard name).2.current = table.current ∧
      (table.internStandard name).2.packages.size = table.packages.size ∧
      (table.internStandard name).2.packageNames = table.packageNames := by
  obtain ⟨current, size, names⟩ := intern_sameFrame table name PackageId.commonLisp
  exact ⟨current, (Array.size_modify ..).trans size, names⟩

/-- An uninterned symbol is in no package. -/
theorem gains_makeSymbol (name : String) : Gains may table (table.makeSymbol name).2 := by
  set later := (table.makeSymbol name).2
  have symbol_eq : ∀ id, later.symbol id =
      if id.index = table.symbols.size then { name, home := none } else table.symbol id :=
    symbol_push _
  have size : later.symbols.size = table.symbols.size + 1 := Array.size_push ..
  constructor
  case symbols =>
    intro id hasId
    rw [HasSymbol, size, symbol_eq, if_neg (Nat.ne_of_lt hasId)]
    exact ⟨Nat.lt_succ_of_lt hasId, rfl⟩
  case added =>
    intro id hasId
    rw [HasSymbol, size] at hasId
    rcases Nat.lt_succ_iff_lt_or_eq.mp hasId with old | isNew
    · exact .inl old
    · rw [symbol_eq, if_pos isNew]
      exact .inr (.inl rfl)
  case packages | packageNames => rfl
  case name | nicknames | uses => exact fun _ => rfl
  case own | internals => exact fun _ _ _ found => found
  case externals => exact fun _ _ => rfl
  case keywords => exact fun _ _ found => found
  case entered | apart => exact fun _ _ _ found => .inl found

end Gaining

section Sessions

variable {table later last : SymbolTable} {ops more : List Operation} {name : String} {id : SymbolId}

theorem Runs.append (first : Runs table ops later) (second : Runs later more last) :
    Runs table (ops ++ more) last := by
  induction first with
  | nil => exact second
  | cons applies rest ih => exact .cons applies (ih second)

theorem runs_internAllStandard (table : SymbolTable) (names : List String) :
    Runs table (names.map .internStandard) (table.internAllStandard names) := by
  induction names generalizing table with
  | nil => exact .nil
  | cons name rest ih => exact .cons trivial (ih (table.internStandard name).2)

/-- A session's table before its first request comes from operations, too. -/
theorem runs_initialSymbols : ∃ ops, Runs initial ops Image.initialSymbols := by
  have keywords (table : SymbolTable) (names : List String) : Runs table
      (names.map .internKeyword) (names.foldl (fun table name => (table.internKeyword name).2) table) := by
    induction names generalizing table with
    | nil => exact .nil
    | cons name rest ih => exact .cons trivial (ih (table.internKeyword name).2)
  have functions (ps : List Primitive) (table : SymbolTable)
      (has : ∀ p ∈ ps, table.HasSymbol p.symbol) : ∃ ops, Runs table ops
        (ps.foldl (fun table p => table.setFunction p.symbol
          (some (.function (Image.primitiveAddress p)))) table) := by
    induction ps generalizing table with
    | nil => exact ⟨[], .nil⟩
    | cons p rest ih =>
        have kept : ∀ id, table.HasSymbol id → (table.setFunction p.symbol
            (some (.function (Image.primitiveAddress p)))).HasSymbol id :=
          fun id hasId => Nat.lt_of_lt_of_eq hasId (Array.size_modify ..).symm
        obtain ⟨ops, runs⟩ := ih _ fun q member => kept _ (has q (List.mem_cons_of_mem _ member))
        have applies : (Operation.setFunction p.symbol
            (some (.function (Image.primitiveAddress p)))).Applies table := has p List.mem_cons_self
        exact ⟨_, .cons applies runs⟩
  have size : standard.symbols.size = 108 := by decide +kernel
  have has : ∀ p ∈ Primitive.all, standard.HasSymbol p.symbol := by
    intro p member
    rw [HasSymbol, size]
    revert p
    decide
  obtain ⟨ops, runs⟩ := functions Primitive.all standard has
  exact ⟨_, ((((runs_internAllStandard initial syntaxNames).append (keywords _ syntaxKeywords)).append
    (runs_internAllStandard _ _)).append (runs_internAllStandard _ _)).append runs⟩

/-- The current package exists whenever it is changed, so at any time. -/
theorem Runs.hasCurrent (runs : Runs table ops later) (wellFormed : table.WellFormed)
    (has : table.HasPackage table.current) : later.HasPackage later.current := by
  induction runs with
  | nil => exact has
  | @cons table later op ops applies rest ih =>
      obtain ⟨next, kept⟩ := wellFormed.after applies
      have unless_set : (op.after table).current = table.current →
          (op.after table).HasPackage (op.after table).current :=
        fun same => same ▸ (kept.packages _ has).1
      refine ih next ?_
      cases op with
      | setCurrent p => exact applies
      | intern name p | internWithStatus name p => exact unless_set (intern_sameFrame _ name p).1
      | internKeyword name => exact unless_set (intern_sameFrame _ name _).1
      | internStandard name => exact unless_set (intern_sameFrame _ name _).1
      | makePackage name nicknames uses =>
          refine unless_set ?_
          rcases Operation.after_makePackage name nicknames uses table with ⟨-, after_eq⟩ | after_eq
          · rw [after_eq]
            rfl
          · rw [after_eq]
      | exportSymbol id p =>
          refine unless_set ?_
          rcases Operation.after_exportSymbol id p table with ⟨-, after_eq⟩ | after_eq
          · rw [after_eq]
            rfl
          · rw [after_eq]
      | makeSymbol _ | gensym _ | usePackage _ _ | setValue _ _ | setFunction _ _ | setPlist _ _ =>
          exact unless_set rfl

/-- What a change of a package leaves as it was leaves the table as it was. -/
theorem updatePackage_of_same {p : PackageId} {f : Package → Package}
    (same : f (table.package p) = table.package p) : table.updatePackage p f = table := by
  have unchanged : table.packages.modify p.index f = table.packages := by
    apply Array.ext_getElem?
    intro i
    rw [Array.getElem?_modify]
    split
    · rename_i here
      subst here
      cases found : table.packages[p.index]? with
      | none => rfl
      | some package =>
          rw [SymbolTable.package, Array.getD_eq_getD_getElem?, found] at same
          exact congrArg some same
    · rfl
  rw [updatePackage, unchanged]

/-- A symbol that is external in `COMMON-LISP`, and not internal besides. -/
structure IsStandard (table : SymbolTable) (name : String) (id : SymbolId) : Prop where
  has : table.HasSymbol id
  named : table.symbolName id = name
  external : (table.package PackageId.commonLisp).externals.find? name = some id
  notInternal : (table.package PackageId.commonLisp).internals.find? name = none

theorem WellFormed.isStandard (wellFormed : table.WellFormed)
    (external : (table.package PackageId.commonLisp).externals.find? name = some id) :
    table.IsStandard name id where
  has := (wellFormed.entries _ _ _ (Package.own?_of_external (wellFormed.disjoint _) external)).1
  named := (wellFormed.entries _ _ _ (Package.own?_of_external (wellFormed.disjoint _) external)).2
  external := external
  notInternal :=
    (wellFormed.disjoint PackageId.commonLisp name).resolve_right (by simp [external])

/-- A symbol that is external already is exported again to no effect. -/
theorem IsStandard.internStandard (standard : table.IsStandard name id) :
    table.internStandard name = (id, table) := by
  have own : (table.package PackageId.commonLisp).own? name = some id := by
    rw [Package.own?, standard.notInternal, standard.external]
    rfl
  have again : table.promote id PackageId.commonLisp = table := by
    rw [promote, standard.named]
    exact updatePackage_of_same (by
      rw [NameTable.erase_of_absent standard.notInternal,
        NameTable.insert_of_present standard.external])
  rw [SymbolTable.internStandard, intern_of_found (findSymbol?_of_own own)]
  exact congrArg (Prod.mk id) again

theorem Gains.isStandard {may : String → PackageId → Prop} (gains : Gains may table later)
    (standard : table.IsStandard name id) : later.IsStandard name id where
  has := (gains.symbols id standard.has).1
  named := by
    rw [symbolName, (gains.symbols id standard.has).2]
    exact standard.named
  external := by
    rw [gains.externals _ (by decide)]
    exact standard.external
  notInternal := Option.eq_none_iff_forall_ne_some.mpr fun held found => by
    rcases gains.apart _ _ _ found with old | free
    · rw [standard.notInternal] at old
      cases old
    · cases standard.external.symm.trans (Package.own?_eq_none.mp free).2

end Sessions

end SymbolTable

namespace Reader

section Adding

/-- The symbols that the reader puts before what it reads, by name. -/
def operators : List (String × SymbolId) :=
  [("QUOTE", .quote), ("FUNCTION", .function), ("BACKQUOTE", .backquote), ("UNQUOTE", .unquote),
    ("UNQUOTE-SPLICING", .unquoteSplicing)]

/-- A table that has these symbols, as every session's does. -/
def HasOperators (table : SymbolTable) : Prop :=
  ∀ operator ∈ operators, table.IsStandard operator.1 operator.2

/-- What reading makes of a table. It keeps what is registered, and to one that has the symbols for
marks it only adds. -/
structure Adds (may : String → PackageId → Prop) (table later : SymbolTable) : Prop where
  packages : later.packages.size = table.packages.size
  packageNames : later.packageNames = table.packageNames
  kept : table.WellFormed → later.WellFormed ∧ table.Keeps later
  gains : HasOperators table → table.Gains may later

variable {may : String → PackageId → Prop} {table later last : SymbolTable} {p : PackageId}
  {name : String}

theorem Adds.refl (table : SymbolTable) : Adds may table table :=
  ⟨rfl, rfl, fun wellFormed => ⟨wellFormed, .refl table⟩, fun _ => .refl table⟩

theorem Adds.hasOperators (adds : Adds may table later) (has : HasOperators table) :
    HasOperators later :=
  fun operator member => (adds.gains has).isStandard (has operator member)

theorem Adds.trans (first : Adds may table later) (second : Adds may later last) :
    Adds may table last where
  packages := second.packages.trans first.packages
  packageNames := second.packageNames.trans first.packageNames
  kept wellFormed := by
    obtain ⟨middle, kept⟩ := first.kept wellFormed
    obtain ⟨last, kept'⟩ := second.kept middle
    exact ⟨last, kept.trans kept'⟩
  gains has := (first.gains has).trans (second.gains (first.hasOperators has))

/-- Packages are found as before. -/
theorem Adds.findPackage? (adds : Adds may table later) (name : String) :
    later.findPackage? name = table.findPackage? name :=
  congrArg (·[name]?) adds.packageNames

theorem Adds.setCurrent (adds : Adds may table later) (p : PackageId) :
    Adds may table (later.setCurrent p) where
  packages := adds.packages
  packageNames := adds.packageNames
  kept wellFormed := by
    obtain ⟨middle, kept⟩ := adds.kept wellFormed
    have alike : later.Alike (later.setCurrent p) :=
      ⟨rfl, rfl, fun _ => rfl, fun _ => rfl, fun _ => rfl, rfl, fun _ => rfl, fun _ => rfl⟩
    exact ⟨alike.wellFormed middle, kept.trans alike.keeps⟩
  gains has := (adds.gains has).setCurrent p

theorem adds_intern (has : table.HasPackage p) (allowed : may name p) :
    Adds may table (table.intern name p).2 where
  packages := (SymbolTable.intern_sameFrame _ name p).2.1
  packageNames := (SymbolTable.intern_sameFrame _ name p).2.2
  kept wellFormed := by
    obtain ⟨last, kept, -⟩ := wellFormed.intern has name
    exact ⟨last, kept⟩
  gains _ := SymbolTable.gains_intern has allowed

theorem adds_makeSymbol (name : String) : Adds may table (table.makeSymbol name).2 where
  packages := rfl
  packageNames := rfl
  kept wellFormed := wellFormed.addSymbol { name, home := none } rfl
  gains _ := SymbolTable.gains_makeSymbol name

theorem adds_internStandard {operator : String × SymbolId} (member : operator ∈ operators) :
    Adds may table (table.internStandard operator.1).2 where
  packages := (SymbolTable.internStandard_sameFrame _ operator.1).2.1
  packageNames := (SymbolTable.internStandard_sameFrame _ operator.1).2.2
  kept wellFormed := wellFormed.internStandard operator.1
  gains has := by
    rw [(has operator member).internStandard]
    exact .refl table

end Adding

section Texts

/-- A token that is scanned from some place in a text. -/
def HoldsToken (text : List Char) (token : Token) : Prop :=
  ∃ place rest, place <:+ text ∧ scanToken place = (.ok token, rest)

/-- Where a new symbol may be at home when a text is read: with the keywords, in the current package,
or in a package that a token of the text names before the symbol's own name. -/
def MayIntern (text : List Char) (table : SymbolTable) (name : String) (p : PackageId) : Prop :=
  p = PackageId.keyword ∨ p = table.current ∨
    ∃ token before doubled, HoldsToken text token ∧ token.name = name ∧
      token.qualifier = some (before, doubled) ∧ table.findPackage? before = some p

/-- A moment in the reading of a text. -/
structure Underway (text : List Char) (table : SymbolTable) (s : ReadState) : Prop where
  rest : s.rest <:+ text
  adds : Adds (MayIntern text table) table s.image.symbols
  current : s.image.symbols.current = PackageId.keyword ∨
    s.image.symbols.current = table.current

/-- How a step ends that began at such a moment. -/
inductive Leaves (text : List Char) (table : SymbolTable) (current : PackageId) (good : α → Prop) :
    EStateM.Result ReadError ReadState α → Prop where
  | ok (underway : Underway text table s) (same : s.image.symbols.current = current)
      (held : good a) : Leaves text table current good (.ok a s)
  | error (underway : Underway text table s) (same : s.image.symbols.current = current) :
      Leaves text table current good (.error e s)

/-- A step of reading that only adds symbols, and leaves the current package as it was. -/
def Gathers (text : List Char) (table : SymbolTable) (step : Read α) (good : α → Prop) : Prop :=
  ∀ s, Underway text table s → Leaves text table s.image.symbols.current good (step s)

variable {text : List Char} {table : SymbolTable} {good wider : α → Prop}

namespace Gathers

theorem pure {a : α} (held : good a) : Gathers text table (Pure.pure a) good :=
  fun _ underway => .ok underway rfl held

theorem fail {e : ReadError} : Gathers text table (throw e) good :=
  fun _ underway => .error underway rfl

theorem bind {step : Read α} {rest : α → Read β} {last : β → Prop}
    (first : Gathers text table step good)
    (onward : ∀ a, good a → Gathers text table (rest a) last) :
    Gathers text table (step >>= rest) last := by
  intro s underway
  have leaves := first s underway
  change Leaves _ _ _ last (EStateM.bind step rest s)
  rw [EStateM.bind]
  generalize step s = result at leaves ⊢
  cases leaves with
  | @ok later a underway same held => exact same ▸ onward a held later underway
  | error underway same => exact .error underway same

theorem map {step : Read α} {f : α → β} {last : β → Prop} (first : Gathers text table step good)
    (held : ∀ a, good a → last (f a)) : Gathers text table (f <$> step) last := by
  rw [map_eq_pure_bind]
  exact first.bind fun a known => .pure (held a known)

theorem ofState {f : ReadState → Read α}
    (gathers : ∀ s, Underway text table s → Gathers text table (f s) good) :
    Gathers text table (get >>= f) good :=
  fun s underway => gathers s underway s underway

theorem peek : Gathers text table Reader.peek fun _ => True :=
  fun _ underway => .ok underway rfl trivial

theorem advance (count : Nat) : Gathers text table (Reader.advance count) fun _ => True :=
  fun _ underway => .ok { underway with rest := (List.drop_suffix _ _).trans underway.rest } rfl
    trivial

theorem skip : Gathers text table Reader.skip fun _ => True :=
  fun _ underway =>
    .ok { underway with rest := (skipBlanksFrom_suffix _ _).trans underway.rest } rfl trivial

/-- What is scanned is scanned from the text. -/
theorem lex {scan : List Char → Except ReadError α × List Char} (scans : Scans scan) :
    Gathers text table (Reader.lex scan) fun a =>
      ∃ place rest, place <:+ text ∧ scan place = (.ok a, rest) := by
  intro s underway
  have suffix := scans.suffix s.rest
  rw [Reader.lex]
  split
  · rename_i a rest scanned
    rw [scanned] at suffix
    exact .ok { underway with rest := suffix.trans underway.rest } rfl
      ⟨s.rest, rest, underway.rest, scanned⟩
  · rename_i e rest scanned
    rw [scanned] at suffix
    exact .error { underway with rest := suffix.trans underway.rest } rfl

theorem onHeap (f : Heap → α × Heap) : Gathers text table (Reader.onHeap f) fun _ => True :=
  fun _ underway => .ok ⟨underway.rest, underway.adds, underway.current⟩ rfl trivial

theorem onSymbols {f : SymbolTable → α × SymbolTable}
    (adds : ∀ s, Underway text table s →
      Adds (MayIntern text table) s.image.symbols (f s.image.symbols).2 ∧
        (f s.image.symbols).2.current = s.image.symbols.current) :
    Gathers text table (Reader.onSymbols f) fun _ => True := by
  intro s underway
  obtain ⟨added, same⟩ := adds s underway
  exact .ok ⟨underway.rest, underway.adds.trans added, by rw [same]; exact underway.current⟩ same
    trivial

/-- The package that a feature is read in is left again, however that ends. -/
theorem withKeywords {step : Read α} (gathers : Gathers text table step good) :
    Gathers text table (withPackage PackageId.keyword step) good := by
  intro s underway
  have inside : Underway text table { s with image := { s.image with
      symbols := s.image.symbols.setCurrent PackageId.keyword } } :=
    ⟨underway.rest, underway.adds.setCurrent _, .inl rfl⟩
  have leaves := gathers _ inside
  rw [withPackage]
  dsimp only
  generalize step _ = result at leaves ⊢
  cases leaves with
  | ok later same held => exact .ok ⟨later.rest, later.adds.setCurrent _, underway.current⟩ rfl held
  | error later same => exact .error ⟨later.rest, later.adds.setCurrent _, underway.current⟩ rfl

end Gathers

end Texts

section Atoms

variable {text : List Char} {table : SymbolTable} {token : Token}

/-- The packages that are current during a reading exist, and so do those that have names. -/
structure HasReadingPackages (table : SymbolTable) : Prop where
  keyword : table.HasPackage PackageId.keyword
  current : table.HasPackage table.current
  named : ∀ name p, table.findPackage? name = some p → table.HasPackage p

theorem HasReadingPackages.of_wellFormed {table : SymbolTable} (wellFormed : table.WellFormed)
    (current : table.HasPackage table.current) : HasReadingPackages table :=
  ⟨wellFormed.has_keyword, current, fun name p found => ((wellFormed.names name p).mp found).1⟩

theorem Gathers.currentPackage : Gathers text table Reader.currentPackage fun p =>
    p = PackageId.keyword ∨ p = table.current :=
  fun _ underway => .ok underway rfl underway.current

theorem Gathers.intern {name : String} {p : PackageId} (has : table.HasPackage p)
    (allowed : MayIntern text table name p) :
    Gathers text table (Reader.onSymbols (·.intern name p)) fun _ => True :=
  .onSymbols fun s underway => by
    have has : s.image.symbols.HasPackage p := by
      rw [SymbolTable.HasPackage, underway.adds.packages]
      exact has
    exact ⟨adds_intern has allowed, (SymbolTable.intern_sameFrame _ name p).1⟩

theorem Gathers.symbolOfToken (packages : HasReadingPackages table) (holds : HoldsToken text token) :
    Gathers text table (Reader.symbolOfToken token) fun _ => True := by
  rw [Reader.symbolOfToken.eq_def]
  split
  · refine Gathers.currentPackage.bind fun p which => ?_
    rcases which with rfl | rfl
    · exact .intern packages.keyword (.inl rfl)
    · exact .intern packages.current (.inr (.inl rfl))
  · exact .intern packages.keyword (.inl rfl)
  · rename_i before doubled _ qualified
    refine Gathers.ofState fun s underway => ?_
    dsimp only
    cases required : s.image.symbols.requirePackage before with
    | error e => exact .fail
    | ok p =>
        have found : table.findPackage? before = some p := by
          rw [SymbolTable.requirePackage, underway.adds.findPackage?] at required
          split at required <;> cases required
          assumption
        dsimp only
        split
        · exact .intern (packages.named _ _ found)
            (.inr (.inr ⟨token, before, doubled, holds, rfl, qualified, found⟩))
        · split
          · exact .pure trivial
          · exact .fail

theorem Gathers.atomOfToken (packages : HasReadingPackages table) (holds : HoldsToken text token) :
    Gathers text table (Reader.atomOfToken token) fun _ => True := by
  have symbol : Gathers text table (do return Value.ofSymbol (← Reader.symbolOfToken token))
      fun _ => True := (Gathers.symbolOfToken packages holds).bind fun id _ => .pure trivial
  unfold Reader.atomOfToken
  dsimp only
  split
  · split
    · exact Gathers.fail
    · split
      · exact .pure trivial
      · exact symbol
  · exact symbol

theorem Gathers.wrapIn {operator : String × SymbolId} (member : operator ∈ operators)
    (datum : Value) : Gathers text table (Reader.wrapIn operator.1 datum) fun _ => True :=
  .bind (.onSymbols fun _ _ => ⟨adds_internStandard member,
    (SymbolTable.internStandard_sameFrame _ operator.1).1⟩) fun _ _ => .onHeap _

end Atoms

section Items

variable {text : List Char} {table : SymbolTable} {features : List String} {fuel : Nat}

abbrev OnlyGathers (text : List Char) (table : SymbolTable) (step : Read α) : Prop :=
  Gathers text table step fun _ => True

/-- All that the reader does within so many steps only adds symbols. -/
structure GathersItems (text : List Char) (table : SymbolTable) (features : List String) (fuel : Nat) :
    Prop where
  item : OnlyGathers text table (readItem features fuel)
  dispatch : OnlyGathers text table (readDispatch features fuel)
  guarded : ∀ wanted, OnlyGathers text table (readGuarded features fuel wanted)
  elements : ∀ seen, OnlyGathers text table (readElements features fuel seen)
  datum : OnlyGathers text table (readDatum features fuel)

theorem Gathers.some {step : Read α} (gathers : OnlyGathers text table step) :
    OnlyGathers text table (some <$> step) :=
  gathers.map fun _ _ => trivial

theorem GathersItems.wrapped (gathers : GathersItems text table features fuel) {operator : String}
    (id : SymbolId) (member : (operator, id) ∈ operators) :
    OnlyGathers text table (some <$> (wrapIn operator =<< readDatum features fuel)) :=
  .some (gathers.datum.bind fun datum _ => .wrapIn member datum)

theorem GathersItems.stepItem (packages : HasReadingPackages table)
    (gathers : GathersItems text table features fuel) :
    OnlyGathers text table (readItem features (fuel + 1)) := by
  rw [readItem]
  refine Gathers.peek.bind fun next? _ => ?_
  split
  · exact .fail
  · exact (Gathers.advance 1).bind fun _ _ => (gathers.elements []).bind fun elements _ =>
      .some (.onHeap _)
  · exact .fail
  · exact (Gathers.advance 1).bind fun _ _ => gathers.wrapped .quote (by decide)
  · exact (Gathers.advance 1).bind fun _ _ => gathers.wrapped .backquote (by decide)
  · refine (Gathers.advance 1).bind fun _ _ => Gathers.peek.bind fun next? _ => ?_
    split
    · exact (Gathers.advance 1).bind fun _ _ => gathers.wrapped .unquoteSplicing (by decide)
    · exact gathers.wrapped .unquote (by decide)
  · exact (Gathers.advance 1).bind fun _ _ => (Gathers.lex Scans.string).bind fun text _ =>
      .some (.onHeap _)
  · exact (Gathers.advance 1).bind fun _ _ => gathers.dispatch
  · exact (Gathers.lex Scans.token).bind fun token holds => .some (.atomOfToken packages holds)

theorem GathersItems.stepDispatch (gathers : GathersItems text table features fuel) :
    OnlyGathers text table (readDispatch features (fuel + 1)) := by
  rw [readDispatch]
  refine Gathers.peek.bind fun next? _ => ?_
  split
  · refine (Gathers.advance 1).bind fun _ _ => ?_
    split
    · exact gathers.wrapped .function (by decide)
    · exact (gathers.elements []).bind fun elements _ => (Gathers.onHeap _).bind fun list _ =>
        Gathers.ofState fun s _ => .some (.onHeap _)
    · refine (Gathers.lex Scans.token).bind fun token _ => ?_
      have made : OnlyGathers text table (onSymbols (·.makeSymbol token.text)) :=
        .onSymbols fun s _ => ⟨adds_makeSymbol token.text, rfl⟩
      exact made.bind fun id _ => .pure trivial
    · exact (Gathers.lex Scans.character).bind fun c _ => .pure trivial
    · exact (Gathers.lex Scans.comment).bind fun _ _ => .pure trivial
    · exact gathers.guarded true
    · exact gathers.guarded false
    · exact .fail
  · exact .fail

theorem GathersItems.stepGuarded (gathers : GathersItems text table features fuel)
    (wanted : Bool) :
    OnlyGathers text table (readGuarded features (fuel + 1) wanted) := by
  rw [readGuarded]
  exact (Gathers.withKeywords gathers.datum).bind fun expression _ =>
    Gathers.ofState fun s _ => gathers.datum.bind fun form _ => .pure trivial

theorem GathersItems.stepElements (gathers : GathersItems text table features fuel)
    (seen : List Value) :
    OnlyGathers text table (readElements features (fuel + 1) seen) := by
  rw [readElements]
  refine Gathers.skip.bind fun _ _ => Gathers.ofState fun s _ => ?_
  dsimp only
  split
  · exact .fail
  · exact (Gathers.advance 1).bind fun _ _ => .pure trivial
  · split
    · split
      · exact .fail
      · refine (Gathers.advance 1).bind fun _ _ => gathers.datum.bind fun tail _ => ?_
        refine Gathers.skip.bind fun _ _ => Gathers.peek.bind fun next? _ => ?_
        split
        · exact (Gathers.advance 1).bind fun _ _ => .pure trivial
        · exact (Gathers.advance 1).bind fun _ _ => .fail
        · exact .fail
    · refine gathers.item.bind fun item? _ => ?_
      split
      · exact gathers.elements _
      · exact gathers.elements _

theorem GathersItems.stepDatum (gathers : GathersItems text table features fuel) :
    OnlyGathers text table (readDatum features (fuel + 1)) := by
  rw [readDatum]
  refine Gathers.skip.bind fun _ _ => Gathers.peek.bind fun next? _ => ?_
  split
  · exact .fail
  · exact .fail
  · refine gathers.item.bind fun item? _ => ?_
    split
    · exact .pure trivial
    · exact gathers.datum

theorem gathersItems (packages : HasReadingPackages table) (features : List String) (fuel : Nat) :
    GathersItems text table features fuel := by
  induction fuel with
  | zero =>
      refine ⟨?_, ?_, fun wanted => ?_, fun seen => ?_, ?_⟩
      · rw [readItem]
        exact .fail
      · rw [readDispatch]
        exact .fail
      · rw [readGuarded]
        exact .fail
      · rw [readElements]
        exact .fail
      · rw [readDatum]
        exact .fail
  | succ fuel ih =>
      exact ⟨ih.stepItem packages, ih.stepDispatch, ih.stepGuarded, ih.stepElements, ih.stepDatum⟩

theorem Gathers.readNext (packages : HasReadingPackages table) (fuel : Nat) :
    OnlyGathers text table (readNext features fuel) := by
  induction fuel with
  | zero => exact .fail
  | succ fuel ih =>
      rw [Reader.readNext]
      refine Gathers.skip.bind fun _ _ => Gathers.peek.bind fun next? _ => ?_
      split
      · exact .pure trivial
      · refine (gathersItems packages features fuel).item.bind fun item? _ => ?_
        split
        · exact .pure trivial
        · exact ih

theorem Gathers.read (packages : HasReadingPackages table) :
    OnlyGathers text table (read features) :=
  .ofState fun _ _ => Gathers.readNext packages _

theorem Gathers.readManyFrom (packages : HasReadingPackages table) (count : Nat)
    (seen : List Value) :
    OnlyGathers text table (readManyFrom features count seen) := by
  induction count generalizing seen with
  | zero => exact .pure trivial
  | succ count ih =>
      rw [Reader.readManyFrom]
      refine (Gathers.read packages).bind fun form? _ => ?_
      split
      · exact ih _
      · exact .pure trivial

theorem Gathers.readAll (packages : HasReadingPackages table) :
    OnlyGathers text table (readAll features) :=
  .ofState fun _ _ => Gathers.readManyFrom packages _ _

end Items

section Frame

/-- The state that a step of reading ends with, however it ends. -/
def stateOf : EStateM.Result ReadError ReadState α → ReadState
  | .ok _ s => s
  | .error _ s => s

theorem Gathers.adds {text : List Char} {image : Image} {step : Read α} {good : α → Prop}
    (gathers : Gathers text image.symbols step good) :
    Adds (MayIntern text image.symbols) image.symbols
        (stateOf (step ⟨text, image⟩)).image.symbols ∧
      (stateOf (step ⟨text, image⟩)).image.symbols.current = image.symbols.current := by
  have leaves := gathers ⟨text, image⟩ ⟨List.suffix_rfl, .refl _, .inr rfl⟩
  generalize step ⟨text, image⟩ = result at leaves ⊢
  cases leaves with
  | ok underway same held => exact ⟨underway.adds, same⟩
  | error underway same => exact ⟨underway.adds, same⟩

/-- Reading only adds symbols. In every session, whatever the text, whether one form of it is read or
all, and whether or not that fails, the current package is the same afterwards, nothing that was
registered has changed, and each new symbol is uninterned, or is a new entry of the keyword package,
of the current one, or of one that a token of the text names before it. The symbols that stand for
quotes and the like are those that interning their names as exported symbols of `COMMON-LISP` gives at
any time, and that adds nothing. -/
theorem reading_only_adds {ops : List SymbolTable.Operation} {image : Image}
    (reachable : SymbolTable.Runs Image.initialSymbols ops image.symbols) (features : List String)
    (text : List Char) :
    (image.symbols.Gains (MayIntern text image.symbols)
        (stateOf (read features ⟨text, image⟩)).image.symbols ∧
      (stateOf (read features ⟨text, image⟩)).image.symbols.current = image.symbols.current) ∧
    (image.symbols.Gains (MayIntern text image.symbols)
        (stateOf (readAll features ⟨text, image⟩)).image.symbols ∧
      (stateOf (readAll features ⟨text, image⟩)).image.symbols.current = image.symbols.current) ∧
    ∀ name id, (name, id) ∈ operators →
      (image.symbols.internStandard name).1 = id ∧
      (image.symbols.internStandard name).2.symbols = image.symbols.symbols ∧
      (image.symbols.internStandard name).2.current = image.symbols.current ∧
      ∀ p other, ((image.symbols.internStandard name).2.package p).internals.find? other =
          (image.symbols.package p).internals.find? other ∧
        ((image.symbols.internStandard name).2.package p).externals.find? other =
          (image.symbols.package p).externals.find? other := by
  obtain ⟨first, runs⟩ := SymbolTable.runs_initialSymbols
  obtain ⟨wellFormed, -⟩ := SymbolTable.initial_wellFormed.runs (runs.append reachable)
  obtain ⟨-, kept⟩ := (SymbolTable.initial_wellFormed.runs runs).1.runs reachable
  have exported : ∀ operator ∈ operators,
      (Image.initialSymbols.package PackageId.commonLisp).externals.find? operator.1 =
        some operator.2 := by decide +kernel
  have has : HasOperators image.symbols := fun operator member =>
    wellFormed.isStandard (kept.externals _ _ _ (exported operator member))
  have packages : HasReadingPackages image.symbols := .of_wellFormed wellFormed
    ((runs.append reachable).hasCurrent SymbolTable.initial_wellFormed (by decide +kernel))
  refine ⟨(Gathers.read packages).adds.imp_left fun adds => adds.gains has,
    (Gathers.readAll packages).adds.imp_left fun adds => adds.gains has, fun name id member => ?_⟩
  rw [(has (name, id) member).internStandard]
  exact ⟨rfl, rfl, rfl, fun p other => ⟨rfl, rfl⟩⟩

/-- A new session reads a keyword, a symbol of another package and a lone bracket. -/
theorem reading_only_adds_of_failure :
    SymbolTable.Runs Image.initialSymbols [] (Image.initial 0).symbols ∧
    (Image.initial 0).symbols.Gains (MayIntern "(:x cl::y #+(not z) u ]))".toList
        (Image.initial 0).symbols)
      (stateOf (readAll [] ⟨"(:x cl::y #+(not z) u ]))".toList, Image.initial 0⟩)).image.symbols := by
  have reachable : SymbolTable.Runs Image.initialSymbols [] (Image.initial 0).symbols := .nil
  exact ⟨reachable, (reading_only_adds reachable [] _).2.1.1⟩

end Frame

end Reader

end LispScript
