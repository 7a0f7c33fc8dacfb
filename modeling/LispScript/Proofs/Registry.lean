import LispScript.Proofs.Growth

/-!
The registry of symbols and packages. Every operation keeps its representation: a name stands in one
table of a package at most, an entry is a symbol of that name, a symbol is found in its home, and a
package under its names. What was registered stays registered.
-/

namespace LispScript

open Discipline

namespace Package

/-- What a package has of its own under a name. -/
def own? (package : Package) (name : String) : Option SymbolId :=
  (package.internals.find? name).or (package.externals.find? name)

/-- The package with one more entry. -/
def withEntry (package : Package) (exported : Bool) (name : String) (id : SymbolId) : Package :=
  if exported then { package with externals := package.externals.insert name id }
  else { package with internals := package.internals.insert name id }

/-- The package with a symbol among the external ones. -/
def promoting (package : Package) (name : String) (id : SymbolId) : Package :=
  { package with
    internals := package.internals.erase name
    externals := package.externals.insert name id }

/-- No name is in both tables. -/
def Disjoint (package : Package) : Prop :=
  ∀ name, package.internals.find? name = none ∨ package.externals.find? name = none

variable {package : Package} {exported : Bool} {name other : String} {id held : SymbolId}

theorem own?_eq_none : package.own? name = none ↔
    package.internals.find? name = none ∧ package.externals.find? name = none := by
  simp [own?]

theorem own?_of_external (disjoint : package.Disjoint)
    (found : package.externals.find? name = some id) : package.own? name = some id := by
  rw [own?, (disjoint name).resolve_right (by simp [found])]
  exact found

theorem own?_withEntry (absent : package.own? name = none) :
    (package.withEntry exported name id).own? other =
      if other = name then some id else package.own? other := by
  obtain ⟨notInternal, notExternal⟩ := own?_eq_none.mp absent
  by_cases same : other = name
  · subst same
    cases exported <;> simp [own?, withEntry, notInternal]
  · cases exported <;> simp [own?, withEntry, same, NameTable.find?_insert_of_ne same]

theorem Disjoint.withEntry (disjoint : package.Disjoint) (absent : package.own? name = none) :
    (package.withEntry exported name id).Disjoint := by
  obtain ⟨notInternal, notExternal⟩ := own?_eq_none.mp absent
  intro other
  by_cases same : other = name
  · subst same
    cases exported <;> simp [Package.withEntry, notInternal, notExternal]
  · cases exported <;>
      simpa [Package.withEntry, NameTable.find?_insert_of_ne same] using disjoint other

theorem externals_withEntry (absent : package.own? name = none) (disjoint : package.Disjoint)
    (found : package.externals.find? other = some held) :
    (package.withEntry exported name id).externals.find? other = some held := by
  have different : other ≠ name := by
    rintro rfl
    rw [own?_of_external disjoint found] at absent
    cases absent
  cases exported
  · exact found
  · exact (NameTable.find?_insert_of_ne different).trans found

theorem own?_promoting :
    (package.promoting name id).own? other =
      if other = name then some id else package.own? other := by
  by_cases same : other = name
  · subst same
    simp [own?, promoting]
  · simp [own?, promoting, same, NameTable.find?_insert_of_ne same,
      NameTable.find?_erase_of_ne same]

theorem Disjoint.promoting (disjoint : package.Disjoint) :
    (package.promoting name id).Disjoint := by
  intro other
  by_cases same : other = name
  · subst same
    simp [Package.promoting]
  · simpa [Package.promoting, NameTable.find?_insert_of_ne same,
      NameTable.find?_erase_of_ne same] using disjoint other

theorem externals_promoting (kept : package.own? name = none ∨ package.own? name = some id)
    (disjoint : package.Disjoint) (found : package.externals.find? other = some held) :
    (package.promoting name id).externals.find? other = some held := by
  by_cases same : other = name
  · subst same
    rw [own?_of_external disjoint found] at kept
    simpa [Package.promoting] using (kept.resolve_left (by simp)).symm
  · simpa [Package.promoting, NameTable.find?_insert_of_ne same] using found

end Package

namespace SymbolTable

/-- The operations on the registry, the slots of symbols included. -/
inductive Operation where
  | intern (name : String) (package : PackageId)
  | internWithStatus (name : String) (package : PackageId)
  | internKeyword (name : String)
  | internStandard (name : String)
  | makeSymbol (name : String)
  | gensym (stem : String)
  | makePackage (name : String) (nicknames : List String) (uses : List PackageId)
  | usePackage (package used : PackageId)
  | exportSymbol (id : SymbolId) (package : PackageId)
  | setCurrent (package : PackageId)
  | setValue (id : SymbolId) (value : Option Value)
  | setFunction (id : SymbolId) (function : Option Value)
  | setPlist (id : SymbolId) (plist : Value)

section Definitions

variable (table : SymbolTable)

def HasSymbol (id : SymbolId) : Prop := id.index < table.symbols.size

def HasPackage (p : PackageId) : Prop := p.index < table.packages.size

instance (id : SymbolId) : Decidable (table.HasSymbol id) :=
  inferInstanceAs (Decidable (_ < _))

instance (p : PackageId) : Decidable (table.HasPackage p) :=
  inferInstanceAs (Decidable (_ < _))

namespace Operation

/-- The symbols and packages that an operation is about exist. -/
def Applies : Operation → Prop
  | intern _ p | internWithStatus _ p | setCurrent p => table.HasPackage p
  | internKeyword _ | internStandard _ | makeSymbol _ | gensym _ => True
  | makePackage _ _ uses => ∀ used ∈ uses, table.HasPackage used
  | usePackage p used => table.HasPackage p ∧ table.HasPackage used
  | exportSymbol id p => table.HasSymbol id ∧ table.HasPackage p
  | setValue id _ | setFunction id _ | setPlist id _ => table.HasSymbol id

instance : (op : Operation) → Decidable (op.Applies table)
  | intern _ p | internWithStatus _ p | setCurrent p =>
      inferInstanceAs (Decidable (table.HasPackage p))
  | internKeyword _ | internStandard _ | makeSymbol _ | gensym _ => inferInstanceAs (Decidable True)
  | makePackage _ _ uses => inferInstanceAs (Decidable (∀ used ∈ uses, table.HasPackage used))
  | usePackage p used => inferInstanceAs (Decidable (table.HasPackage p ∧ table.HasPackage used))
  | exportSymbol id p => inferInstanceAs (Decidable (table.HasSymbol id ∧ table.HasPackage p))
  | setValue id _ | setFunction id _ | setPlist id _ =>
      inferInstanceAs (Decidable (table.HasSymbol id))

/-- What an operation does to the table, unless it is refused. -/
def run : Operation → TableChange Unit
  | intern name p => modify fun table => (table.intern name p).2
  | internWithStatus name p => modify fun table => (table.internWithStatus name p).2
  | internKeyword name => modify fun table => (table.internKeyword name).2
  | internStandard name => modify fun table => (table.internStandard name).2
  | makeSymbol name => modify fun table => (table.makeSymbol name).2
  | gensym stem => modify fun table => (table.gensym stem).2
  | makePackage name nicknames uses => do let _ ← addPackage name nicknames uses
  | usePackage p used => modify fun table => table.usePackage p used
  | exportSymbol id p => exportFrom id p
  | setCurrent p => modify fun table => table.setCurrent p
  | setValue id value => modify fun table => table.setValue id value
  | setFunction id function => modify fun table => table.setFunction id function
  | setPlist id plist => modify fun table => table.setPlist id plist

/-- The table as an operation leaves it, refused or not. -/
def after (op : Operation) : SymbolTable :=
  match op.run table with
  | .ok _ later | .error _ later => later

end Operation

/-- The representation of the registry. -/
structure WellFormed : Prop where
  disjoint : ∀ p, (table.package p).Disjoint
  entries : ∀ p name id, (table.package p).own? name = some id →
    table.HasSymbol id ∧ table.symbolName id = name
  homes : ∀ id home, table.HasSymbol id → (table.symbol id).home = some home →
    table.HasPackage home ∧ (table.package home).own? (table.symbolName id) = some id
  standard : 3 ≤ table.packages.size
  names : ∀ name p, table.findPackage? name = some p ↔
    table.HasPackage p ∧ (table.package p).isNamed name = true

/-- A later table has all that an earlier one has. -/
structure Keeps (later : SymbolTable) : Prop where
  symbols : ∀ id, table.HasSymbol id → later.HasSymbol id ∧
    later.symbolName id = table.symbolName id ∧ (later.symbol id).home = (table.symbol id).home
  packages : ∀ p, table.HasPackage p → later.HasPackage p ∧
    (later.package p).isNamed = (table.package p).isNamed
  own : ∀ p name id, (table.package p).own? name = some id →
    (later.package p).own? name = some id
  externals : ∀ p name id, (table.package p).externals.find? name = some id →
    (later.package p).externals.find? name = some id

end Definitions

/-- A sequence of operations, each on symbols and packages that exist when its turn comes. -/
inductive Runs : SymbolTable → List Operation → SymbolTable → Prop where
  | nil {table : SymbolTable} : Runs table [] table
  | cons {table later : SymbolTable} {op : Operation} {ops : List Operation}
      (applies : op.Applies table) (rest : Runs (op.after table) ops later) :
      Runs table (op :: ops) later

variable {table later last : SymbolTable} {id : SymbolId} {p home : PackageId} {name : String}

section Access

theorem symbol_push (symbol : Symbol) (id : SymbolId) :
    SymbolTable.symbol { table with symbols := table.symbols.push symbol } id =
      if id.index = table.symbols.size then symbol else table.symbol id :=
  getD_push ..

theorem package_push (package : Package) (p : PackageId) :
    SymbolTable.package { table with packages := table.packages.push package } p =
      if p.index = table.packages.size then package else table.package p :=
  getD_push ..

theorem package_update (f : Package → Package) (has : table.HasPackage p) (q : PackageId) :
    (table.updatePackage p f).package q =
      if q = p then f (table.package p) else table.package q := by
  obtain ⟨i⟩ := p
  obtain ⟨j⟩ := q
  simp only [PackageId.mk.injEq]
  exact getD_modify table.packages f default j has

theorem symbol_update (f : Symbol → Symbol) (has : table.HasSymbol id) (other : SymbolId) :
    (table.updateSymbol id f).symbol other =
      if other = id then f (table.symbol id) else table.symbol other := by
  obtain ⟨i⟩ := id
  obtain ⟨j⟩ := other
  simp only [SymbolId.mk.injEq]
  exact getD_modify table.symbols f default j has

/-- A package finds a symbol of its own before all others. -/
theorem findSymbol?_of_own (found : (table.package p).own? name = some id) :
    table.findSymbol? name p = some (id,
      if ((table.package p).internals.find? name).isSome then .internal else .exported) := by
  rw [Package.own?] at found
  cases internal : (table.package p).internals.find? name with
  | some held =>
      rw [internal] at found
      cases found
      simp [findSymbol?, internal]
  | none =>
      rw [internal] at found
      have external : (table.package p).externals.find? name = some id := found
      simp [findSymbol?, internal, external]

theorem own?_of_findSymbol?_eq_none (absent : table.findSymbol? name p = none) :
    (table.package p).own? name = none := by
  rw [findSymbol?] at absent
  rw [Package.own?_eq_none]
  cases internal : (table.package p).internals.find? name with
  | some held => simp [internal] at absent
  | none =>
      cases external : (table.package p).externals.find? name with
      | some held => simp [internal, external] at absent
      | none => exact ⟨rfl, rfl⟩

/-- What a package finds under a name is its own or else it has nothing of that name. -/
theorem own?_of_findSymbol? {visibility : Visibility}
    (found : table.findSymbol? name p = some (id, visibility)) :
    (table.package p).own? name = none ∨ (table.package p).own? name = some id := by
  rw [findSymbol?] at found
  rw [Package.own?]
  cases internal : (table.package p).internals.find? name with
  | some held =>
      simp only [internal, Option.some.injEq, Prod.mk.injEq] at found
      exact .inr (by simp [found.1])
  | none =>
      cases external : (table.package p).externals.find? name with
      | some held =>
          simp only [internal, external, Option.some.injEq, Prod.mk.injEq] at found
          exact .inr (by simp [found.1])
      | none => exact .inl rfl

end Access

section Persistence

theorem Keeps.refl (table : SymbolTable) : table.Keeps table :=
  ⟨fun _ has => ⟨has, rfl, rfl⟩, fun _ has => ⟨has, rfl⟩, fun _ _ _ found => found,
    fun _ _ _ found => found⟩

theorem Keeps.trans (first : table.Keeps later) (second : later.Keeps last) : table.Keeps last where
  symbols id has := by
    obtain ⟨has', name_eq, home_eq⟩ := first.symbols id has
    obtain ⟨has'', name_eq', home_eq'⟩ := second.symbols id has'
    exact ⟨has'', name_eq'.trans name_eq, home_eq'.trans home_eq⟩
  packages p has := by
    obtain ⟨has', named⟩ := first.packages p has
    obtain ⟨has'', named'⟩ := second.packages p has'
    exact ⟨has'', named'.trans named⟩
  own p name id found := second.own p name id (first.own p name id found)
  externals p name id found := second.externals p name id (first.externals p name id found)

/-- Two tables with the same entries under the same names. -/
structure Alike (table later : SymbolTable) : Prop where
  symbols : later.symbols.size = table.symbols.size
  packages : later.packages.size = table.packages.size
  named : ∀ id, later.symbolName id = table.symbolName id
  home : ∀ id, (later.symbol id).home = (table.symbol id).home
  isNamed : ∀ p, (later.package p).isNamed = (table.package p).isNamed
  packageNames : later.packageNames = table.packageNames
  internals : ∀ p, (later.package p).internals = (table.package p).internals
  externals : ∀ p, (later.package p).externals = (table.package p).externals

theorem Alike.own? (alike : table.Alike later) (p : PackageId) (name : String) :
    (later.package p).own? name = (table.package p).own? name := by
  rw [Package.own?, alike.internals, alike.externals, Package.own?]

theorem Alike.keeps (alike : table.Alike later) : table.Keeps later where
  symbols id has := ⟨by rwa [HasSymbol, alike.symbols], alike.named id, alike.home id⟩
  packages p has := ⟨by rwa [HasPackage, alike.packages], alike.isNamed p⟩
  own p name id found := by rwa [alike.own?]
  externals p name id found := by rwa [alike.externals]

theorem Alike.wellFormed (alike : table.Alike later) (wellFormed : table.WellFormed) :
    later.WellFormed where
  disjoint p name := by
    rw [alike.internals, alike.externals]
    exact wellFormed.disjoint p name
  entries p name id found := by
    rw [alike.own?] at found
    rw [HasSymbol, alike.symbols, alike.named]
    exact wellFormed.entries p name id found
  homes id home has at_home := by
    rw [HasSymbol, alike.symbols] at has
    rw [alike.home] at at_home
    rw [HasPackage, alike.packages, alike.own?, alike.named]
    exact wellFormed.homes id home has at_home
  standard := by rw [alike.packages]; exact wellFormed.standard
  names name p := by
    rw [SymbolTable.findPackage?, alike.packageNames, HasPackage, alike.packages, alike.isNamed]
    exact wellFormed.names name p

theorem alike_updateSymbol (has : table.HasSymbol id) (f : Symbol → Symbol)
    (named : ∀ symbol, (f symbol).name = symbol.name)
    (home : ∀ symbol, (f symbol).home = symbol.home) :
    table.Alike (table.updateSymbol id f) where
  symbols := by simp [updateSymbol]
  packages := rfl
  named other := by
    rw [symbolName, symbolName, symbol_update f has]
    split
    · rename_i same
      rw [same, named]
    · rfl
  home other := by
    rw [symbol_update f has]
    split
    · rename_i same
      rw [same, home]
    · rfl
  isNamed _ := rfl
  packageNames := rfl
  internals _ := rfl
  externals _ := rfl

theorem alike_usePackage (has : table.HasPackage p) (used : PackageId) :
    table.Alike (table.usePackage p used) := by
  have same : ∀ q, ((table.usePackage p used).package q).isNamed = (table.package q).isNamed ∧
      ((table.usePackage p used).package q).internals = (table.package q).internals ∧
      ((table.usePackage p used).package q).externals = (table.package q).externals := by
    intro q
    rw [usePackage, package_update _ has]
    split
    · rename_i same
      rw [same]
      split <;> exact ⟨rfl, rfl, rfl⟩
    · exact ⟨rfl, rfl, rfl⟩
  exact ⟨rfl, by simp [usePackage, updatePackage], fun _ => rfl, fun _ => rfl,
    fun q => (same q).1, rfl, fun q => (same q).2.1, fun q => (same q).2.2⟩

end Persistence

section Additions

/-- A new symbol that belongs to no package. -/
theorem WellFormed.addSymbol (wellFormed : table.WellFormed) (symbol : Symbol)
    (homeless : symbol.home = none) :
    let later := { table with symbols := table.symbols.push symbol }
    later.WellFormed ∧ table.Keeps later := by
  intro later
  have old : ∀ id, table.HasSymbol id → later.symbol id = table.symbol id := by
    intro id has
    rw [symbol_push, if_neg (Nat.ne_of_lt has)]
  have grown : ∀ id, table.HasSymbol id → later.HasSymbol id := by
    intro id has
    rw [HasSymbol, Array.size_push]
    exact Nat.lt_succ_of_lt has
  refine ⟨⟨wellFormed.disjoint, ?_, ?_, wellFormed.standard, wellFormed.names⟩,
    ⟨?_, fun _ has => ⟨has, rfl⟩, fun _ _ _ found => found, fun _ _ _ found => found⟩⟩
  · intro p name id found
    obtain ⟨has, named⟩ := wellFormed.entries p name id found
    exact ⟨grown id has, by rw [symbolName, old id has]; exact named⟩
  · intro id home has at_home
    rw [HasSymbol, Array.size_push] at has
    rw [symbolName]
    rw [symbol_push] at at_home ⊢
    split at at_home
    · rw [homeless] at at_home
      cases at_home
    · rename_i old_id
      rw [if_neg old_id]
      exact wellFormed.homes id home (show id.index < _ by omega) at_home
  · intro id has
    exact ⟨grown id has, by rw [symbolName, old id has, symbolName], by rw [old id has]⟩

/-- A package gets an entry, or has it already, and there may be a new symbol at home there. -/
structure Enters (table later : SymbolTable) (p : PackageId) (name : String) (id : SymbolId) :
    Prop where
  has : table.HasPackage p
  packages : later.packages.size = table.packages.size
  isNamed : ∀ q, (later.package q).isNamed = (table.package q).isNamed
  packageNames : later.packageNames = table.packageNames
  uses : ∀ q, (later.package q).uses = (table.package q).uses
  kept : (table.package p).own? name = none ∨ (table.package p).own? name = some id
  own : ∀ q other, (later.package q).own? other =
    if q = p ∧ other = name then some id else (table.package q).own? other
  externals : ∀ q other held, (table.package q).externals.find? other = some held →
    (later.package q).externals.find? other = some held
  disjoint : ∀ q, (later.package q).Disjoint
  symbols : ∀ held, table.HasSymbol held → later.HasSymbol held ∧
    later.symbolName held = table.symbolName held ∧ (later.symbol held).home = (table.symbol held).home
  entered : later.HasSymbol id ∧ later.symbolName id = name
  only : ∀ held, later.HasSymbol held →
    table.HasSymbol held ∨ held = id ∧ (later.symbol held).home = some p

/-- A symbol that can move to the external half of a package. -/
structure Exportable (table : SymbolTable) (id : SymbolId) (p : PackageId) : Prop where
  symbol : table.HasSymbol id
  package : table.HasPackage p
  kept : (table.package p).own? (table.symbolName id) = none ∨
    (table.package p).own? (table.symbolName id) = some id

theorem Enters.own_kept {q : PackageId} {other : String} {held : SymbolId}
    (enters : table.Enters later p name id) (found : (table.package q).own? other = some held) :
    (later.package q).own? other = some held := by
  rw [enters.own]
  split
  · rename_i both
    obtain ⟨rfl, rfl⟩ := both
    have kept := enters.kept
    rw [found] at kept
    exact (kept.resolve_left (by simp)).symm
  · exact found

theorem Enters.keeps (enters : table.Enters later p name id) : table.Keeps later where
  symbols := enters.symbols
  packages q has := ⟨by rwa [HasPackage, enters.packages], enters.isNamed q⟩
  own _ _ _ := enters.own_kept
  externals := enters.externals

theorem Enters.wellFormed (enters : table.Enters later p name id)
    (wellFormed : table.WellFormed) : later.WellFormed where
  disjoint := enters.disjoint
  entries q other held found := by
    rw [enters.own] at found
    split at found
    · rename_i both
      cases found
      exact ⟨enters.entered.1, enters.entered.2.trans both.2.symm⟩
    · obtain ⟨has, named⟩ := wellFormed.entries q other held found
      obtain ⟨has', named', -⟩ := enters.symbols held has
      exact ⟨has', named'.trans named⟩
  homes held home has homed := by
    rcases enters.only held has with old | ⟨rfl, at_home⟩
    · obtain ⟨-, named, home_eq⟩ := enters.symbols held old
      rw [home_eq] at homed
      obtain ⟨hasHome, found⟩ := wellFormed.homes held home old homed
      rw [named]
      exact ⟨by rwa [HasPackage, enters.packages], enters.own_kept found⟩
    · rw [at_home] at homed
      cases homed
      refine ⟨by rw [HasPackage, enters.packages]; exact enters.has, ?_⟩
      rw [enters.own, if_pos ⟨rfl, enters.entered.2⟩]
  standard := by rw [enters.packages]; exact wellFormed.standard
  names other q := by
    rw [SymbolTable.findPackage?, enters.packageNames, HasPackage, enters.packages, enters.isNamed]
    exact wellFormed.names other q

theorem Enters.exportable (enters : table.Enters later p name id) : later.Exportable id p where
  symbol := enters.entered.1
  package := by rw [HasPackage, enters.packages]; exact enters.has
  kept := .inr (by rw [enters.own, if_pos ⟨rfl, enters.entered.2⟩])

/-- A new symbol with an entry in its home, where nothing stood under its name. -/
theorem WellFormed.enters_new (wellFormed : table.WellFormed) (has : table.HasPackage p)
    (exported : Bool) (symbol : Symbol) (at_home : symbol.home = some p)
    (absent : (table.package p).own? symbol.name = none) :
    table.Enters (SymbolTable.updatePackage { table with symbols := table.symbols.push symbol } p
      (·.withEntry exported symbol.name ⟨table.symbols.size⟩)) p symbol.name
      ⟨table.symbols.size⟩ := by
  set later := SymbolTable.updatePackage { table with symbols := table.symbols.push symbol } p
    (·.withEntry exported symbol.name ⟨table.symbols.size⟩)
  have symbol_eq : ∀ id, later.symbol id =
      if id.index = table.symbols.size then symbol else table.symbol id := symbol_push symbol
  have size : later.symbols.size = table.symbols.size + 1 := Array.size_push ..
  have package_eq : ∀ q, later.package q = if q = p then
      (table.package p).withEntry exported symbol.name ⟨table.symbols.size⟩
      else table.package q := package_update _ has
  constructor
  case has => exact has
  case packages => exact Array.size_modify ..
  case isNamed =>
    intro q
    rw [package_eq]
    split
    · rename_i same
      rw [same]
      cases exported <;> rfl
    · rfl
  case packageNames => rfl
  case uses =>
    intro q
    rw [package_eq]
    split
    · rename_i same
      rw [same]
      cases exported <;> rfl
    · rfl
  case kept => exact .inl absent
  case own =>
    intro q other
    rw [package_eq]
    by_cases same : q = p
    · subst same
      rw [if_pos rfl, Package.own?_withEntry absent]
      simp
    · rw [if_neg same, if_neg (fun both => same both.1)]
  case externals =>
    intro q other held found
    rw [package_eq]
    split
    · rename_i same
      subst same
      exact Package.externals_withEntry absent (wellFormed.disjoint q) found
    · exact found
  case disjoint =>
    intro q
    rw [package_eq]
    split
    · exact (wellFormed.disjoint p).withEntry absent
    · exact wellFormed.disjoint q
  case symbols =>
    intro held hasHeld
    rw [symbolName, symbol_eq, if_neg (Nat.ne_of_lt hasHeld)]
    refine ⟨?_, rfl, rfl⟩
    rw [HasSymbol, size]
    exact Nat.lt_succ_of_lt hasHeld
  case entered =>
    rw [HasSymbol, size, symbolName, symbol_eq, if_pos rfl]
    exact ⟨Nat.lt_succ_self _, rfl⟩
  case only =>
    intro held hasHeld
    rw [HasSymbol, size] at hasHeld
    rw [symbol_eq]
    rcases Nat.lt_succ_iff_lt_or_eq.mp hasHeld with old | new
    · exact .inl old
    · rw [if_pos new]
      exact .inr ⟨congrArg SymbolId.mk new, at_home⟩

/-- A symbol moves to the external half of a package that has no other one of its name. -/
theorem WellFormed.enters_promoted (wellFormed : table.WellFormed) (hasId : table.HasSymbol id)
    (has : table.HasPackage p)
    (kept : (table.package p).own? (table.symbolName id) = none ∨
      (table.package p).own? (table.symbolName id) = some id) :
    table.Enters (table.promote id p) p (table.symbolName id) id := by
  have package_eq : ∀ q, (table.promote id p).package q =
      if q = p then (table.package p).promoting (table.symbolName id) id else table.package q :=
    package_update _ has
  constructor
  case has => exact has
  case packages => exact Array.size_modify ..
  case isNamed =>
    intro q
    rw [package_eq]
    split
    · rename_i same
      rw [same]
      rfl
    · rfl
  case packageNames => rfl
  case uses =>
    intro q
    rw [package_eq]
    split
    · rename_i same
      rw [same]
      rfl
    · rfl
  case kept => exact kept
  case own =>
    intro q other
    rw [package_eq]
    by_cases same : q = p
    · subst same
      rw [if_pos rfl, Package.own?_promoting]
      simp
    · rw [if_neg same, if_neg (fun both => same both.1)]
  case externals =>
    intro q other held found
    rw [package_eq]
    split
    · rename_i same
      subst same
      exact Package.externals_promoting kept (wellFormed.disjoint q) found
    · exact found
  case disjoint =>
    intro q
    rw [package_eq]
    split
    · exact (wellFormed.disjoint p).promoting
    · exact wellFormed.disjoint q
  case symbols => exact fun held has => ⟨has, rfl, rfl⟩
  case entered => exact ⟨hasId, rfl⟩
  case only => exact fun held has => .inl has

/-- The names of a new package find it, and all others find what they found. -/
theorem findPackage?_registerPackage (package : Package) (name : String) :
    (table.registerPackage package).2.findPackage? name =
      if package.isNamed name then some ⟨table.packages.size⟩ else table.findPackage? name := by
  have entered : ∀ (names : List String) (entries : Std.TreeMap String PackageId compare),
      (names.foldl (·.insert · ⟨table.packages.size⟩) entries)[name]? =
        if names.contains name then some ⟨table.packages.size⟩ else entries[name]? := by
    intro names
    induction names with
    | nil => simp
    | cons first rest ih =>
        intro entries
        rw [List.foldl_cons, ih]
        by_cases same : first = name
        · simp [same]
        · simp [Std.TreeMap.getElem?_insert, same, Ne.symm same]
  have named : package.isNamed name = (package.name :: package.nicknames).contains name := by
    rw [Package.isNamed, List.contains_cons, Bool.beq_comm]
  rw [named]
  exact entered (package.name :: package.nicknames) table.packageNames

/-- A new package without symbols whose names are free. -/
theorem WellFormed.registerPackage (wellFormed : table.WellFormed) {package : Package}
    (empty : ∀ name, package.internals.find? name = none ∧ package.externals.find? name = none)
    (free : ∀ name, package.isNamed name = true → table.findPackage? name = none) :
    (table.registerPackage package).2.WellFormed ∧
      table.Keeps (table.registerPackage package).2 := by
  set later := (table.registerPackage package).2
  have package_eq : ∀ p, later.package p =
      if p.index = table.packages.size then package else table.package p := package_push package
  have size : later.packages.size = table.packages.size + 1 := Array.size_push ..
  have grown : ∀ p, table.HasPackage p →
      later.HasPackage p ∧ later.package p = table.package p := by
    intro p has
    rw [HasPackage, size, package_eq, if_neg (Nat.ne_of_lt has)]
    exact ⟨Nat.lt_succ_of_lt has, rfl⟩
  have nothing_at_end : ∀ p : PackageId, p.index = table.packages.size →
      table.package p = default := by
    intro p last
    simp [SymbolTable.package, last]
  have own_eq : ∀ p name, (later.package p).own? name = (table.package p).own? name := by
    intro p name
    rw [package_eq]
    split
    · rename_i last
      rw [nothing_at_end p last, Package.own?, (empty name).1, (empty name).2]
      exact (Package.own?_eq_none.mpr ⟨NameTable.find?_empty, NameTable.find?_empty⟩).symm
    · rfl
  have external_eq : ∀ p name, (later.package p).externals.find? name =
      (table.package p).externals.find? name := by
    intro p name
    rw [package_eq]
    split
    · rename_i last
      rw [nothing_at_end p last, (empty name).2]
      exact NameTable.find?_empty.symm
    · rfl
  refine ⟨⟨?_, ?_, ?_, ?_, ?_⟩, ⟨fun _ has => ⟨has, rfl, rfl⟩, ?_, ?_, ?_⟩⟩
  · intro p name
    rw [package_eq]
    split
    · exact .inl (empty name).1
    · exact wellFormed.disjoint p name
  · intro p name id found
    rw [own_eq] at found
    exact wellFormed.entries p name id found
  · intro id home has homed
    obtain ⟨hasHome, found⟩ := wellFormed.homes id home has homed
    exact ⟨(grown home hasHome).1, (own_eq home _).trans found⟩
  · rw [size]
    exact Nat.le_succ_of_le wellFormed.standard
  · intro name p
    rw [findPackage?_registerPackage]
    by_cases old : table.HasPackage p
    · rw [(grown p old).2, iff_true_intro (grown p old).1, true_and]
      by_cases named : package.isNamed name = true
      · have absent : ¬ (table.package p).isNamed name = true := fun also => by
          have found := (wellFormed.names name p).mpr ⟨old, also⟩
          rw [free name named] at found
          cases found
        rw [if_pos named, iff_false_intro absent, Option.some.injEq]
        exact iff_of_false (fun same => Nat.lt_irrefl _ (same ▸ old)) id
      · rw [if_neg named, wellFormed.names, iff_true_intro old, true_and]
    · by_cases last : p.index = table.packages.size
      · rw [package_eq, if_pos last]
        by_cases named : package.isNamed name = true
        · rw [if_pos named, HasPackage, size, last, Option.some.injEq]
          exact iff_of_true (by rw [← last]) ⟨Nat.lt_succ_self _, named⟩
        · rw [if_neg named, wellFormed.names]
          exact iff_of_false (fun found => old found.1) fun found => named found.2
      · have beyond : ¬ later.HasPackage p := by
          rw [HasPackage, size]
          rw [HasPackage] at old
          omega
        refine iff_of_false (fun found => ?_) fun found => beyond found.1
        split at found
        · cases found
          exact last rfl
        · exact old ((wellFormed.names name p).mp found).1
  · intro p has
    obtain ⟨has', same⟩ := grown p has
    exact ⟨has', by rw [same]⟩
  · intro p name id found
    exact (own_eq p name).trans found
  · intro p name id found
    exact (external_eq p name).trans found

end Additions

section Operations

/-- A package is found under each of its names. -/
theorem WellFormed.findPackage? (wellFormed : table.WellFormed) (has : table.HasPackage p)
    (named : (table.package p).isNamed name = true) : table.findPackage? name = some p :=
  (wellFormed.names name p).mpr ⟨has, named⟩

theorem WellFormed.promote (wellFormed : table.WellFormed) (exportable : table.Exportable id p) :
    (table.promote id p).WellFormed ∧ table.Keeps (table.promote id p) := by
  have enters := wellFormed.enters_promoted exportable.symbol exportable.package exportable.kept
  exact ⟨enters.wellFormed wellFormed, enters.keeps⟩

/-- The symbol that interning makes of a name that is not there. -/
def newSymbol (name : String) (p : PackageId) (id : SymbolId) : Symbol :=
  let value := if p = PackageId.keyword then some (Value.symbol id) else none
  { name, home := some p, value }

theorem intern_of_found {visibility : Visibility}
    (found : table.findSymbol? name p = some (id, visibility)) :
    table.intern name p = (id, table) := by
  rw [SymbolTable.intern, internWithStatus, found]

theorem intern_of_absent (absent : table.findSymbol? name p = none) :
    let id : SymbolId := ⟨table.symbols.size⟩
    table.intern name p = (id, SymbolTable.updatePackage
      { table with symbols := table.symbols.push (newSymbol name p id) } p
      (·.withEntry (p = PackageId.keyword) name id)) := by
  rw [SymbolTable.intern, internWithStatus, absent]
  by_cases keyword : p = PackageId.keyword
  · simp [keyword, Package.withEntry, newSymbol]
  · simp [keyword, Package.withEntry, newSymbol]

/-- A symbol that is found can be exported. -/
theorem WellFormed.exportable_of_found (wellFormed : table.WellFormed) (has : table.HasPackage p)
    {visibility : Visibility} (found : table.findSymbol? name p = some (id, visibility)) :
    table.Exportable id p ∧ table.symbolName id = name := by
  have entry : ∃ q, (table.package q).own? name = some id := by
    rw [findSymbol?] at found
    cases internal : (table.package p).internals.find? name with
    | some held =>
        simp only [internal, Option.some.injEq, Prod.mk.injEq] at found
        exact ⟨p, by rw [Package.own?, internal, found.1]; rfl⟩
    | none =>
        cases external : (table.package p).externals.find? name with
        | some held =>
            simp only [internal, external, Option.some.injEq, Prod.mk.injEq] at found
            exact ⟨p, Package.own?_of_external (wellFormed.disjoint p) (external.trans
              (congrArg some found.1))⟩
        | none =>
            simp only [internal, external, Option.map_eq_some_iff, Prod.mk.injEq] at found
            obtain ⟨held, inherited, rfl, -⟩ := found
            obtain ⟨used, -, exported⟩ := List.exists_of_findSome?_eq_some inherited
            exact ⟨used, Package.own?_of_external (wellFormed.disjoint used) exported⟩
  obtain ⟨q, entry⟩ := entry
  obtain ⟨hasId, named⟩ := wellFormed.entries q name id entry
  refine ⟨⟨hasId, has, ?_⟩, named⟩
  rw [named]
  exact own?_of_findSymbol? found

/-- Interning keeps the representation, and gives a symbol that the package can export. -/
theorem WellFormed.intern (wellFormed : table.WellFormed) (has : table.HasPackage p)
    (name : String) :
    (table.intern name p).2.WellFormed ∧ table.Keeps (table.intern name p).2 ∧
      (table.intern name p).2.Exportable (table.intern name p).1 p := by
  cases found : table.findSymbol? name p with
  | some entry =>
      obtain ⟨id, visibility⟩ := entry
      rw [intern_of_found found]
      exact ⟨wellFormed, .refl table, (wellFormed.exportable_of_found has found).1⟩
  | none =>
      have enters := wellFormed.enters_new has (p = PackageId.keyword)
        (newSymbol name p ⟨table.symbols.size⟩) rfl (own?_of_findSymbol?_eq_none found)
      rw [intern_of_absent found]
      exact ⟨enters.wellFormed wellFormed, enters.keeps, enters.exportable⟩

theorem WellFormed.has_keyword (wellFormed : table.WellFormed) :
    table.HasPackage PackageId.keyword :=
  Nat.lt_of_lt_of_le (by decide) wellFormed.standard

theorem WellFormed.has_commonLisp (wellFormed : table.WellFormed) :
    table.HasPackage PackageId.commonLisp :=
  Nat.lt_of_lt_of_le (by decide) wellFormed.standard

theorem WellFormed.internStandard (wellFormed : table.WellFormed) (name : String) :
    (table.internStandard name).2.WellFormed ∧ table.Keeps (table.internStandard name).2 := by
  obtain ⟨middle, kept, exportable⟩ := wellFormed.intern wellFormed.has_commonLisp name
  obtain ⟨last, kept'⟩ := middle.promote exportable
  exact ⟨last, kept.trans kept'⟩

theorem TableChange.get_bind {α : Type} {next : SymbolTable → TableChange α} :
    (get >>= next) table = next table table := rfl

/-- A symbol is exported where it is found, and where it is not the table is as it was. -/
theorem exportFrom_eq (id : SymbolId) (p : PackageId) (table : SymbolTable) :
    (∃ visibility, table.findSymbol? (table.symbolName id) p = some (id, visibility)) ∧
        exportFrom id p table = .ok () (table.promote id p) ∨
      (∀ visibility, table.findSymbol? (table.symbolName id) p ≠ some (id, visibility)) ∧
        exportFrom id p table = .error
          (.inaccessible (table.symbolName id) (table.packageName p)) table := by
  unfold exportFrom
  rw [TableChange.get_bind]
  cases found : table.findSymbol? (table.symbolName id) p with
  | none => exact .inr ⟨fun visibility => Option.some_ne_none _ |>.symm, rfl⟩
  | some entry =>
      obtain ⟨held, visibility⟩ := entry
      by_cases same : held = id
      · exact .inl ⟨⟨visibility, by rw [same]⟩, by simp only [if_pos same]; rfl⟩
      · refine .inr ⟨fun visibility' also => same ?_, by simp only [if_neg same]; rfl⟩
        cases also
        rfl

theorem expectFree_eq (name : String) (table : SymbolTable) : expectFree name table =
    if (table.findPackage? name).isSome then .error (.packageExists name) table
    else .ok () table := by
  change (if (table.findPackage? name).isSome then throw (.packageExists name)
    else pure () : TableChange Unit) table = _
  split <;> rfl

/-- Names are refused from the first one on that is taken. -/
theorem expectFree_all (names : List String) (table : SymbolTable) :
    (∀ candidate ∈ names, table.findPackage? candidate = none) ∧
        names.forM expectFree table = .ok () table ∨
      ∃ taken ∈ names, (table.findPackage? taken).isSome = true ∧
        names.forM expectFree table = .error (.packageExists taken) table := by
  induction names with
  | nil => exact .inl ⟨nofun, rfl⟩
  | cons first rest ih =>
      have opened : (first :: rest).forM expectFree table =
          EStateM.bind (expectFree first) (fun _ => rest.forM expectFree) table := rfl
      rw [opened, EStateM.bind, expectFree_eq]
      cases found : table.findPackage? first with
      | some held => exact .inr ⟨first, List.mem_cons_self, by rw [found]; rfl, rfl⟩
      | none =>
          rcases ih with ⟨free, ended⟩ | ⟨taken, member, held, ended⟩
          · exact .inl ⟨List.forall_mem_cons.mpr ⟨found, free⟩, ended⟩
          · exact .inr ⟨taken, List.mem_cons_of_mem _ member, held, ended⟩

/-- A package is added where its names are free, and where one is not the table is as it was. -/
theorem Operation.run_makePackage (name : String) (nicknames : List String)
    (uses : List PackageId) (table : SymbolTable) :
    (∀ candidate ∈ name :: nicknames, table.findPackage? candidate = none) ∧
        (Operation.makePackage name nicknames uses).run table =
          .ok () (table.registerPackage { name, nicknames, uses }).2 ∨
      ∃ taken ∈ name :: nicknames, (table.findPackage? taken).isSome = true ∧
        (Operation.makePackage name nicknames uses).run table =
          .error (.packageExists taken) table := by
  have opened : (Operation.makePackage name nicknames uses).run table =
      EStateM.bind (EStateM.bind ((name :: nicknames).forM expectFree)
        fun _ => modifyGet (·.registerPackage { name, nicknames, uses }))
        (fun _ => pure ()) table := rfl
  rw [opened, EStateM.bind, EStateM.bind]
  rcases expectFree_all (name :: nicknames) table with ⟨free, ended⟩ | ⟨taken, member, held, ended⟩
  · rw [ended]
    exact .inl ⟨free, rfl⟩
  · rw [ended]
    exact .inr ⟨taken, member, held, rfl⟩

theorem isNamed_iff {package : Package} :
    package.isNamed name = true ↔ name ∈ package.name :: package.nicknames := by
  rw [Package.isNamed, Bool.or_eq_true, beq_iff_eq, List.contains_iff_mem, List.mem_cons, eq_comm]

/-- A package without symbols of its own is added under free names. -/
theorem WellFormed.addPackage (wellFormed : table.WellFormed) {nicknames : List String}
    (uses : List PackageId)
    (free : ∀ candidate ∈ name :: nicknames, table.findPackage? candidate = none) :
    (table.registerPackage { name, nicknames, uses }).2.WellFormed ∧
      table.Keeps (table.registerPackage { name, nicknames, uses }).2 :=
  wellFormed.registerPackage (fun _ => ⟨NameTable.find?_empty, NameTable.find?_empty⟩)
    fun _ named => free _ (isNamed_iff.mp named)

theorem Operation.after_makePackage (name : String) (nicknames : List String)
    (uses : List PackageId) (table : SymbolTable) :
    (∀ candidate ∈ name :: nicknames, table.findPackage? candidate = none) ∧
        (Operation.makePackage name nicknames uses).after table =
          (table.registerPackage { name, nicknames, uses }).2 ∨
      (Operation.makePackage name nicknames uses).after table = table := by
  rw [after]
  rcases run_makePackage name nicknames uses table with ⟨free, ended⟩ | ⟨taken, -, -, ended⟩
  · rw [ended]
    exact .inl ⟨free, rfl⟩
  · rw [ended]
    exact .inr rfl

theorem Operation.after_exportSymbol (id : SymbolId) (p : PackageId) (table : SymbolTable) :
    (∃ visibility, table.findSymbol? (table.symbolName id) p = some (id, visibility)) ∧
        (Operation.exportSymbol id p).after table = table.promote id p ∨
      (Operation.exportSymbol id p).after table = table := by
  rw [after, run]
  rcases exportFrom_eq id p table with ⟨found, ended⟩ | ⟨-, ended⟩
  · rw [ended]
    exact .inl ⟨found, rfl⟩
  · rw [ended]
    exact .inr rfl

/-- No operation harms the representation, and none takes anything away. -/
theorem WellFormed.after {op : Operation} (wellFormed : table.WellFormed)
    (applies : op.Applies table) :
    (op.after table).WellFormed ∧ table.Keeps (op.after table) := by
  have alike : ∀ {later}, table.Alike later → later.WellFormed ∧ table.Keeps later :=
    fun alike => ⟨alike.wellFormed wellFormed, alike.keeps⟩
  cases op with
  | intern name p =>
      obtain ⟨last, kept, -⟩ := wellFormed.intern applies name
      exact ⟨last, kept⟩
  | internWithStatus name p =>
      obtain ⟨last, kept, -⟩ := wellFormed.intern applies name
      exact ⟨last, kept⟩
  | internKeyword name =>
      obtain ⟨last, kept, -⟩ := wellFormed.intern wellFormed.has_keyword name
      exact ⟨last, kept⟩
  | internStandard name => exact wellFormed.internStandard name
  | makeSymbol name => exact wellFormed.addSymbol { name, home := none } rfl
  | gensym stem =>
      -- The counter is no part of the representation.
      have counted : table.Alike { table with generated := table.generated + 1 } :=
        ⟨rfl, rfl, fun _ => rfl, fun _ => rfl, fun _ => rfl, rfl, fun _ => rfl, fun _ => rfl⟩
      obtain ⟨last, kept⟩ := (alike counted).1.addSymbol
        { name := stem ++ toString (table.generated + 1), home := none } rfl
      exact ⟨last, counted.keeps.trans kept⟩
  | makePackage name nicknames uses =>
      rcases Operation.after_makePackage name nicknames uses table with ⟨free, after_eq⟩ | after_eq
      · rw [after_eq]
        exact wellFormed.addPackage uses free
      · rw [after_eq]
        exact ⟨wellFormed, .refl table⟩
  | usePackage p used => exact alike (alike_usePackage applies.1 used)
  | exportSymbol id p =>
      rcases Operation.after_exportSymbol id p table with ⟨⟨visibility, found⟩, after_eq⟩ | after_eq
      · rw [after_eq]
        exact wellFormed.promote (wellFormed.exportable_of_found applies.2 found).1
      · rw [after_eq]
        exact ⟨wellFormed, .refl table⟩
  | setCurrent p =>
      exact alike
        ⟨rfl, rfl, fun _ => rfl, fun _ => rfl, fun _ => rfl, rfl, fun _ => rfl, fun _ => rfl⟩
  | setValue id value => exact alike (alike_updateSymbol applies _ (fun _ => rfl) fun _ => rfl)
  | setFunction id function =>
      exact alike (alike_updateSymbol applies _ (fun _ => rfl) fun _ => rfl)
  | setPlist id plist => exact alike (alike_updateSymbol applies _ (fun _ => rfl) fun _ => rfl)

theorem WellFormed.runs {ops : List Operation} (wellFormed : table.WellFormed)
    (runs : Runs table ops later) : later.WellFormed ∧ table.Keeps later := by
  induction runs with
  | nil => exact ⟨wellFormed, .refl _⟩
  | cons applies rest ih =>
      obtain ⟨next, kept⟩ := wellFormed.after applies
      obtain ⟨last, kept'⟩ := ih next
      exact ⟨last, kept.trans kept'⟩

end Operations

section Registry

theorem bare_wellFormed : bare.WellFormed := by
  have package_cases : ∀ p, bare.HasPackage p →
      p = PackageId.keyword ∨ p = PackageId.commonLisp ∨ p = PackageId.commonLispUser := by
    rintro ⟨i⟩ has
    have bound : i < 3 := has
    simp only [PackageId.keyword, PackageId.commonLisp, PackageId.commonLispUser,
      PackageId.mk.injEq]
    omega
  have empty : ∀ p, (bare.package p).internals = {} ∧ (bare.package p).externals = {} := by
    intro p
    by_cases has : bare.HasPackage p
    · rcases package_cases p has with rfl | rfl | rfl <;> exact ⟨rfl, rfl⟩
    · have outside : bare.package p = default := by
        rw [SymbolTable.package, Array.getD_eq_getD_getElem?,
          Array.getElem?_eq_none (Nat.le_of_not_lt has)]
        rfl
      rw [outside]
      exact ⟨rfl, rfl⟩
  have nothing : ∀ p name, (bare.package p).own? name = none := by
    intro p name
    rw [Package.own?, (empty p).1, (empty p).2, NameTable.find?_empty]
    rfl
  constructor
  case disjoint =>
    intro p name
    rw [(empty p).1]
    exact .inl NameTable.find?_empty
  case entries =>
    intro p name id found
    rw [nothing] at found
    cases found
  case homes => exact fun _ _ has _ => absurd has (Nat.not_lt_zero _)
  case standard => exact Nat.le_refl 3
  case names =>
    intro name p
    have found : bare.findPackage? name =
        if (bare.package PackageId.commonLispUser).isNamed name then
          some PackageId.commonLispUser
        else if (bare.package PackageId.commonLisp).isNamed name then some PackageId.commonLisp
        else if (bare.package PackageId.keyword).isNamed name then some PackageId.keyword
        else none := by
      refine (findPackage?_registerPackage _ name).trans (congrArg (ite _ _) ?_)
      refine (findPackage?_registerPackage _ name).trans (congrArg (ite _ _) ?_)
      exact findPackage?_registerPackage _ name
    have keyword : (bare.package PackageId.keyword).isNamed name = true ↔ name = "KEYWORD" := by
      rw [isNamed_iff]
      exact List.mem_singleton
    have commonLisp : (bare.package PackageId.commonLisp).isNamed name = true ↔
        name = "COMMON-LISP" ∨ name = "CL" := by
      rw [isNamed_iff]
      exact List.mem_pair
    have user : (bare.package PackageId.commonLispUser).isNamed name = true ↔
        name = "COMMON-LISP-USER" ∨ name = "CL-USER" := by
      rw [isNamed_iff]
      exact List.mem_pair
    rw [found]
    constructor
    · intro same
      split at same
      · cases same
        exact ⟨by decide, ‹_›⟩
      · split at same
        · cases same
          exact ⟨by decide, ‹_›⟩
        · split at same
          · cases same
            exact ⟨by decide, ‹_›⟩
          · cases same
    · rintro ⟨has, named⟩
      rcases package_cases p has with rfl | rfl | rfl
      · obtain rfl := keyword.mp named
        rw [if_neg (by rw [user]; decide), if_neg (by rw [commonLisp]; decide), if_pos named]
      · rw [if_neg, if_pos named]
        rw [user]
        rcases commonLisp.mp named with rfl | rfl <;> decide
      · rw [if_pos named]

theorem initial_wellFormed : initial.WellFormed := by
  obtain ⟨withNil, -⟩ := bare_wellFormed.internStandard "NIL"
  obtain ⟨withT, -⟩ := withNil.internStandard "T"
  have hasNil : ((bare.internStandard "NIL").2.internStandard "T").2.HasSymbol ⟨0⟩ := by decide
  have first := alike_updateSymbol hasNil (fun symbol => { symbol with value := some .nil })
    (fun _ => rfl) fun _ => rfl
  have hasT : (((bare.internStandard "NIL").2.internStandard "T").2.setValue ⟨0⟩
      (some .nil)).HasSymbol ⟨1⟩ := by decide
  have second := alike_updateSymbol hasT (fun symbol => { symbol with value := some .t })
    (fun _ => rfl) fun _ => rfl
  exact second.wellFormed (first.wellFormed withT)

/-- The grounds on which an operation is refused. -/
inductive Refusal (table : SymbolTable) : Operation → PackageError → Prop where
  | packageExists {name taken : String} {nicknames : List String} {uses : List PackageId}
      (member : taken ∈ name :: nicknames) (found : (table.findPackage? taken).isSome = true) :
      Refusal table (.makePackage name nicknames uses) (.packageExists taken)
  | inaccessible {id : SymbolId} {p : PackageId}
      (hidden : ∀ visibility,
        table.findSymbol? (table.symbolName id) p ≠ some (id, visibility)) :
      Refusal table (.exportSymbol id p)
        (.inaccessible (table.symbolName id) (table.packageName p))

/-- An operation is refused on its grounds, and the table is as it was. -/
theorem Operation.refusal {op : Operation} {e : PackageError}
    (refused : op.run table = .error e later) : later = table ∧ table.Refusal op e := by
  cases op <;> try cases refused
  case makePackage name nicknames uses =>
    rcases run_makePackage name nicknames uses table with
      ⟨free, ended⟩ | ⟨taken, member, held, ended⟩
    · rw [ended] at refused
      cases refused
    · rw [ended] at refused
      cases refused
      exact ⟨rfl, .packageExists member held⟩
  case exportSymbol id p =>
    rw [Operation.run] at refused
    rcases exportFrom_eq id p table with ⟨found, ended⟩ | ⟨hidden, ended⟩
    · rw [ended] at refused
      cases refused
    · rw [ended] at refused
      cases refused
      exact ⟨rfl, .inaccessible hidden⟩

/-- What the registry is at every moment, and what it keeps from there on. -/
structure Registered (table : SymbolTable) : Prop where
  disjoint : ∀ p name, (table.package p).internals.find? name = none ∨
    (table.package p).externals.find? name = none
  entries : ∀ p name id, (table.package p).internals.find? name = some id ∨
      (table.package p).externals.find? name = some id →
    table.HasSymbol id ∧ table.symbolName id = name
  homes : ∀ id home, table.HasSymbol id → (table.symbol id).home = some home →
    (∃ visibility, (visibility = .internal ∨ visibility = .exported) ∧
      table.findSymbol? (table.symbolName id) home = some (id, visibility)) ∧
    ∀ ops later, Runs table ops later →
      later.intern (table.symbolName id) home = (id, later)
  standard : (table.symbolName SymbolId.nil = "NIL" ∧
      (table.package PackageId.commonLisp).externals.find? "NIL" = some SymbolId.nil) ∧
    table.symbolName SymbolId.t = "T" ∧
      (table.package PackageId.commonLisp).externals.find? "T" = some SymbolId.t
  names : ∀ p name, table.HasPackage p → (table.package p).isNamed name = true →
    ∀ ops later, Runs table ops later → later.findPackage? name = some p
  externals : ∀ p name id, (table.package p).externals.find? name = some id →
    ∀ ops later, Runs table ops later → (later.package p).externals.find? name = some id

theorem registered_of_runs {ops : List Operation} (runs : Runs initial ops table) :
    table.Registered := by
  obtain ⟨wellFormed, kept⟩ := initial_wellFormed.runs runs
  constructor
  case disjoint => exact wellFormed.disjoint
  case entries =>
    intro p name id found
    refine wellFormed.entries p name id ?_
    rcases found with internal | external
    · rw [Package.own?, internal]
      rfl
    · exact Package.own?_of_external (wellFormed.disjoint p) external
  case homes =>
    intro id home has homed
    obtain ⟨-, own⟩ := wellFormed.homes id home has homed
    refine ⟨⟨_, ?_, findSymbol?_of_own own⟩, ?_⟩
    · split
      · exact .inl rfl
      · exact .inr rfl
    · intro more later rest
      exact intern_of_found (findSymbol?_of_own ((wellFormed.runs rest).2.own _ _ _ own))
  case standard =>
    obtain ⟨-, nilName, -⟩ := kept.symbols SymbolId.nil (by decide)
    obtain ⟨-, tName, -⟩ := kept.symbols SymbolId.t (by decide)
    exact ⟨⟨nilName, kept.externals _ _ _ rfl⟩, tName, kept.externals _ _ _ rfl⟩
  case names =>
    intro p name has named more later rest
    obtain ⟨wellFormed', kept'⟩ := wellFormed.runs rest
    obtain ⟨has', isNamed⟩ := kept'.packages p has
    exact wellFormed'.findPackage? has' (by rw [isNamed, named])
  case externals =>
    intro p name id found more later rest
    exact (wellFormed.runs rest).2.externals p name id found

/-- The registry keeps its representation over every sequence of operations, and one that is refused
leaves the table as it was. Ids are counted on, and 32 bits hold them for as long as there are no more
symbols and packages than that. -/
theorem registry_keeps_representation {ops : List Operation} (runs : Runs initial ops table) :
    table.Registered ∧
    (∀ (op : Operation) (e : PackageError) (later : SymbolTable), op.run table = .error e later →
      later = table ∧ table.Refusal op e) ∧
    (table.symbols.size ≤ 2 ^ 32 → ∀ id, table.HasSymbol id →
      id.index.toUInt32.toNat = id.index) ∧
    (table.packages.size ≤ 2 ^ 32 → ∀ p, table.HasPackage p →
      p.index.toUInt32.toNat = p.index) := by
  refine ⟨registered_of_runs runs, fun op e later refused => op.refusal refused,
    fun small id has => ?_, fun small p has => ?_⟩
  · exact Nat.mod_eq_of_lt (Nat.lt_of_lt_of_le has small)
  · exact Nat.mod_eq_of_lt (Nat.lt_of_lt_of_le has small)

/-- A package takes a nickname, so that the next one is refused, and exports what it inherits; a
symbol that a package cannot see is not exported there. -/
theorem registry_keeps_representation_of_clash :
    let ops : List Operation := [.makePackage "LEFT" ["L"] [PackageId.commonLisp],
      .makePackage "RIGHT" ["L"] [], .exportSymbol SymbolId.nil ⟨3⟩, .intern "X" ⟨3⟩,
      .exportSymbol ⟨2⟩ PackageId.commonLispUser, .gensym "X", .usePackage ⟨1⟩ ⟨3⟩,
      .internStandard "X"]
    let table := ops.foldl (fun table op => op.after table) initial
    Runs initial ops table ∧ table.Registered ∧
      (Operation.makePackage "L" [] []).run table = .error (.packageExists "L") table := by
  intro ops table
  have runs : Runs initial ops table :=
    .cons (by decide +kernel) <| .cons (by decide +kernel) <| .cons (by decide +kernel) <|
    .cons (by decide +kernel) <| .cons (by decide +kernel) <| .cons (by decide +kernel) <|
    .cons (by decide +kernel) <| .cons (by decide +kernel) .nil
  obtain ⟨registered, failure, -⟩ := registry_keeps_representation runs
  have taken : (table.findPackage? "L").isSome = true := by decide +kernel
  obtain ⟨later, refused⟩ : ∃ later,
      (Operation.makePackage "L" [] []).run table = .error (.packageExists "L") later := by
    rcases Operation.run_makePackage "L" [] [] table with ⟨free, -⟩ | ⟨name, member, -, ended⟩
    · rw [free "L" List.mem_cons_self] at taken
      cases taken
    · exact ⟨table, List.mem_singleton.mp member ▸ ended⟩
  obtain ⟨rfl, -⟩ := failure _ _ _ refused
  exact ⟨runs, registered, refused⟩

end Registry

end SymbolTable

end LispScript
