import LispScript.Proofs.FormEffects
import LispScript.Proofs.Histories

/-!
What compiling leaves alone. Declarations live in cells that bindings share, and a form that does
not act while it is compiled changes none of the cells that are there, save for the note that a
binding is used: what it declares it declares about copies. So no name means anything else after
such a form, at top level or in any environment around it, and no symbol or package changes.
-/

namespace LispScript

namespace SymbolTable

variable {table later last : SymbolTable}

/-- What was in a table is in a later one as it was; there may be more symbols. -/
structure OnlyGains (table later : SymbolTable) : Prop where
  count : table.symbolCount ≤ later.symbolCount
  symbol : ∀ id, table.HasSymbol id → later.symbol id = table.symbol id
  current : later.current = table.current
  uses : ∀ p, (later.package p).uses = (table.package p).uses

theorem OnlyGains.refl (table : SymbolTable) : table.OnlyGains table :=
  ⟨Nat.le_refl _, fun _ _ => rfl, rfl, fun _ => rfl⟩

theorem OnlyGains.trans (first : table.OnlyGains later) (second : later.OnlyGains last) :
    table.OnlyGains last where
  count := Nat.le_trans first.count second.count
  symbol id has :=
    (second.symbol id (Nat.lt_of_lt_of_le has first.count)).trans (first.symbol id has)
  current := second.current.trans first.current
  uses p := (second.uses p).trans (first.uses p)

theorem uses_updatePackage {f : Package → Package}
    (same : ∀ package, (f package).uses = package.uses) (p q : PackageId) :
    ((table.updatePackage p f).package q).uses = (table.package q).uses := by
  simp only [SymbolTable.package, updatePackage, Array.getD_eq_getD_getElem?, Array.getElem?_modify]
  split
  · cases table.packages[q.index]? with
    | none => rfl
    | some package => exact same package
  · rfl

theorem OnlyGains.intern (table : SymbolTable) (name : String) (p : PackageId) :
    table.OnlyGains (table.intern name p).2 := by
  cases found : table.findSymbol? name p with
  | some result =>
      obtain ⟨id, visibility⟩ := result
      rw [intern_of_found found]
      exact .refl table
  | none =>
      rw [intern_of_absent found]
      refine ⟨by simp [symbolCount, updatePackage], fun id has => ?_, rfl, fun q => ?_⟩
      · exact (symbol_push _ id).trans (if_neg (Nat.ne_of_lt has))
      · refine uses_updatePackage (fun package => ?_) p q
        unfold Package.withEntry
        split <;> rfl

end SymbolTable

namespace Compiler

section Meanings

/-- What a name means: what it compiles to, and what is declared about it. -/
structure Meaning where
  reference : Reference
  special : Bool := false
  notInline : Bool := false
  constant : Bool := false

/-- A reference with its declarations; whether it was used says nothing about what it means. -/
def Reference.meaning (reference : Reference) (declarations : Declarations) : Meaning :=
  ⟨reference, declarations.special, declarations.notInline, declarations.constant⟩

namespace Bindings

variable (bindings : Bindings)

def meaning (binding : Binding) : Meaning := binding.reference.meaning (bindings.declared binding)

/-- What a name means at top level. One that has no global binding means its symbol's slot. -/
def globalMeaning (id : SymbolId) (space : Namespace) : Meaning :=
  match bindings.getGlobal? id space with
  | some binding => bindings.meaning binding
  | none => { reference := .slot }

/-- What a name means in an environment, unless it means nothing there. -/
def meaning? (env : Environment) (name : Value) (space : Namespace) : Option Meaning :=
  match env.lookup? name space with
  | some binding => some (bindings.meaning binding)
  | none =>
      match space, name.asSymbol? with
      | .vars, some id | .functions, some id => some (bindings.globalMeaning id space)
      | _, _ => none

/-- A binding whose declarations are there. -/
def Has (binding : Binding) : Prop := binding.declarations < bindings.declarations.size

/-- An environment whose bindings all have their declarations. -/
def Holds (env : Environment) : Prop := ∀ binding ∈ env, bindings.Has binding

/-- A binding that shares its declarations with no global one. -/
def IsLocal (binding : Binding) : Prop := bindings.Has binding ∧
  ∀ id space global, bindings.getGlobal? id space = some global →
    global.declarations ≠ binding.declarations

/-- Global bindings are filed under their names, and their declarations are there. -/
structure Placed : Prop where
  name : ∀ id space binding, bindings.getGlobal? id space = some binding →
    binding.name = .ofSymbol id
  space : ∀ id space binding, bindings.getGlobal? id space = some binding → binding.space = space
  has : ∀ id space binding, bindings.getGlobal? id space = some binding → bindings.Has binding

end Bindings

end Meanings

section Gains

namespace Bindings

variable {bindings later last : Bindings}

/-- What was bound is bound later, and means the same. -/
structure OnlyGains (bindings later : Bindings) : Prop where
  size : bindings.declarations.size ≤ later.declarations.size
  meaning : ∀ binding, bindings.Has binding → later.meaning binding = bindings.meaning binding
  placed : bindings.Placed → later.Placed
  globalMeaning : bindings.Placed → ∀ id space,
    later.globalMeaning id space = bindings.globalMeaning id space
  locals : ∀ binding, bindings.IsLocal binding → later.IsLocal binding

theorem OnlyGains.refl (bindings : Bindings) : bindings.OnlyGains bindings :=
  ⟨Nat.le_refl _, fun _ _ => rfl, id, fun _ _ _ => rfl, fun _ => id⟩

theorem Has.mono {binding : Binding} (has : bindings.Has binding)
    (size : bindings.declarations.size ≤ later.declarations.size) : later.Has binding :=
  Nat.lt_of_lt_of_le has size

theorem OnlyGains.trans (first : bindings.OnlyGains later) (second : later.OnlyGains last) :
    bindings.OnlyGains last where
  size := Nat.le_trans first.size second.size
  meaning binding has :=
    (second.meaning binding (has.mono first.size)).trans (first.meaning binding has)
  placed placed := second.placed (first.placed placed)
  globalMeaning placed id space :=
    (second.globalMeaning (first.placed placed) id space).trans
      (first.globalMeaning placed id space)
  locals binding isLocal := second.locals binding (first.locals binding isLocal)

/-- Where the global bindings are the same, it is enough that the declarations mean the same. -/
theorem OnlyGains.of_globals (size : bindings.declarations.size ≤ later.declarations.size)
    (globals : later.globals = bindings.globals)
    (meaning : ∀ binding, bindings.Has binding → later.meaning binding = bindings.meaning binding) :
    bindings.OnlyGains later := by
  have same (id : SymbolId) (space : Namespace) :
      later.getGlobal? id space = bindings.getGlobal? id space := by
    rw [getGlobal?, getGlobal?, globals]
  refine ⟨size, meaning, fun placed => ⟨?_, ?_, ?_⟩, fun placed id space => ?_, fun binding isLocal =>
    ⟨isLocal.1.mono size, fun id space global found => isLocal.2 id space global (same id space ▸ found)⟩⟩
  · exact fun id space binding found => placed.name id space binding (same id space ▸ found)
  · exact fun id space binding found => placed.space id space binding (same id space ▸ found)
  · exact fun id space binding found =>
      (placed.has id space binding (same id space ▸ found)).mono size
  · unfold Bindings.globalMeaning
    rw [same]
    cases found : bindings.getGlobal? id space with
    | none => rfl
    | some binding => exact meaning binding (placed.has id space binding found)

theorem OnlyGains.bindWith (bindings : Bindings) (name : Value) (space : Namespace)
    (reference : Reference) (declarations : Declarations) :
    bindings.OnlyGains (bindings.bindWith name space reference declarations).2 := by
  refine .of_globals (by simp [Bindings.bindWith]) rfl fun binding has => ?_
  refine congrArg binding.reference.meaning ?_
  simp [Bindings.declared, Bindings.bindWith, Array.getD_eq_getD_getElem?, Array.getElem?_push,
    Nat.ne_of_lt has]

theorem OnlyGains.markUsed (bindings : Bindings) (binding : Binding) :
    bindings.OnlyGains (bindings.markUsed binding) := by
  refine .of_globals (by simp [Bindings.markUsed, updateDeclared]) rfl fun other has => ?_
  simp only [Bindings.meaning, Bindings.declared, Bindings.markUsed, updateDeclared,
    Array.getD_eq_getD_getElem?, Array.getElem?_modify]
  split
  · cases bindings.declarations[other.declarations]? with
    | none => rfl
    | some declarations => rfl
  · rfl

theorem getGlobal?_putGlobal (bindings : Bindings) (name other : SymbolId) (space room : Namespace)
    (binding : Binding) :
    (bindings.putGlobal name space binding).getGlobal? other room =
      if name = other ∧ space = room then some binding else bindings.getGlobal? other room := by
  simp only [getGlobal?, putGlobal, Std.TreeMap.getElem?_insert, compare_eq_iff_eq, globalKey_inj]

theorem globalMeaning_putGlobal (bindings : Bindings) (name other : SymbolId)
    (space room : Namespace) (binding : Binding) :
    (bindings.putGlobal name space binding).globalMeaning other room =
      if name = other ∧ space = room then bindings.meaning binding
      else bindings.globalMeaning other room := by
  unfold Bindings.globalMeaning
  rw [getGlobal?_putGlobal]
  by_cases here : name = other ∧ space = room
  · rw [if_pos here, if_pos here]
    rfl
  · rw [if_neg here, if_neg here]
    rfl

/-- A global binding that is filed under its name is in its place. -/
theorem Placed.putGlobal (placed : bindings.Placed) {id : SymbolId} {space : Namespace}
    {binding : Binding} (name : binding.name = .ofSymbol id) (same : binding.space = space)
    (has : bindings.Has binding) : (bindings.putGlobal id space binding).Placed := by
  have known : ∀ other room held,
      (bindings.putGlobal id space binding).getGlobal? other room = some held →
      held.name = .ofSymbol other ∧ held.space = room ∧ bindings.Has held := by
    intro other room held found
    rw [getGlobal?_putGlobal] at found
    split at found
    · rename_i here
      obtain ⟨rfl, rfl⟩ := here
      cases found
      exact ⟨name, same, has⟩
    · exact ⟨placed.name _ _ _ found, placed.space _ _ _ found, placed.has _ _ _ found⟩
  exact ⟨fun _ _ _ found => (known _ _ _ found).1, fun _ _ _ found => (known _ _ _ found).2.1,
    fun _ _ _ found => (known _ _ _ found).2.2⟩

/-- A new global binding shares its declarations with none that was there. -/
theorem IsLocal.putGlobal {binding global : Binding} (isLocal : bindings.IsLocal binding)
    (other : global.declarations ≠ binding.declarations) (id : SymbolId) (space : Namespace) :
    (bindings.putGlobal id space global).IsLocal binding := by
  refine ⟨isLocal.1, fun name room held found => ?_⟩
  rw [getGlobal?_putGlobal] at found
  split at found
  · cases found
    exact other
  · exact isLocal.2 name room held found

theorem has_bindWith (bindings : Bindings) (name : Value) (space : Namespace)
    (reference : Reference) (declarations : Declarations) :
    (bindings.bindWith name space reference declarations).2.Has
      (bindings.bindWith name space reference declarations).1 := by
  simp [Has, Bindings.bindWith]

theorem isLocal_bindWith (placed : bindings.Placed) (name : Value) (space : Namespace)
    (reference : Reference) (declarations : Declarations) :
    (bindings.bindWith name space reference declarations).2.IsLocal
      (bindings.bindWith name space reference declarations).1 :=
  ⟨has_bindWith .., fun id room global found => Nat.ne_of_lt (placed.has id room global found)⟩

theorem meaning_bindWith (bindings : Bindings) (name : Value) (space : Namespace)
    (reference : Reference) (declarations : Declarations) :
    (bindings.bindWith name space reference declarations).2.meaning
      (bindings.bindWith name space reference declarations).1 = reference.meaning declarations := by
  simp [Bindings.meaning, Bindings.declared, Bindings.bindWith]

/-- The global binding that is made for a name means what the name meant without it. -/
theorem OnlyGains.lookupGlobal (bindings : Bindings) (id : SymbolId) (space : Namespace) :
    bindings.OnlyGains (bindings.lookupGlobal id space).2 := by
  unfold Bindings.lookupGlobal
  cases absent : bindings.getGlobal? id space with
  | some binding => exact .refl bindings
  | none =>
      let made := bindings.bindWith (.ofSymbol id) space .slot {}
      have gains : bindings.OnlyGains made.2 := .bindWith ..
      refine ⟨gains.size, gains.meaning, fun placed => ?_, fun placed other room => ?_,
        fun binding isLocal => ?_⟩
      · exact (gains.placed placed).putGlobal rfl rfl (has_bindWith ..)
      · change (made.2.putGlobal id space made.1).globalMeaning other room = _
        rw [globalMeaning_putGlobal]
        split
        · rename_i here
          obtain ⟨rfl, rfl⟩ := here
          rw [Bindings.globalMeaning, absent]
          exact meaning_bindWith ..
        · exact gains.globalMeaning placed other room
      · have apart : made.1.declarations ≠ binding.declarations := Nat.ne_of_gt isLocal.1
        exact (gains.locals binding isLocal).putGlobal apart id space

theorem lookupGlobal_getGlobal? (bindings : Bindings) (id : SymbolId) (space : Namespace) :
    (bindings.lookupGlobal id space).2.getGlobal? id space =
      some (bindings.lookupGlobal id space).1 := by
  unfold Bindings.lookupGlobal
  cases found : bindings.getGlobal? id space with
  | some binding => exact found
  | none => exact (getGlobal?_putGlobal ..).trans (if_pos ⟨rfl, rfl⟩)

theorem Placed.lookupGlobal (placed : bindings.Placed) (id : SymbolId) (space : Namespace) :
    (bindings.lookupGlobal id space).2.Placed :=
  (OnlyGains.lookupGlobal bindings id space).placed placed

theorem Placed.define (placed : bindings.Placed) (id : SymbolId) (space : Namespace)
    (reference : Reference) : (bindings.define id space reference).2.Placed :=
  ((OnlyGains.bindWith ..).placed placed).putGlobal rfl rfl (has_bindWith ..)

theorem Placed.updateDeclared (placed : bindings.Placed) (binding : Binding)
    (f : Declarations → Declarations) : (bindings.updateDeclared binding f).Placed := by
  refine ⟨placed.name, placed.space, fun id space held found => ?_⟩
  simpa [Has, Bindings.updateDeclared] using placed.has id space held found

/-- A name that is defined anew means something else, but no local binding does. -/
theorem IsLocal.define {binding : Binding} (isLocal : bindings.IsLocal binding) {id : SymbolId}
    {space : Namespace} {reference : Reference} :
    let made := bindings.define id space reference
    made.1.declarations ≠ binding.declarations ∧ made.2.IsLocal binding ∧
      made.2.meaning binding = bindings.meaning binding := by
  have gains (kept : Declarations) :
      bindings.OnlyGains (bindings.bindWith (.ofSymbol id) space reference kept).2 := .bindWith ..
  have apart : bindings.declarations.size ≠ binding.declarations := Nat.ne_of_gt isLocal.1
  exact ⟨apart, ((gains _).locals binding isLocal).putGlobal apart id space,
    (gains _).meaning binding isLocal.1⟩

/-- What is declared about another binding changes no local one. -/
theorem IsLocal.updateDeclared {binding other : Binding} (isLocal : bindings.IsLocal binding)
    (apart : other.declarations ≠ binding.declarations) (f : Declarations → Declarations) :
    (bindings.updateDeclared other f).IsLocal binding ∧
      (bindings.updateDeclared other f).meaning binding = bindings.meaning binding := by
  refine ⟨⟨?_, isLocal.2⟩, congrArg binding.reference.meaning ?_⟩
  · simpa [Has, Bindings.updateDeclared] using isLocal.1
  · simp [Bindings.declared, Bindings.updateDeclared, Array.getD_eq_getD_getElem?,
      Array.getElem?_modify, apart]

theorem Placed.initial : Bindings.initial.Placed := by
  have empty : ({} : Bindings).Placed := by
    have none_ : ∀ id space, ({} : Bindings).getGlobal? id space = none := fun id space => by
      simp [getGlobal?]
    refine ⟨?_, ?_, ?_⟩
    all_goals
      intro id space binding found
      rw [none_] at found
      cases found
  exact (((empty.define ..).updateDeclared ..).define ..).updateDeclared ..

end Bindings

end Gains

section States

/-- Nothing that was there changes: no name means anything else, and symbols and packages are as
they were. -/
structure Isolated (s later : CompileState) : Prop where
  bindings : s.bindings.OnlyGains later.bindings
  symbols : s.image.symbols.OnlyGains later.image.symbols

instance : Additive Isolated where
  refl _ := ⟨.refl _, .refl _⟩
  trans first second :=
    ⟨first.bindings.trans second.bindings, first.symbols.trans second.symbols⟩
  counters _ _ := ⟨.refl _, .refl _⟩
  literals _ _ := ⟨.refl _, .refl _⟩
  cells _ _ := ⟨.refl _, .refl _⟩
  keyword _ _ := ⟨.refl _, .intern ..⟩
  bind s name space reference declarations :=
    ⟨.bindWith s.bindings name space reference declarations, .refl _⟩
  used _ _ := ⟨.markUsed .., .refl _⟩
  global _ _ _ := ⟨.lookupGlobal .., .refl _⟩

/-- Global bindings stay in their places. -/
def StaysPlaced (s later : CompileState) : Prop := s.bindings.Placed → later.bindings.Placed

instance : Additive StaysPlaced where
  refl _ := id
  trans first second := second ∘ first
  counters _ _ := id
  literals _ _ := id
  cells _ _ := id
  keyword _ _ := id
  bind s name space reference declarations :=
    (Bindings.OnlyGains.bindWith s.bindings name space reference declarations).placed
  used _ _ := (Bindings.OnlyGains.markUsed ..).placed
  global _ _ _ := (Bindings.OnlyGains.lookupGlobal ..).placed

instance : Unrestricted StaysPlaced where
  image _ _ _ := id
  expander _ _ _ placed := placed.define ..
  proclaim _ _ _ _ _ _ placed := (placed.lookupGlobal ..).updateDeclared ..
  constant _ _ _ placed := (placed.define ..).updateDeclared ..

/-- Local bindings stay local and mean what they meant, and symbols stay at home where they were. -/
structure KeepsLocals (s later : CompileState) : Prop where
  locals : ∀ binding, s.bindings.IsLocal binding →
    later.bindings.IsLocal binding ∧ later.bindings.meaning binding = s.bindings.meaning binding
  homes : Machine.KeepsHomes s.image.symbols later.image.symbols

theorem KeepsLocals.ofGains {s : CompileState} {bindings : Bindings} (gains : s.bindings.OnlyGains bindings) :
    KeepsLocals s { s with bindings } where
  locals binding isLocal := ⟨gains.locals binding isLocal, gains.meaning binding isLocal.1⟩
  homes := .refl _

theorem KeepsLocals.sameBindings {s : CompileState} {image : Image}
    (homes : Machine.KeepsHomes s.image.symbols image.symbols) : KeepsLocals s { s with image } :=
  ⟨fun _ isLocal => ⟨isLocal, rfl⟩, homes⟩

instance : Additive KeepsLocals where
  refl _ := ⟨fun _ isLocal => ⟨isLocal, rfl⟩, .refl _⟩
  trans first second := by
    refine ⟨fun binding isLocal => ?_, first.homes.trans second.homes⟩
    obtain ⟨stays, means⟩ := first.locals binding isLocal
    obtain ⟨stays', means'⟩ := second.locals binding stays
    exact ⟨stays', means'.trans means⟩
  keyword s name := KeepsLocals.sameBindings (Machine.keepsHomes_intern s.image.symbols name _)
  counters _ _ := ⟨fun _ isLocal => ⟨isLocal, rfl⟩, .refl _⟩
  literals _ _ := ⟨fun _ isLocal => ⟨isLocal, rfl⟩, .refl _⟩
  cells _ _ := KeepsLocals.sameBindings (.refl _)
  bind _ _ _ _ _ := KeepsLocals.ofGains (.bindWith ..)
  used _ _ := KeepsLocals.ofGains (.markUsed ..)
  global _ _ _ := KeepsLocals.ofGains (.lookupGlobal ..)

instance : Unrestricted KeepsLocals where
  image _ _ reaches := KeepsLocals.sameBindings (reaches _ .keepsHomes)
  expander _ _ _ := ⟨fun _ isLocal => isLocal.define.2, .refl _⟩
  proclaim _ _ _ _ _ _ := ⟨fun binding isLocal => by
    have gains := Bindings.OnlyGains.lookupGlobal
    obtain ⟨stays, means⟩ := ((gains ..).locals binding isLocal).updateDeclared
      ((gains ..).locals binding isLocal |>.2 _ _ _ (Bindings.lookupGlobal_getGlobal? ..)) _
    exact ⟨stays, means.trans ((gains ..).meaning binding isLocal.1)⟩, .refl _⟩
  constant _ _ _ := ⟨fun binding isLocal => by
    obtain ⟨apart, stays, means⟩ := isLocal.define
    obtain ⟨stays', means'⟩ := stays.updateDeclared apart _
    exact ⟨stays', means'.trans means⟩, .refl _⟩

/-- No name gets a script variable as its global meaning. -/
def KeepsGlobals (s later : CompileState) : Prop :=
  NoGlobalHost s.bindings → NoGlobalHost later.bindings

theorem NoGlobalHost.define {bindings : Bindings} (none_ : NoGlobalHost bindings) (id : SymbolId)
    (space : Namespace) {reference : Reference} (slot : ∀ name, reference ≠ .host name) :
    NoGlobalHost (bindings.define id space reference).2 :=
  have bound : NoGlobalHost (bindings.bindWith (.ofSymbol id) space reference _).2 := none_
  bound.put slot id space

instance : Additive KeepsGlobals where
  refl _ := id
  trans first second := second ∘ first
  keyword _ _ := id
  counters _ _ := id
  literals _ _ := id
  cells _ _ := id
  bind _ _ _ _ _ := id
  used _ _ := id
  global _ id space none_ := (lookupGlobal_noHost none_ id space).1

instance : Unrestricted KeepsGlobals where
  image _ _ _ := id
  expander _ id _ none_ := none_.define id _ nofun
  proclaim _ id space _ _ _ none_ := (lookupGlobal_noHost none_ id space).1
  constant _ id _ none_ := none_.define id _ nofun

end States

section Sessions

variable {α β : Type} {R : CompileState → CompileState → Prop} [Unrestricted R]

theorem macroOf?_obeys (context : Context) (form : Value) : Obeys R (macroOf? context form) := by
  refine .bind (.carOf? _) fun head? => ?_
  split
  · exact .pure _
  · split
    · exact .pure _
    · split
      · exact .pure _
      · refine .bind (.resolve _ _ _) fun binding? => ?_
        split <;> exact .pure _

theorem expandOnce?_obeys (context : Context) (form : Value) :
    Obeys R (expandOnce? context form) := by
  refine .bind (macroOf?_obeys _ _) fun found => ?_
  split
  · exact .map (callExpander_obeys _ _ _) _
  · exact .pure _

theorem expandWithin_obeys (context : Context) (steps : Nat) (expanded : Bool) (form : Value) :
    Obeys R (expandWithin context steps expanded form) := by
  induction steps generalizing expanded form with
  | zero => exact .throw _
  | succ steps ih =>
      refine .bind (expandOnce?_obeys _ _) fun expansion? => ?_
      split
      · exact ih _ _
      · exact .pure _

/-- A step of a session that leaves global bindings in their places, whether it succeeds or not. -/
def KeepsPlaced (step : SessionStep α) : Prop :=
  ∀ session, session.state.bindings.Placed →
    match step session with
    | .ok _ later => later.state.bindings.Placed
    | .error _ later => later.state.bindings.Placed

namespace KeepsPlaced

theorem pure (a : α) : KeepsPlaced (Pure.pure a) := fun _ => id

theorem bind {step : SessionStep α} {next : α → SessionStep β} (first : KeepsPlaced step)
    (second : ∀ a, KeepsPlaced (next a)) : KeepsPlaced (step >>= next) := by
  intro session placed
  have before := first session placed
  change match EStateM.bind step next session with | .ok _ later => _ | .error _ later => _
  rw [EStateM.bind]
  cases ended : step session with
  | ok a later =>
      rw [ended] at before
      exact second a later before
  | error e later =>
      rw [ended] at before
      exact before

theorem compiling {step : Compile α} (obeys : Obeys StaysPlaced step) :
    KeepsPlaced (Session.compiling step) := by
  intro session placed
  have after := obeys session.state placed
  rw [stateAfter] at after
  rw [Session.compiling]
  cases ended : step session.state <;> rwa [ended] at after

theorem reading (step : List String → Read α) (text : List Char) :
    KeepsPlaced (Session.reading step text) := by
  intro session placed
  rw [Session.reading]
  cases step session.features ⟨text, session.state.image⟩ <;> exact placed

theorem running (step : Run α) : KeepsPlaced (Session.running step) := by
  intro session placed
  rw [Session.running]
  cases step session.state.image <;> exact placed

/-- A look at the session. -/
theorem get : KeepsPlaced (get : SessionStep Session) := fun _ => id

theorem foldText {step : α → Value → SessionStep α} (keeps : ∀ a form, KeepsPlaced (step a form))
    (a : α) (text : String) : KeepsPlaced (Session.foldText step a text) := by
  have folds (count : Nat) (a : α) (text : List Char) :
      KeepsPlaced (Session.foldForms step count a text) := by
    induction count generalizing a text with
    | zero => exact .pure a
    | succ count ih =>
        refine .bind (.bind (.reading _ _) fun _ => .pure _) fun next? => ?_
        split
        · exact .bind (keeps _ _) fun a => ih a _
        · exact .pure a
  exact folds _ a _

theorem compile (form : Value) : KeepsPlaced (Session.compile form) :=
  .compiling (compileToplevel_obeys (compileWithin_obeys _) form)

theorem eval (form : Value) : KeepsPlaced (Session.eval form) :=
  .bind (compile form) fun _ => .bind (.running _) fun _ => .bind .get fun _ => .pure _

theorem evalText (text : String) : KeepsPlaced (Session.evalText text) := .foldText (fun _ => eval) _ _

theorem request (request : Request) : KeepsPlaced request.perform := by
  cases request with
  | readAll text => exact .bind (.reading _ _) fun _ => .pure _
  | evalText text => exact .evalText text
  | compileText text =>
      exact .bind (.foldText (fun _ form => .bind (.bind (compile form) fun _ => .pure _) fun _ =>
        .pure _) _ _) fun _ => .pure _
  | eval form => exact .eval form
  | compile form => exact .bind (.compile form) fun _ => .pure _
  | expandOnce form => exact .bind (.compiling (expandOnce?_obeys _ _)) fun _ => .pure _
  | expand form => exact .bind (.compiling (expandWithin_obeys _ _ _ _)) fun _ => .pure _
  | cons car cdr => exact .bind (.compiling (.newCons _ _)) fun _ => .pure _
  | vector items => exact .bind (.running _) fun _ => .pure _

end KeepsPlaced

end Sessions

section Environments

namespace Bindings

variable {bindings later : Bindings} {env : Environment}

theorem holds_of_lookup? (holds : bindings.Holds env) {name : Value} {space : Namespace}
    {binding : Binding} (found : env.lookup? name space = some binding) : bindings.Has binding :=
  holds binding (List.mem_of_find?_eq_some found)

/-- No name means anything else in an environment that was there. -/
theorem OnlyGains.meaning? (gains : bindings.OnlyGains later) (placed : bindings.Placed)
    (holds : bindings.Holds env) (name : Value) (space : Namespace) :
    later.meaning? env name space = bindings.meaning? env name space := by
  unfold Bindings.meaning?
  cases found : env.lookup? name space with
  | some binding => exact congrArg some (gains.meaning binding (holds_of_lookup? holds found))
  | none =>
      dsimp only
      split
      · exact congrArg some (gains.globalMeaning placed _ _)
      · exact congrArg some (gains.globalMeaning placed _ _)
      · rfl

theorem eq_of_eql_ofSymbol {name : Value} {id : SymbolId}
    (same : name.eql (.ofSymbol id) = true) : name = .ofSymbol id := by
  unfold Value.ofSymbol at same ⊢
  split at same
  · rename_i isNil
    rw [if_pos isNil]
    cases name <;> simp [Value.eql] at same ⊢
  · rename_i notNil
    rw [if_neg notNil]
    cases name <;> simp [Value.eql] at same ⊢
    exact same

theorem eq_of_ofSymbol_eql {name : Value} {id : SymbolId}
    (same : (Value.ofSymbol id).eql name = true) : name = .ofSymbol id := by
  unfold Value.ofSymbol at same ⊢
  split at same
  · rename_i isNil
    rw [if_pos isNil]
    cases name <;> simp [Value.eql] at same ⊢
  · rename_i notNil
    rw [if_neg notNil]
    cases name <;> simp [Value.eql] at same ⊢
    exact same.symm

/-- A symbol names a binding of variables or functions, found or made, that means what it does. -/
theorem resolve_ofSymbol (placed : bindings.Placed) (holds : bindings.Holds env) (id : SymbolId)
    {space : Namespace} (global : space = .vars ∨ space = .functions) :
    ∃ binding later, bindings.resolve env (.ofSymbol id) space = (some binding, later) ∧
      bindings.OnlyGains later ∧ later.Has binding ∧ binding.name = .ofSymbol id ∧
      binding.space = space ∧
      bindings.meaning? env (.ofSymbol id) space = some (later.meaning binding) := by
  unfold Bindings.resolve Bindings.meaning?
  cases found : env.lookup? (.ofSymbol id) space with
  | some binding =>
      have matched := List.find?_some found
      simp only [Bool.and_eq_true, beq_iff_eq] at matched
      exact ⟨binding, bindings, rfl, .refl bindings, holds_of_lookup? holds found,
        eq_of_eql_ofSymbol matched.2, matched.1, rfl⟩
  | none =>
      have gains := OnlyGains.lookupGlobal bindings id space
      have held := lookupGlobal_getGlobal? bindings id space
      have after := placed.lookupGlobal id space
      have same : some (bindings.globalMeaning id space) =
          some ((bindings.lookupGlobal id space).2.meaning (bindings.lookupGlobal id space).1) := by
        rw [← gains.globalMeaning placed, Bindings.globalMeaning, held]
      rw [Value.asSymbol?_ofSymbol]
      refine ⟨_, _, ?_, gains, after.has _ _ _ held, after.name _ _ _ held,
        after.space _ _ _ held, ?_⟩
      · rcases global with rfl | rfl <;> rfl
      · rcases global with rfl | rfl <;> exact same

end Bindings

end Environments

section Declarations

variable {s t u : CompileState} {env env' env'' : Environment}

/-- What is set about some names, for what a name means. -/
def Meaning.setFor (set : Meaning → Meaning) (ids : List SymbolId) (room : Namespace) (name : Value)
    (space : Namespace) (meaning : Meaning) : Meaning :=
  if room = space ∧ ids.any fun id => (Value.ofSymbol id).eql name then set meaning else meaning

/-- What a body's declarations make of what a name means outside. -/
def DeclSpecs.applied (specs : DeclSpecs) (bound : List SymbolId) (name : Value) (space : Namespace)
    (meaning : Meaning) : Meaning :=
  let free := specs.specials.filter fun id => !bound.contains id
  let meaning := Meaning.setFor ({ · with special := true }) free .vars name space meaning
  let meaning := Meaning.setFor ({ · with notInline := true }) specs.notInline .functions name space
    meaning
  Meaning.setFor ({ · with notInline := false }) specs.inlined .functions name space meaning

/-- An environment made from another one, in which names mean what `change` makes of what they mean
there. Nothing changes outside of it. -/
structure Redeclares (s later : CompileState) (env env' : Environment)
    (change : Value → Namespace → Meaning → Meaning) : Prop where
  isolated : Isolated s later
  rest : ∃ bindings, later = { s with bindings }
  placed : later.bindings.Placed
  holds : later.bindings.Holds env'
  meaning : ∀ name space, later.bindings.meaning? env' name space =
    (s.bindings.meaning? env name space).map (change name space)

theorem Redeclares.trans {first second : Value → Namespace → Meaning → Meaning}
    (before : Redeclares s t env env' first) (after : Redeclares t u env' env'' second) :
    Redeclares s u env env'' fun name space meaning => second name space (first name space meaning)
    where
  isolated := Interning.trans before.isolated after.isolated
  rest := by
    obtain ⟨_, rfl⟩ := before.rest
    obtain ⟨_, rfl⟩ := after.rest
    exact ⟨_, rfl⟩
  placed := after.placed
  holds := after.holds
  meaning name space := by
    rw [after.meaning, before.meaning, Option.map_map]
    rfl

theorem Bindings.meaning?_cons (bindings : Bindings) (binding : Binding) (env : Environment)
    (name : Value) (space : Namespace) :
    bindings.meaning? (binding :: env) name space =
      if binding.space = space ∧ binding.name.eql name then some (bindings.meaning binding)
      else bindings.meaning? env name space := by
  unfold Bindings.meaning? Environment.lookup?
  rw [List.find?_cons]
  by_cases here : binding.space = space ∧ binding.name.eql name = true
  · rw [if_pos here, here.1, here.2]
    simp
  · rw [if_neg here]
    have missed : (binding.space == space && binding.name.eql name) = false := by
      simpa using here
    rw [missed]

/-- The copy of a binding that is put in front of an environment has the changed declaration, and
all else means what it did. -/
theorem redeclare_ok (placed : s.bindings.Placed) (holds : s.bindings.Holds env) (id : SymbolId)
    {space : Namespace} (global : space = .vars ∨ space = .functions)
    {alter : Binding → Bindings → Bindings} {f : Declarations → Declarations}
    (alters : ∀ binding bindings, alter binding bindings = bindings.updateDeclared binding f)
    {set : Meaning → Meaning}
    (sets : ∀ (reference : Reference) d, reference.meaning (f d) = set (reference.meaning d)) :
    ∃ env' later, redeclare env id space alter s = .ok env' later ∧
      Redeclares s later env env' (Meaning.setFor set [id] space) := by
  obtain ⟨binding, bindings, resolved, gains, has, name, sort, means⟩ :=
    Bindings.resolve_ofSymbol placed holds id global
  let declarations := f { bindings.declared binding with used := false }
  let made := bindings.bindWith binding.name binding.space binding.reference declarations
  let later : CompileState := { s with bindings := made.2 }
  have found : Compiler.resolve { env } (.ofSymbol id) space s =
      .ok (some binding) { s with bindings } := by
    unfold Compiler.resolve onBindings
    dsimp only
    rw [resolved]
  have shadowed : redeclare env id space alter s = .ok (made.1 :: env) later := by
    rw [redeclare, bind_ended found]
    let copy := bindings.shadow binding
    change EStateM.Result.ok (copy.1 :: env) { s with bindings := alter copy.1 copy.2 } = _
    rw [alters]
    exact congrArg (fun bindings => EStateM.Result.ok (copy.1 :: env) { s with bindings })
      (updateDeclared_bindWith _ _ _ _ _ f)
  have isolated : Isolated s later := ⟨gains.trans
    (.bindWith bindings binding.name binding.space binding.reference declarations), .refl _⟩
  refine ⟨_, _, shadowed, isolated, ⟨_, rfl⟩, isolated.bindings.placed placed, ?_,
    fun other room => ?_⟩
  · intro held member
    rcases List.mem_cons.mp member with rfl | member
    · exact Bindings.has_bindWith ..
    · exact (holds held member).mono isolated.bindings.size
  · have meaning : made.2.meaning made.1 = set (bindings.meaning binding) :=
      (Bindings.meaning_bindWith ..).trans (sets _ _)
    rw [Bindings.meaning?_cons]
    change (if binding.space = room ∧ binding.name.eql other then some (made.2.meaning made.1)
      else made.2.meaning? env other room) = _
    rw [name, sort]
    by_cases here : space = room ∧ (Value.ofSymbol id).eql other = true
    · rw [if_pos here]
      obtain ⟨rfl, same⟩ := here
      cases Bindings.eq_of_ofSymbol_eql same
      rw [means, meaning, Option.map_some, Meaning.setFor, if_pos (by simpa using same)]
    · rw [if_neg here, isolated.bindings.meaning? placed holds]
      have apart : Meaning.setFor set [id] space other room = fun meaning => meaning := by
        funext meaning
        exact if_neg (by simpa using here)
      rw [apart, Option.map_id']

theorem Meaning.setFor_cons {set : Meaning → Meaning} (again : ∀ m, set (set m) = set m)
    (id : SymbolId) (ids : List SymbolId) (room : Namespace) (name : Value) (space : Namespace)
    (m : Meaning) :
    setFor set ids room name space (setFor set [id] room name space m) =
      setFor set (id :: ids) room name space m := by
  unfold setFor
  by_cases here : room = space <;> by_cases named : (Value.ofSymbol id).eql name = true <;>
    by_cases more : (ids.any fun id => (Value.ofSymbol id).eql name) = true <;>
    simp [here, named, more, again]

theorem foldlM_redeclare (placed : s.bindings.Placed) (holds : s.bindings.Holds env)
    (ids : List SymbolId) {space : Namespace} (global : space = .vars ∨ space = .functions)
    (alter : Binding → Bindings → Bindings) {f : Declarations → Declarations}
    (alters : ∀ binding bindings, alter binding bindings = bindings.updateDeclared binding f)
    (set : Meaning → Meaning)
    (sets : ∀ (reference : Reference) d, reference.meaning (f d) = set (reference.meaning d))
    (again : ∀ m, set (set m) = set m) :
    ∃ env' later, ids.foldlM (fun env id => redeclare env id space alter) env s = .ok env' later ∧
      Redeclares s later env env' (Meaning.setFor set ids space) := by
  induction ids generalizing s env with
  | nil =>
      refine ⟨env, s, rfl, Interning.refl s, ⟨_, rfl⟩, placed, holds, fun name room => ?_⟩
      have unset : Meaning.setFor set [] space name room = fun meaning => meaning := by
        funext meaning
        exact if_neg (by simp)
      rw [unset, Option.map_id']
  | cons id rest ih =>
      obtain ⟨inner, between, first, redeclared⟩ :=
        redeclare_ok placed holds id global alters sets
      obtain ⟨last, later, others, more⟩ := ih redeclared.placed redeclared.holds
      refine ⟨last, later, ?_, ?_⟩
      · rw [List.foldlM_cons, bind_ended first, others]
      · have both := redeclared.trans more
        simpa only [Meaning.setFor_cons again] using both

/-- Declarations that bind nothing always succeed. In the environment of their body names mean what
they declare. -/
theorem applyFreeDeclarations_ok (placed : s.bindings.Placed) (holds : s.bindings.Holds env)
    (specs : DeclSpecs) (bound : List SymbolId) :
    ∃ env' later, applyFreeDeclarations env specs bound s = .ok env' later ∧
      Redeclares s later env env' (specs.applied bound) := by
  obtain ⟨env₁, s₁, first, special⟩ := foldlM_redeclare placed holds
    (specs.specials.filter fun id => !bound.contains id) (.inl rfl)
    (fun b bindings => bindings.setSpecial b true) (fun _ _ => rfl)
    ({ · with special := true }) (fun _ _ => rfl) (fun _ => rfl)
  obtain ⟨env₂, s₂, second, notInline⟩ := foldlM_redeclare special.placed special.holds
    specs.notInline (.inr rfl) (fun b bindings => bindings.setNotInline b true) (fun _ _ => rfl)
    ({ · with notInline := true }) (fun _ _ => rfl) (fun _ => rfl)
  obtain ⟨env₃, s₃, third, inlined⟩ := foldlM_redeclare notInline.placed notInline.holds
    specs.inlined (.inr rfl) (fun b bindings => bindings.setNotInline b false) (fun _ _ => rfl)
    ({ · with notInline := false }) (fun _ _ => rfl) (fun _ => rfl)
  refine ⟨env₃, s₃, ?_, (special.trans notInline).trans inlined⟩
  unfold applyFreeDeclarations
  rw [bind_ended first, bind_ended second, third]

end Declarations

section Passive

variable {α : Type} {depth : Nat} {context : Context} {form : Value} {s : CompileState}

/-- The compiler, except that it refuses in the given way to compile a form that acts while it is
compiled. -/
def compileUnless (refusal : CompileError) : Nat → FormCompiler
  | 0, _, _ => throw .outOfSteps
  | depth + 1, context, form => fun s =>
      if actsAt s context form then .error refusal s
      else compileStep (compileUnless refusal depth) context form s

/-- A step that comes upon no form that acts while it is compiled: however such forms were refused,
it would make no difference. -/
def IsPassive (depth : Nat) (step : FormCompiler → Compile α) (s : CompileState) : Prop :=
  ∀ refusal, step (compileUnless refusal depth) s = step (compileWithin depth) s

/-- A form that acts while it is compiled is not passive. -/
theorem not_isPassive (acting : actsAt s context form = true) :
    ¬ IsPassive (depth + 1) (fun compile => compile context form) s := by
  intro passive
  have refused (refusal : CompileError) :
      compileUnless refusal (depth + 1) context form s = .error refusal s := if_pos acting
  have same := (passive .outOfSteps).trans (passive (.unknownTag "")).symm
  cases (refused _).symm.trans (same.trans (refused _))

/-- Where acting forms are refused, what holds for all that only adds holds throughout. -/
theorem compileUnless_obeys {R : CompileState → CompileState → Prop} [Additive R]
    (refusal : CompileError) (depth : Nat) (context : Context) (form : Value) :
    Obeys R (compileUnless refusal depth context form) := by
  induction depth generalizing context form with
  | zero => exact .throw _
  | succ depth ih =>
      intro s
      unfold stateAfter compileUnless
      cases acting : actsAt s context form with
      | true => exact Interning.refl s
      | false => exact compileStep_obeys ih context acting

theorem IsPassive.obeys {R : CompileState → CompileState → Prop}
    {step : FormCompiler → Compile α} (passive : IsPassive depth step s)
    (obeys : ∀ refusal, Obeys R (step (compileUnless refusal depth))) :
    R s (stateAfter (step (compileWithin depth)) s) := by
  have related := obeys .outOfSteps s
  rwa [stateAfter, passive .outOfSteps] at related

/-- Compiling forms that do not act while they are compiled leaves everything around them alone,
whether it succeeds or not. A top-level form leaves the meanings of all names at top level, and all
symbols and packages. A form within another one leaves the meanings of all names in every
environment around it. And declarations in front of a body change what names mean in the body's
environment, just as they say, and in no other. -/
theorem compile_leaves_meanings (depth : Nat) (placed : s.bindings.Placed) :
    (∀ form, IsPassive depth (compileToplevel · form) s →
      let later := stateAfter (compileToplevel (compileWithin depth) form) s
      (∀ id space, later.bindings.globalMeaning id space = s.bindings.globalMeaning id space) ∧
      (∀ id, s.image.symbols.HasSymbol id →
        later.image.symbols.symbol id = s.image.symbols.symbol id) ∧
      later.image.symbols.current = s.image.symbols.current ∧
      ∀ p, (later.image.symbols.package p).uses = (s.image.symbols.package p).uses) ∧
    (∀ context form, IsPassive depth (fun compile => compile context form) s →
      let later := stateAfter (compileWithin depth context form) s
      ∀ env, s.bindings.Holds env → ∀ name space,
        later.bindings.meaning? env name space = s.bindings.meaning? env name space) ∧
    ∀ env, s.bindings.Holds env → ∀ specs bound, ∃ inner later,
      applyFreeDeclarations env specs bound s = .ok inner later ∧
      (∀ name space, later.bindings.meaning? inner name space =
        (s.bindings.meaning? env name space).map (specs.applied bound name space)) ∧
      ∀ outer, s.bindings.Holds outer → ∀ name space,
        later.bindings.meaning? outer name space = s.bindings.meaning? outer name space := by
  refine ⟨fun form passive => ?_, fun context form passive => ?_, fun env holds specs bound => ?_⟩
  · have isolated : Isolated s _ :=
      passive.obeys fun _ => compileToplevel_obeys (compileUnless_obeys _ _) form
    exact ⟨isolated.bindings.globalMeaning placed, isolated.symbols.symbol,
      isolated.symbols.current, isolated.symbols.uses⟩
  · have isolated : Isolated s _ := passive.obeys fun _ => compileUnless_obeys _ _ _ _
    exact fun env holds => isolated.bindings.meaning? placed holds
  · obtain ⟨inner, later, applied, redeclared⟩ := applyFreeDeclarations_ok placed holds specs bound
    exact ⟨inner, later, applied, redeclared.meaning,
      fun outer holds => redeclared.isolated.bindings.meaning? placed holds⟩

/-- `(LOCALLY (DECLARE (SPECIAL LIST)) (FUNCTION LIST))` -/
def locallySpecial : List Cell :=
  [⟨.symbol SpecialForm.locally.symbol, .cons 1⟩, ⟨.cons 2, .cons 5⟩,
    ⟨.symbol SymbolId.declare, .cons 3⟩, ⟨.cons 4, .nil⟩, ⟨.symbol SymbolId.special, .cons 6⟩,
    ⟨.cons 7, .nil⟩, ⟨.symbol SymbolId.list, .nil⟩, ⟨.symbol SymbolId.function, .cons 6⟩]

theorem compile_leaves_meanings_of_locally :
    (CompileState.reading locallySpecial).bindings.Placed ∧
    IsPassive 3 (compileToplevel · (.cons 0)) (CompileState.reading locallySpecial) ∧
    (∃ program later, compileToplevel (compileWithin 3) (.cons 0)
      (CompileState.reading locallySpecial) = .ok program later) ∧
    ∀ id space, (stateAfter (compileToplevel (compileWithin 3) (.cons 0))
        (CompileState.reading locallySpecial)).bindings.globalMeaning id space =
      (CompileState.reading locallySpecial).bindings.globalMeaning id space := by
  have placed : (CompileState.reading locallySpecial).bindings.Placed := Bindings.Placed.initial
  have passive : IsPassive 3 (compileToplevel · (.cons 0)) (CompileState.reading locallySpecial) :=
    fun _ => rfl
  exact ⟨placed, passive, ⟨_, _, rfl⟩, ((compile_leaves_meanings 3 placed).1 (.cons 0) passive).1⟩

end Passive

end Compiler

/-- Whatever a session went through, its global bindings are in their places, so forms that do not act
while they are compiled leave all meanings alone in it. -/
theorem History.placed {held : List Value} {session : Session} (history : History held session) :
    session.state.bindings.Placed := by
  induction history with
  | created options created =>
      unfold Session.create at created
      dsimp only at created
      generalize preludeText = text at created
      split at created
      · have after := Compiler.KeepsPlaced.evalText text (.bare options.features options.maxDepth)
          Compiler.Bindings.Placed.initial
        split at created
        · rename_i ended
          cases created
          rwa [ended] at after
        · cases created
      · cases created
        exact Compiler.Bindings.Placed.initial
  | answered before request owned answered ih =>
      have after := Compiler.KeepsPlaced.request request _ ih
      rwa [answered] at after
  | refused before request owned refused ih =>
      have after := Compiler.KeepsPlaced.request request _ ih
      rwa [refused] at after

end LispScript
