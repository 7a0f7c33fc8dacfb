import LispScript.Proofs.Serving

/-!
Literals. The code that makes a literal uses only literals that were made before it, so a unit can
make all of them at its head, one after the other.
-/

namespace LispScript.Discipline

open Script Machine Compiler

section Known

variable {frame : Frame} {env : Environment} {s s' s'' late : CompileState} {code : Expr}
  {kind : Kind} {name : String}

/-- The frame knows the literals of the unit. -/
def Frame.KnowsLiterals (frame : Frame) (s : CompileState) : Prop :=
  ∀ name value, Stmt.define name value ∈ s.literals.initializers.toList →
    frame.kinds name = some (madeKind value)

/-- Code that runs where the literals are known. -/
def IsLiteral (s : CompileState) (code : Expr) (kind : Kind) : Prop :=
  ∀ frame : Frame, frame.KnowsLiterals s → Derivable frame (.expr code kind)

/-- Code that is known to yield a symbol where the literals are known, and does nothing else. -/
def IsSymbol (s : CompileState) (code : Expr) : Prop :=
  ∀ frame : Frame, frame.KnowsLiterals s → frame.Constant code

theorem Frame.Constant.derivable (constant : frame.Constant code) :
    Derivable frame (.expr code .symbol) := by
  rcases constant with rfl | rfl | ⟨name, rfl, known⟩
  · exact .nil
  · exact .t
  · exact .ident known

theorem Frame.KnowsLiterals.earlier (knows : frame.KnowsLiterals s') (progress : Progress s s') :
    frame.KnowsLiterals s :=
  fun name value member => knows name value (progress.literals _ member)

theorem Frame.ServesBut.knowsLiterals {params : List String} {c : Counters}
    (serves : frame.ServesBut params env c late) :
    frame.KnowsLiterals late :=
  fun name value member => (serves.literals name value member).known

theorem IsLiteral.later (literal : IsLiteral s code kind) (progress : Progress s s') :
    IsLiteral s' code kind :=
  fun frame knows => literal frame (knows.earlier progress)

theorem IsSymbol.later (symbol : IsSymbol s code) (progress : Progress s s') : IsSymbol s' code :=
  fun frame knows => symbol frame (knows.earlier progress)

theorem IsSymbol.literal (symbol : IsSymbol s code) : IsLiteral s code .symbol :=
  fun frame knows => (symbol frame knows).derivable

theorem IsLiteral.datum (literal : IsLiteral s code .symbol) : IsLiteral s code .datum :=
  fun frame knows => .widen Kind.symbol_within_datum (literal frame knows)

theorem IsLiteral.codes (literal : IsLiteral s' code kind) : Codes env s s' code kind :=
  fun _ frame progress serves => literal frame (serves.knowsLiterals.earlier progress)

theorem IsSymbol.codes (symbol : IsSymbol s' code) : Codes env s s' code .symbol :=
  symbol.literal.codes

end Known

section Making

variable {W : World} {s : CompileState}

/-- A literal that a unit has: the variable that holds it. -/
structure HasLiteral (s : CompileState) (code : Expr) (kind : Kind) : Prop where
  held : ∃ name value, code = .ident name ∧
    Stmt.define name value ∈ s.literals.initializers.toList ∧ madeKind value = kind

theorem HasLiteral.literal {code : Expr} {kind : Kind} (has : HasLiteral s code kind) :
    IsLiteral s code kind := by
  obtain ⟨name, value, rfl, member, rfl⟩ := has
  exact fun frame knows => .ident (knows name value member)

theorem HasLiteral.symbol {code : Expr} (has : HasLiteral s code .symbol) : IsSymbol s code := by
  obtain ⟨name, value, rfl, member, same⟩ := has
  exact fun frame knows => .inr (.inr ⟨name, rfl, same ▸ knows name value member⟩)

theorem LiteralsOk.has {entries : List Entry} {count : Nat}
    (literals : LiteralsOk s.literals count entries) {key : LiteralKey} {name : String}
    (found : s.literals.names[key.code]? = some name) :
    HasLiteral s (.ident name) (literalKind key) := by
  obtain ⟨entry, member, rfl, kind⟩ := literals.names key name found
  refine ⟨entry.name, entry.value, rfl, ?_, kind⟩
  rw [literals.initializers]
  exact List.mem_map.mpr ⟨entry, member, rfl⟩

/-- Literals with one more at the end. -/
theorem LiteralsOk.snoc {entries : List Entry} {count number : Nat} {key : LiteralKey}
    {value : Expr} (literals : LiteralsOk s.literals count entries) (later : count < number)
    (kind : madeKind value = literalKind key) (makes : IsLiteral s value (literalKind key)) :
    LiteralsOk
      { names := s.literals.names.insert key.code (literalName number)
        initializers := s.literals.initializers.push (.define (literalName number) value) }
      number (entries ++ [⟨number, value⟩]) where
  written := by
    refine .snoc literals.written (fun frame knows => ?_) fun other member =>
      Nat.lt_of_le_of_lt (literals.counted other member) later
    rw [Entry.kind, kind]
    refine makes frame fun name code member => ?_
    rw [literals.initializers] at member
    obtain ⟨entry, inside, same⟩ := List.mem_map.mp member
    cases same
    exact knows entry inside
  initializers := by simp [literals.initializers, Entry.stmt, Entry.name]
  names other name found := by
    rw [Std.TreeMap.getElem?_insert] at found
    split at found
    · rename_i same
      rw [Std.LawfulEqCmp.compare_eq_iff_eq] at same
      obtain rfl := Option.some.inj found
      obtain rfl := LiteralKey.code_inj.mp same
      exact ⟨⟨number, value⟩, by simp, rfl, kind⟩
    · obtain ⟨entry, member, held⟩ := literals.names other name found
      exact ⟨entry, List.mem_append_left _ member, held⟩
  counted other member := by
    rcases List.mem_append.mp member with inside | last
    · exact Nat.le_of_lt (Nat.lt_of_le_of_lt (literals.counted other inside) later)
    · rw [List.mem_singleton.mp last]

/-- A literal that is not there yet is put after the others. -/
theorem Built.newLiteral (ok : CompilerOk W s) {key : LiteralKey} {value : Expr}
    (kind : madeKind value = literalKind key) (makes : IsLiteral s value (literalKind key)) :
    Built W s (do
      let name ← Compiler.onCounters Counters.freshLiteral
      modify fun s => { s with
        literals := { s.literals with
          names := s.literals.names.insert key.code name
          initializers := s.literals.initializers.push (.define name value) } }
      return Expr.ident name) fun _ s' code => HasLiteral s' code (literalKind key) := by
  have bounded := ok.bounded
  have fresh : Built W s (Compiler.onCounters Counters.freshLiteral) fun _ s' name =>
      s'.literals = s.literals ∧ s.counters.literals < s'.counters.literals ∧
        name = literalName s'.counters.literals := by
    refine Built.onCounters ok fun goes => ?_
    have later : s.counters.literals < next s.counters.literals :=
      lt_next bounded.literals fun same =>
        goes (congrArg (fun n => { s.counters with literals := n }) same)
    exact ⟨⟨Nat.le_refl _, Nat.le_of_lt later, Nat.le_refl _, Nat.le_refl _⟩,
      ⟨bounded.vars, next_le _, bounded.blocks, bounded.tagbodies⟩, rfl, later, rfl⟩
  refine Built.bind fresh fun W' s' name further ok' held => ?_
  obtain ⟨same, later, rfl⟩ := held
  obtain ⟨entries, literals⟩ := ok.literals
  have more := literals.snoc later kind makes
  rw [← same] at more
  refine .ok W' ⟨World.Extends.refl W', Counters.Leads.refl _, Nat.le_refl _, fun _ used => used,
    fun stmt member => ?_⟩ ⟨ok'.describes, ok'.someScope, ok'.bounded, fun _ binding found => ?_,
    _, more⟩ ⟨_, value, rfl, ?_, kind⟩
  · exact (Array.toList_push ▸ List.mem_append_left _ member :)
  · obtain ⟨known, isGlobal⟩ := ok'.globals _ binding found
    exact ⟨⟨known.known, known.reference⟩, isGlobal⟩
  · exact (Array.toList_push ▸ List.mem_append_right _ List.mem_cons_self :)

/-- A literal, made unless the unit has it. -/
theorem Built.hoist (ok : CompilerOk W s) (key : LiteralKey) {make : Compile Expr}
    (made : Built W s make fun _ s' value =>
      madeKind value = literalKind key ∧ IsLiteral s' value (literalKind key)) :
    Built W s (Compiler.hoist key make) fun _ s' code => HasLiteral s' code (literalKind key) := by
  refine Built.ofState ?_
  dsimp only
  split
  · rename_i name found
    obtain ⟨entries, literals⟩ := ok.literals
    exact Built.gives ok (literals.has found)
  · exact Built.bind made fun _ _ value _ ok' held => Built.newLiteral ok' held.1 held.2

end Making

section Values

variable {W : World} {s : CompileState}

/-- A home that a symbol has is one of the packages there are. -/
theorem World.SymbolsOk.packageName {table : SymbolTable} (ok : W.SymbolsOk table)
    (home : PackageId) :
    table.packageName home ∈ packageNames ∨ table.packageName home = "" := by
  rcases getD_mem_or_default table.packages home.index default with member | missing
  · refine .inl ?_
    rw [← ok.packages]
    exact List.mem_map.mpr ⟨_, Array.mem_toList_iff.mpr member, rfl⟩
  · refine .inr ?_
    rw [SymbolTable.packageName, SymbolTable.package, missing]
    rfl

/-- The code that finds a symbol again. -/
theorem symbolInitializer_literal (ok : CompilerOk W s) (id : SymbolId) :
    madeKind (symbolInitializer s.image.symbols id) = .symbol ∧
      IsLiteral s (symbolInitializer s.image.symbols id) .symbol := by
  unfold symbolInitializer
  dsimp only
  split
  · exact ⟨rfl, fun frame _ => .internSymbol (ok.describes.symbols.packageName _)⟩
  · exact ⟨rfl, fun frame _ => .uninternedSymbol⟩

theorem Built.symbolLiteral (ok : CompilerOk W s) (id : SymbolId) :
    Built W s (Compiler.symbolLiteral id) fun _ s' code => IsSymbol s' code := by
  unfold Compiler.symbolLiteral
  split
  · exact Built.gives ok fun frame _ => .inl rfl
  · split
    · exact Built.gives ok fun frame _ => .inr (.inl rfl)
    · exact Builds.mono (Built.hoist ok (.symbol id)
        (Built.ofSymbols (Built.gives ok (symbolInitializer_literal ok id))))
        fun _ _ _ has => has.symbol

/-- A value that appears in a program, however deep it nests. -/
theorem Built.literalWithin (ok : CompilerOk W s) (depth : Nat) (value : Value) :
    Built W s (Compiler.literalWithin depth value) fun _ s' code => IsLiteral s' code .datum := by
  induction depth generalizing W s value with
  | zero => exact Built.fails ok trivial
  | succ depth ih =>
      cases value with
      | nil => exact Built.gives ok fun frame _ => .widen Kind.symbol_within_datum .nil
      | number n => exact Built.gives ok fun frame _ => .number
      | string address text => exact Built.gives ok fun frame _ => .string
      | symbol id =>
          exact Builds.mono (Built.symbolLiteral ok id) fun _ _ _ symbol => symbol.literal.datum
      | character c =>
          exact Builds.mono (Built.hoist ok (.character c)
            (Built.gives ok ⟨rfl, fun frame _ => .character⟩)) fun _ _ _ has => has.literal
      | cons address =>
          rw [Compiler.literalWithin]
          refine Builds.mono (Built.hoist ok (.cons address) (Built.ofHeap ?_))
            fun _ _ _ has => has.literal
          refine Built.bind (ih ok _) fun _ _ car _ ok₁ first => ?_
          refine Built.bind (ih ok₁ _) fun _ _ cdr further ok₂ second => ?_
          refine Built.gives ok₂ ⟨rfl, fun frame knows => .primitive rfl ?_⟩
          simp only [List.forall_mem_cons]
          exact ⟨first.later further.progress frame knows, second frame knows, List.forall_mem_nil _⟩
      | vector address =>
          rw [Compiler.literalWithin]
          refine Builds.mono (Built.hoist ok (.vector address) (Built.ofHeap ?_))
            fun _ _ _ has => has.literal
          refine Built.bind (Built.mapM (fun _ _ => True)
            (fun _ _ _ s' code => IsLiteral s' code .datum) ok trivial (fun _ _ _ _ _ _ => trivial)
            (fun _ _ _ _ _ _ _ _ _ literal after => literal.later after.progress)
            fun item _ _ _ ok _ => ih ok item) fun _ _ items _ ok₁ all => ?_
          have literals := (forall_of_forall₂ all fun _ _ literal => literal).2
          exact Built.gives ok₁ ⟨rfl, fun frame knows => .primitive rfl fun code member =>
            literals code member frame knows⟩
      | _ => exact Built.described (Built.fails ok trivial)

theorem Built.literal (ok : CompilerOk W s) (value : Value) :
    Built W s (Compiler.literal value) fun _ s' code => IsLiteral s' code .datum :=
  Built.ofHeap (Built.literalWithin ok _ value)

end Values

section Heads

/-- A frame in which literals became known one after the other. -/
def Frame.withLiterals (frame : Frame) (entries : List Entry) : Frame :=
  entries.foldl (fun frame entry => frame.bind entry.name entry.kind) frame

theorem Frame.withLiterals_snoc (frame : Frame) (entries : List Entry) (entry : Entry) :
    frame.withLiterals (entries ++ [entry]) =
      (frame.withLiterals entries).bind entry.name entry.kind := by
  simp [Frame.withLiterals]

variable {frame : Frame} {entries : List Entry}

theorem Frame.withLiterals_of_ne {name : String} (other : ∀ entry ∈ entries, name ≠ entry.name) :
    (frame.withLiterals entries).kinds name = frame.kinds name := by
  induction entries generalizing frame with
  | nil => rfl
  | cons entry rest ih =>
      obtain ⟨here, later⟩ := List.forall_mem_cons.mp other
      exact (ih later).trans (frame.bind_of_ne here entry.kind)

theorem Entry.name_ne {entry other : Entry} (less : other.number < entry.number) :
    entry.name ≠ other.name :=
  fun same => Nat.ne_of_gt less (numbered_inj same)

/-- Literals that are made in order are all known in the end. -/
theorem Written.knows (written : Written entries) : (frame.withLiterals entries).Knows entries := by
  induction written with
  | nil => nofun
  | @snoc entries entry _ _ later ih =>
      rw [Frame.withLiterals_snoc]
      intro other member
      rcases List.mem_append.mp member with inside | last
      · rw [Frame.bind_of_ne _ (Entry.name_ne (later other inside)).symm]
        exact ih other inside
      · rw [List.mem_singleton.mp last]
        exact Frame.bind_self _ _ _

theorem madeKind_not_token (value : Expr) : ¬ (madeKind value).IsToken := by
  unfold madeKind
  split <;> exact id

/-- The literals of a unit are made at its head. -/
theorem Written.derivable (written : Written entries)
    (fresh : ∀ n, frame.kinds (literalName n) = none) {code : List Stmt} {kind : Kind}
    (rest : Derivable (frame.withLiterals entries) (.returns code kind)) :
    Derivable frame (.returns (entries.map Entry.stmt ++ code) kind) := by
  induction written generalizing code with
  | nil => exact rest
  | @snoc entries entry before value later ih =>
      rw [List.map_append, List.append_assoc]
      rw [Frame.withLiterals_snoc] at rest
      refine ih (.define ⟨?_, literalName_unreserved _⟩ (madeKind_not_token _)
        (value _ before.knows) rest)
      rw [Frame.withLiterals_of_ne fun other member => Entry.name_ne (later other member)]
      exact fresh entry.number

end Heads

end LispScript.Discipline
