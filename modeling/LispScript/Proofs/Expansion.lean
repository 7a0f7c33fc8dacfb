import LispScript.Proofs.Bodies

/-!
What the compiler makes of forms before it compiles them: lambda lists taken apart, macro lambda lists
lowered, and templates expanded. All of it is data, as the forms are.
-/

namespace LispScript.Discipline

open Script Machine Compiler

section LambdaLists

variable {W W' : World} {s s' : CompileState} {value item list : Value} {items : List Value}

/-- The defaults of a lambda list are data. -/
structure DefaultsOk (W : World) (list : LambdaList) : Prop where
  optional : ∀ param ∈ list.optional, W.Datum param.default
  keys : ∀ param ∈ list.keys, W.Datum param.default

theorem DefaultsOk.further {list : LambdaList} (ok : DefaultsOk W list)
    (further : Further W s W' s') :
    DefaultsOk W' list :=
  ⟨fun param member => further.datum (ok.optional param member),
    fun param member => further.datum (ok.keys param member)⟩

theorem defaultParts?_datum {parts : List Value} {default : Value} {supplied : Option SymbolId}
    (data : W.Data parts) (found : defaultParts? parts = some (default, supplied)) :
    W.Datum default := by
  match parts with
  | [] =>
      cases found
      trivial
  | [_] =>
      cases found
      exact data _ List.mem_cons_self
  | [_, _] =>
      obtain ⟨var, -, same⟩ := Option.map_eq_some_iff.mp found
      cases same
      exact data _ List.mem_cons_self
  | _ :: _ :: _ :: _ => cases found

theorem optionalParam?_datum (ok : CompilerOk W s) (datum : W.Datum item) {param : OptionalParam}
    (found : optionalParam? s.image.heap item = some param) :
    W.Datum param.default := by
  unfold optionalParam? at found
  split at found
  · cases found
    trivial
  · obtain ⟨parts, listed, found⟩ := Option.bind_eq_some_iff.mp found
    have data := listItems_data ok.describes datum listed
    cases parts with
    | nil => cases found
    | cons first rest =>
        obtain ⟨var, -, found⟩ := Option.bind_eq_some_iff.mp found
        obtain ⟨⟨default, supplied⟩, parts_eq, same⟩ := Option.bind_eq_some_iff.mp found
        cases same
        exact defaultParts?_datum (World.data_cons.mp data).2 parts_eq

theorem Built.keyNames? (ok : CompilerOk W s) (head : Value) :
    Built W s (Compiler.keyNames? head) fun _ _ _ => True := by
  unfold Compiler.keyNames?
  split
  · refine Built.ofHeap ?_
    split
    · exact Built.gives ok trivial
    · exact Built.gives ok trivial
  · split
    · exact Built.named (Built.bind (Built.internKeyword ok _) fun _ _ _ _ ok' _ =>
        Built.gives ok' trivial)
    · exact Built.gives ok trivial

theorem Built.keyParam? (ok : CompilerOk W s) (datum : W.Datum item) :
    Built W s (Compiler.keyParam? item) fun W' _ param? =>
      ∀ param ∈ param?, W'.Datum param.default := by
  refine Built.bind (Built.carOf? ok datum) fun W₁ s₁ head? first ok₁ _ => ?_
  split
  · refine Built.bind (Built.keyNames? ok₁ _) fun W₂ s₂ names? second ok₂ _ => ?_
    split
    · exact Built.gives ok₂ fun param found => by cases found
    · refine Built.ofHeap (Built.gives ok₂ fun param found => ?_)
      obtain ⟨⟨default, supplied⟩, parts_eq, rfl⟩ := Option.map_eq_some_iff.mp found
      obtain ⟨parts, tail_eq, parts_eq⟩ := Option.bind_eq_some_iff.mp parts_eq
      obtain ⟨all, listed, rfl⟩ := Option.map_eq_some_iff.mp tail_eq
      have data := listItems_data ok₂.describes (second.datum (first.datum datum)) listed
      exact defaultParts?_datum data.tail parts_eq
  · refine Built.bind (Built.keyNames? ok₁ item) fun W₂ s₂ names? _ ok₂ _ =>
      Built.gives ok₂ fun param found => ?_
    obtain ⟨names, -, rfl⟩ := Option.map_eq_some_iff.mp found
    trivial

theorem Built.badLambdaList {post : World → CompileState → α → Prop} (ok : CompilerOk W s)
    (list : Value) (reason : String) :
    Built W s (Compiler.badLambdaList list reason : Compile α) post :=
  Built.described (Built.fails ok trivial)

theorem DefaultsOk.addOptional {parsed : LambdaList} {param : OptionalParam}
    (ok : DefaultsOk W parsed) (datum : W.Datum param.default) :
    DefaultsOk W { parsed with optional := parsed.optional ++ [param] } := by
  refine ⟨fun other member => ?_, ok.keys⟩
  rcases List.mem_append.mp member with inside | last
  · exact ok.optional other inside
  · exact List.mem_singleton.mp last ▸ datum

theorem DefaultsOk.addKey {parsed : LambdaList} {param : KeyParam} (ok : DefaultsOk W parsed)
    (datum : W.Datum param.default) :
    DefaultsOk W { parsed with keys := parsed.keys ++ [param] } := by
  refine ⟨ok.optional, fun other member => ?_⟩
  rcases List.mem_append.mp member with inside | last
  · exact ok.keys other inside
  · exact List.mem_singleton.mp last ▸ datum

theorem Built.parseItems (ok : CompilerOk W s) (list : Value) (current : Section)
    {parsed : LambdaList} (defaults : DefaultsOk W parsed) (data : W.Data items) :
    Built W s (Compiler.parseItems list current parsed items) fun W' _ => DefaultsOk W' := by
  induction items generalizing W s current parsed with
  | nil =>
      rw [Compiler.parseItems]
      split
      · exact Built.badLambdaList ok _ _
      · exact Built.gives ok defaults
  | cons item items ih =>
      obtain ⟨datum, others⟩ := World.data_cons.mp data
      unfold Compiler.parseItems
      dsimp only
      split
      · split
        · split
          · exact ih ok _ ⟨defaults.optional, defaults.keys⟩ others
          · exact Built.badLambdaList ok _ _
        · split
          · split
            · exact ih ok _ ⟨defaults.optional, defaults.keys⟩ others
            · exact Built.badLambdaList ok _ _
          · exact Built.badLambdaList ok _ _
      · split
        · split
          · exact ih ok _ ⟨defaults.optional, defaults.keys⟩ others
          · exact Built.badLambdaList ok _ _
        · refine Built.ofHeap ?_
          split
          · rename_i param found
            exact ih ok _ (defaults.addOptional (optionalParam?_datum ok datum found)) others
          · exact Built.badLambdaList ok _ _
        · split
          · exact ih ok _ ⟨defaults.optional, defaults.keys⟩ others
          · exact Built.badLambdaList ok _ _
        · refine Built.bind (Built.keyParam? ok datum) fun W₁ s₁ param? first ok₁ known => ?_
          split
          · rename_i param
            exact ih ok₁ _ ((defaults.further first).addKey (known param rfl)) (first.data others)
          · exact Built.badLambdaList ok₁ _ _
        · exact Built.badLambdaList ok _ _

theorem Built.parseLambdaList (ok : CompilerOk W s) (datum : W.Datum list) :
    Built W s (Compiler.parseLambdaList list) fun W' _ => DefaultsOk W' := by
  refine Built.ofHeap ?_
  split
  · rename_i items found
    exact Built.parseItems ok _ _ ⟨nofun, nofun⟩ (listItems_data ok.describes datum found)
  · exact Built.badLambdaList ok _ _

end LambdaLists

section Lowering

variable {W W' : World} {s s' : CompileState} {list tail : Value} {items body : List Value}

/-- What was sorted out of a macro lambda list is data. -/
structure ItemsOk (W : World) (sorted : MacroItems) : Prop where
  flat : W.Data sorted.flat
  destructured : ∀ part ∈ sorted.destructured, W.Datum part.2

theorem ItemsOk.further {sorted : MacroItems} (ok : ItemsOk W sorted)
    (further : Further W s W' s') :
    ItemsOk W' sorted :=
  ⟨further.data ok.flat, fun part member => further.datum (ok.destructured part member)⟩

theorem ItemsOk.addFlat {sorted : MacroItems} {item : Value} (ok : ItemsOk W sorted)
    (datum : W.Datum item) :
    ItemsOk W { sorted with flat := sorted.flat ++ [item] } :=
  ⟨ok.flat.append (by simpa [World.Data] using datum), ok.destructured⟩

theorem Built.sortItems (ok : CompilerOk W s) (list : Value) (isFirst required : Bool)
    {sorted : MacroItems} (known : ItemsOk W sorted) (data : W.Data items) :
    Built W s (Compiler.sortItems list isFirst required sorted items) fun W' _ => ItemsOk W' := by
  induction n : items.length using Nat.strong_induction_on
    generalizing W s isFirst required sorted items with
  | _ n ih =>
    subst n
    cases items with
    | nil => exact Built.gives ok known
    | cons item rest =>
        obtain ⟨datum, others⟩ := World.data_cons.mp data
        have onward : ∀ W s isFirst required sorted, CompilerOk W s → ItemsOk W sorted →
            W.Data rest → Built W s (Compiler.sortItems list isFirst required sorted rest)
              fun W' _ => ItemsOk W' :=
          fun W s isFirst required sorted ok known data =>
            ih rest.length (by simp) ok isFirst required known data rfl
        -- A variable that belongs to a keyword is taken with it.
        have pair : ∀ value more, rest = value :: more → ∀ isFirst required sorted,
            ItemsOk W sorted → Built W s (Compiler.sortItems list isFirst required sorted more)
              fun W' _ => ItemsOk W' := by
          rintro value more rfl isFirst required sorted known
          exact ih more.length (by simp only [List.length_cons]; omega) ok isFirst required known
            (World.data_cons.mp others).2 rfl
        unfold Compiler.sortItems
        split
        · split
          · split
            · exact Built.badLambdaList ok _ _
            · split
              · exact Built.badLambdaList ok _ _
              · split
                · exact pair _ _ rfl _ _ _ ⟨known.flat, known.destructured⟩
                · exact Built.badLambdaList ok _ _
          · split
            · split
              · exact Built.badLambdaList ok _ _
              · split
                · exact pair _ _ rfl _ _ _ ⟨known.flat, known.destructured⟩
                · exact Built.badLambdaList ok _ _
            · exact onward W s _ _ _ ok (known.addFlat datum) others
        · split
          · refine Built.bind (Built.gensym ok "ARG") fun W₁ s₁ param first ok₁ new => ?_
            refine onward W₁ s₁ _ _ _ ok₁ ⟨((known.further first).addFlat new).flat, ?_⟩
              (first.data others)
            intro part member
            rcases List.mem_append.mp member with inside | last
            · exact (known.further first).destructured part inside
            · rw [List.mem_singleton.mp last]
              exact first.datum datum
          · exact onward W s _ _ _ ok (known.addFlat datum) others

theorem Built.tailItems (ok : CompilerOk W s) (list : Value) (datum : W.Datum tail) :
    Built W s (Compiler.tailItems list tail) fun W' _ items => W'.Data items := by
  unfold Compiler.tailItems
  split
  · exact Built.gives ok World.data_nil
  · refine Built.gives ok (World.data_cons.mpr ⟨?_, World.data_cons.mpr ⟨datum, World.data_nil⟩⟩)
    exact show SymbolId.ampRest ≠ SymbolId.nil by decide
  · exact Built.badLambdaList ok _ _

/-- A list of a symbol of the language and further data. -/
theorem World.Data.ofName {id : SymbolId} (name : id ≠ SymbolId.nil) (data : W.Data items) :
    W.Data (.symbol id :: items) :=
  World.data_cons.mpr ⟨name, data⟩

theorem World.Data.one {value : Value} (datum : W.Datum value) : W.Data [value] :=
  World.data_cons.mpr ⟨datum, World.data_nil⟩

theorem World.Data.two {value other : Value} (datum : W.Datum value) (datum' : W.Datum other) :
    W.Data [value, other] :=
  World.data_cons.mpr ⟨datum, .one datum'⟩

theorem Built.letForm (ok : CompilerOk W s) (var : SymbolId) {value : Value}
    (datum : W.Datum value) (data : W.Data body) :
    Built W s (Compiler.letForm var value body) fun W' _ => W'.Datum := by
  refine Built.bind (Built.newList ok (.two (W.datum_ofSymbol var) datum))
    fun W₁ s₁ binding first ok₁ datumBinding => ?_
  refine Built.bind (Built.newList ok₁ (.one datumBinding))
    fun W₂ s₂ bindings second ok₂ datumBindings => ?_
  refine Built.bind (Built.newList ok₂ (second.data (first.data data)))
    fun W₃ s₃ forms third ok₃ datumForms => ?_
  exact Built.newListWithTail ok₃ (.ofName (by decide) (.one (third.datum datumBindings))) datumForms

structure LoweredOk (W : World) (lowered : Lowered) : Prop where
  list : W.Datum lowered.list
  body : W.Data lowered.body

theorem Built.spreadForm (ok : CompilerOk W s) (param : SymbolId) {lowered : Lowered}
    (known : LoweredOk W lowered) :
    Built W s (Compiler.spreadForm lowered param) fun W' _ => W'.Datum := by
  refine Built.bind (Built.newList ok known.body) fun W₁ s₁ forms first ok₁ datumForms => ?_
  refine Built.bind (Built.newListWithTail ok₁ (.ofName (by decide) (.one (first.datum known.list)))
    datumForms) fun W₂ s₂ lambda _ ok₂ datumLambda => ?_
  refine Built.bind (Built.newList ok₂ (.ofName (by decide) (.one datumLambda)))
    fun W₃ s₃ function _ ok₃ datumFunction => ?_
  exact Built.newList ok₃ (.ofName (by decide) (.two datumFunction (W₃.datum_ofSymbol param)))

theorem Built.spreadBody (ok : CompilerOk W s) (param : SymbolId) {lowered : Lowered}
    (known : LoweredOk W lowered) :
    Built W s (Compiler.spreadBody param lowered) fun W' _ body => W'.Data body := by
  refine Built.bind (Built.spreadForm ok param known) fun W₁ s₁ form _ ok₁ datum => ?_
  split
  · exact Built.bind (Built.letForm ok₁ _ (W₁.datum_ofSymbol param) (.one datum))
      fun _ _ _ _ ok₂ datum => Built.gives ok₂ (.one datum)
  · exact Built.gives ok₁ (.one datum)

/-- Steps that hand something on, from the last item to the first. -/
theorem Built.foldrM {f : γ → α → Compile α} {start : α} {parts : List γ}
    (known : World → γ → Prop) (holds : World → α → Prop) (ok : CompilerOk W s)
    (later : ∀ W s W' s' part, Further W s W' s' → known W part → known W' part)
    (here : ∀ part ∈ parts, known W part) (begins : holds W start)
    (each : ∀ W s part a, CompilerOk W s → known W part → holds W a →
      Built W s (f part a) fun W' _ => holds W') :
    Built W s (parts.foldrM f start) fun W' _ => holds W' := by
  induction parts with
  | nil => exact Built.gives ok begins
  | cons part rest ih =>
      rw [List.foldrM_cons]
      obtain ⟨first, others⟩ := List.forall_mem_cons.mp here
      exact Built.bind (ih others) fun W₁ s₁ a further ok₁ held =>
        each W₁ s₁ part a ok₁ (later _ _ _ _ _ further first) held

theorem Built.lowerWithin (ok : CompilerOk W s) (depth : Nat) (datum : W.Datum list)
    (data : W.Data body) :
    Built W s (Compiler.lowerWithin depth list body) fun W' _ => LoweredOk W' := by
  induction depth generalizing W s list body with
  | zero => exact Built.fails ok trivial
  | succ depth ih =>
      rw [Compiler.lowerWithin]
      refine Built.ofHeap ?_
      obtain ⟨dataItems, datumTail⟩ :=
        spineFrom_data ok.describes s.image.heap.cells.size World.data_nil datum
      refine Built.bind (Built.sortItems ok _ _ _ ⟨World.data_nil, nofun⟩ dataItems)
        fun W₁ s₁ sorted first ok₁ sortedOk => ?_
      refine Built.bind (Built.tailItems ok₁ _ (first.datum datumTail))
        fun W₂ s₂ tail second ok₂ dataTail => ?_
      have rest : ∀ W₃ s₃ body, Further W₂ s₂ W₃ s₃ → CompilerOk W₃ s₃ → W₃.Data body →
          Built W₃ s₃ (do
            let body ← sorted.destructured.foldrM (fun item body => do
              Compiler.spreadBody item.1 (← Compiler.lowerWithin depth item.2 body)) body
            return (⟨← Compiler.newList (sorted.flat ++ tail), body, sorted.whole⟩ : Lowered))
            fun W' _ => LoweredOk W' := by
        intro W₃ s₃ body third ok₃ dataBody
        have sortedOk₃ := (sortedOk.further second).further third
        have each : ∀ W s (part : SymbolId × Value) body, CompilerOk W s → W.Datum part.2 →
            W.Data body → Built W s (do
              Compiler.spreadBody part.1 (← Compiler.lowerWithin depth part.2 body))
              fun W' _ body => W'.Data body :=
          fun W s part body ok datum data => Built.bind (ih ok datum data)
            fun _ _ lowered _ ok' known => Built.spreadBody ok' _ known
        have kept : ∀ W s W' s' (part : SymbolId × Value), Further W s W' s' → W.Datum part.2 →
            W'.Datum part.2 := fun _ _ _ _ _ further datum => further.datum datum
        refine Built.bind (Built.foldrM _ World.Data ok₃ kept sortedOk₃.destructured dataBody each)
          fun W₄ s₄ body fourth ok₄ dataBody => ?_
        refine Built.bind (Built.newList ok₄ ?_) fun W₅ s₅ list fifth ok₅ datumList =>
          Built.gives ok₅ ⟨datumList, fifth.data dataBody⟩
        exact fourth.data (sortedOk₃.flat.append (third.data dataTail))
      split
      · exact Built.bind (Built.letForm ok₂ _ trivial (second.data (first.data data)))
          fun W₃ s₃ _ third ok₃ datum => rest W₃ s₃ _ third ok₃ (.one datum)
      · exact rest W₂ s₂ _ (Further.refl W₂ s₂) ok₂ (second.data (first.data data))

theorem Built.lowerLambdaList (ok : CompilerOk W s) (datum : W.Datum list) (data : W.Data body) :
    Built W s (Compiler.lowerLambdaList list body) fun W' _ => LoweredOk W' :=
  Built.ofHeap (Built.lowerWithin ok _ datum data)

end Lowering

section Expanders

variable {W : World} {s : CompileState} {compile : FormCompiler} {list : Value} {body : List Value}

/-- The function that a macro is defined as. -/
theorem Built.expanderOf (forms : CompilesForms compile) (ok : CompilerOk W s)
    (name whole : SymbolId) {lowered : Lowered} (known : LoweredOk W lowered) :
    Built W s (Compiler.expanderOf compile name whole lowered) fun W' _ => W'.Datum := by
  refine Built.bind (Built.newCons ok (W.datum_ofSymbol whole) known.list)
    fun W₁ s₁ list first ok₁ datumList => ?_
  refine Built.bind (Built.newList ok₁ (first.data known.body))
    fun W₂ s₂ forms₂ second ok₂ datumForms => ?_
  refine Built.bind (Built.newListWithTail ok₂ (.ofName (by decide)
    (.two (W₂.datum_ofSymbol name) (second.datum datumList))) datumForms)
    fun W₃ s₃ lambda _ ok₃ datumLambda => ?_
  refine Built.bind (Built.newList ok₃ (.ofName (by decide) (.one datumLambda)))
    fun W₄ s₄ form _ ok₄ datumForm => ?_
  refine Built.bind (Built.evalNow forms ok₄ datumForm) fun W₅ s₅ value _ ok₅ datum => ?_
  split
  · exact Built.gives ok₅ datum
  · exact Built.described (Built.named (Built.fails ok₅ trivial))

theorem Built.makeExpander (forms : CompilesForms compile) (ok : CompilerOk W s) (name : SymbolId)
    (datum : W.Datum list) (data : W.Data body) :
    Built W s (Compiler.makeExpander compile name list body) fun W' _ => W'.Datum := by
  refine Built.bind (Built.lowerLambdaList ok datum data) fun W₁ s₁ lowered _ ok₁ known => ?_
  split
  · exact Built.expanderOf forms ok₁ name _ known
  · exact Built.bind (Built.gensym ok₁ "WHOLE") fun W₂ s₂ whole second ok₂ _ =>
      Built.expanderOf forms ok₂ name whole ⟨second.datum known.list, second.data known.body⟩

end Expanders

section Templates

variable {W : World} {s : CompileState} {template tail value arg : Value} {items : List Value}

theorem Built.quoteForm (ok : CompilerOk W s) (datum : W.Datum value) :
    Built W s (Compiler.quoteForm value) fun W' _ => W'.Datum :=
  Built.newList ok (.ofName (by decide) (.one datum))

theorem Built.rebuildForm (ok : CompilerOk W s) (marker : Marker) (datum : W.Datum value) :
    Built W s (Compiler.rebuildForm marker value) fun W' _ => W'.Datum :=
  Built.bind (Built.quoteForm ok (W.datum_ofSymbol marker.symbol)) fun _ _ _ further ok' quoted =>
    Built.newList ok' (.ofName (by decide) (.two quoted (further.datum datum)))

theorem marked?_datum (ok : CompilerOk W s) {marker : Marker}
    (found : marked? s.image.heap template = some (marker, arg)) :
    W.Datum arg := by
  unfold marked? at found
  split at found
  · rename_i address
    dsimp only at found
    split at found
    · rename_i listed
      cases found
      exact listItems_data ok.describes (ok.describes.cell_datum address).2 listed _ (by simp)
    · cases found
  · cases found

theorem templateParts_data (ok : CompilerOk W s) (limit : Nat) (seen : W.Data items)
    (datum : W.Datum template) :
    W.Data (templateParts s.image.heap limit items template).1 ∧
      W.Datum (templateParts s.image.heap limit items template).2 := by
  have ends : W.Data items.reverse := fun item member => seen item (List.mem_reverse.mp member)
  induction limit generalizing items template with
  | zero =>
      rw [templateParts]
      · exact ⟨ends, datum⟩
      · nofun
  | succ limit ih =>
      cases template
      case cons address =>
        rw [templateParts]
        split
        · exact ⟨ends, datum⟩
        · have cell := ok.describes.cell_datum address
          have more := World.data_cons.mpr ⟨cell.1, seen⟩
          exact ih more cell.2 fun item member => more item (List.mem_reverse.mp member)
      all_goals exact ⟨ends, datum⟩

/-- Templates that nest to some depth are expanded to data. -/
structure Expands (limit : Nat) : Prop where
  template : ∀ W s depth template, CompilerOk W s → W.Datum template →
    Built W s (expandTemplate limit depth template) fun W' _ => W'.Datum
  marked : ∀ W s depth template marker arg, CompilerOk W s → W.Datum arg →
    Built W s (expandMarked limit depth template marker arg) fun W' _ => W'.Datum
  list : ∀ W s depth template, CompilerOk W s → W.Datum template →
    Built W s (expandList limit depth template) fun W' _ => W'.Datum

theorem Built.expandElements {limit : Nat} (ok : CompilerOk W s) (expands : Expands limit)
    (depth : Nat) (data : W.Data items) (datum : W.Datum tail) :
    Built W s (List.foldrM (fun element result => do
        match marked? (← Compiler.heap) element, depth with
        | some (.splice, arg), 1 => Compiler.newList [.symbol SymbolId.append, arg, result]
        | _, _ => do
            Compiler.newList [.symbol SymbolId.cons, ← expandTemplate limit depth element, result])
      tail items) fun W' _ => W'.Datum := by
  refine Built.foldrM World.Datum World.Datum ok
    (fun _ _ _ _ _ further datum => further.datum datum) data datum ?_
  intro W s element result ok datumElement datumResult
  refine Built.ofHeap ?_
  split
  · rename_i found
    exact Built.newList ok (.ofName (by decide) (.two (marked?_datum ok found) datumResult))
  · exact Built.bind (expands.template W s _ element ok datumElement)
      fun _ _ _ further ok' datum =>
        Built.newList ok' (.ofName (by decide) (.two datum (further.datum datumResult)))

theorem Built.expandMarked {limit : Nat} (ok : CompilerOk W s) (expands : Expands limit)
    (depth : Nat) (template : Value) (marker : Marker) (datum : W.Datum arg) :
    Built W s (Compiler.expandMarked (limit + 1) depth template marker arg)
      fun W' _ => W'.Datum := by
  have rebuilt : ∀ depth, Built W s (do
      Compiler.rebuildForm marker (← expandTemplate limit depth arg)) fun W' _ => W'.Datum :=
    fun depth => Built.bind (expands.template W s depth arg ok datum) fun _ _ _ _ ok' datum =>
      Built.rebuildForm ok' marker datum
  cases marker with
  | backquote => exact rebuilt _
  | unquote =>
      rw [Compiler.expandMarked]
      split
      · exact Built.gives ok datum
      · exact rebuilt _
  | splice =>
      rw [Compiler.expandMarked]
      split
      · exact Built.described (Built.fails ok trivial)
      · exact rebuilt _

theorem Built.expandList {limit : Nat} (ok : CompilerOk W s) (expands : Expands limit)
    (depth : Nat) (datum : W.Datum template) :
    Built W s (Compiler.expandList (limit + 1) depth template) fun W' _ => W'.Datum := by
  rw [Compiler.expandList]
  refine Built.ofHeap ?_
  dsimp only
  obtain ⟨data, datumRest⟩ := templateParts_data ok s.image.heap.cells.size World.data_nil datum
  have elements := fun {tail} (datum : W.Datum tail) =>
    Built.expandElements ok expands depth data datum
  have expanded := Built.bind (expands.template W s depth _ ok datumRest)
    fun W' s' tail further ok' datum =>
      Built.expandElements ok' expands depth (further.data data) datum
  split
  · rename_i found
    split
    · exact elements (marked?_datum ok found)
    · exact expanded
  · rename_i found
    split
    · exact elements (marked?_datum ok found)
    · exact expanded
  · split
    · exact elements trivial
    · exact expanded

theorem Built.expandTemplate {limit : Nat} (ok : CompilerOk W s) (expands : Expands limit)
    (depth : Nat) (datum : W.Datum template) :
    Built W s (Compiler.expandTemplate (limit + 1) depth template) fun W' _ => W'.Datum := by
  cases template
  case cons address =>
    rw [Compiler.expandTemplate]
    refine Built.ofHeap ?_
    split
    · rename_i found
      exact expands.marked W s depth _ _ _ ok (marked?_datum ok found)
    · exact expands.list W s depth _ ok datum
  case vector address =>
    rw [Compiler.expandTemplate]
    refine Built.ofHeap ?_
    refine Built.bind (Built.newList ok (ok.describes.vector_data datum))
      fun W₁ s₁ items _ ok₁ datumItems => ?_
    refine Built.bind (expands.list W₁ s₁ depth items ok₁ datumItems)
      fun W₂ s₂ list second ok₂ datumList => ?_
    refine Built.bind (Built.newList ok₂ (.ofName (by decide) (.ofName (by decide) World.data_nil)))
      fun W₃ s₃ function third ok₃ datumFunction => ?_
    exact Built.newList ok₃ (.ofName (by decide) (.two datumFunction (third.datum datumList)))
  case symbol id => exact Built.quoteForm ok datum
  case nil => exact Built.quoteForm ok datum
  all_goals exact Built.gives ok datum

theorem expands (limit : Nat) : Expands limit := by
  induction limit with
  | zero =>
      exact ⟨fun _ _ _ _ ok _ => Built.fails ok trivial,
        fun _ _ _ _ _ _ ok _ => Built.fails ok trivial,
        fun _ _ _ _ ok _ => Built.fails ok trivial⟩
  | succ limit ih =>
      exact ⟨fun _ _ depth _ ok datum => Built.expandTemplate ok ih depth datum,
        fun _ _ depth _ marker _ ok datum => Built.expandMarked ok ih depth _ marker datum,
        fun _ _ depth _ ok datum => Built.expandList ok ih depth datum⟩

/-- What a backquoted template stands for. -/
theorem Built.expandBackquote (ok : CompilerOk W s) (datum : W.Datum template) :
    Built W s (Compiler.expandBackquote template) fun W' _ => W'.Datum :=
  Built.ofHeap ((expands _).template W s 1 template ok datum)

end Templates

end LispScript.Discipline
