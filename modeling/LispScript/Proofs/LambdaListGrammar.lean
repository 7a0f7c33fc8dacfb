import LispScript.Compiler.LambdaList
import LispScript.Proofs.Forms

/-!
The grammar of lambda lists. What is accepted are the lists of the form

    required* [&OPTIONAL opt*] [(&REST | &BODY) var] [&KEY key* [&ALLOW-OTHER-KEYS]]

and, since the last marker closes nothing, those in which more keyword parameters or markers follow
it; and what is read from them are their parameters, in order.
-/

namespace LispScript

def CompileState.withSymbols (s : CompileState) (symbols : SymbolTable) : CompileState :=
  { s with image := { s.image with symbols } }

namespace Compiler

section Grammar

/-- A variable of a lambda list: a symbol other than `NIL` and the lambda-list keywords. -/
structure IsVariable (item : Value) (var : SymbolId) : Prop where
  item_eq : item = .symbol var
  named : var.isLambdaKeyword = false

/-- What may stand after the variable of a parameter: `[default [supplied-p]]`. -/
inductive IsDefaultParts : List Value → Value → Option SymbolId → Prop where
  | none : IsDefaultParts [] .nil none
  | default (form : Value) : IsDefaultParts [form] form none
  | supplied (form : Value) {item : Value} {flag : SymbolId} (isVar : IsVariable item flag) :
      IsDefaultParts [form, item] form (some flag)

/-- `var` or `(var [default [supplied-p]])` -/
inductive IsOptional (heap : Heap) : Value → OptionalParam → Prop where
  | bare {item : Value} {var : SymbolId} (isVar : IsVariable item var) :
      IsOptional heap item ⟨var, .nil, none⟩
  | list {item first : Value} {parts : List Value} {param : OptionalParam}
      (items : heap.listItems? item = some (first :: parts)) (isVar : IsVariable first param.var)
      (rest : IsDefaultParts parts param.default param.supplied) : IsOptional heap item param

/-- `var` or `(keyword var)`, with the keyword that stands there, or the one that has the name of the
variable, which may be new in the later table. -/
inductive IsKeyName (heap : Heap) (table : SymbolTable) :
    Value → SymbolId → SymbolId → SymbolTable → Prop where
  | bare {item : Value} {var keyword : SymbolId} {later : SymbolTable}
      (isVar : IsVariable item var)
      (interned : table.internKeyword (table.symbolName var) = (keyword, later)) :
      IsKeyName heap table item var keyword later
  | named {item first second : Value} {var keyword : SymbolId}
      (items : heap.listItems? item = some [first, second]) (isKey : first.asSymbol? = some keyword)
      (isVar : IsVariable second var) : IsKeyName heap table item var keyword table

/-- `var`, `(var [default [supplied-p]])` or `((keyword var) [default [supplied-p]])` -/
inductive IsKey (heap : Heap) (table : SymbolTable) : Value → KeyParam → SymbolTable → Prop where
  | bare {item : Value} {var keyword : SymbolId} {later : SymbolTable}
      (isVar : IsVariable item var) (name : IsKeyName heap table item var keyword later) :
      IsKey heap table item ⟨var, keyword, .nil, none⟩ later
  | list {item first : Value} {parts : List Value} {param : KeyParam} {later : SymbolTable}
      (items : heap.listItems? item = some (first :: parts))
      (name : IsKeyName heap table first param.var param.keyword later)
      (rest : IsDefaultParts parts param.default param.supplied) : IsKey heap table item param later

/-- Keyword parameters and the marker after them; `more` tells whether more of them may follow the
marker. -/
inductive AreKeys (heap : Heap) (more : Prop) :
    SymbolTable → List Value → List KeyParam → Bool → SymbolTable → Prop where
  | nil {table : SymbolTable} : AreKeys heap more table [] [] false table
  | param {table middle later : SymbolTable} {item : Value} {items : List Value} {param : KeyParam}
      {params : List KeyParam} {allow : Bool} (isKey : IsKey heap table item param middle)
      (rest : AreKeys heap more middle items params allow later) :
      AreKeys heap more table (item :: items) (param :: params) allow later
  | allow {table later : SymbolTable} {items : List Value} {params : List KeyParam} {allow : Bool}
      (last : items = [] ∨ more) (rest : AreKeys heap more table items params allow later) :
      AreKeys heap more table (.symbol SymbolId.ampAllowOtherKeys :: items) params true later

/-- `[&OPTIONAL opt*]` -/
inductive IsOptionalSection (heap : Heap) : List Value → List OptionalParam → Prop where
  | absent : IsOptionalSection heap [] []
  | present {items : List Value} {params : List OptionalParam}
      (each : List.Forall₂ (IsOptional heap) items params) :
      IsOptionalSection heap (.symbol SymbolId.ampOptional :: items) params

/-- `[(&REST | &BODY) var]` -/
inductive IsRestSection : List Value → Option SymbolId → Prop where
  | absent : IsRestSection [] none
  | present {marker var : SymbolId} {item : Value}
      (opens : marker = SymbolId.ampRest ∨ marker = SymbolId.ampBody) (isVar : IsVariable item var) :
      IsRestSection [.symbol marker, item] (some var)

/-- `[&KEY key* [&ALLOW-OTHER-KEYS]]` -/
inductive IsKeySection (heap : Heap) (more : Prop) (table : SymbolTable) :
    List Value → Bool → List KeyParam → Bool → SymbolTable → Prop where
  | absent : IsKeySection heap more table [] false [] false table
  | present {items : List Value} {params : List KeyParam} {allow : Bool} {later : SymbolTable}
      (keys : AreKeys heap more table items params allow later) :
      IsKeySection heap more table (.symbol SymbolId.ampKey :: items) true params allow later

/-- A lambda list and its parameters. The keywords named after variables are interned in order,
which takes one table to another. -/
structure IsLambdaList (heap : Heap) (more : Prop) (table : SymbolTable) (items : List Value)
    (list : LambdaList) (later : SymbolTable) : Prop where
  sections : ∃ required optional rest keys, items = required ++ optional ++ rest ++ keys ∧
    List.Forall₂ IsVariable required list.required ∧ IsOptionalSection heap optional list.optional ∧
    IsRestSection rest list.rest ∧
    IsKeySection heap more table keys list.hasKeys list.keys list.allowOtherKeys later

end Grammar

section Items

variable {heap : Heap} {item first second : Value} {parts items : List Value} {var : SymbolId}

theorem spineFrom_seen (heap : Heap) (limit : Nat) (seen : List Value) (value : Value) :
    ∃ more, (heap.spineFrom limit seen value).1 = seen.reverse ++ more := by
  induction limit generalizing seen value with
  | zero => exact ⟨[], (List.append_nil _).symm⟩
  | succ limit ih =>
      cases value with
      | cons address =>
          obtain ⟨more, read⟩ := ih ((heap.cell address).car :: seen) (heap.cell address).cdr
          exact ⟨(heap.cell address).car :: more, read.trans (by simp)⟩
      | _ => exact ⟨[], (List.append_nil _).symm⟩

/-- A list with a first element is a cons of it. -/
theorem cons_of_listItems? (read : heap.listItems? item = some (first :: parts)) :
    ∃ address, item = .cons address ∧ (heap.cell address).car = first := by
  have split : (heap.splitDotted item).1 = first :: parts := by
    rw [Heap.listItems?] at read
    split at read
    · rename_i found
      rw [found]
      exact Option.some.inj read
    · cases read
  rw [Heap.splitDotted] at split
  generalize heap.cells.size = limit at split
  cases limit with
  | zero => cases split
  | succ limit =>
      cases item with
      | cons address =>
          obtain ⟨more, read⟩ :=
            spineFrom_seen heap limit [(heap.cell address).car] (heap.cell address).cdr
          have same : (heap.cell address).car :: more = first :: parts := read.symm.trans split
          exact ⟨address, rfl, (List.cons.inj same).1⟩
      | _ => cases split

/-- No list that begins with a cons is empty. -/
theorem listItems?_cons_ne_nil {address : Address} (read : heap.listItems? (.cons address) = some items) :
    items ≠ [] := by
  rintro rfl
  rw [Heap.listItems?, Heap.splitDotted] at read
  generalize heap.cells.size = limit at read
  cases limit with
  | zero => cases read
  | succ limit =>
      obtain ⟨more, seen⟩ := spineFrom_seen heap limit [(heap.cell address).car] (heap.cell address).cdr
      rw [Heap.spineFrom] at read
      split at read
      · rename_i none_
        rw [none_] at seen
        cases read
        cases seen
      · cases read

theorem parameter?_eq_some : parameter? item = some var ↔ IsVariable item var := by
  constructor
  · intro found
    unfold parameter? at found
    split at found
    · split at found
      · cases found
      · rename_i named
        cases found
        exact ⟨rfl, Bool.eq_false_iff.mpr named⟩
    · cases found
  · rintro ⟨rfl, named⟩
    simp [parameter?, named]

theorem parameter?_cons (address : Address) : parameter? (.cons address) = none := rfl

theorem defaultParts?_eq_some {default : Value} {flag : Option SymbolId} :
    defaultParts? parts = some (default, flag) ↔ IsDefaultParts parts default flag := by
  constructor
  · intro found
    unfold defaultParts? at found
    split at found
    · cases found
      exact .none
    · cases found
      exact .default _
    · obtain ⟨flag, isVar, same⟩ := Option.map_eq_some_iff.mp found
      cases same
      exact .supplied _ (parameter?_eq_some.mp isVar)
    · cases found
  · intro isParts
    cases isParts with
    | none => rfl
    | default => rfl
    | supplied _ isVar => simp [defaultParts?, parameter?_eq_some.mpr isVar]

theorem optionalParam?_eq_some {param : OptionalParam} :
    optionalParam? heap item = some param ↔ IsOptional heap item param := by
  constructor
  · intro found
    unfold optionalParam? at found
    split at found
    · rename_i isVar
      cases found
      exact .bare (parameter?_eq_some.mp isVar)
    · obtain ⟨items, read, found⟩ := Option.bind_eq_some_iff.mp found
      cases items with
      | nil => cases found
      | cons first parts =>
          obtain ⟨var, isVar, found⟩ := Option.bind_eq_some_iff.mp found
          obtain ⟨⟨default, flag⟩, rest, found⟩ := Option.bind_eq_some_iff.mp found
          cases found
          exact .list read (parameter?_eq_some.mp isVar) (defaultParts?_eq_some.mp rest)
  · intro isOptional
    cases isOptional with
    | bare isVar => simp [optionalParam?, parameter?_eq_some.mpr isVar]
    | list read isVar rest =>
        obtain ⟨address, rfl, -⟩ := cons_of_listItems? read
        simp [optionalParam?, parameter?_cons, read, parameter?_eq_some.mpr isVar,
          defaultParts?_eq_some.mpr rest]

end Items

section Keys

variable {s t : CompileState} {item head : Value} {var keyword : SymbolId} {param : KeyParam}

theorem keyNames?_cons (address : Address) (s : CompileState) :
    keyNames? (.cons address) s =
      .ok (match s.image.heap.listItems? (.cons address) with
        | some [keyword, var] => (parameter? var).bind fun var =>
            keyword.asSymbol?.map fun keyword => (var, keyword)
        | _ => none) s := by
  unfold keyNames?
  change EStateM.bind heap _ s = _
  change (match s.image.heap.listItems? (.cons address) with
    | some [keyword, var] => Pure.pure ((parameter? var).bind fun var =>
        keyword.asSymbol?.map fun keyword => (var, keyword))
    | _ => Pure.pure none : Compile (Option (SymbolId × SymbolId))) s = _
  generalize s.image.heap.listItems? (.cons address) = items
  match items with
  | some [_, _] | none | some [] | some [_] | some (_ :: _ :: _ :: _) => rfl

theorem keyNames?_other (other : head.isCons = false) (s : CompileState) :
    keyNames? head s =
      match parameter? head with
      | some var =>
          .ok (some (var, (s.image.symbols.internKeyword (s.image.symbols.symbolName var)).1))
            (s.withSymbols (s.image.symbols.internKeyword (s.image.symbols.symbolName var)).2)
      | none => .ok none s := by
  unfold keyNames?
  cases head with
  | cons address => cases other
  | _ =>
      dsimp only
      cases parameter? _ <;> rfl

theorem keyNames?_ok : keyNames? head s = .ok (some (var, keyword)) t ↔
    ∃ later, IsKeyName s.image.heap s.image.symbols head var keyword later ∧
      t = s.withSymbols later := by
  cases kind : head.isCons with
  | true =>
      obtain ⟨address, rfl⟩ : ∃ address, head = .cons address := by
        cases head <;> first | exact ⟨_, rfl⟩ | cases kind
      rw [keyNames?_cons]
      constructor
      · intro ended
        obtain ⟨found, rfl⟩ := EStateM.Result.ok.inj ended
        split at found
        · rename_i read
          obtain ⟨var, isVar, found⟩ := Option.bind_eq_some_iff.mp found
          obtain ⟨keyword, isKey, found⟩ := Option.map_eq_some_iff.mp found
          cases found
          exact ⟨_, .named read isKey (parameter?_eq_some.mp isVar), rfl⟩
        · cases found
      · rintro ⟨later, name, rfl⟩
        cases name with
        | bare isVar => cases isVar.item_eq
        | named read isKey isVar =>
            rw [read]
            simp [parameter?_eq_some.mpr isVar, isKey, CompileState.withSymbols]
  | false =>
      rw [keyNames?_other kind]
      constructor
      · intro ended
        split at ended
        · rename_i isVar
          cases ended
          exact ⟨_, .bare (parameter?_eq_some.mp isVar) rfl, rfl⟩
        · cases ended
      · rintro ⟨later, name, rfl⟩
        cases name with
        | bare isVar interned =>
            rw [parameter?_eq_some.mpr isVar]
            dsimp only
            rw [interned]
        | named read =>
            obtain ⟨address, rfl, -⟩ := cons_of_listItems? read
            cases kind

theorem keyParam?_cons (address : Address) (s : CompileState) :
    keyParam? (.cons address) s =
      match keyNames? (s.image.heap.cell address).car s with
      | .ok (some (var, keyword)) t =>
          .ok (((t.image.heap.listItems? (.cons address)).map List.tail).bind fun parts =>
            (defaultParts? parts).map fun (default, supplied) => ⟨var, keyword, default, supplied⟩) t
      | .ok none t => .ok none t
      | .error e t => .error e t := by
  unfold keyParam?
  change EStateM.bind (keyNames? (s.image.heap.cell address).car) _ s = _
  rw [EStateM.bind]
  cases keyNames? (s.image.heap.cell address).car s with
  | error e t => rfl
  | ok names t =>
      cases names with
      | none => rfl
      | some names =>
          obtain ⟨var, keyword⟩ := names
          change EStateM.Result.ok (Option.map _ (Option.bind _ defaultParts?)) t = _
          simp only [Option.map_bind]
          rfl

theorem keyParam?_other (other : item.isCons = false) (s : CompileState) :
    keyParam? item s =
      match keyNames? item s with
      | .ok names t => .ok (names.map fun (var, keyword) => ⟨var, keyword, .nil, none⟩) t
      | .error e t => .error e t := by
  unfold keyParam?
  have bare : carOf? item s = .ok none s := by
    cases item with
    | cons address => cases other
    | _ => rfl
  change EStateM.bind (carOf? item) _ s = _
  rw [EStateM.bind, bare]
  change EStateM.bind (keyNames? item) _ s = _
  rw [EStateM.bind]
  cases keyNames? item s <;> rfl

/-- A parameter that is none is told apart without a failure. -/
theorem keyParam?_total (item : Value) (s : CompileState) : ∃ param? t, keyParam? item s = .ok param? t := by
  have names (head : Value) : ∃ names t, keyNames? head s = .ok names t := by
    cases kind : head.isCons with
    | true =>
        obtain ⟨address, rfl⟩ : ∃ address, head = .cons address := by
          cases head <;> first | exact ⟨_, rfl⟩ | cases kind
        exact ⟨_, _, keyNames?_cons address s⟩
    | false =>
        rw [keyNames?_other kind]
        split <;> exact ⟨_, _, rfl⟩
  cases kind : item.isCons with
  | true =>
      obtain ⟨address, rfl⟩ : ∃ address, item = .cons address := by
        cases item <;> first | exact ⟨_, rfl⟩ | cases kind
      obtain ⟨names, t, ended⟩ := names (s.image.heap.cell address).car
      rw [keyParam?_cons, ended]
      cases names <;> exact ⟨_, _, rfl⟩
  | false =>
      obtain ⟨names, t, ended⟩ := names item
      rw [keyParam?_other kind, ended]
      exact ⟨_, _, rfl⟩

theorem keyParam?_ok : keyParam? item s = .ok (some param) t ↔
    ∃ later, IsKey s.image.heap s.image.symbols item param later ∧ t = s.withSymbols later := by
  constructor
  · intro ended
    cases kind : item.isCons with
    | true =>
        obtain ⟨address, rfl⟩ : ∃ address, item = .cons address := by
          cases item <;> first | exact ⟨_, rfl⟩ | cases kind
        rw [keyParam?_cons] at ended
        split at ended
        · rename_i var keyword u names
          obtain ⟨later, name, rfl⟩ := keyNames?_ok.mp names
          obtain ⟨found, rfl⟩ := EStateM.Result.ok.inj ended
          obtain ⟨_, tail, given⟩ := Option.bind_eq_some_iff.mp found
          obtain ⟨items, read, rfl⟩ := Option.map_eq_some_iff.mp tail
          obtain ⟨⟨default, supplied⟩, rest, rfl⟩ := Option.map_eq_some_iff.mp given
          obtain ⟨first, parts, rfl⟩ := List.exists_cons_of_ne_nil (listItems?_cons_ne_nil read)
          obtain ⟨_, same, rfl⟩ := cons_of_listItems? read
          cases same
          exact ⟨later, .list read name (defaultParts?_eq_some.mp rest), rfl⟩
        · cases ended
        · cases ended
    | false =>
        rw [keyParam?_other kind] at ended
        split at ended
        · rename_i names u named
          obtain ⟨found, rfl⟩ := EStateM.Result.ok.inj ended
          obtain ⟨⟨var, keyword⟩, rfl, found⟩ := Option.map_eq_some_iff.mp found
          cases found
          obtain ⟨later, name, rfl⟩ := keyNames?_ok.mp named
          refine ⟨later, .bare ?_ name, rfl⟩
          cases name with
          | bare isVar => exact isVar
          | named read =>
              obtain ⟨address, rfl, -⟩ := cons_of_listItems? read
              cases kind
        · cases ended
  · rintro ⟨later, isKey, rfl⟩
    cases isKey with
    | bare isVar name =>
        obtain ⟨rfl, -⟩ := isVar
        rw [keyParam?_other rfl, keyNames?_ok.mpr ⟨later, name, rfl⟩]
        rfl
    | list read name rest =>
        obtain ⟨address, rfl, rfl⟩ := cons_of_listItems? read
        rw [keyParam?_cons, keyNames?_ok.mpr ⟨later, name, rfl⟩]
        simp [CompileState.withSymbols, read, defaultParts?_eq_some.mpr rest]

end Keys

section Sections

variable {list item : Value} {items : List Value} {parsed result : LambdaList} {current : Section}
  {s t : CompileState} {id : SymbolId}

/-- An item that is no lambda-list keyword. -/
def IsPlain (item : Value) : Prop := item.asSymbol?.filter (·.isLambdaKeyword) = none

theorem isPlain_or_marker (item : Value) :
    IsPlain item ∨ ∃ id, item = .symbol id ∧ id.isLambdaKeyword = true := by
  cases found : item.asSymbol?.filter (·.isLambdaKeyword) with
  | none => exact .inl found
  | some id =>
      obtain ⟨symbol, marker⟩ := Option.filter_eq_some_iff.mp found
      refine .inr ⟨id, ?_, marker⟩
      cases item with
      | symbol other =>
          cases symbol
          rfl
      | nil =>
          cases symbol
          cases marker
      | _ => cases symbol

theorem IsVariable.isPlain (isVar : IsVariable item id) : IsPlain item := by
  obtain ⟨rfl, named⟩ := isVar
  simp [IsPlain, Value.asSymbol?, named]

theorem isPlain_of_listItems? {heap : Heap} {first : Value} {parts : List Value}
    (read : heap.listItems? item = some (first :: parts)) : IsPlain item := by
  obtain ⟨address, rfl, -⟩ := cons_of_listItems? read
  rfl

theorem parseItems_marker (marker : id.isLambdaKeyword = true) :
    parseItems list current parsed (.symbol id :: items) =
      match opens? id with
      | some opened =>
          if canFollow opened current then
            parseItems list opened { parsed with hasKeys := parsed.hasKeys || opened == .key } items
          else badLambdaList list "lambda-list keywords out of order"
      | none =>
          if id = SymbolId.ampAllowOtherKeys then
            if current = .key then
              parseItems list current { parsed with allowOtherKeys := true } items
            else badLambdaList list "&ALLOW-OTHER-KEYS must follow &KEY"
          else badLambdaList list "lambda-list keyword not allowed here" := by
  have found : (Value.symbol id).asSymbol?.filter (·.isLambdaKeyword) = some id := by
    simp [Value.asSymbol?, marker]
  conv_lhs => unfold parseItems
  generalize marked : (Value.symbol id).asSymbol?.filter (·.isLambdaKeyword) = keyword?
  obtain rfl : keyword? = some id := marked.symm.trans found
  rfl

theorem parseItems_required (plain : IsPlain item) :
    parseItems list .required parsed (item :: items) =
      match parameter? item with
      | some var =>
          parseItems list .required { parsed with required := parsed.required ++ [var] } items
      | none => badLambdaList list "required parameter must be a symbol" := by
  conv_lhs => unfold parseItems
  generalize unmarked : item.asSymbol?.filter (·.isLambdaKeyword) = keyword?
  obtain rfl : keyword? = none := unmarked.symm.trans plain
  rfl

theorem parseItems_optional (plain : IsPlain item) :
    parseItems list .optional parsed (item :: items) s =
      (match optionalParam? s.image.heap item with
      | some param =>
          parseItems list .optional { parsed with optional := parsed.optional ++ [param] } items
      | none => badLambdaList list "bad &OPTIONAL parameter") s := by
  conv_lhs => unfold parseItems
  generalize unmarked : item.asSymbol?.filter (·.isLambdaKeyword) = keyword?
  obtain rfl : keyword? = none := unmarked.symm.trans plain
  rfl

theorem parseItems_rest (plain : IsPlain item) :
    parseItems list .rest parsed (item :: items) =
      match parameter? item with
      | some var => parseItems list .afterRest { parsed with rest := some var } items
      | none => badLambdaList list "&REST needs a symbol" := by
  conv_lhs => unfold parseItems
  generalize unmarked : item.asSymbol?.filter (·.isLambdaKeyword) = keyword?
  obtain rfl : keyword? = none := unmarked.symm.trans plain
  rfl

theorem parseItems_key (plain : IsPlain item) :
    parseItems list .key parsed (item :: items) = keyParam? item >>= fun
      | some param => parseItems list .key { parsed with keys := parsed.keys ++ [param] } items
      | none => badLambdaList list "bad &KEY parameter" := by
  conv_lhs => unfold parseItems
  generalize unmarked : item.asSymbol?.filter (·.isLambdaKeyword) = keyword?
  obtain rfl : keyword? = none := unmarked.symm.trans plain
  rfl

theorem parseItems_afterRest (plain : IsPlain item) :
    parseItems list .afterRest parsed (item :: items) =
      badLambdaList list "only one variable may follow &REST" := by
  conv_lhs => unfold parseItems
  generalize unmarked : item.asSymbol?.filter (·.isLambdaKeyword) = keyword?
  obtain rfl : keyword? = none := unmarked.symm.trans plain
  rfl

theorem opens?_optional : opens? id = some .optional ↔ id = SymbolId.ampOptional := by
  unfold opens?
  split
  · simp_all
  · split
    · simp_all
    · split <;> simp_all

theorem opens?_rest :
    opens? id = some .rest ↔ id = SymbolId.ampRest ∨ id = SymbolId.ampBody := by
  unfold opens?
  split
  · rename_i same
    subst same
    decide
  · split
    · simp_all
    · split <;> simp_all

theorem opens?_key : opens? id = some .key ↔ id = SymbolId.ampKey := by
  unfold opens?
  split
  · rename_i same
    subst same
    decide
  · split
    · rename_i same
      simp only [Bool.or_eq_true, decide_eq_true_eq] at same
      rcases same with rfl | rfl <;> decide
    · split <;> simp_all

/-- What a lambda-list keyword opens, if anything. -/
theorem opens?_cases (id : SymbolId) :
    opens? id = some .optional ∨ opens? id = some .rest ∨ opens? id = some .key ∨
      opens? id = none := by
  unfold opens?
  split
  · exact .inl rfl
  · split
    · exact .inr (.inl rfl)
    · split
      · exact .inr (.inr (.inl rfl))
      · exact .inr (.inr (.inr rfl))

section Keys

variable {heap : Heap} {more : Prop} {table later : SymbolTable} {params : List KeyParam}
  {allow : Bool}

/-- What is read as keyword parameters. -/
theorem areKeys_of_parseItems (ended : parseItems list .key parsed items s = .ok result t) :
    ∃ params allow later, AreKeys s.image.heap True s.image.symbols items params allow later ∧
      result = { parsed with
        keys := parsed.keys ++ params, allowOtherKeys := parsed.allowOtherKeys || allow } ∧
      t = s.withSymbols later := by
  induction items generalizing parsed s with
  | nil =>
      cases ended
      exact ⟨[], false, _, .nil, by simp, rfl⟩
  | cons item items ih =>
      rcases isPlain_or_marker item with plain | ⟨id, rfl, marker⟩
      · rw [parseItems_key plain] at ended
        obtain ⟨param?, u, read, ended⟩ := ok_of_bind ended
        cases param? with
        | none => cases ended
        | some param =>
            obtain ⟨middle, isKey, rfl⟩ := keyParam?_ok.mp read
            obtain ⟨params, allow, later, rest, rfl, rfl⟩ := ih ended
            exact ⟨param :: params, allow, later, .param isKey rest, by simp, rfl⟩
      · rw [parseItems_marker marker] at ended
        rcases opens?_cases id with opens | opens | opens | opens
        all_goals rw [opens] at ended; try cases ended
        dsimp only at ended
        split at ended
        · rename_i same
          subst same
          obtain ⟨params, allow, later, rest, rfl, rfl⟩ := ih ended
          exact ⟨params, true, later, .allow (.inr trivial) rest, by simp, rfl⟩
        · cases ended

theorem IsKey.isPlain {param : KeyParam} (isKey : IsKey heap table item param later) :
    IsPlain item := by
  cases isKey with
  | bare isVar => exact isVar.isPlain
  | list read => exact isPlain_of_listItems? read

theorem parseItems_of_areKeys (keys : AreKeys heap more table items params allow later)
    (heap_eq : s.image.heap = heap) (table_eq : s.image.symbols = table) (parsed : LambdaList) :
    parseItems list .key parsed items s = .ok { parsed with
        keys := parsed.keys ++ params, allowOtherKeys := parsed.allowOtherKeys || allow }
      (s.withSymbols later) := by
  induction keys generalizing s parsed with
  | nil =>
      subst table_eq
      rw [List.append_nil, Bool.or_false]
      rfl
  | @param table middle later item items param params allow isKey rest ih =>
      subst table_eq heap_eq
      have read := keyParam?_ok.mpr ⟨middle, isKey, rfl⟩
      rw [parseItems_key isKey.isPlain]
      change EStateM.bind _ _ s = _
      rw [EStateM.bind, read]
      refine (ih (s := s.withSymbols middle) rfl rfl _).trans ?_
      simp [CompileState.withSymbols]
  | allow last rest ih =>
      have marker : SymbolId.ampAllowOtherKeys.isLambdaKeyword = true := by decide
      rw [parseItems_marker marker, show opens? SymbolId.ampAllowOtherKeys = none by decide]
      refine (ih heap_eq table_eq _).trans ?_
      simp

end Keys

section Ends

theorem IsOptional.isPlain {heap : Heap} {param : OptionalParam}
    (isOptional : IsOptional heap item param) : IsPlain item := by
  cases isOptional with
  | bare isVar => exact isVar.isPlain
  | list read => exact isPlain_of_listItems? read

variable {required : List SymbolId} {optional : List OptionalParam} {rest : Option SymbolId}

/-- The key section after the other ones. -/
theorem parseItems_ampKey (follows : canFollow .key current = true) :
    parseItems list current { required, optional, rest } (.symbol SymbolId.ampKey :: items) s =
        .ok result t ↔
      ∃ params allow later, AreKeys s.image.heap True s.image.symbols items params allow later ∧
        result = ⟨required, optional, rest, true, params, allow⟩ ∧ t = s.withSymbols later := by
  have marker : SymbolId.ampKey.isLambdaKeyword = true := by decide
  rw [parseItems_marker marker, show opens? SymbolId.ampKey = some .key by decide]
  dsimp only
  rw [if_pos follows]
  constructor
  · intro ended
    obtain ⟨params, allow, later, keys, rfl, rfl⟩ := areKeys_of_parseItems ended
    exact ⟨params, allow, later, keys, by simp, rfl⟩
  · rintro ⟨params, allow, later, keys, rfl, rfl⟩
    rw [parseItems_of_areKeys keys rfl rfl]
    simp

theorem canFollow_rest (ends : canFollow .rest current = true) :
    current = .required ∨ current = .optional := by
  cases current <;> simp_all [canFollow]

/-- After a variable for further arguments, keyword parameters may stand. -/
theorem parseItems_afterRest_iff :
    parseItems list .afterRest { required, optional, rest } items s = .ok result t ↔
      ∃ hasKeys params allow later,
        IsKeySection s.image.heap True s.image.symbols items hasKeys params allow later ∧
        result = ⟨required, optional, rest, hasKeys, params, allow⟩ ∧ t = s.withSymbols later := by
  constructor
  · intro ended
    cases items with
    | nil =>
        cases ended
        exact ⟨_, _, _, _, .absent, rfl, rfl⟩
    | cons item items =>
        rcases isPlain_or_marker item with plain | ⟨id, rfl, marker⟩
        · rw [parseItems_afterRest plain] at ended
          cases ended
        · by_cases isKey : id = SymbolId.ampKey
          · subst isKey
            obtain ⟨params, allow, later, keys, rfl, rfl⟩ := (parseItems_ampKey rfl).mp ended
            exact ⟨_, _, _, _, .present keys, rfl, rfl⟩
          · rw [parseItems_marker marker] at ended
            rcases opens?_cases id with opens | opens | opens | opens
            case inr.inr.inl => exact absurd (opens?_key.mp opens) isKey
            all_goals rw [opens] at ended; try cases ended
            dsimp only at ended
            split at ended <;> cases ended
  · rintro ⟨hasKeys, params, allow, later, keys, rfl, rfl⟩
    cases keys with
    | absent => rfl
    | present keys => exact (parseItems_ampKey rfl).mpr ⟨_, _, _, keys, rfl, rfl⟩

/-- The variable for further arguments, and what stands after it. -/
theorem parseItems_rest_iff :
    parseItems list .rest { required, optional } items s = .ok result t ↔
      ∃ item keyItems var hasKeys params allow later, items = item :: keyItems ∧
        IsVariable item var ∧
        IsKeySection s.image.heap True s.image.symbols keyItems hasKeys params allow later ∧
        result = ⟨required, optional, some var, hasKeys, params, allow⟩ ∧
        t = s.withSymbols later := by
  constructor
  · intro ended
    cases items with
    | nil => cases ended
    | cons item items =>
        rcases isPlain_or_marker item with plain | ⟨id, rfl, marker⟩
        · rw [parseItems_rest plain] at ended
          split at ended
          · rename_i var isVar
            obtain ⟨hasKeys, params, allow, later, keys, rfl, rfl⟩ :=
              parseItems_afterRest_iff.mp ended
            exact ⟨_, _, _, _, _, _, _, rfl, parameter?_eq_some.mp isVar, keys, rfl, rfl⟩
          · cases ended
        · rw [parseItems_marker marker] at ended
          rcases opens?_cases id with opens | opens | opens | opens
          all_goals rw [opens] at ended; try cases ended
          dsimp only at ended
          split at ended <;> cases ended
  · rintro ⟨item, keyItems, var, hasKeys, params, allow, later, rfl, isVar, keys, rfl, rfl⟩
    rw [parseItems_rest isVar.isPlain, parameter?_eq_some.mpr isVar]
    exact parseItems_afterRest_iff.mpr ⟨_, _, _, _, keys, rfl, rfl⟩

/-- The sections behind the positional parameters. -/
def EndsWith (heap : Heap) (table : SymbolTable) (items : List Value) (list : LambdaList)
    (later : SymbolTable) : Prop :=
  ∃ rest keys, items = rest ++ keys ∧ IsRestSection rest list.rest ∧
    IsKeySection heap True table keys list.hasKeys list.keys list.allowOtherKeys later

theorem EndsWith.head {heap : Heap} {table later : SymbolTable}
    (ends : EndsWith heap table items result later) :
    ∀ item ∈ items.head?, ¬IsPlain item ∧ item ≠ .symbol SymbolId.ampOptional := by
  obtain ⟨required, optional, var, hasKeys, params, allow⟩ := result
  obtain ⟨rest, keys, rfl, isRest, isKeys⟩ := ends
  intro item head
  dsimp only at isRest isKeys
  rcases isRest with _ | ⟨rfl | rfl, _⟩
  · rcases isKeys with _ | _
    · cases head
    · cases head
      exact ⟨nofun, fun same => absurd (Value.symbol.inj same) (by decide)⟩
  all_goals
    cases head
    exact ⟨nofun, fun same => absurd (Value.symbol.inj same) (by decide)⟩

/-- Where no positional parameter comes next. -/
theorem parseItems_end (ends : canFollow .rest current = true)
    (head : ∀ item ∈ items.head?, ¬IsPlain item ∧ item ≠ .symbol SymbolId.ampOptional) :
    parseItems list current { required, optional } items s = .ok result t ↔
      ∃ later, EndsWith s.image.heap s.image.symbols items result later ∧
        result.required = required ∧ result.optional = optional ∧ t = s.withSymbols later := by
  have follows : canFollow .key current = true := by
    rcases canFollow_rest ends with rfl | rfl <;> rfl
  have opened {id : SymbolId} (opens : id = SymbolId.ampRest ∨ id = SymbolId.ampBody)
      (items : List Value) :
      parseItems list current { required, optional } (.symbol id :: items) =
        parseItems list .rest { required, optional } items := by
    have marker : id.isLambdaKeyword = true := by rcases opens with rfl | rfl <;> decide
    rw [parseItems_marker marker, opens?_rest.mpr opens]
    dsimp only
    rw [if_pos ends]
    rfl
  constructor
  · intro ended
    cases items with
    | nil =>
        rcases canFollow_rest ends with rfl | rfl <;>
          (cases ended; exact ⟨_, ⟨[], [], rfl, .absent, .absent⟩, rfl, rfl, rfl⟩)
    | cons item items =>
        obtain ⟨notPlain, notOptional⟩ := head item rfl
        obtain ⟨id, rfl, marker⟩ := (isPlain_or_marker item).resolve_left notPlain
        rcases opens?_cases id with opens | opens | opens | opens
        · exact absurd (congrArg Value.symbol (opens?_optional.mp opens)) notOptional
        · have isRest := opens?_rest.mp opens
          rw [opened isRest items] at ended
          obtain ⟨item, keyItems, var, hasKeys, params, allow, later, rfl, isVar, keys, rfl, rfl⟩ :=
            parseItems_rest_iff.mp ended
          exact ⟨later, ⟨[_, item], keyItems, rfl, .present isRest isVar, keys⟩, rfl, rfl, rfl⟩
        · obtain rfl := opens?_key.mp opens
          obtain ⟨params, allow, later, keys, rfl, rfl⟩ := (parseItems_ampKey follows).mp ended
          exact ⟨later, ⟨[], _, rfl, .absent, .present keys⟩, rfl, rfl, rfl⟩
        · rw [parseItems_marker marker, opens] at ended
          rcases canFollow_rest ends with rfl | rfl <;>
            (dsimp only at ended; split at ended <;> cases ended)
  · rintro ⟨later, ⟨restItems, keyItems, rfl, isRest, keys⟩, rfl, rfl, rfl⟩
    obtain ⟨required, optional, rest, hasKeys, params, allow⟩ := result
    dsimp only at isRest keys opened ⊢
    cases isRest with
    | absent =>
        cases keys with
        | absent => rcases canFollow_rest ends with rfl | rfl <;> rfl
        | present keys => exact (parseItems_ampKey follows).mpr ⟨_, _, _, keys, rfl, rfl⟩
    | present opens isVar =>
        rw [List.cons_append, List.cons_append, List.nil_append, opened opens]
        exact parseItems_rest_iff.mpr ⟨_, _, _, _, _, _, _, rfl, isVar, keys, rfl, rfl⟩

/-- Optional parameters, and what stands after them. -/
theorem parseItems_optional_iff :
    parseItems list .optional { required, optional } items s = .ok result t ↔
      ∃ optItems endItems params later, items = optItems ++ endItems ∧
        List.Forall₂ (IsOptional s.image.heap) optItems params ∧
        EndsWith s.image.heap s.image.symbols endItems result later ∧
        result.required = required ∧ result.optional = optional ++ params ∧
        t = s.withSymbols later := by
  constructor
  · intro ended
    induction items generalizing optional with
    | nil =>
        obtain ⟨later, ends, required_eq, optional_eq, rfl⟩ :=
          (parseItems_end rfl (by simp)).mp ended
        exact ⟨[], [], [], later, rfl, .nil, ends, required_eq, by simp [optional_eq], rfl⟩
    | cons item items ih =>
        by_cases plain : IsPlain item
        · rw [parseItems_optional plain] at ended
          cases found : optionalParam? s.image.heap item with
          | none =>
              rw [found] at ended
              cases ended
          | some param =>
              rw [found] at ended
              obtain ⟨optItems, endItems, params, later, rfl, each, ends, required_eq, optional_eq,
                rfl⟩ := ih ended
              exact ⟨item :: optItems, endItems, param :: params, later, rfl,
                .cons (optionalParam?_eq_some.mp found) each, ends, required_eq,
                by simp [optional_eq], rfl⟩
        · by_cases again : item = .symbol SymbolId.ampOptional
          · subst again
            rw [parseItems_marker (by decide)] at ended
            cases ended
          · obtain ⟨later, ends, required_eq, optional_eq, rfl⟩ := (parseItems_end rfl
              (by simp [plain, again])).mp ended
            exact ⟨[], _, [], later, rfl, .nil, ends, required_eq, by simp [optional_eq], rfl⟩
  · rintro ⟨optItems, endItems, params, later, rfl, each, ends, required_eq, optional_eq, rfl⟩
    induction each generalizing optional with
    | nil =>
        rw [List.append_nil] at optional_eq
        exact (parseItems_end rfl ends.head).mpr ⟨later, ends, required_eq, optional_eq, rfl⟩
    | cons isOptional each ih =>
        rw [List.cons_append, parseItems_optional isOptional.isPlain,
          optionalParam?_eq_some.mpr isOptional]
        exact ih (by simp [optional_eq])

/-- Required parameters, and what stands after them. -/
theorem parseItems_required_iff :
    parseItems list .required { required } items s = .ok result t ↔
      ∃ requiredItems optItems endItems vars later,
        items = requiredItems ++ (optItems ++ endItems) ∧
        List.Forall₂ IsVariable requiredItems vars ∧
        IsOptionalSection s.image.heap optItems result.optional ∧
        EndsWith s.image.heap s.image.symbols endItems result later ∧
        result.required = required ++ vars ∧ t = s.withSymbols later := by
  have opened (items : List Value) (required : List SymbolId) :
      parseItems list .required { required } (.symbol SymbolId.ampOptional :: items) =
        parseItems list .optional { required } items := by
    rw [parseItems_marker (by decide)]
    rfl
  constructor
  · intro ended
    induction items generalizing required with
    | nil =>
        obtain ⟨later, ends, required_eq, optional_eq, rfl⟩ :=
          (parseItems_end rfl (by simp)).mp ended
        exact ⟨[], [], [], [], later, rfl, .nil, optional_eq ▸ .absent, ends, by simp [required_eq],
          rfl⟩
    | cons item items ih =>
        by_cases plain : IsPlain item
        · rw [parseItems_required plain] at ended
          split at ended
          · rename_i var isVar
            obtain ⟨requiredItems, optItems, endItems, vars, later, rfl, each, isOptional, ends,
              required_eq, rfl⟩ := ih ended
            exact ⟨item :: requiredItems, optItems, endItems, var :: vars, later, rfl,
              .cons (parameter?_eq_some.mp isVar) each, isOptional, ends, by simp [required_eq], rfl⟩
          · cases ended
        · by_cases again : item = .symbol SymbolId.ampOptional
          · subst again
            rw [opened] at ended
            obtain ⟨optItems, endItems, params, later, rfl, each, ends, required_eq, optional_eq,
              rfl⟩ := parseItems_optional_iff.mp ended
            exact ⟨[], _ :: optItems, endItems, [], later, rfl, .nil,
              optional_eq ▸ .present each, ends, by simp [required_eq], rfl⟩
          · obtain ⟨later, ends, required_eq, optional_eq, rfl⟩ := (parseItems_end rfl
              (by simp [plain, again])).mp ended
            exact ⟨[], [], _, [], later, rfl, .nil, optional_eq ▸ .absent, ends,
              by simp [required_eq], rfl⟩
  · rintro ⟨requiredItems, optItems, endItems, vars, later, rfl, each, isOptional, ends, required_eq,
      rfl⟩
    induction each generalizing required with
    | nil =>
        rw [List.append_nil] at required_eq
        generalize optional_eq : result.optional = params at isOptional
        cases isOptional with
        | absent =>
            exact (parseItems_end rfl ends.head).mpr ⟨later, ends, required_eq, optional_eq, rfl⟩
        | present each =>
            rw [List.nil_append, List.cons_append, opened]
            exact parseItems_optional_iff.mpr ⟨_, _, _, later, rfl, each, ends, required_eq,
              optional_eq, rfl⟩
    | cons isVar each ih =>
        rw [List.cons_append, parseItems_required isVar.isPlain, parameter?_eq_some.mpr isVar]
        exact ih (by simp [required_eq])

end Ends

/-- What fails, fails because the lambda list is malformed. -/
def Refuses (list : Value) (step : Compile LambdaList) : Prop :=
  ∀ s e t, step s = .error e t → ∃ reason, e = .lambdaList (t.image.print list) reason

theorem badLambdaList_refuses (list : Value) (reason : String) :
    Refuses list (badLambdaList list reason) := by
  intro s e t failed
  cases failed
  exact ⟨reason, rfl⟩

theorem parseItems_refuses (list : Value) (current : Section) (parsed : LambdaList)
    (items : List Value) : Refuses list (parseItems list current parsed items) := by
  induction items generalizing current parsed with
  | nil =>
      rw [parseItems]
      split
      · exact badLambdaList_refuses _ _
      · intro s e t failed
        cases failed
  | cons item items ih =>
      rcases isPlain_or_marker item with plain | ⟨id, rfl, marker⟩
      · cases current with
        | required =>
            rw [parseItems_required plain]
            split
            · exact ih _ _
            · exact badLambdaList_refuses _ _
        | optional =>
            intro s e t failed
            rw [parseItems_optional plain] at failed
            cases found : optionalParam? s.image.heap item with
            | none =>
                rw [found] at failed
                exact badLambdaList_refuses _ _ s e t failed
            | some param =>
                rw [found] at failed
                exact ih _ _ s e t failed
        | rest =>
            rw [parseItems_rest plain]
            split
            · exact ih _ _
            · exact badLambdaList_refuses _ _
        | key =>
            intro s e t failed
            rw [parseItems_key plain] at failed
            change EStateM.bind _ _ s = _ at failed
            obtain ⟨param?, u, read⟩ := keyParam?_total item s
            rw [EStateM.bind, read] at failed
            cases param? with
            | none => exact badLambdaList_refuses _ _ u e t failed
            | some param => exact ih _ _ u e t failed
        | afterRest =>
            rw [parseItems_afterRest plain]
            exact badLambdaList_refuses _ _
      · rw [parseItems_marker marker]
        split
        · split
          · exact ih _ _
          · exact badLambdaList_refuses _ _
        · split
          · split
            · exact ih _ _
            · exact badLambdaList_refuses _ _
          · exact badLambdaList_refuses _ _

/-- A lambda list is accepted just when it has the form of one, and then its parameters are read from
it, in order; only the keywords that are named after variables are interned. Every other list is
refused as malformed. -/
theorem parseLambdaList_accepts (list : Value) (s : CompileState) :
    (∀ parsed t, parseLambdaList list s = .ok parsed t ↔
      ∃ items later, s.image.heap.listItems? list = some items ∧
        IsLambdaList s.image.heap True s.image.symbols items parsed later ∧
        t = s.withSymbols later) ∧
    ∀ e t, parseLambdaList list s = .error e t →
      ∃ reason, e = .lambdaList (t.image.print list) reason := by
  cases read : s.image.heap.listItems? list with
  | none =>
      have unfolded : parseLambdaList list s = badLambdaList list "dotted lambda list" s := by
        rw [parseLambdaList]
        change EStateM.bind _ _ s = _
        simp only [EStateM.bind, heap, read]
      refine ⟨fun parsed t => ⟨fun ended => ?_, ?_⟩, fun e t failed => ?_⟩
      · cases unfolded.symm.trans ended
      · rintro ⟨_, _, ⟨⟩, -⟩
      · exact badLambdaList_refuses _ _ _ _ _ (unfolded.symm.trans failed)
  | some items =>
      have unfolded : parseLambdaList list s = parseItems list .required {} items s := by
        rw [parseLambdaList]
        change EStateM.bind _ _ s = _
        simp only [EStateM.bind, heap, read]
      refine ⟨fun parsed t => ?_, fun e t failed => ?_⟩
      · rw [unfolded, parseItems_required_iff]
        constructor
        · rintro ⟨requiredItems, optItems, endItems, vars, later, rfl, each, isOptional,
            ⟨restItems, keyItems, rfl, isRest, keys⟩, required_eq, rfl⟩
          rw [List.nil_append] at required_eq
          exact ⟨_, later, rfl, ⟨requiredItems, optItems, restItems, keyItems,
            by simp only [List.append_assoc], required_eq ▸ each, isOptional, isRest, keys⟩, rfl⟩
        · rintro ⟨_, later, ⟨⟩, ⟨requiredItems, optItems, restItems, keyItems, rfl, each, isOptional,
            isRest, keys⟩, rfl⟩
          exact ⟨requiredItems, optItems, restItems ++ keyItems, _, later,
            by simp only [List.append_assoc], each, isOptional, ⟨_, _, rfl, isRest, keys⟩, rfl, rfl⟩
      · exact parseItems_refuses _ _ _ _ _ _ _ (unfolded.symm.trans failed)

end Sections

section Last

variable {heap : Heap} {table later : SymbolTable} {items : List Value} {list : LambdaList}

theorem marker_notPlain : ¬IsPlain (.symbol SymbolId.ampAllowOtherKeys) := nofun

theorem marker_notMem_plain {α : Type} {R : Value → α → Prop} {params : List α}
    (each : List.Forall₂ R items params) (plain : ∀ item param, R item param → IsPlain item) :
    .symbol SymbolId.ampAllowOtherKeys ∉ items := by
  induction each with
  | nil => exact List.not_mem_nil
  | cons isItem each ih =>
      rintro (_ | ⟨_, member⟩)
      · exact marker_notPlain (plain _ _ isItem)
      · exact ih member

theorem AreKeys.marker_last {params : List KeyParam} {allow : Bool}
    (keys : AreKeys heap False table items params allow later) :
    .symbol SymbolId.ampAllowOtherKeys ∉ items.dropLast := by
  induction keys with
  | nil => exact List.not_mem_nil
  | @param _ _ _ item items _ _ _ isKey rest ih =>
      cases items with
      | nil => exact List.not_mem_nil
      | cons next items =>
          rintro (_ | ⟨_, member⟩)
          · exact marker_notPlain isKey.isPlain
          · exact ih member
  | allow last =>
      obtain rfl := last.resolve_right id
      exact List.not_mem_nil

/-- In the grammar proper, nothing follows the marker for further keywords. -/
theorem IsLambdaList.marker_last (isList : IsLambdaList heap False table items list later) :
    .symbol SymbolId.ampAllowOtherKeys ∉ items.dropLast := by
  obtain ⟨required, optional, rest, keys, rfl, each, isOptional, isRest, isKeys⟩ := isList
  have notRequired := marker_notMem_plain each fun _ _ isVar => isVar.isPlain
  have notOptional : .symbol SymbolId.ampAllowOtherKeys ∉ optional := by
    generalize list.optional = params at isOptional
    cases isOptional with
    | absent => exact List.not_mem_nil
    | present each =>
        rintro (_ | ⟨_, member⟩)
        exact marker_notMem_plain each (fun _ _ isOptional => isOptional.isPlain) member
  have notRest : .symbol SymbolId.ampAllowOtherKeys ∉ rest := by
    generalize list.rest = var at isRest
    cases isRest with
    | absent => exact List.not_mem_nil
    | present opens isVar =>
        rintro (_ | ⟨_, _ | ⟨_, member⟩⟩)
        · rcases opens with same | same <;> cases same
        · exact marker_notPlain isVar.isPlain
        · cases member
  have before : .symbol SymbolId.ampAllowOtherKeys ∉ required ++ optional ++ rest := by
    simp [notRequired, notOptional, notRest]
  generalize list.hasKeys = hasKeys, list.keys = params, list.allowOtherKeys = allow at isKeys
  cases isKeys with
  | absent =>
      rw [List.append_nil]
      exact fun member => before (List.mem_of_mem_dropLast member)
  | @present items _ _ _ keys =>
      rw [List.dropLast_append_of_ne_nil (List.cons_ne_nil _ _)]
      rintro member
      rcases List.mem_append.mp member with inside | inside
      · exact before inside
      · cases items with
        | nil => cases inside
        | cons item items =>
            rcases inside with _ | ⟨_, inside⟩
            exact keys.marker_last inside

/-- `(&KEY &ALLOW-OTHER-KEYS &ALLOW-OTHER-KEYS)` -/
def markedTwice : List Cell :=
  [⟨.symbol SymbolId.ampKey, .cons 1⟩, ⟨.symbol SymbolId.ampAllowOtherKeys, .cons 2⟩,
    ⟨.symbol SymbolId.ampAllowOtherKeys, .nil⟩]

/-- What is read is wider: here the marker stands twice. -/
theorem markedTwice_accepted :
    let s := CompileState.ofCells markedTwice
    (∃ parsed, parseLambdaList (.cons 0) s = .ok parsed s) ∧
    ∃ items, s.image.heap.listItems? (.cons 0) = some items ∧
      ∀ parsed later, ¬IsLambdaList s.image.heap False s.image.symbols items parsed later := by
  refine ⟨⟨_, rfl⟩, _, rfl, fun parsed later isList => isList.marker_last ?_⟩
  exact List.mem_cons_of_mem _ List.mem_cons_self

end Last

end Compiler

end LispScript
