import LispScript.Proofs.Receiving
import LispScript.Proofs.Midway

/-!
Dynamic bindings at run time. Each keeps the value that its symbol has, gives the symbol another one and
runs what follows under a cleanup that puts the first one back. So however a sequence of them is left,
and whichever of them were made by then, the symbols have what they had before the first.
-/

namespace LispScript

open Script Machine Discipline Compiler

section Slots

variable {image : Image} {id other : SymbolId} {held : Option Value}
  {saved : List (SymbolId × Option Value)}

/-- What the value slot of a symbol holds. -/
def Image.slot (image : Image) (id : SymbolId) : Option Value := (image.symbols.symbol id).value

def Image.setSlot (image : Image) (id : SymbolId) (held : Option Value) : Image :=
  { image with symbols := image.symbols.setValue id held }

/-- Whether a symbol is one of the image's. -/
def Image.Knows (image : Image) (id : SymbolId) : Prop := id.index < image.symbols.symbolCount

/-- Slots are put back, the one that was kept last before the others. -/
def Image.restored (saved : List (SymbolId × Option Value)) (image : Image) : Image :=
  saved.foldr (fun kept later => later.setSlot kept.1 kept.2) image

theorem Image.slot_setSlot (known : image.Knows id) : (image.setSlot id held).slot id = held := by
  simp only [slot, setSlot, SymbolTable.setValue, SymbolTable.updateSymbol, SymbolTable.symbol]
  rw [getD_modify _ _ _ _ known, if_pos rfl]

theorem Image.slot_setSlot_of_ne (ne : other ≠ id) :
    (image.setSlot id held).slot other = image.slot other := by
  have apart : id.index ≠ other.index := fun same => ne (congrArg SymbolId.mk same.symm)
  simp only [Image.slot, setSlot, SymbolTable.setValue, SymbolTable.updateSymbol,
    SymbolTable.symbol, Array.getD_eq_getD_getElem?, Array.getElem?_modify, if_neg apart]

theorem Image.symbolCount_setSlot :
    (image.setSlot id held).symbols.symbolCount = image.symbols.symbolCount :=
  Array.size_modify ..

theorem Image.knows_restored : (image.restored saved).Knows id ↔ image.Knows id := by
  induction saved with
  | nil => exact Iff.rfl
  | cons kept rest ih =>
      change id.index < (Image.setSlot (image.restored rest) kept.1 kept.2).symbols.symbolCount ↔ _
      rw [symbolCount_setSlot]
      exact ih

end Slots

section Outcomes

variable {α β : Type} {saved : List (SymbolId × Option Value)}
  {result : EStateM.Result Interrupt Image α} {image last : Image} {id : SymbolId}
  {held : Option Value}

/-- The image in which a run is over. One that goes on beyond the steps it is given is not. -/
def IsOver : EStateM.Result Interrupt Image α → Image → Prop
  | .ok _ image, last => image = last
  | .error .outOfSteps _, _ => False
  | .error _ image, last => image = last

/-- An outcome after which slots are put back. -/
def undone (saved : List (SymbolId × Option Value)) :
    EStateM.Result Interrupt Image α → EStateM.Result Interrupt Image α
  | .ok a image => .ok a (image.restored saved)
  | .error .outOfSteps image => .error .outOfSteps image
  | .error interrupt image => .error interrupt (image.restored saved)

theorem undone_nil : undone [] result = result := by
  rcases result with ⟨a, image⟩ | ⟨interrupt, image⟩
  · rfl
  · cases interrupt <;> rfl

theorem undone_cons (kept : SymbolId × Option Value) :
    undone (kept :: saved) result = undone [kept] (undone saved result) := by
  rcases result with ⟨a, image⟩ | ⟨interrupt, image⟩
  · rfl
  · cases interrupt <;> rfl

theorem IsOver.of_undone (ended : IsOver (undone saved result) last) :
    ∃ image, IsOver result image ∧ image.restored saved = last := by
  rcases result with ⟨a, image⟩ | ⟨interrupt, image⟩
  · exact ⟨image, rfl, ended⟩
  · cases interrupt with
    | outOfSteps => exact ended.elim
    | thrown value => exact ⟨image, rfl, ended⟩
    | failed error => exact ⟨image, rfl, ended⟩

/-- Where a run of disciplined code is over, the image is described. -/
theorem Discipline.Ends.described {W₀ W : World} {good : World → α → Prop}
    (ends : Ends W₀ W image good result) (ended : IsOver result last) :
    ∃ W', Leads W image W' last ∧ W'.Describes last := by
  cases ends with
  | ok W' _ leads describes => exact ended ▸ ⟨W', leads, describes⟩
  | thrown W' _ leads describes => exact ended ▸ ⟨W', leads, describes⟩
  | failed W' _ leads describes => exact ended ▸ ⟨W', leads, describes⟩
  | outOfSteps => exact ended.elim

/-- A cleanup that puts back a slot wherever a block may end. -/
theorem ensuring_undone {block cleanup : Run Flow}
    (restores : ∀ last, IsOver (block image) last → cleanup last = .ok .normal (last.setSlot id held)) :
    ensuring block cleanup image = undone [(id, held)] (block image) := by
  unfold ensuring
  cases ended : block image with
  | ok flow last =>
      rw [ended] at restores
      simp only [restores last rfl]
      rfl
  | error interrupt last =>
      rw [ended] at restores
      cases interrupt with
      | outOfSteps => rfl
      | thrown value =>
          simp only [restores last rfl]
          rfl
      | failed error =>
          simp only [restores last rfl]
          rfl

end Outcomes

/-- A dynamic binding: what runs before it, the symbol and code that gives the symbol, and the script
variables that hold the value to be put back and the new one. -/
structure Rebinding where
  before : List Stmt
  symbol : SymbolId
  place : Expr
  old : String
  host : String

namespace Rebinding

def keep (r : Rebinding) : Stmt := .define r.old (.member r.place "value")

/-- The symbol gets the value of a script variable. -/
def store (r : Rebinding) (variable_ : String) : Stmt :=
  .effect (.assign (.member r.place "value") (.ident variable_))

def rebound (rs : List Rebinding) (rest : List Stmt) : List Stmt :=
  rs.foldr (fun r inner => r.before ++
    [r.keep, r.store r.host, .guarded inner .none (.always [r.store r.old])]) rest

/-- What runs until all bindings have been made, and some statements more. -/
def running (rs : List Rebinding) (more : List Stmt) : List Stmt :=
  rs.foldr (fun r inner => r.before ++ ([r.keep, r.store r.host] ++ inner)) more

/-- A run under the cleanups of the bindings. -/
def cleaning (call : Caller) (turns : Nat) (b : Address) (rs : List Rebinding) (body : Run Flow) :
    Run Flow :=
  rs.foldr (fun r inner => ensuring inner (execBlock call turns b [r.store r.old])) body

/-- What runs next where the bindings that are left have not been made. -/
def upcoming : List Rebinding → List Stmt → List Stmt
  | [], rest => rest
  | r :: _, _ => r.before

/-- The image in which the value of the symbol is kept. -/
def kept (r : Rebinding) (b : Address) (image : Image) : Image :=
  { image with heap := image.heap.defineVariable b r.old (slotValue (image.slot r.symbol)) }

/-- The image in which the symbol has its new value. -/
def given (r : Rebinding) (b : Address) (image : Image) (value : Value) : Image :=
  (r.kept b image).setSlot r.symbol (slotOf value)

/-- Bindings are made one after another, which leads from one image to another one. The slots that they
replace are told in this order. -/
inductive Makes (call : Caller) (turns : Nat) (b : Address) :
    List Rebinding → Image → List (SymbolId × Option Value) → Image → Prop where
  | none (image : Image) : Makes call turns b [] image [] image
  | more {r : Rebinding} {rs : List Rebinding} {i j k : Image} {value : Value}
      {saved : List (SymbolId × Option Value)}
      (ran : execBlock call turns b r.before i = .ok .normal j)
      (held : (r.kept b j).heap.lookupVariable? b r.host = some value)
      (new : (r.given b j value).slot r.symbol = slotOf value)
      (rest : Makes call turns b rs (r.given b j value) saved k) :
      Makes call turns b (r :: rs) i ((r.symbol, j.slot r.symbol) :: saved) k

variable {call : Caller} {turns : Nat} {b : Address} {r : Rebinding} {rs : List Rebinding}
  {i j k : Image} {value : Value} {rest : List Stmt}

theorem exec_keep (settles : Settles call turns b i r.place (.ofSymbol r.symbol)) :
    exec call turns b r.keep i = .ok .normal (r.kept b i) := by
  have read : evalExpr call turns b (.member r.place "value") i = .ok (slotValue (i.slot r.symbol)) i := by
    rw [evalExpr_member settles, Value.ofSymbol]
    split
    · rename_i isNil
      rw [isNil]
      rfl
    · rfl
  rw [keep, exec, bind_of_ok read]
  rfl

theorem exec_store {variable_ : String} (settles : Settles call turns b i r.place (.ofSymbol r.symbol))
    (held : i.heap.lookupVariable? b variable_ = some value) :
    exec call turns b (r.store variable_) i = .ok .normal (i.setSlot r.symbol (slotOf value)) := by
  have stored : evalExpr call turns b (.assign (.member r.place "value") (.ident variable_)) i =
      .ok value (i.setSlot r.symbol (slotOf value)) := by
    rw [evalExpr, bind_of_ok (evalExpr_ident held)]
    have assigned : assignTo call turns b value (.member r.place "value") i =
        .ok () (i.setSlot r.symbol (slotOf value)) := by
      rw [assignTo, bind_of_ok settles, Value.ofSymbol]
      split
      · rename_i isNil
        rw [isNil]
        rfl
      · rfl
    rw [bind_of_ok assigned]
    rfl
  rw [store, exec, bind_of_ok stored]
  rfl

/-- Statements that do not end normally let no others run. -/
theorem execBlock_append_abrupt {first second : List Stmt}
    (abrupt : ∀ j, execBlock call turns b first i ≠ .ok .normal j) :
    execBlock call turns b (first ++ second) i = execBlock call turns b first i := by
  rw [execBlock_append]
  change EStateM.bind _ _ i = _
  rw [EStateM.bind]
  cases ended : execBlock call turns b first i with
  | error interrupt j => rfl
  | ok flow j =>
      cases flow with
      | normal => exact absurd ended (abrupt j)
      | returned value => rfl
      | left label => rfl

theorem ensuring_congr {block block' cleanup : Run Flow} (same : block i = block' j) :
    ensuring block cleanup i = ensuring block' cleanup j := by
  unfold ensuring
  rw [same]

/-- Where the bindings have been made, what follows them runs, under their cleanups. -/
theorem execBlock_rebound {more : List Stmt}
    (ran : execBlock call turns b (running rs more) i = .ok .normal j) :
    execBlock call turns b (rebound rs (more ++ rest)) i =
      cleaning call turns b rs (execBlock call turns b rest) j := by
  induction rs generalizing i with
  | nil => exact execBlock_append_continues ran
  | cons r rs ih =>
      obtain ⟨i₁, ran, onward⟩ := execBlock_append_normal ran
      obtain ⟨i₂, stored, onward⟩ := execBlock_append_normal onward
      change execBlock call turns b (r.before ++ ([r.keep, r.store r.host] ++
        [.guarded (rebound rs (more ++ rest)) .none (.always [r.store r.old])])) i = _
      rw [execBlock_append_continues ran, execBlock_append_continues stored, execBlock_singleton]
      simp only [exec]
      exact ensuring_congr (ih onward)

section Symbols

variable (calls : ∀ function args, Relates KeepsSymbols (call function args))
  {id : SymbolId} {saved : List (SymbolId × Option Value)}

include calls

theorem knows_of_ran {stmts : List Stmt} {flow : Flow} (known : i.Knows id)
    (ran : execBlock call turns b stmts i = .ok flow j) : j.Knows id := by
  have composed : Composed fun call => execBlock call turns b stmts := composed_execBlock stmts b
  have kept := composed.relates .keepsSymbols calls i
  rw [ran] at kept
  exact Nat.lt_of_lt_of_le known kept

omit calls in
theorem knows_given (id : SymbolId) : (r.given b i value).Knows id ↔ i.Knows id := by
  rw [given, Image.Knows, Image.symbolCount_setSlot]
  rfl

theorem Makes.knows (makes : Makes call turns b rs i saved k) (known : i.Knows id) : k.Knows id := by
  induction makes with
  | none => exact known
  | more ran _ _ _ ih => exact ih ((knows_given id).mpr (knows_of_ran calls known ran))

/-- Every slot that was kept is one of a symbol that is known. -/
theorem Makes.knows_saved (makes : Makes call turns b rs i saved k)
    (known : ∀ r ∈ rs, i.Knows r.symbol) : ∀ kept ∈ saved, k.Knows kept.1 := by
  induction makes with
  | none => nofun
  | more ran _ _ makes ih =>
      obtain ⟨here, there⟩ := List.forall_mem_cons.mp known
      refine List.forall_mem_cons.mpr ⟨makes.knows calls ?_, ih fun r member => ?_⟩
      · exact (knows_given _).mpr (knows_of_ran calls here ran)
      · exact (knows_given _).mpr (knows_of_ran calls (there r member) ran)

end Symbols

section Runs

variable {W₀ W₁ W W' : World} {base later : Image} {frame₁ frame : Frame} {kind : Kind}

/-- Code that gives a symbol goes on to give the same one. -/
theorem settles_later {place : Expr} (constant : frame₁.Constant place)
    (settles : Settles call turns b base place value) (leads : Leads W₁ base W i)
    (describes : W₁.Describes base) (admits : W₁.Admits frame₁ b) (described : W.Describes i) :
    Settles call turns b i place value := by
  rcases constant with rfl | rfl | ⟨name, rfl, known⟩
  · obtain ⟨rfl, -⟩ := EStateM.Result.ok.inj (settles_nil.symm.trans settles)
    exact settles_nil
  · obtain ⟨rfl, -⟩ := EStateM.Result.ok.inj (settles_t.symm.trans settles)
    exact settles_t
  · obtain ⟨found, held, -⟩ := describes.lookup admits known
    obtain ⟨rfl, -⟩ := EStateM.Result.ok.inj ((evalExpr_ident held).symm.trans settles)
    exact evalExpr_ident
      ((leads.lookup_fixed describes described admits known trivial).trans held)

/-- Where a value was kept and another one stored, the block has arrived at what comes before the
cleanup. -/
theorem arrives_inside {inner : List Stmt} {cleanup : Cleanup} (caller : CallerSound call)
    (midway : Midway W₀ W i b [r.keep, r.store r.host, .guarded inner .none cleanup] kind j W' frame)
    (stored : execBlock call turns b [r.keep, r.store r.host] j = .ok .normal k) :
    ∃ W'' frame'', Midway W₀ W i b inner kind k W'' frame'' := by
  obtain ⟨held, fresh, plain, read, onward⟩ := midway.derivable.unfolds
  obtain ⟨⟨_, value⟩, guarded⟩ := onward.unfolds
  have keeps : Advances call turns frame [r.keep] True (frame.bind r.old held) :=
    BlockSound.proceeds_bind plain (.define fresh plain (read.sound caller) (.reached trivial))
  have stores : Advances call turns (frame.bind r.old held) [r.store r.host] True _ :=
    BlockSound.proceeds_same (.effect (value.sound caller) (.reached trivial))
  rw [← List.singleton_append] at stored
  obtain ⟨k₁, kept, stored⟩ := execBlock_append_normal stored
  obtain ⟨-, W₁, extends₁, leads₁, describes₁, own₁⟩ :=
    keeps W₀ W' j b _ midway.extends_ midway.describes midway.own kept
  obtain ⟨-, W₂, extends₂, leads₂, describes₂, own₂⟩ :=
    stores W₀ W₁ k₁ b _ extends₁ describes₁ own₁ stored
  exact ⟨W₂, _, extends₂, (midway.leads.trans leads₁).trans leads₂, describes₂, own₂, guarded.unfolds⟩

/-- Where all bindings have been made and statements have been run, the block has arrived at what follows
them. -/
theorem arrives {more : List Stmt} {mark : Stmt} (caller : CallerSound call) (marked : isMark mark = true)
    (extends_ : W₀.Extends W) (describes : W.Describes i) (own : Own W₀ W i frame b)
    (derivable : Derivable frame (.returns (rebound rs (more ++ mark :: rest)) kind))
    (ran : execBlock call turns b (running rs more) i = .ok .normal j) :
    ∃ W' frame', Midway W₀ W i b (mark :: rest) kind j W' frame' := by
  induction rs generalizing W i frame with
  | nil =>
      have arrives : Arrives call turns frame (more ++ mark :: rest) kind := derivable.arrives caller
      exact arrives more rest mark marked rfl W₀ W i b j extends_ describes own ran
  | cons r rs ih =>
      obtain ⟨i₁, ran, onward⟩ := execBlock_append_normal ran
      obtain ⟨i₂, stored, onward⟩ := execBlock_append_normal onward
      have arrives : Arrives call turns frame (rebound (r :: rs) (more ++ mark :: rest)) kind :=
        derivable.arrives caller
      obtain ⟨W₁, frame₁, midway⟩ :=
        arrives r.before _ r.keep rfl rfl W₀ W i b i₁ extends_ describes own ran
      obtain ⟨W₂, frame₂, inside⟩ := arrives_inside caller midway stored
      obtain ⟨W₃, frame₃, there⟩ :=
        ih inside.extends_ inside.describes inside.own inside.derivable onward
      exact ⟨W₃, frame₃, there.after inside.leads⟩

/-- A sequence of dynamic bindings is run: some of them are made, the next one is not reached or there
is none, and what was made is undone after what ran then. -/
def Undoes (call : Caller) (turns : Nat) (b : Address) (rs : List Rebinding) (rest : List Stmt)
    (i : Image) : Prop :=
  ∃ made left saved k, rs = made ++ left ∧ Makes call turns b made i saved k ∧
    (∀ r more, left = r :: more → ∀ j, execBlock call turns b r.before k ≠ .ok .normal j) ∧
    execBlock call turns b (rebound rs rest) i =
      undone saved (execBlock call turns b (upcoming left rest) k)

theorem lookupVariable?_kept (own : Own W₀ W i frame b) (describes : W.Describes i) :
    (r.kept b i).heap.lookupVariable? b r.old = some (slotValue (i.slot r.symbol)) := by
  have bound := own.bound describes
  have scope_eq := bindVariable_scope i.heap r.old (slotValue (i.slot r.symbol)) b bound
  rw [if_pos rfl] at scope_eq
  rw [kept, Heap.defineVariable, own.functionScope describes]
  refine lookupVariable?_own ?_ ?_
  · change b < (i.heap.scopes.modify b _).size
    rwa [Array.size_modify]
  · change (Heap.scope (i.heap.bindVariable b r.old _) b).vars[r.old]? = _
    rw [scope_eq]
    exact Std.TreeMap.getElem?_insert_self

theorem slotOf_slotValue (describes : W.Describes i) (id : SymbolId) :
    slotOf (slotValue (i.slot id)) = i.slot id := by
  cases held : i.slot id with
  | none => rfl
  | some value =>
      have datum : W.Datum value := by
        rcases getD_mem_or_default i.symbols.symbols id.index default with member | missing
        · exact (describes.symbols.symbols _ member).value value held
        · rw [Image.slot, SymbolTable.symbol, missing] at held
          cases held
      cases value with
      | undefined => exact datum.elim
      | _ => rfl

/-- Bindings are undone however they are left. Their symbols are what their code gave where the scope
was entered, at the image `base`. -/
theorem undoes (caller : CallerSound call)
    (calls : ∀ function args, Relates KeepsSymbols (call function args))
    (describes₁ : W₁.Describes base) (admits₁ : W₁.Admits frame₁ b)
    (places : ∀ r ∈ rs, frame₁.Constant r.place ∧
      Settles call turns b base r.place (.ofSymbol r.symbol))
    (known : ∀ r ∈ rs, i.Knows r.symbol) (leads : Leads W₁ base W i) (extends_ : W₀.Extends W)
    (describes : W.Describes i) (own : Own W₀ W i frame b)
    (derivable : Derivable frame (.returns (rebound rs rest) kind)) :
    Undoes call turns b rs rest i := by
  induction rs generalizing W i frame with
  | nil => exact ⟨[], [], [], i, rfl, .none i, nofun, undone_nil.symm⟩
  | cons r rs ih =>
      obtain ⟨⟨constant, settles⟩, morePlaces⟩ := List.forall_mem_cons.mp places
      obtain ⟨here, there⟩ := List.forall_mem_cons.mp known
      have code : rebound (r :: rs) rest = r.before ++ [r.keep, r.store r.host,
        .guarded (rebound rs rest) .none (.always [r.store r.old])] := rfl
      by_cases ran : ∃ j, execBlock call turns b r.before i = .ok .normal j
      case neg =>
        have abrupt : ∀ j, execBlock call turns b r.before i ≠ .ok .normal j :=
          fun j ended => ran ⟨j, ended⟩
        refine ⟨[], r :: rs, [], i, rfl, .none i, ?_, ?_⟩
        · rintro _ _ ⟨⟩
          exact abrupt
        · rw [code, execBlock_append_abrupt abrupt, undone_nil]
          rfl
      obtain ⟨j, ran⟩ := ran
      have known' : ∀ {id}, i.Knows id → j.Knows id := fun known => knows_of_ran calls known ran
      have arrives : Arrives call turns frame (rebound (r :: rs) rest) kind :=
        derivable.arrives caller
      obtain ⟨W', frame', midway⟩ :=
        arrives r.before _ r.keep rfl code W₀ W i b j extends_ describes own ran
      obtain ⟨held, fresh, plain, read, onward⟩ := midway.derivable.unfolds
      have leads_j := leads.trans midway.leads
      have settles_j := settles_later constant settles leads_j describes₁ admits₁ midway.describes
      -- The value of the symbol is kept in a new variable, which then stays as it is.
      have keeps : Advances call turns frame' [r.keep] True (frame'.bind r.old held) :=
        BlockSound.proceeds_bind plain
          (.define fresh plain (read.sound caller) (.reached trivial))
      have kept_ran : execBlock call turns b [r.keep] j = .ok .normal (r.kept b j) :=
        (congrFun (execBlock_singleton _) j).trans (exec_keep settles_j)
      obtain ⟨-, W₂, extends₂, leads₂, describes₂, own₂⟩ :=
        keeps W₀ W' j b _ midway.extends_ midway.describes midway.own kept_ran
      have leads_kept := leads_j.trans leads₂
      have settles_kept := settles_later constant settles leads_kept describes₁ admits₁ describes₂
      -- Then the symbol gets the value of another variable.
      obtain ⟨⟨storedKind, stored⟩, guarded⟩ := onward.unfolds
      obtain ⟨hostKind, host⟩ := stored.unfolds
      obtain ⟨_, hostKnown⟩ := host.unfolds
      obtain ⟨value, found, -⟩ := describes₂.lookup own₂.admits hostKnown
      have stores : Advances call turns (frame'.bind r.old held) [r.store r.host] True _ :=
        BlockSound.proceeds_same (.effect (stored.sound caller) (.reached trivial))
      have given_ran : execBlock call turns b [r.store r.host] (r.kept b j) =
          .ok .normal (r.given b j value) :=
        (congrFun (execBlock_singleton _) _).trans (exec_store settles_kept found)
      obtain ⟨-, W₃, extends₃, leads₃, describes₃, own₃⟩ :=
        stores W₀ W₂ _ b _ extends₂ describes₂ own₂ given_ran
      have leads_given := leads_kept.trans leads₃
      obtain ⟨made, left, saved, k, rfl, makes, stops, inner_ran⟩ :=
        ih morePlaces (fun r member => (knows_given _).mpr (known' (there r member))) leads_given
          extends₃ describes₃ own₃ guarded.unfolds
      have old_fixed : held.IsFixed := read.slot_within.fixed_of_optional
      have restores : ∀ last,
          IsOver (execBlock call turns b (rebound (made ++ left) rest) (r.given b j value)) last →
          execBlock call turns b [r.store r.old] last =
            .ok .normal (last.setSlot r.symbol (j.slot r.symbol)) := by
        intro last ended
        obtain ⟨W₄, leads₄, describes₄⟩ :=
          (guarded.unfolds.sound caller W₀ W₃ _ b extends₃ describes₃ own₃).described ended
        have settles_last := settles_later constant settles (leads_given.trans leads₄) describes₁
          admits₁ describes₄
        have old_held : last.heap.lookupVariable? b r.old = some (slotValue (j.slot r.symbol)) :=
          (leads₄.lookup_fixed describes₃ describes₄ own₃.admits
            (Layout.bind_self frame'.kinds r.old held) old_fixed).trans
              (lookupVariable?_kept midway.own midway.describes)
        rw [execBlock_singleton, exec_store settles_last old_held, slotOf_slotValue midway.describes]
      refine ⟨r :: made, left, (r.symbol, j.slot r.symbol) :: saved, k, rfl,
        .more ran found (Image.slot_setSlot (known' here)) makes, stops, ?_⟩
      rw [code, execBlock_append_continues ran, execBlock, bind_of_ok (exec_keep settles_j)]
      change execBlock call turns b [r.store r.host, _] (r.kept b j) = _
      rw [execBlock, bind_of_ok (exec_store settles_kept found)]
      change execBlock call turns b [_] (r.given b j value) = _
      rw [execBlock_singleton]
      simp only [exec]
      rw [ensuring_undone restores, inner_ran, ← undone_cons]

end Runs

end Rebinding

end LispScript
