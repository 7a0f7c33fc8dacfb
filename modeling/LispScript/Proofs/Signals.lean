import LispScript.Proofs.Statements

/-!
Exits: raising a signal, the handlers that take in what is meant for them and pass on the rest, and
the cleanups that run on the way.
-/

namespace LispScript.Discipline

open Script Machine Compiler

variable {call : Caller} {turns : Nat} {frame : Frame} {code handler : List Stmt} {kind : Kind}
  {e l : Expr} {es : List Expr} {name : String} {W₀ W W' : World} {image later : Image} {b : Nat}
  {transferKind : TransferKind} {target carried : Kind}

section Raising

/-- The signal that a routine makes, whatever its label. -/
theorem makeTransfer_eq (image : Image) (transferKind : TransferKind) (address : Address)
    {target payload label : Value} (datum : W.Datum label) :
    ∃ text, makeTransfer [.string address transferKind.name, target, payload, label] image =
      .ok (.transfer image.heap.transfers.size)
        { image with heap :=
            (image.heap.allocTransfer ⟨transferKind, target, payload, some text⟩).2 } := by
  unfold makeTransfer
  simp only [argument, List.getElem?_cons_zero, List.getElem?_cons_succ, Option.getD_some,
    TransferKind.ofName?_name]
  cases label with
  | string a text => exact ⟨text, rfl⟩
  | undefined => exact absurd datum id
  | _ => exact ⟨_, rfl⟩

/-- The values that make up a signal. -/
theorem Safe.transferArguments (known : frame.kinds name = some target)
    (payload : ExprSound call turns frame e carried)
    (label : ExprSound call turns frame l .datum) (describes : W.Describes image)
    (admits : W.Admits frame b) :
    Safe W image (evalList call turns b [.string transferKind.name, .ident name, e, l])
      fun W' values => ∃ address first second third,
        values = [.string address transferKind.name, first, second, third] ∧
          W'.Has target first ∧ W'.Has carried second ∧ W'.Datum third := by
  rw [evalList]
  refine (Safe.literal transferKind.name describes).bind fun W₁ image₁ text follows₁ described
    held => ?_
  obtain ⟨address, rfl⟩ := held
  have admits₁ := follows₁.leads.admits admits
  rw [evalList, bind_assoc]
  refine ((ExprSound.ident known) W₁ image₁ b described admits₁).bind
    fun W₂ image₂ first follows₂ described hasFirst => ?_
  rw [bind_assoc]
  refine (Safe.twoArguments payload label described (follows₂.leads.admits admits₁)).bind
    fun W₃ image₃ values follows₃ described held => ?_
  obtain ⟨second, third, rfl, hasSecond, datum⟩ := held
  exact Safe.gives described
    ⟨address, first, second, third, rfl, follows₃.leads.grows.has hasFirst, hasSecond, datum⟩

theorem StmtSound.raise (caller : CallerSound call) (handles : Handles transferKind target carried)
    (known : frame.kinds name = some target) (payload : ExprSound call turns frame e carried)
    (label : ExprSound call turns frame l .datum) :
    StmtSound call turns frame [.raise (transferExpr transferKind (.ident name) e l)] kind := by
  intro W₀ W image b extends_ describes own
  rw [execBlock_singleton]
  simp only [exec, transferExpr, Expr.callRoutine, Expr.routine]
  rw [evalExpr_call (by intro params body; nofun)]
  simp only [bind_assoc]
  refine Safe.bindInto extends_ (Safe.nativeValue _ describes) fun W₁ image₁ function follows₁
    described held => ?_
  subst held
  have extends₁ := extends_.trans follows₁.extends_
  refine Safe.bindInto extends₁ (Safe.transferArguments known payload label described
    (follows₁.leads.admits own.admits)) fun W₂ image₂ values follows₂ described held => ?_
  obtain ⟨address, first, second, third, rfl, hasTarget, hasPayload, datum⟩ := held
  have extends₂ := extends₁.trans follows₂.extends_
  change Ends W₀ W₂ image₂ _ (EStateM.bind (call _ _) _ image₂)
  rw [EStateM.bind]
  rcases caller.native W₂ image₂ (.routine .transfer) _ described with ended | ⟨inner, -, same⟩
  · rw [ended]
    exact .outOfSteps W₂ extends₂ (Leads.refl W₂ image₂) described
  · rw [same]
    obtain ⟨text, made⟩ := makeTransfer_eq image₂ transferKind address datum
    have native : runNative inner (.routine .transfer)
        [.string address transferKind.name, first, second, third] image₂ = _ := made
    rw [native]
    have ok : W₂.TransferOk ⟨transferKind, first, second, some text⟩ :=
      ⟨target, carried, handles, hasTarget, hasPayload⟩
    have follows := Follows.allocTransfer described ⟨transferKind, first, second, some text⟩
    have count : W₂.transfers = image₂.heap.transfers.size := described.transferCount
    exact .thrown W₂.addTransfer (extends₂.trans follows.extends_) follows.leads
      (described.allocTransfer ok) (Nat.le_of_eq count)
      (by simp [World.addTransfer, count]) (.inl (by simp [World.addTransfer, count]))

end Raising

section Handlers

/-- Looking up variables reads scopes only. -/
theorem lookupVariable?_congr {heap other : Heap} (scopes : other.scopes = heap.scopes)
    (b : Address) (name : String) :
    other.lookupVariable? b name = heap.lookupVariable? b name := by
  have same : ∀ b, other.scope b = heap.scope b := fun b => by rw [Heap.scope, scopes, Heap.scope]
  have within : ∀ limit b, other.findVariableWithin name limit b =
      heap.findVariableWithin name limit b := by
    intro limit
    induction limit with
    | zero => exact fun _ => rfl
    | succ limit ih => intro b; simp only [Heap.findVariableWithin, same, ih]
  rw [Heap.lookupVariable?, Heap.lookupVariable?, scopes, within]

/-- The image after strings were made. -/
def Image.moreStrings (image : Image) (count : Nat) : Image :=
  { image with heap := { image.heap with strings := image.heap.strings + count } }

theorem World.DescribesBut.moreStrings {owed : Address → Prop}
    (describes : W.DescribesBut owed image) (count : Nat) :
    W.DescribesBut owed (Image.moreStrings image count) :=
  { describes with }

theorem Follows.moreStrings (W : World) (image : Image) (count : Nat) :
    Follows W image W (Image.moreStrings image count) :=
  Follows.stay (World.Extends.refl W) rfl rfl

/-- Whether the signal at hand is for the target that a variable holds. -/
def isFor (transferKind : TransferKind) (target : Value) (transfer : Transfer) : Bool :=
  transfer.kind == transferKind && transfer.target.strictEq target

theorem TransferKind.name_beq (first second : TransferKind) :
    (first.name == second.name) = (first == second) := by
  cases first <;> cases second <;> rfl

theorem bind_of_ok {x : Run α} {f : α → Run β} {a : α} (ok : x image = .ok a later) :
    (x >>= f) image = f a later := by
  change EStateM.bind x f image = _
  rw [EStateM.bind, ok]

theorem evalExpr_ident {value : Value} (found : image.heap.lookupVariable? b name = some value) :
    evalExpr call turns b (.ident name) image = .ok value image := by
  rw [evalExpr_ident_eq, found]
  rfl

theorem evalExpr_member {object : Expr} {property : String} {value : Value}
    (ok : evalExpr call turns b object image = .ok value later) :
    evalExpr call turns b (.member object property) image = getProperty value property later := by
  simp only [evalExpr]
  exact bind_of_ok ok

theorem evalExpr_strictEq {left right : Expr} {x y : Value} {middle : Image}
    (okLeft : evalExpr call turns b left image = .ok x middle)
    (okRight : evalExpr call turns b right middle = .ok y later) :
    evalExpr call turns b (.binary .strictEq left right) image =
      .ok (.bool (x.strictEq y)) later := by
  rw [evalExpr_binary (by simp), bind_of_ok okLeft, bind_of_ok okRight]
  rfl

/-- The test of a handler says whether the signal is for the handler's target. -/
theorem evalExpr_matchesSignal {a : Address} {value : Value}
    (signal : image.heap.lookupVariable? b "cf" = some (.transfer a))
    (held : image.heap.lookupVariable? b name = some value) :
    evalExpr call turns b (matchesSignal transferKind (.ident name)) image =
      .ok (.bool (isFor transferKind value (image.heap.transfer a)))
        (Image.moreStrings image 2) := by
  have kind_ok : evalExpr call turns b (.member Compiler.signal "kind") image =
      .ok (.string image.heap.strings (image.heap.transfer a).kind.name)
        (Image.moreStrings image 1) :=
    (evalExpr_member (evalExpr_ident signal)).trans rfl
  have literal_ok : evalExpr call turns b (.string transferKind.name) (Image.moreStrings image 1) =
      .ok (.string (image.heap.strings + 1) transferKind.name) (Image.moreStrings image 2) := by
    simp only [evalExpr]
    rfl
  have test_ok := evalExpr_strictEq kind_ok literal_ok
  have same_scopes : (Image.moreStrings image 2).heap.scopes = image.heap.scopes := rfl
  have id_ok : evalExpr call turns b (.member Compiler.signal "id") (Image.moreStrings image 2) =
      .ok (image.heap.transfer a).target (Image.moreStrings image 2) :=
    (evalExpr_member (evalExpr_ident
      ((lookupVariable?_congr same_scopes b "cf").trans signal))).trans rfl
  have target_ok : evalExpr call turns b (.ident name) (Image.moreStrings image 2) =
      .ok value (Image.moreStrings image 2) :=
    evalExpr_ident ((lookupVariable?_congr same_scopes b name).trans held)
  have both_ok := evalExpr_strictEq id_ok target_ok
  have test_eq : (Value.string image.heap.strings (image.heap.transfer a).kind.name).strictEq
      (.string (image.heap.strings + 1) transferKind.name) =
        ((image.heap.transfer a).kind == transferKind) := TransferKind.name_beq _ _
  rw [test_eq] at test_ok
  rw [matchesSignal, evalExpr, bind_of_ok test_ok, isFor]
  cases (image.heap.transfer a).kind == transferKind with
  | true => exact both_ok
  | false => rfl

/-- The frame of a handler. -/
def Frame.handling (frame : Frame) : Frame := frame.bind "cf" .signal

/-- What holds where a handler runs on a signal that is meant for it. -/
structure Handling (W : World) (image : Image) (frame : Frame) (h address : Nat) (carried : Kind) :
    Prop where
  admits : W.Admits frame.handling h
  signal : (image.heap.scope h).vars["cf"]? = some (.transfer address)
  known : address < W.transfers
  payload : W.Has carried (image.heap.transfer address).payload

theorem Handling.layout {h address : Nat} (handling : Handling W image frame h address carried) :
    ∃ layout : Layout, W.scopes[h]? = some layout ∧ layout "cf" = some .signal := by
  obtain ⟨layout, found, included⟩ := handling.admits
  exact ⟨layout, found, included "cf" .signal (Layout.bind_self frame.kinds "cf" .signal)⟩

theorem Handling.follows {h address : Nat} (handling : Handling W image frame h address carried)
    (follows : Follows W image W' later) :
    Handling W' later frame h address carried := by
  obtain ⟨layout, found, cf⟩ := handling.layout
  refine ⟨follows.leads.admits handling.admits, ?_,
    Nat.lt_of_lt_of_le handling.known follows.leads.grows.transfers, ?_⟩
  · exact ((follows.leads.kept h layout found).fixed "cf" .signal cf trivial).trans handling.signal
  · rw [follows.leads.transfers address handling.known]
    exact follows.leads.grows.has handling.payload

theorem lookupVariable?_own {value : Value} (bound : b < image.heap.scopes.size)
    (found : (image.heap.scope b).vars[name]? = some value) :
    image.heap.lookupVariable? b name = some value := by
  obtain ⟨n, size_eq⟩ : ∃ n, image.heap.scopes.size = n + 1 :=
    ⟨image.heap.scopes.size - 1, by omega⟩
  simp [Heap.lookupVariable?, size_eq, Heap.findVariableWithin, found]

theorem Handling.signalPayload_ok {h address : Nat}
    (handling : Handling W image frame h address carried) (describes : W.Describes image) :
    evalExpr call turns h signalPayload image =
      .ok (image.heap.transfer address).payload image := by
  obtain ⟨layout, found, -⟩ := handling.layout
  have signal_ok : evalExpr call turns h Compiler.signal image = .ok (.transfer address) image :=
    evalExpr_ident (lookupVariable?_own (describes.scope_bound found) handling.signal)
  exact (evalExpr_member signal_ok).trans rfl

theorem Handling.payload_gives {h address : Nat}
    (handling : Handling W image frame h address carried) (describes : W.Describes image) :
    Gives W image (evalExpr call turns h signalPayload) carried := by
  change Ends W W image _ (evalExpr call turns h signalPayload image)
  rw [handling.signalPayload_ok describes]
  exact Safe.gives describes handling.payload

/-- The statement that a handler starts with. -/
def passOn (transferKind : TransferKind) (name : String) (handler : List Stmt) : List Stmt :=
  [.branch (matchesSignal transferKind (.ident name)) handler [.raise Compiler.signal]]

/-- The image in which a handler has looked at its signal. -/
def handlerImage (image : Image) (b : Nat) (address : Address) : Image :=
  Image.moreStrings { image with
    heap := (image.heap.allocScope
      ⟨({} : Variables).insert "cf" (.transfer address), some b, false⟩).2 } 2

theorem handlerImage_scope (image : Image) (b : Nat) (address : Address) :
    (handlerImage image b address).heap.scope image.heap.scopes.size =
      ⟨({} : Variables).insert "cf" (.transfer address), some b, false⟩ := by
  change (image.heap.scopes.push _).getD image.heap.scopes.size default = _
  rw [getD_push, if_pos rfl]

/-- A handler runs its own code on the signals that are meant for it and throws the others again. -/
theorem execHandler_eq {address : Address} {value : Value}
    (held : (handlerImage image b address).heap.lookupVariable? image.heap.scopes.size name =
      some value) :
    (openHandler b "cf" (.transfer address) >>= fun h =>
      execBlock call turns h (passOn transferKind name handler)) image =
      if isFor transferKind value (image.heap.transfer address) then
        execBlock call turns image.heap.scopes.size handler (handlerImage image b address)
      else .error (.thrown (.transfer address)) (handlerImage image b address) := by
  set opened : Image := { image with
    heap := (image.heap.allocScope
      ⟨({} : Variables).insert "cf" (.transfer address), some b, false⟩).2 } with opened_eq
  have scopes : (handlerImage image b address).heap.scopes = opened.heap.scopes := rfl
  have signal : opened.heap.lookupVariable? image.heap.scopes.size "cf" =
      some (.transfer address) := by
    refine lookupVariable?_own ?_ ?_
    · simp [opened_eq, Heap.allocScope]
    · have scope_eq := handlerImage_scope image b address
      change (opened.heap.scope image.heap.scopes.size) = _ at scope_eq
      rw [scope_eq]
      simp
  rw [lookupVariable?_congr scopes] at held
  have test_ok : evalExpr call turns image.heap.scopes.size
      (matchesSignal transferKind (.ident name)) opened = _ := evalExpr_matchesSignal signal held
  change execBlock call turns image.heap.scopes.size (passOn transferKind name handler) opened = _
  rw [passOn, execBlock_singleton, exec, bind_of_ok test_ok]
  have transfer_eq : opened.heap.transfer address = image.heap.transfer address := rfl
  rw [transfer_eq]
  cases isFor transferKind value (image.heap.transfer address) with
  | true => rfl
  | false =>
      change execBlock call turns image.heap.scopes.size [.raise Compiler.signal]
        (Image.moreStrings opened 2) = _
      have signal_ok : evalExpr call turns image.heap.scopes.size Compiler.signal
          (Image.moreStrings opened 2) = .ok (.transfer address) (Image.moreStrings opened 2) :=
        evalExpr_ident ((lookupVariable?_congr scopes _ "cf").trans signal)
      rw [execBlock_singleton, exec, bind_of_ok signal_ok]
      rfl

theorem exec_intercept_of_thrown {thrown : Value}
    (ended : execBlock call turns b code image = .error (.thrown thrown) later) :
    exec call turns b (intercept code transferKind (.ident name) handler) image =
      (openHandler b "cf" thrown >>= fun h =>
        execBlock call turns h (passOn transferKind name handler)) later := by
  simp only [intercept, exec, handling]
  rw [ended]
  rfl

theorem exec_intercept_of_not_thrown
    (ended : ∀ thrown later, execBlock call turns b code image ≠ .error (.thrown thrown) later) :
    exec call turns b (intercept code transferKind (.ident name) handler) image =
      execBlock call turns b code image := by
  simp only [intercept, exec, handling]

theorem isFor_iff {target : Value} {transfer : Transfer} :
    isFor transferKind target transfer = true ↔
      transfer.kind = transferKind ∧ transfer.target.strictEq target = true := by
  simp [isFor]

theorem strictEq_vector {target : Value} {token : Address} :
    target.strictEq (.vector token) = true ↔ target = .vector token := by
  cases target <;> simp [Value.strictEq, Value.eql]

/-- A signal that is meant for a target carries what the target expects. -/
theorem World.DescribesBut.payload_has {owed : Address → Prop} {address : Address} {value : Value}
    (describes : W.DescribesBut owed image) (handles : Handles transferKind target carried)
    (bound : address < W.transfers) (has : W.Has target value)
    (meant : isFor transferKind value (image.heap.transfer address) = true) :
    W.Has carried (image.heap.transfer address).payload := by
  obtain ⟨kind_eq, target_eq⟩ := isFor_iff.mp meant
  obtain ⟨target', carried', handles', hasTarget, hasPayload⟩ := describes.transfer_ok bound
  rw [kind_eq] at handles'
  cases handles with
  | block manyValues =>
      cases handles' with
      | block other =>
          obtain ⟨owner, name, token, rfl, found⟩ := has
          obtain ⟨owner', name', token', target_eq', found'⟩ := hasTarget
          rw [target_eq', strictEq_vector, Value.vector.injEq] at target_eq
          rw [target_eq, found, Option.some.injEq] at found'
          cases found'
          exact hasPayload
  | catching =>
      cases handles'
      exact hasPayload
  | tagbody =>
      cases handles'
      exact hasPayload

/-- What is known of a block's own variable for the identity of its activation. -/
structure OwnToken (W₀ W : World) (image : Image) (b : Nat) (name : String) : Prop where
  later : W₀.scopes.length ≤ b
  token : ∃ (layout : Layout) (manyValues : Bool) (token : Nat), W.scopes[b]? = some layout ∧
    layout name = some (.block manyValues) ∧
      (image.heap.scope b).vars[name]? = some (.vector token) ∧ W₀.vectors.length ≤ token

theorem Own.token (own : Own W₀ W image frame b) (describes : W.Describes image)
    {manyValues : Bool} (known : frame.kinds name = some (.block manyValues))
    (pending : name ∈ frame.pending) :
    OwnToken W₀ W image b name := by
  obtain ⟨value, held⟩ := contains_iff_exists.mp (own.pending name pending)
  obtain ⟨token, rfl, -⟩ := (describes.scopes b _ own.layout).token name _ value known trivial held
  exact ⟨own.later, frame.kinds, manyValues, token, own.layout, known, held,
    own.tokens name manyValues token pending known held⟩

theorem OwnToken.leads (own : OwnToken W₀ W image b name) (leads : Leads W image W' later) :
    OwnToken W₀ W' later b name := by
  obtain ⟨layout, manyValues, token, found, known, held, new⟩ := own.token
  obtain ⟨wider, foundWider, included⟩ := leads.grows.scopes b layout found
  exact ⟨own.later, wider, manyValues, token, foundWider, included name _ known,
    ((leads.kept b layout found).fixed name _ known trivial).trans held, new⟩

/-- The world in which a handler has looked at its signal. -/
def World.addHandler (W : World) (frame : Frame) : World :=
  { W with scopes := W.scopes ++ [frame.handling.kinds] }

theorem World.DescribesBut.handlerImage {owed : Address → Prop} {address : Address}
    (describes : W.DescribesBut owed image) (admits : W.Admits frame b)
    (bound : address < W.transfers) :
    (W.addHandler frame).DescribesBut owed (handlerImage image b address) ∧
      Follows W image (W.addHandler frame) (Discipline.handlerImage image b address) ∧
      (W.addHandler frame).Admits frame.handling image.heap.scopes.size := by
  have ok : W.ScopeOk W.scopes W.scopes.length frame.handling.kinds
      ⟨({} : Variables).insert "cf" (.transfer address), some b, false⟩ := by
    refine admits.scopeOk admits.lt (fun name kind known => ?_) (fun value found => ?_)
      fun name value found unlisted free => ?_
    · change Layout.bind frame.kinds "cf" .signal name = some kind at known
      by_cases same : name = "cf"
      · subst same
        rw [Layout.bind_self, Option.some.injEq] at known
        subst known
        exact .inl ⟨.transfer address, by simp, ⟨address, rfl, bound⟩, id⟩
      · rw [Layout.bind_of_ne _ _ same] at known
        refine .inr ⟨?_, known⟩
        rw [Std.TreeMap.getElem?_insert, if_neg]
        · simp
        · rw [Std.LawfulEqCmp.compare_eq_iff_eq]
          exact Ne.symm same
    · rw [Std.TreeMap.getElem?_insert, if_neg (by decide)] at found
      simp at found
    · have ne : name ≠ "cf" := by
        rintro rfl
        exact free (by decide)
      rw [Std.TreeMap.getElem?_insert, if_neg] at found
      · simp at found
      · rw [Std.LawfulEqCmp.compare_eq_iff_eq]
        exact Ne.symm ne
  refine ⟨(describes.allocScope ok).moreStrings 2,
    (Follows.allocScope describes _ _).trans (Follows.moreStrings _ _ 2),
    frame.handling.kinds, ?_, fun _ _ known => known⟩
  rw [← describes.scopeCount]
  simp [World.addHandler]

/-- A signal that a block's own handler takes in is received. -/
theorem OwnToken.received {address : Address} {value : Value}
    (own : OwnToken W₀ W image b name) (describes : W.Describes image) (admits : W.Admits frame b)
    (name_ne : name ≠ "cf") (bound : address < W.transfers)
    (held : (handlerImage image b address).heap.lookupVariable? image.heap.scopes.size name =
      some value)
    (meant : isFor .block value (image.heap.transfer address) = true) :
    Received W₀ (W.addHandler frame) (handlerImage image b address) address := by
  obtain ⟨described, follows, admitsHandler⟩ := describes.handlerImage admits bound
  obtain ⟨layout, manyValues, token, found, known, heldHere, new⟩ := own.token
  obtain ⟨inner, foundInner, includedInner⟩ := admitsHandler
  have kept := follows.leads.kept b layout found
  have heldLater := (kept.fixed name _ known trivial).trans heldHere
  have scope_eq := handlerImage_scope image b address
  -- The variable is not in the handler's scope but in the one around it.
  have absent : ((handlerImage image b address).heap.scope image.heap.scopes.size).vars[name]? =
      none := by
    rw [scope_eq, Std.TreeMap.getElem?_insert, if_neg]
    · simp
    · rw [Std.LawfulEqCmp.compare_eq_iff_eq]
      exact Ne.symm name_ne
  have value_eq : value = .vector token := by
    obtain ⟨n, size_eq⟩ : ∃ n, (handlerImage image b address).heap.scopes.size = n + 2 := by
      refine ⟨image.heap.scopes.size - 1, ?_⟩
      have := describes.scope_bound found
      change (image.heap.scopes.push _).size = _
      rw [Array.size_push]
      omega
    rw [Heap.lookupVariable?, size_eq, Heap.findVariableWithin] at held
    simp only [absent] at held
    rw [scope_eq] at held
    simp only [Heap.findVariableWithin, heldLater, Option.some.injEq] at held
    exact held.symm
  obtain ⟨-, target_eq⟩ := isFor_iff.mp meant
  rw [value_eq, strictEq_vector] at target_eq
  refine ⟨image.heap.scopes.size, b, token, name, ⟨⟨inner, foundInner, ?_⟩, ?_, ?_,
    ⟨layout, manyValues, prefix_getElem? follows.extends_.scopes found, known⟩, heldLater, bound,
    target_eq⟩, own.later, new⟩
  · exact includedInner "cf" .signal (Layout.bind_self frame.kinds "cf" .signal)
  · rw [scope_eq]
    simp
  · rw [scope_eq]

/-- A block with a handler. What the handler passes on is thrown again; where it takes in a signal,
its own code is what is left to run. -/
theorem Ends.intercept {good : World → Flow → Prop} (admits : W.Admits frame b)
    (handles : Handles transferKind target carried) (known : frame.kinds name = some target)
    (name_ne : name ≠ "cf") (own : transferKind = .block → OwnToken W₀ W image b name)
    (block : Ends W₀ W image good (execBlock call turns b code image))
    (onMatch : ∀ W' later h address, W₀.Extends W' → Leads W image W' later → W'.Describes later →
      Handling W' later frame h address carried →
        Ends W₀ W' later good (execBlock call turns h handler later)) :
    Ends W₀ W image good
      (exec call turns b (intercept code transferKind (.ident name) handler) image) := by
  cases run_eq : execBlock call turns b code image with
  | ok flow later =>
      rw [exec_intercept_of_not_thrown (by rw [run_eq]; nofun)]
      exact block
  | error interrupt later =>
      rw [run_eq] at block
      cases block with
      | failed W' extends_ leads describes isLanguage =>
          rw [exec_intercept_of_not_thrown (by rw [run_eq]; nofun), run_eq]
          exact .failed W' extends_ leads describes isLanguage
      | outOfSteps W' extends_ leads describes =>
          rw [exec_intercept_of_not_thrown (by rw [run_eq]; nofun), run_eq]
          exact .outOfSteps W' extends_ leads describes
      | @thrown later address W' extends_ leads describes fresh bound settled =>
          have admitsLater := leads.admits admits
          obtain ⟨described, follows, admitsHandler⟩ := describes.handlerImage admitsLater bound
          have knownHandler : frame.handling.kinds name = some target :=
            (Layout.bind_of_ne frame.kinds .signal name_ne).trans known
          obtain ⟨value, held, has, -⟩ := described.lookup admitsHandler knownHandler
          have leadsHandler := leads.trans follows.leads
          have extendsHandler := extends_.trans follows.extends_
          rw [exec_intercept_of_thrown run_eq, execHandler_eq held]
          split
          · rename_i meant
            have handling : Handling (W'.addHandler frame) (handlerImage later b address) frame
                later.heap.scopes.size address carried := by
              refine ⟨admitsHandler, ?_, bound, described.payload_has handles bound has meant⟩
              rw [handlerImage_scope]
              simp
            have settledHandler : Settled W.transfers W₀ (W'.addHandler frame)
                (handlerImage later b address) := by
              rcases settled with last | settled
              · intro a low isLast kind_eq
                obtain rfl : a = address := by
                  have : a + 1 = W'.transfers := isLast
                  omega
                have block_eq : transferKind = .block := (isFor_iff.mp meant).1.symm.trans kind_eq
                subst block_eq
                exact ((own rfl).leads leads).received describes admitsLater name_ne bound held meant
              · exact settled.after follows.leads (Settled.of_same rfl)
            exact Ends.after settledHandler leadsHandler
              (onMatch _ _ _ address extendsHandler leadsHandler described handling)
          · refine .thrown _ extendsHandler leadsHandler described fresh bound ?_
            exact settled.imp_right fun settled =>
              settled.after follows.leads (Settled.of_same rfl)

theorem Frame.Accepts.handling {acceptor : Expr} {manyValues : Bool}
    (accepts : frame.Accepts acceptor manyValues) :
    frame.handling.Accepts acceptor manyValues := by
  rcases accepts with rfl | ⟨rfl, known⟩
  · exact .inl rfl
  · have different : "values" ≠ "cf" := by decide
    exact .inr ⟨rfl, (Layout.bind_of_ne frame.kinds .signal different).trans known⟩

theorem Own.blockToken (own : Own W₀ W image frame b) (describes : W.Describes image)
    (handles : Handles transferKind target carried) (known : frame.kinds name = some target)
    (pending : transferKind = .block → name ∈ frame.pending) :
    transferKind = .block → OwnToken W₀ W image b name := by
  rintro rfl
  cases handles with
  | block manyValues => exact own.token describes known (pending rfl)

/-- The arguments of a handler that hands its signal's values on. -/
theorem Safe.payloadArguments {acceptor : Expr} {manyValues : Bool} {h address : Nat}
    (accepts : frame.Accepts acceptor manyValues)
    (handling : Handling W image frame h address carried) (describes : W.Describes image) :
    Safe W image (evalList call turns h [acceptor, signalPayload]) fun W' values =>
      ∃ payload, values = [acceptorValue manyValues, payload] ∧ W'.Has carried payload := by
  rw [evalList]
  refine ((ExprSound.acceptor accepts.handling) W image h describes handling.admits).bind
    fun W₁ image₁ first follows described held => ?_
  obtain rfl : first = acceptorValue manyValues := held
  simp only [evalList, bind_assoc, pure_bind]
  refine ((handling.follows follows).payload_gives described).bind
    fun W₂ image₂ payload _ described has => ?_
  exact Safe.gives described ⟨payload, rfl, has⟩

theorem StmtSound.interceptValues (caller : CallerSound call) {acceptor : Expr}
    {manyValues : Bool} (handles : Handles transferKind target carried)
    (within : carried.Within .many) (known : frame.kinds name = some target)
    (name_ne : name ≠ "cf") (pending : transferKind = .block → name ∈ frame.pending)
    (accepts : frame.Accepts acceptor manyValues)
    (block : StmtSound call turns frame code (.result manyValues)) :
    StmtSound call turns frame [intercept code transferKind (.ident name)
      [.ret (.callRoutine .deliverValues [acceptor, signalPayload])]] (.result manyValues) := by
  intro W₀ W image b extends_ describes own
  rw [execBlock_singleton]
  refine Ends.intercept own.admits handles known name_ne
    (own.blockToken describes handles known pending) (block W₀ W image b extends_ describes own)
    fun W₁ image₁ h address extended _ described handling => ?_
  have delivered : Gives W₁ image₁
      (evalExpr call turns h (.callRoutine .deliverValues [acceptor, signalPayload]))
      (.result manyValues) := by
    refine Safe.callNative caller (.routine .deliverValues) described
      (fun W₂ image₂ follows described =>
        Safe.payloadArguments accepts (handling.follows follows) described)
      fun W' later values inner described held sound => ?_
    obtain ⟨payload, rfl, has⟩ := held
    exact Safe.deliverValues sound described (within W' payload has)
  rw [execBlock_singleton]
  simp only [exec]
  refine Safe.bindInto extended delivered fun W₂ image₂ value follows described has => ?_
  exact Ends.since (Safe.gives described ⟨value, rfl, has⟩) (extended.trans follows.extends_)

theorem StmtSound.interceptPayload (handles : Handles transferKind target kind)
    (known : frame.kinds name = some target) (name_ne : name ≠ "cf")
    (pending : transferKind = .block → name ∈ frame.pending)
    (block : StmtSound call turns frame code kind) :
    StmtSound call turns frame
      [intercept code transferKind (.ident name) [.ret signalPayload]] kind := by
  intro W₀ W image b extends_ describes own
  rw [execBlock_singleton]
  refine Ends.intercept own.admits handles known name_ne
    (own.blockToken describes handles known pending) (block W₀ W image b extends_ describes own)
    fun W₁ image₁ h address extended _ described handling => ?_
  rw [execBlock_singleton]
  simp only [exec]
  refine Safe.bindInto extended (handling.payload_gives described)
    fun W₂ image₂ value follows described has => ?_
  exact Ends.since (Safe.gives described ⟨value, rfl, has⟩) (extended.trans follows.extends_)

end Handlers

section Cleanups

/-- Expressions evaluated for their effects. -/
theorem Safe.effects (sound : ∀ e ∈ es, ExprSound call turns frame e kind)
    (describes : W.Describes image) (admits : W.Admits frame b) :
    Safe W image (execBlock call turns b (es.map .effect)) fun _ flow => flow = .normal := by
  induction es generalizing W image with
  | nil =>
      simp only [List.map_nil, execBlock]
      exact Safe.gives describes rfl
  | cons e rest ih =>
      obtain ⟨soundFirst, soundRest⟩ := List.forall_mem_cons.mp sound
      refine Ends.afterEffect (World.Extends.refl W) (Safe.effect soundFirst describes admits)
        fun W' later follows described => ?_
      exact Ends.since (ih soundRest described (follows.leads.admits admits)) follows.extends_

/-- Signals settled before a cleanup, and those that the cleanup raised. -/
theorem Settled.cleanup {count address : Nat} (leads : Leads W image W' later)
    (settled : address + 1 = W.transfers ∨ Settled count W₀ W image)
    (more : Settled W.transfers W₀ W' later) :
    address + 1 = W'.transfers ∨ Settled count W₀ W' later := by
  have grown := leads.grows.transfers
  by_cases same : W'.transfers = W.transfers
  · rw [same]
    exact settled.imp_right fun settled => settled.after leads more
  · exact .inr fun a _ last kind => more a (by omega) last kind

/-- A failure or an exit that takes the place of what came before. -/
theorem Ends.instead {good : World → α → Prop} {good' : World → β → Prop} {last : Image}
    {interrupt : Interrupt} (extends_ : W₀.Extends W') (leads : Leads W image W' later)
    (safe : Ends W' W' later good (.error interrupt last)) :
    Ends W₀ W image good' (.error interrupt last) := by
  cases safe with
  | thrown W'' extended further describes fresh bound settled =>
      refine .thrown W'' (extends_.trans extended) (leads.trans further) describes
        (Nat.le_trans leads.grows.transfers fresh) bound (settled.imp_right fun settled => ?_)
      intro a _ isLast kind
      exact (settled a (by omega) isLast kind).since extends_
  | failed W'' extended further describes isLanguage =>
      exact .failed W'' (extends_.trans extended) (leads.trans further) describes isLanguage
  | outOfSteps W'' extended further describes =>
      exact .outOfSteps W'' (extends_.trans extended) (leads.trans further) describes

section Ensuring

variable {block cleanup : Run Flow} {flow : Flow} {interrupt other : Interrupt} {last : Image}

theorem ensuring_of_ok (ended : block image = .ok flow later) :
    Machine.ensuring block cleanup image = match cleanup later with
      | .ok .normal image => .ok flow image
      | result => result := by
  unfold Machine.ensuring
  generalize block image = result at ended
  subst ended
  rfl

theorem ensuring_of_error (ended : block image = .error interrupt later)
    (goes : interrupt ≠ .outOfSteps) :
    Machine.ensuring block cleanup image = match cleanup later with
      | .ok .normal image => .error interrupt image
      | result => result := by
  unfold Machine.ensuring
  rw [ended]
  cases interrupt with
  | outOfSteps => exact absurd rfl goes
  | _ => rfl

theorem ensuring_of_outOfSteps (ended : block image = .error .outOfSteps later) :
    Machine.ensuring block cleanup image = .error .outOfSteps later := by
  unfold Machine.ensuring
  rw [ended]

end Ensuring

/-- A cleanup that ends normally leaves the outcome as it was; any other outcome of it takes the
place of the first. -/
theorem Ends.ensuring {block cleanup : Run Flow} {good : World → Flow → Prop}
    (kept : ∀ W' W'' flow, W'.Grows W'' → good W' flow → good W'' flow)
    (first : Ends W₀ W image good (block image))
    (second : ∀ W' later, Leads W image W' later → W'.Describes later →
      Safe W' later cleanup fun _ flow => flow = .normal) :
    Ends W₀ W image good (Machine.ensuring block cleanup image) := by
  cases block_eq : block image with
  | ok flow later =>
      rw [block_eq] at first
      rw [ensuring_of_ok block_eq]
      cases first with
      | ok W₁ extends₁ leads₁ described settled held =>
          have safe := second W₁ later leads₁ described
          cases cleanup_eq : cleanup later with
          | ok ended last =>
              rw [Safe, cleanup_eq] at safe
              cases safe with
              | ok W₂ extends₂ leads₂ described more normal =>
                  subst normal
                  exact .ok W₂ (extends₁.trans extends₂) (leads₁.trans leads₂) described
                    (settled.after leads₂ (more.since extends₁))
                    (kept W₁ W₂ flow leads₂.grows held)
          | error interrupt last =>
              rw [Safe, cleanup_eq] at safe
              exact Ends.instead extends₁ leads₁ safe
  | error interrupt later =>
      rw [block_eq] at first
      by_cases goes : interrupt = .outOfSteps
      · subst goes
        rw [ensuring_of_outOfSteps block_eq]
        exact first
      rw [ensuring_of_error block_eq goes]
      have between : ∃ W₁, W₀.Extends W₁ ∧ Leads W image W₁ later ∧ W₁.Describes later := by
        cases first with
        | thrown W₁ extends₁ leads₁ described _ _ _ => exact ⟨W₁, extends₁, leads₁, described⟩
        | failed W₁ extends₁ leads₁ described _ => exact ⟨W₁, extends₁, leads₁, described⟩
        | outOfSteps W₁ extends₁ leads₁ described => exact ⟨W₁, extends₁, leads₁, described⟩
      cases cleanup_eq : cleanup later with
      | error other last =>
          obtain ⟨W₁, extends₁, leads₁, described⟩ := between
          have safe := second W₁ later leads₁ described
          rw [Safe, cleanup_eq] at safe
          exact Ends.instead extends₁ leads₁ safe
      | ok ended last =>
          have continued : ∀ W₁, Leads W image W₁ later → W₁.Describes later →
              ended = .normal ∧ ∃ W₂, W₁.Extends W₂ ∧ Leads W₁ later W₂ last ∧
                W₂.Describes last ∧ Settled W₁.transfers W₁ W₂ last := by
            intro W₁ leads₁ described
            have safe := second W₁ later leads₁ described
            rw [Safe, cleanup_eq] at safe
            cases safe with
            | ok W₂ extends₂ leads₂ described more normal =>
                exact ⟨normal, W₂, extends₂, leads₂, described, more⟩
          cases first with
          | thrown W₁ extends₁ leads₁ described fresh bound settled =>
              obtain ⟨rfl, W₂, extends₂, leads₂, described, more⟩ := continued W₁ leads₁ described
              exact .thrown W₂ (extends₁.trans extends₂) (leads₁.trans leads₂) described fresh
                (Nat.lt_of_lt_of_le bound leads₂.grows.transfers)
                (Settled.cleanup leads₂ settled (more.since extends₁))
          | failed W₁ extends₁ leads₁ described isLanguage =>
              obtain ⟨rfl, W₂, extends₂, leads₂, described, -⟩ := continued W₁ leads₁ described
              exact .failed W₂ (extends₁.trans extends₂) (leads₁.trans leads₂) described isLanguage
          | outOfSteps W₁ extends₁ leads₁ described => exact absurd rfl goes

theorem StmtSound.protect (body : StmtSound call turns frame code kind)
    (cleanup : ∀ e ∈ es, ExprSound call turns frame e .optional) :
    StmtSound call turns frame [.guarded code .none (.always (es.map .effect))] kind := by
  intro W₀ W image b extends_ describes own
  rw [execBlock_singleton]
  simp only [exec]
  refine Ends.ensuring (fun W' W'' flow grows held => ?_) (body W₀ W image b extends_ describes own)
    fun W' later leads described => Safe.effects cleanup described (leads.admits own.admits)
  obtain ⟨value, rfl, has⟩ := held
  exact ⟨value, rfl, grows.has has⟩

end Cleanups

section Tagbodies

variable {sections : List (Nat × List Expr)} {branch token loopLabel : String}

/-- The cases of a tagbody's switch. -/
def sectionCases (sections : List (Nat × List Expr)) : List Case :=
  sections.map fun (label, code) => .case (labelExpr label) (code.map .effect)

theorem Safe.chooseSection (value : Value) (describes : W.Describes image) :
    Safe W image (chooseCase call turns b value (sectionCases sections)) fun _ _ => True := by
  induction sections generalizing W image with
  | nil =>
      simp only [sectionCases, List.map_nil, chooseCase]
      exact Safe.gives describes trivial
  | cons first rest ih =>
      simp only [sectionCases, List.map_cons, chooseCase, labelExpr, evalExpr, pure_bind]
      split
      · exact Safe.gives describes trivial
      · exact (ih describes).bind fun _ _ _ _ described _ => Safe.gives described trivial

theorem Safe.runSections (start : Nat)
    (sound : ∀ part ∈ sections, ∀ e ∈ part.2, ExprSound call turns frame e .datum)
    (describes : W.Describes image) (admits : W.Admits frame b) :
    Safe W image (execCases call turns b start (sectionCases sections)) fun _ flow =>
      flow = .normal := by
  induction sections generalizing W image start with
  | nil =>
      simp only [sectionCases, List.map_nil, execCases]
      exact Safe.gives describes rfl
  | cons first rest ih =>
      obtain ⟨soundFirst, soundRest⟩ := List.forall_mem_cons.mp sound
      cases start with
      | succ start => exact ih start soundRest describes admits
      | zero =>
          simp only [sectionCases, List.map_cons, execCases]
          refine (Safe.effects soundFirst describes admits).bind fun W₁ image₁ flow follows
            described normal => ?_
          subst normal
          exact ih 0 soundRest described (follows.leads.admits admits)

/-- One turn of a tagbody's loop ends it or goes on to the next turn. -/
theorem Safe.tagbodyTurn (knownToken : frame.kinds token = some .tagbody)
    (token_ne : token ≠ "cf") (knownBranch : frame.kinds branch = some .datum)
    (branch_ne : branch ≠ "cf")
    (sound : ∀ part ∈ sections, ∀ e ∈ part.2, ExprSound call turns frame e .datum)
    (describes : W.Describes image) (admits : W.Admits frame b) :
    Safe W image (execBlock call turns b [intercept
      [.select (.ident branch) (sectionCases sections), .leave (some loopLabel)]
      .tagbody (.ident token) [.effect (.assign (.ident branch) signalPayload)]])
      fun _ flow => flow = .normal ∨ flow = .left (some loopLabel) := by
  rw [execBlock_singleton]
  refine Ends.intercept admits .tagbody knownToken token_ne nofun ?_
    fun W₁ image₁ h address extended leads described handling => ?_
  · have selected : Safe W image
        (exec call turns b (.select (.ident branch) (sectionCases sections))) fun _ flow =>
          flow = .normal := by
      rw [exec]
      refine ((ExprSound.ident knownBranch) W image b describes admits).bind
        fun W₁ image₁ value follows described _ => ?_
      refine (Safe.chooseSection value described).bind fun W₂ image₂ chosen further described
        _ => ?_
      split
      · exact Safe.runSections _ sound described
          (further.leads.admits (follows.leads.admits admits))
      · exact Safe.gives described rfl
    refine Ends.afterEffect (World.Extends.refl W) selected fun W' later follows described => ?_
    rw [execBlock_singleton, exec]
    exact Ends.since (Safe.gives described (.inr rfl)) follows.extends_
  · have knownHandler : frame.handling.kinds branch = some .datum :=
      (Layout.bind_of_ne frame.kinds .signal branch_ne).trans knownBranch
    rw [execBlock_singleton]
    simp only [exec, evalExpr, bind_assoc, pure_bind]
    refine Safe.bindInto extended (handling.payload_gives described)
      fun W₂ image₂ value follows described datum => ?_
    refine Safe.bindInto (extended.trans follows.extends_)
      (Safe.assignVariable described (follows.leads.admits handling.admits) knownHandler datum)
      fun W₃ image₃ _ further described _ => ?_
    exact Ends.since (Safe.gives described (.inl rfl))
      ((extended.trans follows.extends_).trans further.extends_)

/-- A loop that goes on until its body leaves it by its label. -/
theorem Safe.repeatUntilLeft {label : String} {test : Run Value} {body : Run Flow} (limit : Nat)
    (holds : ∀ image, test image = .ok (.bool true) image)
    (turn : ∀ W' later, W'.Describes later → W'.Admits frame b →
      Safe W' later body fun _ flow => flow = .normal ∨ flow = .left (some label))
    (describes : W.Describes image) (admits : W.Admits frame b) :
    Safe W image (repeatWhile (some label) test body limit) fun _ flow => flow = .normal := by
  induction limit generalizing W image with
  | zero => exact Safe.exhausted describes
  | succ limit ih =>
      rw [repeatWhile]
      change Ends W W image _ ((test >>= _) image)
      rw [bind_of_ok (holds image)]
      refine (turn W image describes admits).bind fun W₁ image₁ flow follows described ended => ?_
      rcases ended with rfl | rfl
      · exact ih described (follows.leads.admits admits)
      · have ends : endsLoop (some label) (some label) = true := by simp [endsLoop]
        simp only [ends, if_true]
        exact Safe.gives described rfl

theorem BlockSound.dispatch (knownToken : frame.kinds token = some .tagbody)
    (token_ne : token ≠ "cf") (knownBranch : frame.kinds branch = some .datum)
    (branch_ne : branch ≠ "cf")
    (sound : ∀ part ∈ sections, ∀ e ∈ part.2, ExprSound call turns frame e .datum)
    (rest : BlockSound call turns frame code good) :
    BlockSound call turns frame (tagbodyLoop loopLabel token branch sections :: code) good := by
  intro W₀ W image b extends_ describes own
  have looped : Safe W image (exec call turns b (tagbodyLoop loopLabel token branch sections))
      fun _ flow => flow = .normal := by
    rw [tagbodyLoop, exec]
    refine Safe.repeatUntilLeft turns (fun image => by rw [evalExpr]; rfl)
      (fun W' later described admits => ?_) describes own.admits
    exact Safe.tagbodyTurn knownToken token_ne knownBranch branch_ne sound described admits
  refine Ends.afterEffect extends_ looped fun W' later follows described => ?_
  exact rest W₀ W' later b (extends_.trans follows.extends_) described (own.follows follows)

end Tagbodies

end LispScript.Discipline
