import LispScript.Proofs.Soundness

/-!
What the discipline tells in the middle of a block. Where the first statements of a block have ended
normally, the others stand in the same scope, which is still the block's own, in a frame that knows what
was declared by then. So what is known of the variables of a scope is known at any point of its code.
-/

namespace LispScript.Discipline

open Script Machine Compiler

variable {call : Caller} {turns : Nat} {frame frame' : Frame} {W₀ W W' : World}
  {image later j : Image} {b : Nat} {name : String} {held kind : Kind}

section Lookups

/-- Only a fixed variable can hold `undefined`. -/
theorem Kind.Within.fixed_of_optional {wider : Kind} (within : Kind.optional.Within wider) :
    wider.IsFixed := by
  cases wider with
  | datum => exact (within ⟨[], [], 0, 0⟩ .undefined (.inr rfl)).elim
  | _ => trivial

/-- What is read of a fixed variable is the same later on. -/
theorem Leads.find_fixed (leads : Leads W image W' later) (describes : W.Describes image)
    {layout : Layout} (found : W.scopes[b]? = some layout) (listed : layout name = some kind)
    (fixed : kind.IsFixed) {limit limit' : Nat} (enough : b < limit) (enough' : b < limit') :
    later.heap.findVariableWithin name limit' b = image.heap.findVariableWithin name limit b := by
  induction limit generalizing b layout limit' with
  | zero => omega
  | succ limit ih =>
      obtain ⟨limit', rfl⟩ : ∃ n, limit' = n + 1 := ⟨limit' - 1, by omega⟩
      have kept := leads.kept b layout found
      have same := kept.fixed name kind listed fixed
      simp only [Heap.findVariableWithin, same, kept.parent]
      rcases (describes.scopes b layout found).found name kind listed with
        ⟨value, held, -⟩ | ⟨absent, parent, outer, parent_eq, lower, foundOuter, listedOuter⟩
      · change (image.heap.scope b).vars[name]? = some value at held
        simp only [held]
      · change (image.heap.scope b).vars[name]? = none at absent
        change (image.heap.scope b).parent = some parent at parent_eq
        simp only [absent, parent_eq]
        exact ih foundOuter listedOuter (by omega) (by omega)

theorem Leads.lookup_fixed (leads : Leads W image W' later) (describes : W.Describes image)
    (described : W'.Describes later) (admits : W.Admits frame b)
    (known : frame.kinds name = some kind) (fixed : kind.IsFixed) :
    later.heap.lookupVariable? b name = image.heap.lookupVariable? b name := by
  obtain ⟨layout, found, included⟩ := admits
  obtain ⟨layout', found', -⟩ := leads.grows.scopes b layout found
  exact leads.find_fixed describes found (included name kind known) fixed
    (describes.scope_bound found) (described.scope_bound found')

end Lookups

section Passing

/-- Where statements have ended normally, something is known and the scope is as the second frame
tells. -/
def Advances (call : Caller) (turns : Nat) (frame : Frame) (chunk : List Stmt) (fact : Prop)
    (frame' : Frame) : Prop :=
  ∀ (W₀ W : World) (image : Image) (b : Nat) (j : Image), W₀.Extends W → W.Describes image →
    Own W₀ W image frame b → execBlock call turns b chunk image = .ok .normal j →
    fact ∧ ∃ W', W₀.Extends W' ∧ Leads W image W' j ∧ W'.Describes j ∧ Own W₀ W' j frame' b

variable {chunk : List Stmt} {fact : Prop}

/-- What is wanted of a scope at the end of some statements. -/
abbrev Reached (fact : Prop) (frame' : Frame) (b : Nat) (W' : World) (_ : Flow) : Prop :=
  fact ∧ W'.scopes[b]? = some frame'.kinds

theorem BlockSound.reached (holds : fact) : BlockSound call turns frame [] (Reached fact frame) := by
  intro W₀ W image b extends_ describes own
  rw [execBlock]
  exact .ok W extends_ (.refl W image) describes (.of_same rfl) ⟨holds, own.layout⟩

/-- Nothing has to follow. -/
theorem BlockSound.alone {good : Nat → World → Flow → Prop}
    (sound : BlockSound call turns frame (chunk ++ []) good) :
    BlockSound call turns frame chunk good :=
  List.append_nil chunk ▸ sound

/-- Statements that leave the scope as a frame tells may be run through, if none of its variables
stands for the identity of an activation that was not known before. -/
theorem BlockSound.proceeds (sound : BlockSound call turns frame chunk (Reached fact frame'))
    (pending : frame'.pending = frame.pending)
    (tokens : ∀ name manyValues, frame'.kinds name = some (.block manyValues) →
      frame.kinds name = some (.block manyValues)) :
    Advances call turns frame chunk fact frame' := by
  intro W₀ W image b j extends_ describes own ran
  have ends := sound W₀ W image b extends_ describes own
  rw [ran] at ends
  cases ends with
  | ok W' extended leads described settled held =>
      have kept := leads.kept b frame.kinds own.layout
      refine ⟨held.1, W', extended, leads, described, own.later, held.2,
        kept.isFunction.trans own.isFunction,
        fun name member => kept.names name (own.pending name (pending ▸ member)),
        fun name manyValues token member known found => ?_⟩
      have before := tokens name manyValues known
      have same := kept.fixed name (.block manyValues) before trivial
      exact own.tokens name manyValues token (pending ▸ member) before (same ▸ found)

/-- Statements that declare nothing may be run through. -/
theorem BlockSound.proceeds_same (sound : BlockSound call turns frame chunk (Reached fact frame)) :
    Advances call turns frame chunk fact frame :=
  sound.proceeds rfl fun _ _ known => known

theorem BlockSound.proceeds_bind (plain : ¬ held.IsToken)
    (sound : BlockSound call turns frame chunk (Reached fact (frame.bind name held))) :
    Advances call turns frame chunk fact (frame.bind name held) := by
  refine sound.proceeds rfl fun other manyValues known => ?_
  simp only [Frame.bind, Layout.bind] at known
  split at known
  · exact absurd (Option.some.inj known ▸ trivial) plain
  · exact known

theorem BlockSound.proceeds_bindAll {names : List String}
    (sound : BlockSound call turns frame chunk
      (Reached fact (frame.bindAll names .datum))) :
    Advances call turns frame chunk fact (frame.bindAll names .datum) := by
  refine sound.proceeds rfl fun other manyValues known => ?_
  simp only [Frame.bindAll] at known
  split at known
  · cases known
  · exact known

theorem Advances.declare (fresh : frame.Fresh name) :
    Advances call turns frame [.declare name] True (frame.pend [name]) := by
  intro W₀ W image b j extends_ describes own ran
  rw [execBlock_singleton] at ran
  simp only [exec] at ran
  cases ran
  obtain ⟨leads, described, ownLater⟩ := own.declare describes fresh
  exact ⟨trivial, W, extends_, leads, described, ownLater⟩

theorem Advances.defineToken (fresh : frame.Fresh name) (token : held.IsToken) :
    Advances call turns frame [.define name (.array [])] True
      ((frame.bind name held).pend [name]) := by
  intro W₀ W image b j extends_ describes own ran
  rw [execBlock_singleton] at ran
  simp only [exec, evalExpr, evalList, pure_bind] at ran
  cases ran
  have stays : Follows W image (W.addVector (.token held b name))
      { image with heap := (image.heap.allocVector #[]).2 } :=
    Follows.stay (W.extends_addVector _) rfl rfl
  have place := (own.follows stays).functionScope
    (describes.allocVector (show W.Fits #[] (.token held b name) from trivial))
  obtain ⟨W', extended, leads, -, described, ownLater, -⟩ :=
    own.bindToken describes extends_ fresh token
  let placed (owner : Address) : Image := { image with
    heap := (image.heap.allocVector #[]).2.bindVariable owner name
      (.vector image.heap.vectors.size) }
  refine ⟨trivial, W', extended, ?_⟩
  change Leads W image W' (placed ((image.heap.allocVector #[]).2.functionScope b)) ∧
    W'.Describes (placed ((image.heap.allocVector #[]).2.functionScope b)) ∧
    Own W₀ W' (placed ((image.heap.allocVector #[]).2.functionScope b)) _ b
  rw [place]
  exact ⟨leads, described, ownLater⟩

end Passing

section Middle

/-- Whether a block is told of where it arrives at a statement: one that keeps a property of an object,
or one that returns. -/
def isMark : Stmt → Bool
  | .define _ (.member _ _) | .ret _ => true
  | _ => false

/-- A block has arrived at some of its statements: the scope is in order, and so is the code that is
still to come. -/
structure Midway (W₀ W : World) (image : Image) (b : Nat) (code : List Stmt) (kind : Kind) (j : Image)
    (W' : World) (frame : Frame) : Prop where
  extends_ : W₀.Extends W'
  leads : Leads W image W' j
  describes : W'.Describes j
  own : Own W₀ W' j frame b
  derivable : Derivable frame (.returns code kind)

/-- Wherever a block arrives at a statement that it is told of, it does so in order. -/
def Arrives (call : Caller) (turns : Nat) (frame : Frame) (code : List Stmt) (kind : Kind) : Prop :=
  ∀ (before rest : List Stmt) (mark : Stmt), isMark mark = true → code = before ++ mark :: rest →
    ∀ (W₀ W : World) (image : Image) (b : Nat) (j : Image), W₀.Extends W → W.Describes image →
      Own W₀ W image frame b → execBlock call turns b before image = .ok .normal j →
      ∃ W' frame', Midway W₀ W image b (mark :: rest) kind j W' frame'

/-- Statements before a given one do not reach past it. -/
theorem split_before {chunk code before rest : List Stmt} {target : Stmt}
    (shape : chunk ++ code = before ++ target :: rest) (other : target ∉ chunk) :
    ∃ before', before = chunk ++ before' ∧ code = before' ++ target :: rest := by
  rcases List.append_eq_append_iff.mp shape with ⟨more, rfl, rfl⟩ | ⟨more, rfl, same⟩
  · exact ⟨more, rfl, rfl⟩
  · cases more with
    | nil => exact ⟨[], by simp, same.symm⟩
    | cons first more =>
        obtain ⟨rfl, -⟩ := List.cons.inj same
        exact absurd (List.mem_append_right _ List.mem_cons_self) other

variable {chunk code : List Stmt} {fact : Prop} {stmt : Stmt} {e : Expr}

/-- Statements that end normally where statements before others do. -/
theorem execBlock_append_normal {first second : List Stmt}
    (ran : execBlock call turns b (first ++ second) image = .ok .normal j) :
    ∃ i, execBlock call turns b first image = .ok .normal i ∧
      execBlock call turns b second i = .ok .normal j := by
  rw [execBlock_append] at ran
  change EStateM.bind _ _ image = _ at ran
  rw [EStateM.bind] at ran
  cases ended : execBlock call turns b first image with
  | error interrupt i =>
      rw [ended] at ran
      cases ran
  | ok flow i =>
      rw [ended] at ran
      cases flow with
      | normal => exact ⟨i, rfl, ran⟩
      | returned value => cases ran
      | left label => cases ran

theorem Midway.after {W₀ W₁ : World} {i : Image} (leads : Leads W image W₁ i)
    (midway : Midway W₀ W₁ i b code kind j W' frame) : Midway W₀ W image b code kind j W' frame :=
  { midway with leads := leads.trans midway.leads }

/-- Code that is put behind statements that may be run through. -/
theorem Advances.arrives (proceeds : Advances call turns frame chunk fact frame')
    (unmarked : ∀ stmt ∈ chunk, isMark stmt = false)
    (rest : fact → Arrives call turns frame' code kind) :
    Arrives call turns frame (chunk ++ code) kind := by
  intro before others mark marked shape W₀ W image b j extends_ describes own ran
  obtain ⟨before, rfl, same⟩ := split_before shape fun member => by
    rw [unmarked mark member] at marked
    cases marked
  obtain ⟨i, ran, ranRest⟩ := execBlock_append_normal ran
  obtain ⟨holds, W₁, extends₁, leads, described, ownLater⟩ :=
    proceeds W₀ W image b i extends_ describes own ran
  obtain ⟨W', frame', midway⟩ :=
    rest holds before others mark marked same W₀ W₁ i b j extends₁ described ownLater ranRest
  exact ⟨W', frame', midway.after leads⟩

/-- A block may be told of where it begins. -/
theorem Arrives.cons (derivable : Derivable frame (.returns (stmt :: code) kind))
    (later : ∀ before rest mark, isMark mark = true → code = before ++ mark :: rest →
      ∀ (W₀ W : World) (image : Image) (b : Nat) (j : Image), W₀.Extends W → W.Describes image →
        Own W₀ W image frame b → execBlock call turns b (stmt :: before) image = .ok .normal j →
        ∃ W' frame', Midway W₀ W image b (mark :: rest) kind j W' frame') :
    Arrives call turns frame (stmt :: code) kind := by
  intro before others mark marked shape W₀ W image b j extends_ describes own ran
  cases before with
  | nil =>
      cases shape
      rw [execBlock] at ran
      cases ran
      exact ⟨W, frame, extends_, .refl W image, describes, own, derivable⟩
  | cons first before =>
      rw [List.cons_append] at shape
      obtain ⟨rfl, same⟩ := List.cons.inj shape
      exact later before others mark marked same W₀ W image b j extends_ describes own ran

theorem Arrives.last (derivable : Derivable frame (.returns [stmt] kind)) :
    Arrives call turns frame [stmt] kind :=
  Arrives.cons derivable fun before rest mark _ shape => by simp at shape

/-- A variable is defined, which may be to keep the value of a symbol. -/
theorem Arrives.define (fresh : frame.Fresh name) (plain : ¬ held.IsToken)
    (value : Derivable frame (.expr e held))
    (proceeds : Advances call turns frame [.define name e] True (frame.bind name held))
    (derivable : Derivable (frame.bind name held) (.returns code kind))
    (rest : Arrives call turns (frame.bind name held) code kind) :
    Arrives call turns frame (.define name e :: code) kind := by
  refine .cons (.define fresh plain value derivable)
    fun before others mark marked same W₀ W image b j extends_ describes own ran => ?_
  rw [← List.singleton_append] at ran
  obtain ⟨i, ran, ranRest⟩ := execBlock_append_normal ran
  obtain ⟨-, W₁, extends₁, leads, described, ownLater⟩ :=
    proceeds W₀ W image b i extends_ describes own ran
  obtain ⟨W', frame', midway⟩ :=
    rest before others mark marked same W₀ W₁ i b j extends₁ described ownLater ranRest
  exact ⟨W', frame', midway.after leads⟩

/-- A statement that does what others do, as the discipline tells of the arguments. -/
theorem Arrives.instead {block : List Stmt} (unmarked : isMark stmt = false)
    (same : ∀ {W : World} {image : Image} {b : Nat}, W.Describes image → W.Admits frame b →
      exec call turns b stmt image = execBlock call turns b block image)
    (rest : Arrives call turns frame (block ++ code) kind) :
    Arrives call turns frame (stmt :: code) kind := by
  intro before others mark marked shape W₀ W image b j extends_ describes own ran
  rw [← List.singleton_append] at shape
  obtain ⟨before, rfl, rfl⟩ := split_before shape fun member => by
    rw [List.mem_singleton.mp member, unmarked] at marked
    cases marked
  rw [List.singleton_append, execBlock_of_exec (same describes own.admits)] at ran
  exact rest _ others mark marked (List.append_assoc ..).symm W₀ W image b j extends_ describes own ran

end Middle

section Rules

/-- What a judgement comes to in the middle of a block. -/
def Judgement.Arrives (call : Caller) (turns : Nat) (frame : Frame) : Judgement → Prop
  | .expr _ _ => True
  | .returns code kind => Discipline.Arrives call turns frame code kind

theorem Derivable.arrives {judgement : Judgement} (caller : CallerSound call)
    (derivable : Derivable frame judgement) : judgement.Arrives call turns frame := by
  induction derivable with
  | effect value _ _ ih =>
      exact (BlockSound.proceeds_same
        (.effect (value.sound caller) (.reached trivial))).arrives (by simp [isMark]) fun (_ : True) => ih
  | define fresh plain value rest _ ih =>
      exact Arrives.define fresh plain value (BlockSound.proceeds_bind plain
        (.define fresh plain (value.sound caller) (.reached trivial))) rest ih
  | defineToken fresh token _ ih =>
      exact (Advances.defineToken fresh token).arrives (by simp [isMark]) fun (_ : True) => ih
  | declare fresh _ ih => exact (Advances.declare fresh).arrives (by simp [isMark]) fun (_ : True) => ih
  | settle fresh pending value _ _ ih =>
      exact (BlockSound.proceeds_bind id
        (.settle fresh pending (value.sound caller) (.reached trivial))).arrives
          (by simp [isMark, assignStmt]) fun (_ : True) => ih
  | defineFunctions distinct fresh holders params bodies _ _ ih =>
      exact (BlockSound.proceeds_bindAll (.alone (.defineFunctions distinct fresh holders
        (fun f member => ⟨params f member, bodies f member⟩) (.reached trivial)))).arrives
          (by simp [isMark, LocalFunction.code, propertiesCode, Expr.inPlace]) fun (_ : True) => ih
  | checkArgs known _ ih =>
      exact (BlockSound.proceeds_same (.checkArgs caller known fun holds => .reached holds)).arrives
        (by simp [isMark]) ih
  | checkArgsAtLeast known _ ih =>
      exact (BlockSound.proceeds_same
        (.checkArgsAtLeast caller known fun holds => .reached holds)).arrives (by simp [isMark]) ih
  | checkArgsAtMost known _ ih =>
      exact (BlockSound.proceeds_same
        (.checkArgsAtMost caller known (.reached trivial))).arrives (by simp [isMark]) fun (_ : True) => ih
  | supplyDefault known _ ih =>
      exact Arrives.instead rfl
        (fun describes admits => exec_supplyDefault describes admits known) ih
  | selectDefaults known supplied _ ih =>
      exact Arrives.instead rfl
        (fun describes admits => exec_selectMissing describes admits known supplied) ih
  | collectRest known first_pos freshHost freshIndex distinct _ ih =>
      exact (BlockSound.proceeds_bind id (.alone (.collectRest caller known first_pos freshHost
        freshIndex distinct (.reached trivial)))).arrives (by simp [isMark, Compiler.collectRest, Expr.nil])
          fun (_ : True) => ih
  | pairCheck known _ ih =>
      exact (BlockSound.proceeds_same (.pairCheck caller known fun holds => .reached holds)).arrives
        (by simp [isMark, Compiler.pairCheck]) ih
  | searchKey known first_pos paired freshHost freshIndex _ pendingHost pendingIndex constant
      flag_known fallback _ _ ih =>
      exact (BlockSound.proceeds_bind id (.alone (.searchKey known first_pos paired freshHost
        freshIndex pendingHost pendingIndex constant flag_known (fallback.sound caller)
          (.reached trivial)))).arrives (by simp [isMark, keyCode, scanPairs]) fun (_ : True) => ih
  | unknownKeys known first_pos paired freshIndex pendingIndex freshAllow _ constant allowKey _ ih =>
      exact (BlockSound.proceeds_same (.alone (.unknownKeys caller known first_pos paired
        freshIndex pendingIndex freshAllow constant allowKey (.reached trivial)))).arrives
          (by simp [isMark, unknownKeyCheck, scanPairs]) fun (_ : True) => ih
  | dispatch knownToken token_ne knownBranch branch_ne sections_datum _ _ ih =>
      exact (BlockSound.proceeds_same (.dispatch knownToken token_ne knownBranch branch_ne
        (fun part member e inside => (sections_datum part member e inside).sound caller)
        (.reached trivial))).arrives (by simp [isMark, tagbodyLoop]) fun (_ : True) => ih
  | ret value _ => exact Arrives.last (.ret value)
  | protect body cleanup _ _ => exact Arrives.last (.protect body cleanup)
  | raise handles known payload label _ _ => exact Arrives.last (.raise handles known payload label)
  | interceptValues handles within known name_ne own accepts block _ =>
      exact Arrives.last (.interceptValues handles within known name_ne own accepts block)
  | interceptPayload handles known name_ne own block _ =>
      exact Arrives.last (.interceptPayload handles known name_ne own block)
  | _ => trivial

/-- What derivable code of a binding tells of its parts: a value that is stored or added to another is
derivable, and variables are known. -/
def Frame.Unfolds (frame : Frame) : Expr → Prop
  | .bool _ => False
  | .ident name => ∃ kind, frame.kinds name = some kind
  | .assign (.ident name) _ => frame.kinds name = some .datum
  | .assign (.member _ _) e => ∃ kind, Derivable frame (.expr e kind)
  | .binary .add l r => Derivable frame (.expr l .datum) ∧ Derivable frame (.expr r .datum)
  | .call (.function [] code) [] =>
      (∃ kind, Derivable frame.inside (.returns code kind)) ∨
        ∃ value e, code = [.define "values" value, .ret e]
  | _ => True

/-- The same of statements: what comes behind those that keep a value or store one is derivable where
they are, what comes before a cleanup is, and what is returned. -/
def Judgement.Unfolds (frame : Frame) : Judgement → Prop
  | .expr code _ => frame.Unfolds code
  | .returns (.define name (.member place property) :: code) kind =>
      ∃ held, frame.Fresh name ∧ ¬ held.IsToken ∧
        Derivable frame (.expr (.member place property) held) ∧
        Derivable (frame.bind name held) (.returns code kind)
  | .returns (.effect (.assign (.member place property) e) :: code) kind =>
      (∃ held, Derivable frame (.expr (.assign (.member place property) e) held)) ∧
        Derivable frame (.returns code kind)
  | .returns [.guarded code .none _] kind => Derivable frame (.returns code kind)
  | .returns [.ret e] kind => Derivable frame (.expr e kind)
  | _ => True

theorem Frame.bindAll_nil (frame : Frame) (kind : Kind) : frame.bindAll [] kind = frame := by
  simp [Frame.bindAll]

/-- What is read of a slot may be `undefined`. -/
theorem Derivable.slot_within {place : Expr}
    (derivable : Derivable frame (.expr (.member place "value") kind)) :
    Kind.optional.Within kind := by
  generalize read : Judgement.expr (.member place "value") kind = judgement at derivable
  induction derivable generalizing kind with
  | widen within _ ih =>
      cases read
      exact fun W value has => within W value (ih rfl W value has)
  | acceptor accepts =>
      cases read
      rcases accepts with same | ⟨same, -⟩ <;> cases same
  | slotValue _ =>
      cases read
      exact .refl _
  | argumentsLength _ => exact absurd (Expr.member.inj (Judgement.expr.inj read).1).2 (by decide)
  | _ => cases read

theorem IsNamed.unfolds {callee : Expr} {args : List Expr} (named : IsNamed callee) :
    frame.Unfolds (.call callee args) := by
  cases callee with
  | function params body => exact absurd rfl (named params body)
  | _ => trivial

theorem Derivable.unfolds_effect (value : Derivable frame (.expr e held))
    (rest : Derivable frame (.returns code kind)) :
    Judgement.Unfolds frame (.returns (.effect e :: code) kind) := by
  cases e with
  | assign target _ =>
      cases target with
      | member _ _ => exact ⟨⟨_, value⟩, rest⟩
      | _ => trivial
  | _ => trivial

theorem Derivable.unfolds_arithmetic {op : BinaryOp} {l r : Expr}
    (left : Derivable frame (.expr l .datum)) (right : Derivable frame (.expr r .datum)) :
    frame.Unfolds (.binary op l r) := by
  cases op with
  | add => exact ⟨left, right⟩
  | _ => trivial

theorem Derivable.unfolds_define (fresh : frame.Fresh name) (plain : ¬ held.IsToken)
    (value : Derivable frame (.expr e held))
    (rest : Derivable (frame.bind name held) (.returns code kind)) :
    Judgement.Unfolds frame (.returns (.define name e :: code) kind) := by
  cases e with
  | member _ _ => exact ⟨held, fresh, plain, value, rest⟩
  | _ => trivial

/-- No functions are defined, or the first statement is none that is told of. -/
theorem Judgement.unfolds_functions (locals : List LocalFunction)
    (rest : Judgement.Unfolds (frame.bindAll (locals.map (·.host)) .datum) (.returns code kind)) :
    Judgement.Unfolds frame (.returns (locals.map (·.code) ++ code) kind) := by
  cases locals with
  | nil => exact Frame.bindAll_nil frame .datum ▸ rest
  | cons _ _ => trivial

theorem Derivable.unfolds {judgement : Judgement} (derivable : Derivable frame judgement) :
    judgement.Unfolds frame := by
  induction derivable with
  | ident known => exact ⟨_, known⟩
  | acceptor accepts =>
      rcases accepts with rfl | ⟨rfl, known⟩
      · trivial
      · exact ⟨_, known⟩
  | widen _ _ ih => exact ih
  | wrap body _ => exact .inl ⟨_, body⟩
  | bundle _ _ => exact .inr ⟨_, _, rfl⟩
  | call named => exact named.unfolds
  | deliver accepts => rcases accepts with rfl | ⟨rfl, -⟩ <;> trivial
  | arithmetic _ left right _ _ => exact left.unfolds_arithmetic right
  | assign known _ _ => exact known
  | assignSlot _ _ value _ _ => exact ⟨_, value⟩
  | assignProperty _ value _ _ => exact ⟨_, value⟩
  | ret value _ => exact value
  | effect value rest => exact value.unfolds_effect rest
  | define fresh plain value rest => exact value.unfolds_define fresh plain rest
  | defineFunctions _ _ _ _ _ _ _ ih => exact Judgement.unfolds_functions _ ih
  | protect body _ _ _ => exact body
  | _ => trivial

end Rules

end LispScript.Discipline
