import LispScript.Proofs.Keywords

/-!
The discipline is sound: code that its rules admit runs as they tell, whatever it calls.
-/

namespace LispScript.Discipline

open Script Machine

variable {call : Caller} {turns : Nat} {frame : Frame} {W W' : World} {image later : Image}
  {judgement : Judgement}

/-- What a judgement comes to where functions are called in a given way. -/
def Judgement.Sound (call : Caller) (turns : Nat) (frame : Frame) : Judgement → Prop
  | .expr code kind => ExprSound call turns frame code kind
  | .returns code kind => StmtSound call turns frame code kind

/-- Each rule holds of the machine. -/
theorem Derivable.sound (caller : CallerSound call) (derivable : Derivable frame judgement) :
    judgement.Sound call turns frame := by
  induction derivable with
  | number => exact ExprSound.number
  | string => exact ExprSound.string
  | nil => exact ExprSound.nil
  | t => exact ExprSound.t
  | ident known => exact ExprSound.ident known
  | acceptor accepts => exact ExprSound.acceptor accepts
  | widen within _ ih => exact ExprSound.widen within ih
  | call named accepts _ _ ihFunction ihArguments =>
      exact ExprSound.callValue caller named accepts ihFunction ihArguments
  | callLiteral accepts params _ _ ihBody ihArguments =>
      exact ExprSound.callLiteral accepts params ihBody ihArguments
  | function params body _ => exact ExprSound.function ⟨params, body⟩
  | deliver accepts _ ihArguments => exact ExprSound.deliver caller accepts ihArguments
  | wrap _ ih => exact ExprSound.wrap ih
  | inPlace name_ne plain values _ _ ihValue ihBody =>
      exact ExprSound.inPlace name_ne plain values ihValue ihBody
  | bundle _ ih => exact ExprSound.bundle ih
  | arithmetic mem _ _ ihLeft ihRight => exact ExprSound.arithmetic mem ihLeft ihRight
  | negate _ ih => exact ExprSound.negate ih
  | choose mem _ _ _ _ ihLeft ihRight ihYes ihNo =>
      exact ExprSound.choose mem ihLeft ihRight ihYes ihNo
  | primitive plain _ ih => exact ExprSound.primitive caller plain ih
  | primitiveValues takes accepts _ ih => exact ExprSound.primitiveValues caller takes accepts ih
  | multipleValueCall _ _ ihFunction ihArguments =>
      exact ExprSound.multipleValueCall caller ihFunction ihArguments
  | collect accepts => exact ExprSound.collect accepts
  | appendValues _ _ ihArguments ihValues => exact ExprSound.appendValues caller ihArguments ihValues
  | assign known _ ih => exact ExprSound.assign known ih
  | assignSlot within _ _ ihPlace ihValue => exact ExprSound.assignSlot within ihPlace ihValue
  | assignProperty _ _ ihObject ihValue => exact ExprSound.assignProperty ihObject ihValue
  | slotValue _ ih => exact ExprSound.slotValue ih
  | argumentsLength known => exact ExprSound.argumentsLength known
  | comma _ _ ihEffects ihLast => exact ExprSound.comma ihEffects ihLast
  | internSymbol package => exact ExprSound.internSymbol caller package
  | uninternedSymbol => exact ExprSound.uninternedSymbol caller
  | character => exact ExprSound.character caller
  | ret _ ih => exact StmtSound.ret ih
  | effect _ _ ihValue ihRest => exact BlockSound.effect ihValue ihRest
  | define fresh plain _ _ ihValue ihRest => exact BlockSound.define fresh plain ihValue ihRest
  | defineToken fresh token _ ih => exact BlockSound.defineToken fresh token ih
  | declare fresh _ ih => exact BlockSound.declare fresh ih
  | settle fresh pending _ _ ihValue ihRest => exact BlockSound.settle fresh pending ihValue ihRest
  | defineFunctions distinct fresh holders params bodies _ _ ihRest =>
      exact BlockSound.defineFunctions distinct fresh holders
        (fun f member => ⟨params f member, bodies f member⟩) ihRest
  | checkArgs known _ ih => exact BlockSound.checkArgs caller known ih
  | checkArgsAtLeast known _ ih => exact BlockSound.checkArgsAtLeast caller known ih
  | checkArgsAtMost known _ ih => exact BlockSound.checkArgsAtMost caller known ih
  | supplyDefault known _ ih => exact BlockSound.supplyDefault known ih
  | selectDefaults known supplied _ ih => exact BlockSound.selectDefaults known supplied ih
  | collectRest known first_pos freshHost freshIndex distinct _ ih =>
      exact BlockSound.collectRest caller known first_pos freshHost freshIndex distinct ih
  | pairCheck known _ ih => exact BlockSound.pairCheck caller known ih
  | searchKey known first_pos paired freshHost freshIndex _ pendingHost pendingIndex constant
      flag_known _ _ ihDefault ihRest =>
      exact BlockSound.searchKey known first_pos paired freshHost freshIndex pendingHost pendingIndex
        constant flag_known ihDefault ihRest
  | unknownKeys known first_pos paired freshIndex pendingIndex freshAllow _ constant allowKey _ ih =>
      exact BlockSound.unknownKeys caller known first_pos paired freshIndex pendingIndex freshAllow
        constant allowKey ih
  | protect _ _ ihBody ihCleanup => exact StmtSound.protect ihBody ihCleanup
  | raise handles known _ _ ihPayload ihLabel =>
      exact StmtSound.raise caller handles known ihPayload ihLabel
  | interceptValues handles within known name_ne own accepts _ ih =>
      exact StmtSound.interceptValues caller handles within known name_ne own accepts ih
  | interceptPayload handles known name_ne own _ ih =>
      exact StmtSound.interceptPayload handles known name_ne own ih
  | dispatch knownToken token_ne knownBranch branch_ne _ _ ihSections ihRest =>
      exact BlockSound.dispatch knownToken token_ne knownBranch branch_ne ihSections ihRest

section Calling

/-- The image at another depth of calls. -/
def Image.atDepth (image : Image) (depth : Nat) : Image := { image with depth := depth }

theorem World.DescribesBut.atDepth {owed : Address → Prop} (describes : W.DescribesBut owed image)
    (depth : Nat) :
    W.DescribesBut owed (Image.atDepth image depth) :=
  { describes with }

theorem Leads.atDepth {depth : Nat} (leads : Leads W (Image.atDepth image depth) W' later)
    (depth' : Nat) :
    Leads W image W' (Image.atDepth later depth') :=
  ⟨leads.grows, leads.kept, leads.transfers⟩

theorem Settled.atDepth {W₀ : World} {count : Nat} (settled : Settled count W₀ W later)
    (depth : Nat) :
    Settled count W₀ W (Image.atDepth later depth) := by
  intro a low last kind
  obtain ⟨handler, owner, token, name, receives, scopes, vectors⟩ := settled a low last kind
  exact ⟨handler, owner, token, name, ⟨receives.inner, receives.signal, receives.parent,
    receives.outer, receives.held, receives.known, receives.target⟩, scopes, vectors⟩

/-- Calls are counted without any effect on what they do. -/
theorem Safe.counted {run : Run α} {good : World → α → Prop} (describes : W.Describes image)
    (safe : Safe W (Image.atDepth image (image.depth + 1)) run good) :
    Safe W image (counted run) good := by
  change Ends W W image good (Machine.counted run image)
  rw [Machine.counted]
  split
  · cases run_eq : run { image with depth := image.depth + 1 } with
    | ok a later =>
        rw [Safe, Image.atDepth, run_eq] at safe
        cases safe with
        | ok W' extends_ leads described settled held =>
            exact .ok W' extends_ (leads.atDepth _) (described.atDepth _) (settled.atDepth _) held
    | error interrupt later =>
        rw [Safe, Image.atDepth, run_eq] at safe
        cases safe with
        | thrown W' extends_ leads described fresh signal settled =>
            exact .thrown W' extends_ (leads.atDepth _) (described.atDepth _) fresh signal
              (settled.imp_right (·.atDepth _))
        | failed W' extends_ leads described isLanguage =>
            exact .failed W' extends_ (leads.atDepth _) (described.atDepth _) isLanguage
        | outOfSteps W' extends_ leads described =>
            exact .outOfSteps W' extends_ (leads.atDepth _) (described.atDepth _)
  · exact .failed W (World.Extends.refl W) (Leads.refl W image) describes trivial

/-- The function of a support routine. -/
theorem World.DescribesBut.native_callable {owed : Address → Prop}
    (describes : W.DescribesBut owed image) (n : Native) :
    (image.heap.function (Image.nativeAddress n)).callable = .native n :=
  describes.functions.natives n

section Callee

variable {steps : Nat} {manyValues : Bool} {function : Value} {args values : List Value}

/-- A call of a function of the language. -/
theorem Safe.callDatum (caller : CallerSound (callWithin steps)) (describes : W.Describes image)
    (datum : W.Datum function) (data : W.Data args) :
    Gives W image (callWithin (steps + 1) function (acceptorValue manyValues :: args))
      (.result manyValues) := by
  cases function with
  | function address =>
      have ok : W.CallableOk (image.heap.function address).callable :=
        describes.functions.callables address datum.1 (describes.functionCount ▸ datum.2) id
      change Ends W W image _ (callWithin (steps + 1) (.function address) _ image)
      rw [callWithin_function]
      cases callable : (image.heap.function address).callable with
      | closure params body scope =>
          rw [callable] at ok
          obtain ⟨frame, hosts, rfl, isBody, admits⟩ := ok
          refine Safe.counted describes ?_
          exact Safe.enter (describes.atDepth _) admits isBody.1 data
            fun count positive short => (isBody.2 manyValues count positive short).sound caller
      | native n =>
          rw [callable] at ok
          exact ok.elim
      | primitive p => exact Safe.callPrimitive caller.toCallSound p describes data
  | _ => exact Safe.described (Safe.fail describes trivial)

/-- A call of an acceptor. -/
theorem Safe.callAcceptor (describes : W.Describes image) (data : W.Data values) :
    Gives W image (callWithin (steps + 1) (acceptorValue manyValues) values)
      (.result manyValues) := by
  change Ends W W image _ (callWithin (steps + 1) (.function _) values image)
  rw [callWithin_function, describes.native_callable]
  cases manyValues with
  | true => exact Safe.packValues describes data
  | false =>
      refine Safe.gives describes ?_
      cases values with
      | nil => exact trivial
      | cons value rest => exact data value List.mem_cons_self

end Callee

/-- However many steps a call may take, it keeps to the discipline. -/
theorem callWithin_sound (steps : Nat) : CallerSound (callWithin steps) := by
  induction steps with
  | zero =>
      refine ⟨⟨fun W image _ _ _ describes _ _ => ?_, fun W image _ _ describes _ => ?_⟩,
        fun W image n args _ => .inl ?_⟩
      · exact Safe.exhausted describes
      · exact Safe.exhausted describes
      · rfl
  | succ steps ih =>
      refine ⟨⟨fun W image manyValues function args describes datum data =>
          Safe.callDatum ih describes datum data,
        fun W image manyValues values describes data => Safe.callAcceptor describes data⟩,
        fun W image n args describes => .inr ⟨callWithin steps, ih.toCallSound, ?_⟩⟩
      rw [callWithin_function, describes.native_callable]

end Calling

section Programs

/-- The frame of the scope around all programs. -/
def Frame.global : Frame := { kinds := fun _ => none }

theorem World.admits_global (W : World) (some_ : W.scopes ≠ []) :
    W.Admits Frame.global Image.globalScope := by
  cases scopes : W.scopes with
  | nil => exact absurd scopes some_
  | cons layout rest => exact ⟨layout, by rw [scopes]; rfl, nofun⟩

/-- A program of one expression. -/
theorem Safe.runWithin {e : Script.Expr} {kind : Kind} (steps : Nat) (describes : W.Describes image)
    (some_ : W.scopes ≠ []) (derivable : Derivable Frame.global (.expr e kind)) :
    Gives W image (Machine.runWithin steps ⟨[.effect e]⟩) kind := by
  have sound : ExprSound (callWithin steps) steps Frame.global e kind :=
    derivable.sound (callWithin_sound steps)
  rw [Machine.runWithin, runStatements]
  refine (sound W image Image.globalScope describes (W.admits_global some_)).bind
    fun W' later value _ described has => ?_
  rw [runStatements]
  exact Safe.gives described has

end Programs

end LispScript.Discipline
