import LispScript.Proofs.Objects

/-!
How a run of disciplined code can end: with a value of the promised kind, with the signal of an exit,
or with a failure that is not the host's. Whichever it is, the image is described again, and a signal
that was raised did not get lost: unless it ends the run, the handler of its own block took it in.
-/

namespace LispScript.Discipline

open Script Machine

/-- The handler of a block, whose scope holds the signal, was opened by the activation that the
signal is for. -/
structure Receives (W : World) (image : Image) (a handler owner token : Nat) (name : String) :
    Prop where
  inner : ∃ layout : Layout, W.scopes[handler]? = some layout ∧ layout "cf" = some .signal
  signal : (image.heap.scope handler).vars["cf"]? = some (.transfer a)
  parent : (image.heap.scope handler).parent = some owner
  outer : ∃ (layout : Layout) (manyValues : Bool), W.scopes[owner]? = some layout ∧
    layout name = some (.block manyValues)
  held : (image.heap.scope owner).vars[name]? = some (.vector token)
  known : a < W.transfers
  target : (image.heap.transfer a).target = .vector token

/-- A block that was entered since an earlier world took in a signal. -/
def Received (W₀ W : World) (image : Image) (a : Nat) : Prop :=
  ∃ handler owner token name, Receives W image a handler owner token name ∧
    W₀.scopes.length ≤ owner ∧ W₀.vectors.length ≤ token

/-- The last signal for a block that was raised since there were `count` signals was received, if
there is one. -/
def Settled (count : Nat) (W₀ W : World) (image : Image) : Prop :=
  ∀ a, count ≤ a → a + 1 = W.transfers → (image.heap.transfer a).kind = .block →
    Received W₀ W image a

/-- A failure that programs of the language can come to: not a fault of the host, nor a value that was
thrown for the host to receive. -/
def IsLanguageError : RuntimeError → Prop
  | .host _ | .uncaught _ => False
  | _ => True

/-- How a run from a described image ends. What it may have received is counted from the world
`W₀`, which knows none of the scopes that the code may extend. -/
inductive Ends (W₀ W : World) (image : Image) (good : World → α → Prop) :
    EStateM.Result Interrupt Image α → Prop where
  | ok (W' : World) (extends_ : W₀.Extends W') (leads : Leads W image W' later)
      (describes : W'.Describes later) (settled : Settled W.transfers W₀ W' later)
      (held : good W' a) : Ends W₀ W image good (.ok a later)
  | thrown (W' : World) (extends_ : W₀.Extends W') (leads : Leads W image W' later)
      (describes : W'.Describes later) (fresh : W.transfers ≤ address)
      (signal : address < W'.transfers)
      (settled : address + 1 = W'.transfers ∨ Settled W.transfers W₀ W' later) :
      Ends W₀ W image good (.error (.thrown (.transfer address)) later)
  | failed (W' : World) (extends_ : W₀.Extends W') (leads : Leads W image W' later)
      (describes : W'.Describes later) (isLanguage : IsLanguageError error) :
      Ends W₀ W image good (.error (.failed error) later)
  | outOfSteps (W' : World) (extends_ : W₀.Extends W') (leads : Leads W image W' later)
      (describes : W'.Describes later) : Ends W₀ W image good (.error .outOfSteps later)

/-- A run that leaves the scopes as they are. -/
abbrev Safe (W : World) (image : Image) (run : Run α) (good : World → α → Prop) : Prop :=
  Ends W W image good (run image)

section Ends

variable {W₀ W₁ W W' : World} {image later : Image} {good : World → α → Prop}
  {result : EStateM.Result Interrupt Image α} {run : Run α}

theorem Received.follows {a : Nat} (received : Received W₀ W image a)
    (leads : Leads W image W' later) :
    Received W₀ W' later a := by
  obtain ⟨handler, owner, token, name, receives, scopes, vectors⟩ := received
  obtain ⟨inner, foundInner, cf⟩ := receives.inner
  obtain ⟨outer, manyValues, foundOuter, block⟩ := receives.outer
  have keptInner := leads.kept handler inner foundInner
  have keptOuter := leads.kept owner outer foundOuter
  obtain ⟨inner', foundInner', includedInner⟩ := leads.grows.scopes handler inner foundInner
  obtain ⟨outer', foundOuter', includedOuter⟩ := leads.grows.scopes owner outer foundOuter
  refine ⟨handler, owner, token, name, ⟨⟨inner', foundInner', includedInner _ _ cf⟩, ?_, ?_,
    ⟨outer', manyValues, foundOuter', includedOuter _ _ block⟩, ?_, ?_, ?_⟩, scopes, vectors⟩
  · exact (keptInner.fixed "cf" .signal cf trivial).trans receives.signal
  · exact keptInner.parent.trans receives.parent
  · exact (keptOuter.fixed name (.block manyValues) block trivial).trans receives.held
  · exact Nat.lt_of_lt_of_le receives.known leads.grows.transfers
  · rw [leads.transfers a receives.known]
    exact receives.target

/-- What was received since a later world was received since an earlier one. -/
theorem Received.since {a : Nat} (received : Received W₁ W image a) (extends_ : W₀.Extends W₁) :
    Received W₀ W image a := by
  obtain ⟨handler, owner, token, name, receives, scopes, vectors⟩ := received
  exact ⟨handler, owner, token, name, receives,
    Nat.le_trans extends_.scopes.length_le scopes,
    Nat.le_trans extends_.vectors.length_le vectors⟩

/-- Where no signal was raised there is none to receive. -/
theorem Settled.of_same (same : W'.transfers = W.transfers) :
    Settled W.transfers W₀ W' later := by
  intro a low last
  omega

theorem Settled.since {count : Nat} (settled : Settled count W₁ W image)
    (extends_ : W₀.Extends W₁) :
    Settled count W₀ W image :=
  fun a low last kind => (settled a low last kind).since extends_

/-- A run with a part before it that raised no signal or had it received. -/
theorem Settled.after {count : Nat} (first : Settled count W₀ W image)
    (leads : Leads W image W' later) (second : Settled W.transfers W₀ W' later) :
    Settled count W₀ W' later := by
  intro a low last kind
  by_cases new : W.transfers ≤ a
  · exact second a new last kind
  · have grown := leads.grows.transfers
    have same : later.heap.transfer a = image.heap.transfer a := leads.transfers a (by omega)
    rw [same] at kind
    exact (first a low (by omega) kind).follows leads

/-- A result that promises more. -/
theorem Ends.mono {wider : World → α → Prop} (ends : Ends W₀ W image good result)
    (included : ∀ W' a, good W' a → wider W' a) :
    Ends W₀ W image wider result := by
  cases ends with
  | ok W' extends_ leads describes settled good =>
      exact .ok W' extends_ leads describes settled (included W' _ good)
  | thrown W' extends_ leads describes fresh signal settled =>
      exact .thrown W' extends_ leads describes fresh signal settled
  | failed W' extends_ leads describes isLanguage =>
      exact .failed W' extends_ leads describes isLanguage
  | outOfSteps W' extends_ leads describes => exact .outOfSteps W' extends_ leads describes

/-- The start of the count can be put earlier. -/
theorem Ends.since (ends : Ends W₁ W image good result) (extends_ : W₀.Extends W₁) :
    Ends W₀ W image good result := by
  cases ends with
  | ok W' extended leads describes settled good =>
      exact .ok W' (extends_.trans extended) leads describes (settled.since extends_) good
  | thrown W' extended leads describes fresh signal settled =>
      exact .thrown W' (extends_.trans extended) leads describes fresh signal
        (settled.imp_right (·.since extends_))
  | failed W' extended leads describes isLanguage =>
      exact .failed W' (extends_.trans extended) leads describes isLanguage
  | outOfSteps W' extended leads describes =>
      exact .outOfSteps W' (extends_.trans extended) leads describes

/-- A run with a part before it. -/
theorem Ends.after (first : Settled W.transfers W₀ W₁ image₁) (leads : Leads W image W₁ image₁)
    (ends : Ends W₀ W₁ image₁ good result) :
    Ends W₀ W image good result := by
  cases ends with
  | ok W' extends_ further describes settled good =>
      exact .ok W' extends_ (leads.trans further) describes (first.after further settled) good
  | thrown W' extends_ further describes fresh signal settled =>
      exact .thrown W' extends_ (leads.trans further) describes
        (Nat.le_trans leads.grows.transfers fresh) signal (settled.imp_right (first.after further))
  | failed W' extends_ further describes isLanguage =>
      exact .failed W' extends_ (leads.trans further) describes isLanguage
  | outOfSteps W' extends_ further describes =>
      exact .outOfSteps W' extends_ (leads.trans further) describes

/-- A step before a run that raises no signal. -/
theorem Ends.step (leads : Leads W image W₁ image₁) (same : W₁.transfers = W.transfers)
    (ends : Ends W₀ W₁ image₁ good result) :
    Ends W₀ W image good result :=
  Ends.after (Settled.of_same same) leads ends

theorem Ends.bind {x : Run α} {f : α → Run β} {good' : World → β → Prop}
    (first : Ends W₀ W image good (x image))
    (rest : ∀ W' later a, W₀.Extends W' → Leads W image W' later → W'.Describes later →
      good W' a → Ends W₀ W' later good' (f a later)) :
    Ends W₀ W image good' ((x >>= f) image) := by
  change Ends W₀ W image good' (EStateM.bind x f image)
  rw [EStateM.bind]
  cases run_eq : x image with
  | ok a later =>
      rw [run_eq] at first
      cases first with
      | ok W' extends_ leads describes settled good =>
          exact Ends.after settled leads (rest W' later a extends_ leads describes good)
  | error interrupt later =>
      rw [run_eq] at first
      cases first with
      | thrown W' extends_ leads describes fresh signal settled =>
          exact .thrown W' extends_ leads describes fresh signal settled
      | failed W' extends_ leads describes isLanguage =>
          exact .failed W' extends_ leads describes isLanguage
      | outOfSteps W' extends_ leads describes => exact .outOfSteps W' extends_ leads describes

/-- A run whose first part leaves the scopes as they are. -/
theorem Safe.bindInto {x : Run α} {f : α → Run β} {good' : World → β → Prop}
    (extends_ : W₀.Extends W) (first : Safe W image x good)
    (rest : ∀ W' later a, Follows W image W' later → W'.Describes later → good W' a →
      Ends W₀ W' later good' (f a later)) :
    Ends W₀ W image good' ((x >>= f) image) := by
  have strong : Ends W₀ W image (fun W' a => W.Extends W' ∧ good W' a) (x image) := by
    cases run_eq : x image with
    | ok a later =>
        rw [Safe, run_eq] at first
        cases first with
        | ok W' extended leads describes settled good =>
            exact .ok W' (extends_.trans extended) leads describes (settled.since extends_)
              ⟨extended, good⟩
    | error interrupt later =>
        rw [Safe, run_eq] at first
        refine Ends.since ?_ extends_
        cases first with
        | thrown W' extended leads describes fresh signal settled =>
            exact .thrown W' extended leads describes fresh signal settled
        | failed W' extended leads describes isLanguage =>
            exact .failed W' extended leads describes isLanguage
        | outOfSteps W' extended leads describes =>
            exact .outOfSteps W' extended leads describes
  exact strong.bind fun W' later a _ leads describes held =>
    rest W' later a ⟨held.1, leads⟩ describes held.2

theorem Safe.bind {x : Run α} {f : α → Run β} {good' : World → β → Prop}
    (first : Safe W image x good)
    (rest : ∀ W' later a, Follows W image W' later → W'.Describes later → good W' a →
      Safe W' later (f a) good') :
    Safe W image (x >>= f) good' :=
  Safe.bindInto (World.Extends.refl W) first fun W' later a follows describes held =>
    Ends.since (rest W' later a follows describes held) follows.extends_

/-- A value at hand. -/
theorem Safe.gives (describes : W.Describes image) (held : good W a) :
    Safe W image (pure a) good :=
  .ok W (World.Extends.refl W) (Leads.refl W image) describes (Settled.of_same rfl) held

/-- A step that raises no signal. -/
theorem Safe.done (follows : Follows W image W' later) (describes : W'.Describes later)
    (same : W'.transfers = W.transfers) (held : good W' a) :
    Ends W W image good (.ok a later) :=
  .ok W' follows.extends_ follows.leads describes (Settled.of_same same) held

theorem Safe.fail (describes : W.Describes image) {error : RuntimeError}
    (isLanguage : IsLanguageError error) :
    Safe W image (Run.fail error) good :=
  .failed W (World.Extends.refl W) (Leads.refl W image) describes isLanguage

theorem Safe.typeError (describes : W.Describes image) (value : Value) (expected : String) :
    Safe W image (Run.typeError value expected) good :=
  .failed W (World.Extends.refl W) (Leads.refl W image) describes trivial

theorem Safe.typeError_bind {f : β → Run α} (describes : W.Describes image) (value : Value)
    (expected : String) :
    Safe W image (Run.typeError value expected >>= f) good :=
  .failed W (World.Extends.refl W) (Leads.refl W image) describes trivial

theorem Safe.exhausted (describes : W.Describes image) :
    Safe W image (throw .outOfSteps) good :=
  .outOfSteps W (World.Extends.refl W) (Leads.refl W image) describes

theorem Safe.mono {wider : World → α → Prop} (safe : Safe W image run good)
    (included : ∀ W' a, good W' a → wider W' a) :
    Safe W image run wider :=
  Ends.mono safe included

/-- The value of a run that is promised to be of a kind is of a wider one. -/
theorem Ends.widen {kind wider : Kind} {result : EStateM.Result Interrupt Image Value}
    (ends : Ends W₀ W image (fun W' => W'.Has kind) result) (within : kind.Within wider) :
    Ends W₀ W image (fun W' => W'.Has wider) result :=
  ends.mono fun W' value => within W' value

end Ends

end LispScript.Discipline
