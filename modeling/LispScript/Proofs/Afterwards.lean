import LispScript.Proofs.QuotedData
import LispScript.Proofs.Spreading

/-!
The machine after a unit has run. What the unit made may be used by whatever runs later: its literals
keep their values, and its functions are still there.
-/

namespace LispScript

open Script Compiler Machine Discipline

variable {i j k : Image} {c : Nat} {spared : String → Prop} {s last : CompileState}
  {form : Value} {program : Program} {entries : List Hoisted} {expr : Expr} {depth turns : Nat}
  {made : LiteralKey → Value}

/-- What may have happened since there was an image: functions were called and forms were compiled and
run, and between these there were changes that have nothing to do with variables. -/
inductive Machine.ComesAfter (i : Image) : Image → Prop where
  | refl : ComesAfter i i
  | quiet {j k : Image} (follows : ComesAfter i j) (quiet : Quiet j k) : ComesAfter i k
  | call {j : Image} (follows : ComesAfter i j) (function : Value) (args : List Value) :
      ComesAfter i (imageOf (Machine.call function args j))
  | run {j : Image} {s u : CompileState} {form : Value} {depth : Nat} {program : Program}
      (follows : ComesAfter i j) (standing : Standing .toplevel s)
      (compiled : compileToplevel (compileWithin depth) form s = .ok program u) :
      ComesAfter i (imageOf (Machine.run program j))

/-- A unit starts with no literals and with its own names. -/
theorem sparing_startUnit (sparing : Sparing (· = "values") s) : Sparing (· = "values") (startUnit s) where
  ordered := sparing.ordered
  globals := sparing.globals
  literals := rfl
  values := rfl
  spent _ same := .inl (same ▸ values_reserved)
  bounded := ⟨sparing.bounded.vars, sparing.bounded.literals, sparing.bounded.blocks,
    sparing.bounded.tagbodies⟩

theorem Machine.ComesAfter.adds (follows : Machine.ComesAfter i j) : Adds i j := by
  induction follows with
  | refl => exact .refl i
  | quiet _ quiet ih => exact ih.trans quiet.adds
  | call _ function args ih => exact ih.trans (callWithin_adds ampleSteps function args _)
  | run _ _ _ ih => exact ih.trans (reaches_run _ _ _ .adds)

/-- The variables of a scope that are watched stay as they are. -/
theorem Machine.ComesAfter.steady (follows : Machine.ComesAfter i j) (valid : Valid (around c spared) i)
    (inner : 0 < c) : Steady (around c spared) i j := by
  induction follows with
  | refl => exact .refl valid
  | quiet _ quiet ih => exact ih.trans (quiet.steady ih.valid)
  | call _ function args ih =>
      exact ih.trans (callWithin_steady ampleSteps _ function args _ ih.valid)
  | run _ standing compiled ih =>
      -- A program stands at the global scope, of which acceptors are all that is watched.
      have free := Spares.held (compileToplevel_spares (compileWithin_spares _) _) standing.sparing compiled
      have clear : "values" ∉ Stmt.assignedAll _ := fun member => free _ member rfl
      obtain ⟨expr, last, -, rfl⟩ := compileToplevel_ok compiled
      refine ih.trans (runStatements_steady _ _ _ ⟨ih.valid, ih.ordered.global, clear, ?_⟩ ?_)
      · rintro b name (⟨-, rfl⟩ | ⟨rfl, -⟩) sees
        · exact clear
        · exact absurd (sees.le ih.ordered) (Nat.not_le.mpr inner)
      · intro b name _ _ member
        simp [unitProgram, Stmt.declaredAll, Stmt.declared] at member

/-- What is left of the run of a unit: its literals are in the reach of its functions. -/
structure AfterUnit (last : CompileState) (made : LiteralKey → Value) (c : Nat) (k : Image) : Prop where
  ordered : Ordered k.heap
  bound : c < k.heap.scopes.size
  literals : HoldsLiterals last made k c

theorem UnitRuns.afterwards (runs : UnitRuns turns program entries expr i made j)
    (unit : IsUnit program last entries expr) (ordered : Ordered i.heap)
    (follows : Machine.ComesAfter (imageOf (runWithin (turns + 1) program i)) k) :
    AfterUnit last made i.heap.scopes.size k := by
  have steady := runs.keeps.trans (follows.steady runs.keeps.valid ordered.global)
  have active := runs.head.prepares.active (unitImage_active ordered)
  have bound := Nat.lt_of_lt_of_le active.bound steady.scopes
  refine ⟨steady.ordered, bound, fun key name named => ?_, runs.head.symbol, runs.head.character⟩
  obtain ⟨entry, member, rfl, rfl⟩ := (unit.tabled.names key name).mp named
  refine k.heap.lookup_own bound ?_
  have kept := steady.kept i.heap.scopes.size entry.name (.inr ⟨rfl, .inr ⟨entry.number, rfl⟩⟩)
  exact kept.trans (runs.head.held entry member)

end LispScript
