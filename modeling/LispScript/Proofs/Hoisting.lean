import Mathlib.Logic.Relation
import LispScript.Proofs.Copies
import LispScript.Proofs.FormEffects

/-!
The literals of a unit. Each is made once, from literals that were made before it, and from then on
known by one name. So the initializers at the head of a unit stand in an order in which they can be
run, and an object that is met again, in the same literal or in another one of the unit, is referred
to by the name that it has.
-/

namespace LispScript

/-- The values that stand in a cons or vector. -/
def Heap.parts (heap : Heap) : Value → List Value
  | .cons address => [(heap.cell address).car, (heap.cell address).cdr]
  | .vector address => (heap.vector address).toList
  | _ => []

namespace Compiler

open Script Machine Discipline

/-- What the literals of a unit know a value by. Some values are written where they are needed. -/
def literalKey? : Value → Option LiteralKey
  | .symbol id => if id = SymbolId.nil ∨ id = SymbolId.t then none else some (.symbol id)
  | .character c => some (.character c)
  | .cons address => some (.cons address)
  | .vector address => some (.vector address)
  | _ => none

/-- The value that is known by a key. -/
def LiteralKey.datum : LiteralKey → Value
  | symbol id => .symbol id
  | character c => .character c
  | cons address => .cons address
  | vector address => .vector address

/-- The code of a value that is written where it is needed. -/
def writtenCode? : Value → Option Expr
  | .nil => some .nil
  | .number n => some (.number n)
  | .string _ text => some (.string text)
  | .symbol id =>
      if id = SymbolId.nil then some .nil else if id = SymbolId.t then some .t else none
  | _ => none

/-- A literal of a unit: what it is known by, the number in its name, the code that makes it, and the
image as it was then. -/
structure Hoisted where
  key : LiteralKey
  number : Nat
  code : Expr
  image : Image

namespace Hoisted

def name (entry : Hoisted) : String := literalName entry.number

def stmt (entry : Hoisted) : Stmt := .define entry.name entry.code

/-- What stood in the cons or vector when the literal was made. -/
def parts (entry : Hoisted) : List Value := entry.image.heap.parts entry.key.datum

end Hoisted

/-- Code that gives a value where the literals are known by their names. -/
inductive Denotes (entries : List Hoisted) (datum : Value) : Expr → Prop where
  | named (member : entry ∈ entries) (key : literalKey? datum = some entry.key) :
      Denotes entries datum (.ident entry.name)
  | written (code : writtenCode? datum = some expr) : Denotes entries datum expr

/-- The code that makes a literal refers to those before it. -/
def Makes (entries : List Hoisted) (entry : Hoisted) : Prop :=
  match entry.key with
  | .symbol id => id ≠ SymbolId.nil ∧ entry.code = symbolInitializer entry.image.symbols id
  | .character c => entry.code = .callRoutine .character [.number (Float.ofNat c.toNat)]
  | .cons _ => ∃ codes, List.Forall₂ (Denotes entries) entry.parts codes ∧
      entry.code = .callPrimitive .cons codes
  | .vector _ => ∃ codes, List.Forall₂ (Denotes entries) entry.parts codes ∧
      entry.code = .callPrimitive .vector codes

/-- Literals in the order in which they were made. -/
inductive InOrder : List Hoisted → Prop where
  | nil : InOrder []
  | snoc (before : InOrder entries) (later : ∀ other ∈ entries, other.number < entry.number)
      (new : ∀ other ∈ entries, other.key ≠ entry.key) (makes : Makes entries entry) :
      InOrder (entries ++ [entry])

/-- The literals that a unit has so far. -/
structure Tabled (s : CompileState) (entries : List Hoisted) : Prop where
  inOrder : InOrder entries
  initializers : s.literals.initializers.toList = entries.map Hoisted.stmt
  names : ∀ key name, s.literals.names[LiteralKey.code key]? = some name ↔
    ∃ entry ∈ entries, entry.key = key ∧ entry.name = name
  counted : ∀ entry ∈ entries, entry.number ≤ s.counters.literals
  bounded : s.counters.literals ≤ Number.wordLimit

variable {entries more others : List Hoisted} {entry : Hoisted} {datum : Value} {key : LiteralKey}
  {s s' t : CompileState} {code : Expr}

section Keys

theorem LiteralKey.datum_inj {other : LiteralKey} (same : key.datum = other.datum) : key = other := by
  cases key <;> cases other <;> cases same <;> rfl

theorem Denotes.mono (denotes : Denotes entries datum code) (within : entries ⊆ others) :
    Denotes others datum code := by
  cases denotes with
  | named member key => exact .named (within member) key
  | written code => exact .written code

theorem denotes_all_mono {data : List Value} {codes : List Expr}
    (denote : List.Forall₂ (Denotes entries) data codes) (within : entries ⊆ others) :
    List.Forall₂ (Denotes others) data codes :=
  denote.imp fun _ _ denotes => denotes.mono within

theorem Makes.mono (makes : Makes entries entry) (within : entries ⊆ others) :
    Makes others entry := by
  obtain ⟨key, number, code, image⟩ := entry
  cases key with
  | symbol | character => exact makes
  | cons | vector =>
      obtain ⟨codes, denote, same⟩ := makes
      exact ⟨codes, denotes_all_mono denote within, same⟩

theorem InOrder.makes (inOrder : InOrder entries) (member : entry ∈ entries) :
    Makes entries entry := by
  induction inOrder with
  | nil => cases member
  | snoc before later new makes ih =>
      rcases List.mem_append.mp member with old | last
      · exact (ih old).mono (List.subset_append_left _ _)
      · rw [List.mem_singleton.mp last]
        exact makes.mono (List.subset_append_left _ _)

theorem tabled_empty (bounded : s.counters.literals ≤ Number.wordLimit) :
    Tabled { s with literals := {} } [] where
  inOrder := .nil
  initializers := rfl
  names key name := by
    refine ⟨fun found => ?_, by simp⟩
    change (({} : Std.TreeMap Nat String compare)[key.code]?) = some name at found
    simp at found
  counted := by simp
  bounded := bounded

/-- Only the literals and their count matter. -/
theorem Tabled.congr (tabled : Tabled s entries) (literals : t.literals = s.literals)
    (count : s.counters.literals ≤ t.counters.literals)
    (bounded : t.counters.literals ≤ Number.wordLimit) : Tabled t entries where
  inOrder := tabled.inOrder
  initializers := literals ▸ tabled.initializers
  names := literals ▸ tabled.names
  counted entry member := Nat.le_trans (tabled.counted entry member) count
  bounded := bounded

end Keys

section Making

/-- A part of a whole that is no literal of the unit yet. -/
def UnmadePart (heap : Heap) (entries : List Hoisted) (part whole : Value) : Prop :=
  (∀ entry ∈ entries, entry.key.datum ≠ whole) ∧ part ∈ heap.parts whole

/-- Some more literals were made, of data as it is. -/
structure MakesMore (s : CompileState) (entries : List Hoisted) (s' : CompileState)
    (more : List Hoisted) : Prop where
  image : s'.image = s.image
  counters : s.counters.literals ≤ s'.counters.literals
  tabled : Tabled s' (entries ++ more)
  made : ∀ entry ∈ more, entry.image = s.image

/-- The values of which literals were made: nothing stands in itself among them, and all of them
stand in the given ones. -/
structure Reaches (heap : Heap) (entries : List Hoisted) (data : List Value) (more : List Hoisted) :
    Prop where
  acyclic : ∀ datum ∈ data, Acc (UnmadePart heap entries) datum
  made : ∀ entry ∈ more, Acc (UnmadePart heap entries) entry.key.datum
  within : ∀ entry ∈ more, ∃ datum ∈ data,
    Relation.ReflTransGen (UnmadePart heap entries) entry.key.datum datum

theorem MakesMore.none (tabled : Tabled s entries) : MakesMore s entries s [] :=
  ⟨rfl, Nat.le_refl _, by rwa [List.append_nil], by simp⟩

theorem MakesMore.trans {u : CompileState} (first : MakesMore s entries t more)
    (second : MakesMore t (entries ++ more) u others) :
    MakesMore s entries u (more ++ others) where
  image := second.image.trans first.image
  counters := Nat.le_trans first.counters second.counters
  tabled := by
    rw [← List.append_assoc]
    exact second.tabled
  made entry member := by
    rcases List.mem_append.mp member with inside | inside
    · exact first.made entry inside
    · exact (second.made entry inside).trans first.image

variable {heap : Heap}

/-- What is well-founded beside literals that are made of well-founded values is so without them. -/
theorem acc_of_made {value : Value} (made : ∀ entry ∈ more, Acc (UnmadePart heap entries) entry.key.datum)
    (acc : Acc (UnmadePart heap (entries ++ more)) value) : Acc (UnmadePart heap entries) value := by
  induction acc with
  | intro whole _ ih =>
      by_cases known : ∃ entry ∈ more, entry.key.datum = whole
      · obtain ⟨entry, member, rfl⟩ := known
        exact made entry member
      · refine .intro whole fun part ⟨unmade, inside⟩ => ih part ⟨fun entry member => ?_, inside⟩
        rcases List.mem_append.mp member with old | new
        · exact unmade entry old
        · exact fun same => known ⟨entry, new, same⟩

theorem UnmadePart.fewer {part whole : Value} (step : UnmadePart heap (entries ++ more) part whole) :
    UnmadePart heap entries part whole :=
  ⟨fun entry member => step.1 entry (List.mem_append_left _ member), step.2⟩

theorem Reaches.nil : Reaches heap entries [] [] := ⟨by simp, by simp, by simp⟩

theorem Reaches.cons {data : List Value} (first : Reaches heap entries [datum] more)
    (rest : Reaches heap (entries ++ more) data others) :
    Reaches heap entries (datum :: data) (more ++ others) where
  acyclic value member := by
    rcases List.mem_cons.mp member with rfl | member
    · exact first.acyclic value List.mem_cons_self
    · exact acc_of_made first.made (rest.acyclic value member)
  made entry member := by
    rcases List.mem_append.mp member with inside | inside
    · exact first.made entry inside
    · exact acc_of_made first.made (rest.made entry inside)
  within entry member := by
    rcases List.mem_append.mp member with inside | inside
    · obtain ⟨value, is, path⟩ := first.within entry inside
      rw [List.mem_singleton.mp is] at path
      exact ⟨datum, List.mem_cons_self, path⟩
    · obtain ⟨value, held, path⟩ := rest.within entry inside
      exact ⟨value, List.mem_cons_of_mem _ held, path.lift id fun _ _ => UnmadePart.fewer⟩

/-- A step that makes the literals of some data, and what is known when it succeeds. -/
structure Hoists (step : Compile α) (data : List Value) (gives : List Hoisted → α → Prop) : Prop where
  after : ∀ s entries, Tabled s entries → ∃ more, MakesMore s entries (stateAfter step s) more ∧
    ∀ a t, step s = .ok a t → Reaches s.image.heap entries data more ∧ gives (entries ++ more) a

/-- A result that is put together in the end leaves the state as it is. -/
theorem stateAfter_bind_pure (step : Compile α) (f : α → β) (s : CompileState) :
    stateAfter (step >>= fun a => pure (f a)) s = stateAfter step s := by
  cases ended : step s with
  | ok a t =>
      rw [stateAfter_bind ended, stateAfter, stateAfter, ended]
      rfl
  | error e t =>
      have failed : (step >>= fun a => pure (f a)) s = .error e t := by
        change EStateM.bind _ _ s = _
        rw [EStateM.bind, ended]
      rw [stateAfter, stateAfter, failed, ended]

theorem Hoists.written {datum : Value} (value : writtenCode? datum = some code)
    (plain : ∀ heap : Heap, heap.parts datum = []) :
    Hoists (pure code) [datum] fun entries code => Denotes entries datum code where
  after s entries tabled := by
    refine ⟨[], .none tabled, fun a t done => ⟨⟨fun value member => ?_, by simp, by simp⟩, ?_⟩⟩
    · rw [List.mem_singleton.mp member]
      refine .intro _ fun part step => ?_
      rw [UnmadePart, plain] at step
      exact absurd step.2 List.not_mem_nil
    · cases done
      exact .written value

/-- The literals of several values, one after the other. -/
theorem Hoists.mapM {make : Value → Compile Expr} {data : List Value}
    (each : ∀ datum ∈ data, Hoists (make datum) [datum] fun entries code => Denotes entries datum code) :
    Hoists (data.mapM make) data fun entries codes => List.Forall₂ (Denotes entries) data codes where
  after s entries tabled := by
    induction data generalizing s entries with
    | nil => exact ⟨[], .none tabled, fun a t done => by cases done; exact ⟨.nil, .nil⟩⟩
    | cons datum data ih =>
        obtain ⟨more, makes, known⟩ := (each datum List.mem_cons_self).after s entries tabled
        rw [List.mapM_cons]
        cases first : make datum s with
        | error e t =>
            rw [stateAfter, first] at makes
            have failed : (make datum >>= fun code => data.mapM make >>= fun codes =>
                pure (code :: codes)) s = .error e t := by
              change EStateM.bind _ _ s = _
              rw [EStateM.bind, first]
            refine ⟨more, ?_, fun a u done => ?_⟩
            · rw [stateAfter, failed]
              exact makes
            · rw [failed] at done
              cases done
        | ok code t =>
            obtain ⟨reaches, denotes⟩ := known code t first
            rw [stateAfter, first] at makes
            have image : t.image = s.image := makes.image
            obtain ⟨others, makes', known'⟩ :=
              ih (fun datum member => each datum (List.mem_cons_of_mem _ member)) t _ makes.tabled
            refine ⟨more ++ others, ?_, fun codes u done => ?_⟩
            · rw [stateAfter_bind first]
              rw [stateAfter_bind_pure]
              exact makes.trans makes'
            · rw [bind_ended first] at done
              obtain ⟨codes', v, rest, ended⟩ := ok_of_bind done
              cases ended
              obtain ⟨reaches', denote⟩ := known' codes' _ rest
              rw [image] at reaches'
              rw [← List.append_assoc]
              exact ⟨reaches.cons reaches', .cons (denotes.mono (List.subset_append_left _ _)) denote⟩

theorem stateAfter_ok {α : Type} {step : Compile α} {a : α} (done : step s = .ok a t) :
    stateAfter step s = t := by
  rw [stateAfter, done]

theorem bind_failed {α β : Type} {step : Compile α} {next : α → Compile β} {e : CompileError}
    (failed : step s = .error e t) : (step >>= next) s = .error e t := by
  change EStateM.bind _ _ s = _
  rw [EStateM.bind, failed]

/-- What makes a literal that is not there yet makes those of its parts before it. -/
def MakesWhole (key : LiteralKey) (make : Compile Expr) : Prop :=
  ∀ s entries, Tabled s entries → ∃ more, MakesMore s entries (stateAfter make s) more ∧
    ∀ code t, make s = .ok code t →
      Reaches s.image.heap entries (s.image.heap.parts key.datum) more ∧
        ∀ number, Makes (entries ++ more) ⟨key, number, code, s.image⟩

/-- A whole that is no literal yet is none of those that are made for its parts. -/
theorem Reaches.whole (reaches : Reaches heap entries (heap.parts datum) more)
    (unmade : ∀ entry ∈ entries, entry.key.datum ≠ datum) :
    Acc (UnmadePart heap entries) datum ∧
      (∀ entry ∈ more, entry.key.datum ≠ datum ∧
        Relation.ReflTransGen (UnmadePart heap entries) entry.key.datum datum) := by
  have step : ∀ part ∈ heap.parts datum, UnmadePart heap entries part datum :=
    fun part inside => ⟨unmade, inside⟩
  have acyclic : Acc (UnmadePart heap entries) datum :=
    .intro _ fun part inside => reaches.acyclic part inside.2
  refine ⟨acyclic, fun entry member => ?_⟩
  obtain ⟨part, inside, path⟩ := reaches.within entry member
  refine ⟨fun same => ?_, path.tail (step part inside)⟩
  rw [same] at path
  exact Heap.not_self_of_acc acyclic.transGen (.tail' path (step part inside))

/-- The state after a literal was made. -/
def addLiteral (key : LiteralKey) (code : Expr) (s : CompileState) : CompileState :=
  let number := next s.counters.literals
  { s with
    counters := { s.counters with literals := number }
    literals :=
      { names := s.literals.names.insert key.code (literalName number)
        initializers := s.literals.initializers.push (.define (literalName number) code) } }

theorem onCounters_freshLiteral (s : CompileState) : onCounters Counters.freshLiteral s =
    if next s.counters.literals = s.counters.literals then .error .outOfSteps s
    else .ok (literalName (next s.counters.literals))
      { s with counters := { s.counters with literals := next s.counters.literals } } := by
  unfold onCounters
  dsimp only
  refine ite_congr (propext ⟨congrArg Counters.literals, fun same => ?_⟩) (fun _ => rfl) fun _ => rfl
  rw [Counters.freshLiteral, same]

theorem hoist_found {name : String} (make : Compile Expr)
    (found : s.literals.names[key.code]? = some name) :
    hoist key make s = .ok (.ident name) s := by
  unfold hoist
  rw [bind_get, found]
  rfl

theorem hoist_failed {make : Compile Expr} {e : CompileError}
    (absent : s.literals.names[key.code]? = none) (failed : make s = .error e t) :
    hoist key make s = .error e t := by
  unfold hoist
  rw [bind_get, absent]
  exact bind_failed failed

theorem hoist_absent {make : Compile Expr} (absent : s.literals.names[key.code]? = none)
    (made : make s = .ok code t) :
    hoist key make s =
      if next t.counters.literals = t.counters.literals then .error .outOfSteps t
      else .ok (.ident (literalName (next t.counters.literals))) (addLiteral key code t) := by
  unfold hoist
  rw [bind_get, absent]
  change (make >>= _) s = _
  rw [bind_ended made]
  have fresh := onCounters_freshLiteral t
  by_cases stuck : next t.counters.literals = t.counters.literals
  · rw [if_pos stuck] at fresh ⊢
    exact bind_failed fresh
  · rw [if_neg stuck] at fresh ⊢
    rw [bind_ended fresh]
    rfl

theorem Tabled.found (tabled : Tabled s entries) (member : entry ∈ entries) :
    s.literals.names[entry.key.code]? = some entry.name :=
  (tabled.names entry.key entry.name).mpr ⟨entry, member, rfl, rfl⟩

/-- The table with one more literal. -/
theorem Tabled.add (tabled : Tabled s entries) (goes : next s.counters.literals ≠ s.counters.literals)
    (new : ∀ entry ∈ entries, entry.key ≠ key) (image : Image)
    (makes : ∀ number, Makes entries ⟨key, number, code, image⟩) :
    Tabled (addLiteral key code s) (entries ++ [⟨key, next s.counters.literals, code, image⟩]) where
  inOrder := .snoc tabled.inOrder (fun other member => Nat.lt_of_le_of_lt
    (tabled.counted other member) (lt_next tabled.bounded goes)) new (makes _)
  initializers := by
    rw [addLiteral, List.map_append, ← tabled.initializers]
    exact Array.toList_push
  names other name := by
    have inserted : (addLiteral key code s).literals.names[other.code]? =
        if key.code = other.code then some (literalName (next s.counters.literals))
        else s.literals.names[other.code]? := by
      simp only [addLiteral, Std.TreeMap.getElem?_insert, compare_eq_iff_eq]
    rw [inserted]
    by_cases same : key = other
    · rw [if_pos (congrArg _ same)]
      subst same
      constructor
      · intro named
        exact ⟨_, List.mem_append_right _ List.mem_cons_self, rfl, Option.some.inj named⟩
      · rintro ⟨entry, member, is, rfl⟩
        rcases List.mem_append.mp member with old | last
        · exact absurd is (new entry old)
        · rw [List.mem_singleton.mp last]
          rfl
    · rw [if_neg fun equal => same (LiteralKey.code_inj.mp equal), tabled.names]
      refine exists_congr fun entry => and_congr_left fun ⟨is, _⟩ => ?_
      rw [List.mem_append, List.mem_singleton]
      refine ⟨.inl, fun either => either.resolve_right ?_⟩
      rintro rfl
      exact same is
  counted entry member := by
    rcases List.mem_append.mp member with old | last
    · exact Nat.le_trans (tabled.counted entry old) (le_next tabled.bounded)
    · rw [List.mem_singleton.mp last]
      exact Nat.le_refl _
  bounded := next_le _

/-- A literal is found under its name, or made and then found. -/
theorem Hoists.hoist (key : LiteralKey) {make : Compile Expr} (makes : MakesWhole key make)
    (known : literalKey? key.datum = some key) :
    Hoists (hoist key make) [key.datum] fun entries code => Denotes entries key.datum code where
  after s entries tabled := by
    cases found : s.literals.names[key.code]? with
    | some name =>
        have run := hoist_found make found
        obtain ⟨entry, member, rfl, rfl⟩ := (tabled.names key name).mp found
        refine ⟨[], ?_, fun code t done => ?_⟩
        · rw [stateAfter_ok run]
          exact .none tabled
        · rw [run] at done
          cases done
          refine ⟨⟨fun value is => ?_, by simp, by simp⟩, ?_⟩
          · rw [List.mem_singleton.mp is]
            exact .intro _ fun part inside => absurd rfl (inside.1 entry member)
          · exact .named (List.mem_append_left _ member) known
    | none =>
        obtain ⟨more, makesMore, ended⟩ := makes s entries tabled
        cases run : make s with
        | error e t =>
            have failed := hoist_failed found run
            refine ⟨more, ?_, fun code t done => ?_⟩
            · rw [stateAfter, run] at makesMore
              rw [stateAfter, failed]
              exact makesMore
            · rw [failed] at done
              cases done
        | ok code t =>
            have all := hoist_absent found run
            obtain ⟨reaches, makesIt⟩ := ended code t run
            rw [stateAfter_ok run] at makesMore
            have unmade : ∀ entry ∈ entries, entry.key ≠ key := by
              rintro entry member rfl
              rw [tabled.found member] at found
              cases found
            obtain ⟨acyclic, others⟩ := reaches.whole fun entry member same =>
              unmade entry member (LiteralKey.datum_inj same)
            by_cases stuck : next t.counters.literals = t.counters.literals
            · rw [if_pos stuck] at all
              refine ⟨more, ?_, fun code t done => ?_⟩
              · rw [stateAfter, all]
                exact makesMore
              · rw [all] at done
                cases done
            · rw [if_neg stuck] at all
              have new : ∀ entry ∈ entries ++ more, entry.key ≠ key := by
                rintro entry member rfl
                rcases List.mem_append.mp member with old | later
                · exact unmade entry old rfl
                · exact (others entry later).1 rfl
              have added := makesMore.tabled.add stuck new s.image makesIt
              rw [List.append_assoc] at added
              refine ⟨more ++ [⟨key, next t.counters.literals, code, s.image⟩], ?_, fun _ _ done => ?_⟩
              · rw [stateAfter_ok all]
                refine ⟨makesMore.image, Nat.le_trans makesMore.counters
                  (le_next makesMore.tabled.bounded), added, fun entry member => ?_⟩
                rcases List.mem_append.mp member with made | last
                · exact makesMore.made entry made
                · rw [List.mem_singleton.mp last]
              · rw [all] at done
                cases done
                refine ⟨⟨fun value is => ?_, fun entry member => ?_, fun entry member =>
                  ⟨_, List.mem_singleton_self _, ?_⟩⟩, ?_⟩
                · rw [List.mem_singleton.mp is]
                  exact acyclic
                · rcases List.mem_append.mp member with made | last
                  · exact reaches.made entry made
                  · rw [List.mem_singleton.mp last]
                    exact acyclic
                · rcases List.mem_append.mp member with made | last
                  · exact (others entry made).2
                  · rw [List.mem_singleton.mp last]
                · exact .named (List.mem_append_right _
                    (List.mem_append_right _ List.mem_cons_self)) known

/-- What has no parts is made at once. -/
theorem MakesWhole.atom {make : Compile Expr} {value : CompileState → Expr}
    (run : ∀ s, make s = .ok (value s) s) (plain : ∀ heap : Heap, heap.parts key.datum = [])
    (makes : ∀ s entries number, Makes entries ⟨key, number, value s, s.image⟩) :
    MakesWhole key make := by
  intro s entries tabled
  refine ⟨[], ?_, fun code t done => ?_⟩
  · rw [stateAfter_ok (run s)]
    exact .none tabled
  · rw [run] at done
    cases done
    rw [plain]
    exact ⟨.nil, makes _ _⟩

/-- What has parts is made of them, which are made from the left to the right. -/
theorem MakesWhole.ofParts {make : Compile Expr} {part : Value → Compile Expr} {p : Primitive}
    (run : ∀ s, make s = ((s.image.heap.parts key.datum).mapM part >>= fun codes =>
      pure (.callPrimitive p codes)) s)
    (each : ∀ datum, Hoists (part datum) [datum] fun entries code => Denotes entries datum code)
    (makes : ∀ entries number codes image,
      List.Forall₂ (Denotes entries) (image.heap.parts key.datum) codes →
        Makes entries ⟨key, number, .callPrimitive p codes, image⟩) :
    MakesWhole key make := by
  intro s entries tabled
  obtain ⟨more, makesMore, known⟩ :=
    (Hoists.mapM fun datum _ => each datum).after s entries tabled
  refine ⟨more, ?_, fun code t done => ?_⟩
  · rw [stateAfter, run, ← stateAfter, stateAfter_bind_pure]
    exact makesMore
  · rw [run] at done
    obtain ⟨codes, u, all, ended⟩ := ok_of_bind done
    cases ended
    obtain ⟨reaches, denote⟩ := known codes _ all
    exact ⟨reaches, fun number => makes _ _ _ _ denote⟩

theorem symbolLiteral_hoists (id : SymbolId) : Hoists (symbolLiteral id) [.symbol id]
    fun entries code => Denotes entries (.symbol id) code := by
  unfold symbolLiteral
  by_cases isNil : id = SymbolId.nil
  · rw [if_pos isNil]
    exact .written (by rw [writtenCode?, if_pos isNil]) fun _ => rfl
  · rw [if_neg isNil]
    by_cases isT : id = SymbolId.t
    · rw [if_pos isT]
      exact .written (by rw [writtenCode?, if_neg isNil, if_pos isT]) fun _ => rfl
    · rw [if_neg isT]
      refine Hoists.hoist (.symbol id) (.atom (fun _ => rfl) (fun _ => rfl)
        fun _ _ _ => ⟨isNil, rfl⟩) ?_
      exact if_neg (not_or.mpr ⟨isNil, isT⟩)

/-- The literals of a value are made before it. -/
theorem literalWithin_hoists (depth : Nat) (datum : Value) :
    Hoists (literalWithin depth datum) [datum] fun entries code => Denotes entries datum code := by
  induction depth generalizing datum with
  | zero => exact ⟨fun s entries tabled => ⟨[], .none tabled, fun _ _ done => nomatch done⟩⟩
  | succ depth ih =>
      cases datum with
      | nil | number n | string address text => exact .written rfl fun _ => rfl
      | symbol id => exact symbolLiteral_hoists id
      | character c =>
          exact Hoists.hoist (.character c)
            (.atom (fun _ => rfl) (fun _ => rfl) fun _ _ _ => rfl) rfl
      | cons address =>
          refine Hoists.hoist (.cons address) (.ofParts (fun s => ?_) ih fun _ _ codes _ all =>
            ⟨codes, all, rfl⟩) rfl
          change (literalWithin depth (s.image.heap.cell address).car >>= fun car =>
            literalWithin depth (s.image.heap.cell address).cdr >>= fun cdr =>
              pure (Expr.callPrimitive .cons [car, cdr])) s = _
          simp [Heap.parts, LiteralKey.datum, List.mapM_cons]
      | vector address =>
          exact Hoists.hoist (.vector address) (.ofParts (fun s => rfl) ih
            fun _ _ codes _ all => ⟨codes, all, rfl⟩) rfl
      | _ => exact ⟨fun s entries tabled => ⟨[], .none tabled, fun _ _ done => nomatch done⟩⟩

end Making

section Compilation

/-- To the literals that a unit has, others are only added. -/
structure KeepsLiterals (s s' : CompileState) : Prop where
  tabled : ∀ entries, Tabled s entries →
    s.counters.literals ≤ s'.counters.literals ∧ ∃ more, Tabled s' (entries ++ more)

theorem KeepsLiterals.same (literals : t.literals = s.literals)
    (counters : t.counters.literals = s.counters.literals) : KeepsLiterals s t where
  tabled entries tabled := ⟨Nat.le_of_eq counters.symm, [], by
    rw [List.append_nil]
    exact tabled.congr literals (Nat.le_of_eq counters.symm) (counters ▸ tabled.bounded)⟩

theorem Hoists.keepsLiterals {step : Compile α} {data : List Value}
    {gives : List Hoisted → α → Prop} (hoists : Hoists step data gives) :
    Obeys KeepsLiterals step := by
  refine fun s => ⟨fun entries tabled => ?_⟩
  obtain ⟨more, makes, -⟩ := hoists.after s entries tabled
  exact ⟨makes.counters, more, makes.tabled⟩

instance : Unrestricted KeepsLiterals where
  refl _ := .same rfl rfl
  trans first second := by
    refine ⟨fun entries tabled => ?_⟩
    obtain ⟨count, more, tabled⟩ := first.tabled entries tabled
    obtain ⟨further, others, tabled⟩ := second.tabled _ tabled
    exact ⟨Nat.le_trans count further, more ++ others, List.append_assoc .. ▸ tabled⟩
  keyword _ _ := .same rfl rfl
  counters _ _ same := .same rfl same
  symbolLiteral id := Hoists.keepsLiterals (symbolLiteral_hoists id)
  literalWithin depth value := Hoists.keepsLiterals (literalWithin_hoists depth value)
  unit inside := by
    refine ⟨fun entries tabled => ?_⟩
    obtain ⟨count, more, within⟩ := inside.tabled [] (tabled_empty tabled.bounded)
    exact ⟨count, [], by rw [List.append_nil]; exact tabled.congr rfl count within.bounded⟩
  cells _ _ := .same rfl rfl
  bind _ _ _ _ _ := .same rfl rfl
  used _ _ := .same rfl rfl
  global _ _ _ := .same rfl rfl
  image _ _ _ := .same rfl rfl
  expander _ _ _ := .same rfl rfl
  proclaim _ _ _ _ _ _ := .same rfl rfl
  constant _ _ _ := .same rfl rfl

/-- The literals of a unit stand in the order in which they were made, whatever is compiled. -/
theorem Tabled.compiled {depth : Nat} {context : Context} {form : Value} (tabled : Tabled s entries)
    (compiled : compileWithin depth context form s = .ok code t) :
    ∃ more, Tabled t (entries ++ more) := by
  have obeys := compileWithin_obeys (R := KeepsLiterals) depth context form s
  rw [stateAfter_ok compiled] at obeys
  exact (obeys.tabled entries tabled).2

end Compilation

end Compiler

end LispScript
