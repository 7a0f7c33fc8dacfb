import LispScript.Proofs.Resumption
import LispScript.Proofs.SpacedReading

/-!
The text that the interactive loop makes of the lines typed. Blank lines are left out of it, which
changes nothing where a blank changes nothing: then a session does with the text what it does with the
lines themselves.
-/

namespace LispScript

namespace Reader

section Outcomes

variable {α : Type} {before : List Char → List Char → Prop} {m m' : Mode} {change : Int} {x : Read α}

/-- What a reading finds and the image that it leaves. -/
def outcome : EStateM.Result ReadError ReadState α → Except ReadError α × Image
  | .ok a s => (.ok a, s.image)
  | .error e s => (.error e, s.image)

theorem Tracks.outcome_eq (tracks : Tracks before m change m' x) {text text' : List Char}
    (held : before text text') (image : Image) :
    outcome (x ⟨text', image⟩) = outcome (x ⟨text, image⟩) := by
  cases ended : x ⟨text, image⟩ with
  | ok a s =>
      obtain ⟨rest', same, -⟩ := tracks.ok held ended
      rw [same]
      rfl
  | error e s =>
      obtain ⟨⟨rest', same⟩, -⟩ := tracks.error held ended
      rw [same]
      rfl

end Outcomes

end Reader

open Reader Reader.Mode

namespace Session

section Texts

variable {α : Type} {step : α → Value → SessionStep α}

theorem readNext_apply (text : List Char) (session : Session) :
    readNext text session =
      match Reader.read session.features ⟨text, session.image⟩ with
      | .ok form? later => .ok (form?.map (·, later.rest)) (session.withImage later.image)
      | .error e later => .error (.reader e) (session.withImage later.image) := by
  change EStateM.bind (reading Reader.read text) _ session = _
  unfold EStateM.bind reading image
  cases Reader.read session.features ⟨text, session.state.image⟩ <;> rfl

/-- How the forms of a text are taken in after the next one was read. -/
def continueForms (step : α → Value → SessionStep α) (count : Nat) (a : α) (session : Session) :
    EStateM.Result ReadError ReadState (Option Value) → EStateM.Result SessionError Session α
  | .ok (some form) later =>
      (step a form >>= fun a => foldForms step count a later.rest) (session.withImage later.image)
  | .ok none later => .ok a (session.withImage later.image)
  | .error e later => .error (.reader e) (session.withImage later.image)

theorem foldForms_succ (count : Nat) (a : α) (text : List Char) (session : Session) :
    foldForms step (count + 1) a text session = continueForms step count a session
      (Reader.read session.features ⟨text, session.image⟩) := by
  rw [foldForms]
  change EStateM.bind (readNext text) _ session = _
  rw [EStateM.bind, readNext_apply]
  cases Reader.read session.features ⟨text, session.image⟩ with
  | error e later => rfl
  | ok form? later => cases form? <;> rfl

/-- Further blanks do not change what is made of the forms of a text, each of which takes a
character. -/
theorem foldForms_spaced {count count' : Nat} {a : α} {text text' : List Char}
    (spaced : between.Spaced text text') (enough : text.length < count)
    (enough' : text'.length < count') :
    foldForms step count' a text' = foldForms step count a text := by
  induction count generalizing count' a text text' with
  | zero => cases enough
  | succ count ih =>
      obtain ⟨count', rfl⟩ := Nat.exists_eq_add_of_lt enough'
      funext session
      rw [foldForms_succ, foldForms_succ]
      have tracks := Tracks.read session.features
      cases ended : Reader.read session.features ⟨text, session.image⟩ with
      | error e later =>
          obtain ⟨⟨rest', same⟩, -⟩ := tracks.error spaced ended
          rw [same]
          rfl
      | ok form? later =>
          obtain ⟨rest', same, spaced, -⟩ := tracks.ok spaced ended
          rw [same]
          cases form? with
          | none => rfl
          | some form =>
              have shorter := (read_some ended).1
              have shorter' := (read_some same).1
              dsimp only at shorter shorter'
              have next : (foldForms step (text'.length + count') · rest') =
                  (foldForms step count · later.rest) :=
                funext fun a => ih spaced (by omega) (by omega)
              exact congrArg (fun next => (step a form >>= next) (session.withImage later.image)) next

theorem foldText_spaced {a : α} {text text' : String}
    (spaced : between.Spaced text.toList text'.toList) :
    foldText step a text' = foldText step a text :=
  foldForms_spaced spaced (by rw [String.length_toList]; omega) (by rw [String.length_toList]; omega)

end Texts

end Session

namespace Repl

def isBlankLine (line : String) : Bool := (Text.trim line).isEmpty

/-- The text that is pending after some lines. -/
def collected (lines : List String) : String := lines.foldl collect ""

section Lines

variable {m : Mode} {lines : List String}

theorem isBlankLine_iff (line : String) :
    isBlankLine line = true ↔ ∀ c ∈ line.toList, Text.isBlank c = true := by
  have ends : isBlankLine line = true ↔
      (line.toList.dropWhile Text.isBlank).reverse.dropWhile Text.isBlank = [] := by
    rw [isBlankLine, Text.trim, String.isEmpty_iff, ← String.toList_inj, String.toList_ofList,
      String.toList_empty, List.reverse_eq_nil_iff]
  rw [ends, List.dropWhile_eq_nil_iff]
  constructor
  · intro blank c member
    have nothing : line.toList.dropWhile Text.isBlank = [] := by
      cases left : line.toList.dropWhile Text.isBlank with
      | nil => rfl
      | cons d rest =>
          have first := List.head?_dropWhile_not Text.isBlank line.toList
          rw [left] at first blank
          have isBlank := blank d (by simp)
          simp only [List.head?_cons, isBlank] at first
          cases first
    exact List.dropWhile_eq_nil_iff.mp nothing c member
  · intro blank c member
    rw [List.dropWhile_eq_nil_iff.mpr blank] at member
    cases member

theorem unlines_cons (line : String) (lines : List String) :
    (unlines (line :: lines)).toList = (line.toList ++ ['\n']) ++ (unlines lines).toList := by
  rw [unlines, List.map_cons, String.join_cons, String.toList_append, String.toList_append]
  rfl

theorem unlines_eq_intercalate (line : String) (lines : List String) :
    (unlines (line :: lines)).toList = ("\n".intercalate (line :: lines)).toList ++ ['\n'] := by
  induction lines generalizing line with
  | nil => rw [unlines_cons]; simp [unlines]
  | cons next lines ih =>
      rw [unlines_cons, ih next]
      simp [String.toList_intercalate, List.intercalate]

theorem unlines_append (first second : List String) :
    unlines (first ++ second) = unlines first ++ unlines second := by
  rw [unlines, List.map_append, ← String.toList_inj]
  simp only [String.toList_join, String.toList_append, List.flatMap_append, unlines]

theorem collect_eq (pending line : String) :
    collect pending line = pending ++ unlines ([line].filter (!isBlankLine ·)) := by
  rw [collect, ← isBlankLine]
  cases blank : isBlankLine line with
  | true => simp [blank, unlines]
  | false =>
      rw [if_neg nofun, List.filter_cons_of_pos (by simp [blank]), ← String.toList_inj]
      simp [unlines]

theorem foldl_collect (pending : String) (lines : List String) :
    lines.foldl collect pending = pending ++ unlines (lines.filter (!isBlankLine ·)) := by
  induction lines generalizing pending with
  | nil => exact (String.append_empty).symm
  | cons line lines ih =>
      rw [List.foldl_cons, ih, collect_eq, String.append_assoc, ← unlines_append, ← List.filter_append]
      rfl

theorem collected_eq (lines : List String) :
    collected lines = unlines (lines.filter (!isBlankLine ·)) := by
  rw [collected, foldl_collect, String.empty_append]

/-- Lines may be left out where a blank changes nothing. -/
theorem spaced_lines (kept : ∀ line count, lines[count]? = some line → isBlankLine line = true →
      (m.after (unlines (lines.take count)).toList).isOpen = true) :
    m.Spaced (unlines (lines.filter (!isBlankLine ·))).toList (unlines lines).toList := by
  induction lines generalizing m with
  | nil => exact .nil
  | cons line lines ih =>
      have later (typed : List String) : (m.after (line.toList ++ ['\n'])).after (unlines typed).toList =
          m.after (unlines (line :: typed)).toList := by
        rw [unlines_cons, ← after_append]
      have next := ih (m := m.after (line.toList ++ ['\n'])) fun line' count at_ blank => by
        rw [later]
        exact kept line' (count + 1) at_ blank
      by_cases blank : isBlankLine line = true
      · have open_ : m.isOpen = true := kept line 0 rfl blank
        have blanks : ∀ c ∈ line.toList ++ ['\n'], Text.isBlank c = true := by
          intro c member
          rcases List.mem_append.mp member with member | member
          · exact (isBlankLine_iff line).mp blank c member
          · cases List.mem_singleton.mp member
            rfl
        rw [after_blanks open_ blanks] at next
        rw [List.filter_cons_of_neg (by simp [blank]), unlines_cons]
        exact .blanks open_ blanks next
      · rw [List.filter_cons_of_pos (by simp [blank]), unlines_cons, unlines_cons]
        exact .append _ next

theorem submit_spaced (repl : Repl) {text text' : String}
    (spaced : between.Spaced text.toList text'.toList) : repl.submit text' = repl.submit text := by
  unfold submit Session.compileText Session.evalText
  rw [Session.foldText_spaced spaced, Session.foldText_spaced spaced]

/-- Lines that the loop takes in as one text: the first one does not end the loop, and the whole is the
first that is complete. -/
structure Typed (lines : List String) : Prop where
  goesOn : ∀ line ∈ lines.head?, isFarewell line = false
  waits : ∀ count, 0 < count → count < lines.length →
    isBalanced (collected (lines.take count)).toList = false
  complete : isBalanced (collected lines).toList = true
  written : ∃ line ∈ lines, isBlankLine line = false

variable {repl : Repl} {pending line : String} {rest : List String}

theorem takeLine_waits (stays : pending = "" → isFarewell line = false)
    (open_ : isBalanced (collect pending line).toList = false) :
    { repl with pending }.takeLine line = ("", some { repl with pending := collect pending line }) := by
  have noFarewell : (pending.isEmpty && isFarewell line) = false := by
    cases empty : pending.isEmpty with
    | false => rfl
    | true => exact stays (String.isEmpty_iff.mp empty)
  simp only [takeLine, noFarewell, open_, Bool.false_eq_true, if_false, Bool.not_false, if_true]

theorem takeLine_complete (stays : pending = "" → isFarewell line = false)
    (closed : isBalanced (collect pending line).toList = true)
    (written : isBlankLine (collect pending line) = false) :
    { repl with pending }.takeLine line =
      (let (printed, later) := { repl with pending := "" }.submit (collect pending line)
      (printed, some later)) := by
  have noFarewell : (pending.isEmpty && isFarewell line) = false := by
    cases empty : pending.isEmpty with
    | false => rfl
    | true => exact stays (String.isEmpty_iff.mp empty)
  rw [isBlankLine] at written
  simp only [takeLine, noFarewell, closed, written, Bool.false_eq_true, if_false, Bool.not_true]

theorem Typed.collected_written (typed : Typed lines) : isBlankLine (collected lines) = false := by
  obtain ⟨line, member, written⟩ := typed.written
  refine Bool.eq_false_iff.mpr fun blank => ?_
  have blank := (isBlankLine_iff _).mp blank
  refine absurd ((isBlankLine_iff line).mpr fun c inside => blank c ?_) (by simp [written])
  rw [collected_eq, unlines, String.toList_join]
  refine List.mem_flatMap.mpr ⟨line ++ "\n", List.mem_map.mpr ⟨line, ?_, rfl⟩, ?_⟩
  · exact List.mem_filter.mpr ⟨member, by simp [written]⟩
  · rw [String.toList_append]
    exact List.mem_append_left _ inside

theorem collected_snoc (seen : List String) (line : String) :
    collected (seen ++ [line]) = collect (collected seen) line := by
  rw [collected, List.foldl_append]
  rfl

/-- The loop collects the lines one by one and hands over what it has collected. -/
theorem Typed.takeLines (typed : Typed lines) (fresh : repl.pending = "") (rest : List String)
    (more seen : List String) (line : String) (whole : lines = seen ++ line :: more) :
    { repl with pending := collected seen }.takeLines (line :: more ++ rest) =
      (repl.submit (collected lines)).1 ++ (repl.submit (collected lines)).2.takeLines rest := by
  have same : { repl with pending := "" } = repl := by rw [← fresh]
  have stays (seen : List String) (line : String) (more : List String)
      (whole : lines = seen ++ line :: more) : collected seen = "" → isFarewell line = false := by
    intro empty
    cases seen with
    | nil => exact typed.goesOn line (by rw [whole]; rfl)
    | cons first seen =>
        have open_ := typed.waits (first :: seen).length (Nat.succ_pos _) (by rw [whole]; simp)
        rw [whole, List.take_left, empty] at open_
        cases open_
  induction more generalizing seen line with
  | nil =>
      have last : collect (collected seen) line = collected lines := by rw [whole, collected_snoc]
      rw [List.singleton_append, Repl.takeLines, takeLine_complete (stays seen line [] whole)
        (last ▸ typed.complete) (last ▸ typed.collected_written), last, same]
  | cons next more ih =>
      have whole' : lines = (seen ++ [line]) ++ next :: more := by
        rw [whole, List.append_assoc]
        rfl
      have open_ := typed.waits (seen ++ [line]).length (by simp) (by rw [whole']; simp)
      rw [whole', List.take_left, collected_snoc] at open_
      rw [List.cons_append, Repl.takeLines, takeLine_waits (stays seen line (next :: more) whole) open_]
      have later := ih (seen ++ [line]) next whole'
      rw [collected_snoc] at later
      rw [List.cons_append] at later ⊢
      dsimp only
      rw [later, String.empty_append]

/-- The interactive loop evaluates the text that was typed, if the blank lines of it stand where a blank
changes nothing: it hands over the text of the lines without the blank ones, and a session does with
this what it does with the lines themselves. The data of the two texts are the same, and those of the
lines joined by newlines, if these can be read. -/
theorem takeLines_typed (repl : Repl) (lines rest : List String) (fresh : repl.pending = "")
    (typed : Typed lines)
    (kept : ∀ line count, lines[count]? = some line → isBlankLine line = true →
      (between.after (unlines (lines.take count)).toList).isOpen = true) :
    repl.takeLines (lines ++ rest) =
        (repl.submit (collected lines)).1 ++ (repl.submit (collected lines)).2.takeLines rest ∧
      repl.submit (collected lines) = repl.submit (unlines lines) ∧
      ∀ features image,
        outcome (readAll features ⟨(collected lines).toList, image⟩) =
            outcome (readAll features ⟨(unlines lines).toList, image⟩) ∧
          ∀ data s, readAll features ⟨("\n".intercalate lines).toList, image⟩ = .ok data s →
            outcome (readAll features ⟨(collected lines).toList, image⟩) = (.ok data, s.image) := by
  have spaced : between.Spaced (collected lines).toList (unlines lines).toList := by
    rw [collected_eq]
    exact spaced_lines kept
  have some_ : lines ≠ [] := by
    rintro rfl
    obtain ⟨line, member, -⟩ := typed.written
    cases member
  obtain ⟨first, more, rfl⟩ := List.exists_cons_of_ne_nil some_
  refine ⟨?_, (submit_spaced repl spaced).symm, fun features image => ?_⟩
  · have start : { repl with pending := collected [] } = repl := by
      change { repl with pending := "" } = repl
      rw [← fresh]
    rw [← typed.takeLines fresh rest more [] first rfl, start]
  · have same := (Tracks.readAll features).outcome_eq spaced image
    refine ⟨same.symm, fun data s ended => ?_⟩
    rw [← same, unlines_eq_intercalate]
    have ends : readAll features ⟨[], s.image⟩ = .ok [] ⟨[], s.image⟩ :=
      (readAll_item _).trans (if_pos rfl)
    have followed := readAll_append ended []
    rw [ends] at followed
    refine (congrArg outcome followed).trans ?_
    exact congrArg (fun data => (Except.ok data, s.image)) (List.append_nil data)

/-- A blank line after a line comment, in a list that a later line closes. -/
theorem takeLines_typed_list :
    let lines := ["(\"a", "b\" ; (", "", "#\\))"]
    let repl : Repl := { session := Session.bare [] 0, emit := false, history := [] }
    Typed lines ∧ repl.submit (collected lines) = repl.submit (unlines lines) ∧
      outcome (readAll [] ⟨(collected lines).toList, Image.initial 0⟩) =
        outcome (readAll [] ⟨(unlines lines).toList, Image.initial 0⟩) := by
  intro lines repl
  have typed : Typed lines := by
    refine ⟨?_, fun count some_ less => ?_, by decide +kernel, "(\"a", by simp [lines], by decide +kernel⟩
    · rintro _ ⟨⟩
      decide +kernel
    · change count < 4 at less
      interval_cases count <;> decide +kernel
  have kept : ∀ line count, lines[count]? = some line → isBlankLine line = true →
      (between.after (unlines (lines.take count)).toList).isOpen = true := by
    intro line count at_ blank
    obtain ⟨less, rfl⟩ := List.getElem?_eq_some_iff.mp at_
    change count < 4 at less
    interval_cases count
    · exact absurd blank (by decide +kernel : ¬ isBlankLine "(\"a" = true)
    · exact absurd blank (by decide +kernel : ¬ isBlankLine "b\" ; (" = true)
    · decide +kernel
    · exact absurd blank (by decide +kernel : ¬ isBlankLine "#\\))" = true)
  obtain ⟨-, same, read⟩ := takeLines_typed repl lines [] rfl typed kept
  exact ⟨typed, same, (read [] (Image.initial 0)).1⟩

/-- The text of the only datum read, if it is a string. -/
def stringRead? : EStateM.Result ReadError ReadState (List Value) → Option String
  | .ok [.string _ text] _ => some text
  | _ => none

/-- A blank line in a string is left out of it. -/
theorem takeLines_typed_string :
    let lines := ["\"a", "", "b\""]
    Typed lines ∧
      stringRead? (readAll [] ⟨(collected lines).toList, Image.initial 0⟩) = some "a\nb" ∧
      stringRead? (readAll [] ⟨("\n".intercalate lines).toList, Image.initial 0⟩) = some "a\n\nb" := by
  intro lines
  refine ⟨⟨?_, fun count some_ less => ?_, by decide +kernel, "\"a", by simp [lines], by decide +kernel⟩,
    by decide +kernel, by decide +kernel⟩
  · rintro _ ⟨⟩
    decide +kernel
  · change count < 3 at less
    interval_cases count <;> decide +kernel

end Lines

end Repl

end LispScript
