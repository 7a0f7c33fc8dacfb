import LispScript.Proofs.Lexemes
import LispScript.Proofs.ReadingRules

/-!
Block comments as white space. Between two lexemes a block comment with a blank on either side
changes nothing of what is read, except where a list has its closing bracket after a tail: there
only blanks and line comments may stand.
-/

namespace LispScript.Reader

variable {features : List String} {s s' u : ReadState} {data : List Value} {judgment : Judgment}

section Blanks

/-- Whatever may have blanks before it. -/
def Judgment.IsAfterBlanks : Judgment → Prop
  | item _ => False
  | datum _ | elements .. | all _ => True

/-- What may have blanks before it does not depend on them. -/
theorem Reads.of_pastBlanks (reads : Reads features judgment s data s')
    (after : judgment.IsAfterBlanks) (same : pastBlanks u = pastBlanks s) :
    Reads features judgment u data s' := by
  have rest : skipBlanks u.rest = skipBlanks s.rest := congrArg ReadState.rest same
  have image : u.image = s.image :=
    show (pastBlanks u).image = (pastBlanks s).image from congrArg ReadState.image same
  have with_ (text : List Char) : s.withRest text = u.withRest text := by
    rw [ReadState.withRest, ReadState.withRest, image]
  cases reads with
  | atom | marked | list | vector | comment | kept | excluded => exact after.elim
  | here item => exact .here (same ▸ item)
  | later gap next => exact .later (same ▸ gap) next
  | close closes =>
      rw [with_]
      exact .close (rest ▸ closes)
  | point point lone some_ datum closes =>
      rw [with_] at datum
      exact .point (rest ▸ point) lone some_ datum closes
  | element notPoint item next => exact .element (rest ▸ notPoint) (same ▸ item) next
  | gap notPoint gap next => exact .gap (rest ▸ notPoint) (same ▸ gap) next
  | done ends =>
      rw [← same]
      exact .done (rest ▸ ends)
  | form item next => exact .form (same ▸ item) next
  | nothing gap next => exact .nothing (same ▸ gap) next

/-- What may have blanks before it may have a block comment before it. -/
theorem Reads.of_comment (reads : Reads features judgment s data s')
    (after : judgment.IsAfterBlanks) {body : List Char}
    (opens : skipBlanks u.rest = '#' :: '|' :: body) (closes : skipBlockComment 0 body = some s.rest)
    (image : u.image = s.image) : Reads features judgment u data s' := by
  have notPoint : atLonePoint (skipBlanks u.rest) = false := by
    rw [opens]
    rfl
  have same : (pastBlanks u).withRest s.rest = s := by
    change ReadState.mk s.rest u.image = _
    rw [image]
  have gap : Reads features (.item none) (pastBlanks u) [] s := same ▸ .comment opens closes
  cases judgment with
  | item => exact after.elim
  | datum => exact .later gap reads
  | elements => exact .gap notPoint gap reads
  | all => exact .nothing gap reads

end Blanks

section Carrying

variable {α : Type} {b x y y₁ z : List Char} {s₁ t t' : ReadState} {P Q : ReadState → ReadState → Prop}

/-- A step from before `y ++ b` is carried to before `y ++ z`: it ends before `b` still and is
carried to before `z`, or it ends behind and does so from before `z` as well. -/
def Carried (b z y : List Char) (P : ReadState → ReadState → Prop) (s s' : ReadState) : Prop :=
  (∃ y', s'.rest = y' ++ b ∧ Leads b y y' ∧ Leads b y' [] ∧
    P (s.withRest (y ++ z)) (s'.withRest (y' ++ z))) ∨
  P (s.withRest (y ++ z)) s'

theorem Carried.mono (carried : Carried b z y₁ P s s') (leads : Leads b y y₁)
    (weaker : ∀ u', P (s.withRest (y₁ ++ z)) u' → Q (t.withRest (y ++ z)) u') :
    Carried b z y Q t s' := by
  obtain ⟨y', rest, before, after, held⟩ | held := carried
  · exact .inl ⟨y', rest, leads.trans before, after, weaker _ held⟩
  · exact .inr (weaker _ held)

/-- Two steps in a row, of which the second depends on where the first ended. -/
theorem Carried.comp (first : Carried b z y P s s₁) (own : Q s₁ s')
    (second : ∀ y₁, s₁.rest = y₁ ++ b → Leads b y y₁ → Leads b y₁ [] → Carried b z y₁ Q s₁ s') :
    Carried b z y (fun u u' => ∃ u₁, P u u₁ ∧ u₁.image = s₁.image ∧ Q u₁ u') s s' := by
  obtain ⟨y₁, rest, before, after, held⟩ | held := first
  · exact (second y₁ rest before after).mono before fun u' next => ⟨_, held, rfl, next⟩
  · exact .inr ⟨s₁, held, rfl, own⟩

/-- Two steps in a row, before the second of which another package becomes current. -/
theorem Carried.comp_current {package : PackageId} (first : Carried b z y P s s₁)
    (own : Q (s₁.withCurrent package) s')
    (second : ∀ y₁, s₁.rest = y₁ ++ b → Leads b y y₁ → Leads b y₁ [] →
      Carried b z y₁ Q (s₁.withCurrent package) s') :
    Carried b z y
      (fun u u' => ∃ u₁, P u u₁ ∧ u₁.image = s₁.image ∧ Q (u₁.withCurrent package) u') s s' :=
  first.comp (Q := fun u u' => Q (u.withCurrent package) u') own
    fun y₁ rest before after => (second y₁ rest before after).mono .refl fun _ held => held

/-- A step that leaves the text alone is carried. -/
theorem Carried.apart {step : Read α} {a : α} (apart : IsApart step) (ended : step s = .ok a s')
    (rest : s.rest = y ++ b) (leads : Leads b y []) :
    Carried b z y (fun u u' => step u = .ok a u') s s' := by
  obtain ⟨same, others⟩ := apart.ok ended
  exact .inl ⟨y, same.trans rest, .refl, leads, others _⟩

end Carrying

section Insertion

variable {b x body : List Char}

/-- A block comment with a blank on either side. The body goes on to the end of the comment. -/
def commentAround (body : List Char) : List Char := ' ' :: '#' :: '|' :: (body ++ [' '])

/-- Where a list with a tail is complete but for its closing bracket: a lone point stands in `x`, a
datum after it, and nothing but blanks from there to the closing bracket. -/
def AfterTail (features : List String) (b x : List Char) : Prop :=
  ∃ y y' image v image', Leads b x ('.' :: y) ∧ atLonePoint ('.' :: (y ++ b)) = true ∧
    datum features ⟨y ++ b, image⟩ = .ok v ⟨y' ++ b, image'⟩ ∧
    skipBlanks (y' ++ b) = skipBlanks b ∧ (skipBlanks b).head? = some ')'

theorem skipBlanks_comment (body b : List Char) :
    skipBlanks (commentAround body ++ b) = '#' :: '|' :: (body ++ ' ' :: b) := by
  have skipped : skipBlanks (commentAround body ++ b) = '#' :: '|' :: ((body ++ [' ']) ++ b) := rfl
  rw [skipped, List.append_assoc]
  rfl

/-- Blanks are carried: either they go on past the comment, or an item follows them before it. -/
theorem Carried.afterBlanks (closed : skipBlockComment 0 body = some [])
    (reads : Reads features judgment s data s') (after : judgment.IsAfterBlanks) {y : List Char}
    (rest : s.rest = y ++ b) (leads : Leads b y [])
    (ready : ∀ y₁, y₁ ≠ [] → skipBlanks s.rest = y₁ ++ b → Leads b y y₁ → Leads b y₁ [] →
      pastBlanks (s.withRest (y ++ (commentAround body ++ b))) =
        (pastBlanks s).withRest (y₁ ++ (commentAround body ++ b)) →
      Carried b (commentAround body ++ b) y (fun u u' => Reads features judgment u data u') s s') :
    Carried b (commentAround body ++ b) y (fun u u' => Reads features judgment u data u') s s' := by
  obtain through | ⟨y₁, some_, before, later, ends⟩ := leads.blanks
  · have same : pastBlanks (s.withRest (' ' :: b)) = pastBlanks s :=
      show ReadState.mk (skipBlanks b) s.image = _ by rw [pastBlanks, rest, through]
    refine .inr ((reads.of_pastBlanks after same).of_comment after ?_
      (skipBlockComment_append closed _) rfl)
    exact (through _).trans (skipBlanks_comment body b)
  · refine ready y₁ some_ ?_ before later ?_
    · rw [rest, ends]
    · exact congrArg (ReadState.mk · s.image) (ends _)

theorem eq_append_of_append {y y' : List Char} (front : List Char)
    (same : y ++ b = front ++ (y' ++ b)) :
    y = front ++ y' := by
  rw [← List.append_assoc] at same
  exact List.append_cancel_right same

/-- A reading is carried past a comment that is inserted where it may stand. -/
theorem Reads.carried (closed : skipBlockComment 0 body = some []) (notTail : ¬AfterTail features b x)
    (reads : Reads features judgment s data s') :
    ∀ y, s.rest = y ++ b → Leads b x y → Leads b y [] → (¬judgment.IsAfterBlanks → y ≠ []) →
      Carried b (commentAround body ++ b) y (fun u u' => Reads features judgment u data u') s s' := by
  induction reads with
  | @atom s s' _ a v found made =>
      intro y rest _ leads some_
      rw [rest] at found
      obtain ⟨y', rfl, first, leads'⟩ := leads.after (some_ id) (afterLexeme?_atom found)
      refine (Carried.apart a.make_apart made rfl leads').mono (.single first) fun u' made => ?_
      exact .atom (atom?_local.found found _) made
  | marked found _ made datum =>
      intro y rest toHere leads some_
      rw [rest] at found
      obtain ⟨y', rfl, first, leads'⟩ := leads.after (some_ id) (afterLexeme?_mark found)
      refine ((datum y' rfl (toHere.tail first) leads' (absurd trivial)).comp made fun _ rest _ =>
        .apart (.wrapIn _ _) made rest).mono (.single first) fun u' => ?_
      rintro ⟨u₁, datum, -, made⟩
      exact .marked (mark?_local.found found _) datum made
  | list opens _ made elements =>
      intro y rest toHere leads some_
      rw [rest] at opens
      obtain ⟨y', rfl, first, leads'⟩ := leads.after (some_ id) (by rw [opens]; rfl)
      obtain rfl := eq_append_of_append ['('] opens
      refine ((elements y' rfl (toHere.tail first) leads' (absurd trivial)).comp made fun _ rest _ =>
        .apart (.onHeap _) made rest).mono (.single first) fun u' => ?_
      rintro ⟨u₁, elements, -, made⟩
      exact .list rfl elements made
  | vector opens _ made elements =>
      intro y rest toHere leads some_
      rw [rest] at opens
      obtain ⟨y', rfl, first, leads'⟩ := leads.after (some_ id) (by rw [opens]; rfl)
      obtain rfl := eq_append_of_append ['#', '('] opens
      refine ((elements y' rfl (toHere.tail first) leads' (absurd trivial)).comp made fun _ rest _ =>
        .apart (makeVector_apart _ _) made rest).mono (.single first) fun u' => ?_
      rintro ⟨u₁, elements, -, made⟩
      exact .vector rfl elements made
  | comment opens closes =>
      intro y rest toHere leads some_
      rw [rest] at opens
      obtain ⟨y', rfl, first, leads'⟩ := leads.after (some_ id) (by rw [opens]; exact closes)
      obtain ⟨front, -, rfl, again⟩ := skipBlockComment_local closes
      obtain rfl := eq_append_of_append ('#' :: '|' :: front) opens
      refine .inl ⟨y', rfl, .single first, leads', .comment ?_ (again _)⟩
      change '#' :: '|' :: (front ++ y') ++ _ = _
      rw [List.cons_append, List.cons_append, List.append_assoc]
  | @kept s s₁ s' _ _ _ _ _ _ guard _ holds formReads tested form =>
      intro y rest toHere leads some_
      rw [rest] at guard
      obtain ⟨y', rfl, first, leads'⟩ := leads.after (some_ id) (afterLexeme?_guard guard)
      refine ((tested y' rfl (toHere.tail first) leads' (absurd trivial)).comp_current formReads
        fun y₁ rest before after => form y₁ rest ((toHere.tail first).trans before) after
          (absurd trivial)).mono (.single first) fun u' => ?_
      rintro ⟨u₁, tested, image, form⟩
      exact .kept (guard?_local.found guard _) tested (by rw [← holds, ReadState.withCurrent, image]; rfl) form
  | @excluded s s₁ s' _ _ _ _ _ _ guard _ fails formReads tested form =>
      intro y rest toHere leads some_
      rw [rest] at guard
      obtain ⟨y', rfl, first, leads'⟩ := leads.after (some_ id) (afterLexeme?_guard guard)
      refine ((tested y' rfl (toHere.tail first) leads' (absurd trivial)).comp_current formReads
        fun y₁ rest before after => form y₁ rest ((toHere.tail first).trans before) after
          (absurd trivial)).mono (.single first) fun u' => ?_
      rintro ⟨u₁, tested, image, form⟩
      refine .excluded (guard?_local.found guard _) tested ?_ form
      rw [ReadState.withCurrent, image]
      exact fails
  | here itemReads item =>
      intro y rest toHere leads _
      refine .afterBlanks closed (.here itemReads) trivial rest leads
        fun y₁ some_ ends before after same => ?_
      refine (item y₁ ends (toHere.trans before) after fun _ => some_).mono before fun u' item => ?_
      exact .here (same ▸ item)
  | later gapReads nextReads gap next =>
      intro y rest toHere leads _
      refine .afterBlanks closed (.later gapReads nextReads) trivial rest leads
        fun y₁ some_ ends before after same => ?_
      refine ((gap y₁ ends (toHere.trans before) after fun _ => some_).comp nextReads
        fun y₂ rest before₂ after => next y₂ rest ((toHere.trans before).trans before₂) after
          (absurd trivial)).mono before fun u' => ?_
      rintro ⟨u₁, gap, -, next⟩
      exact .later (same ▸ gap) next
  | close closes =>
      intro y rest toHere leads _
      refine .afterBlanks closed (.close closes) trivial rest leads
        fun y₁ some_ ends before after same => ?_
      rw [ends] at closes
      obtain ⟨y', rfl, first, leads'⟩ := after.after some_ (by rw [closes]; rfl)
      obtain rfl := eq_append_of_append [')'] closes
      exact .inl ⟨y', rfl, before.tail first, leads', .close (congrArg ReadState.rest same)⟩
  | @point s s₁ point after _ _ tail found lone elements datumReads closes datum =>
      intro y rest toHere leads _
      refine .afterBlanks closed (.point found lone elements datumReads closes) trivial rest leads
        fun y₁ some_ ends before later same => ?_
      rw [ends] at found
      have stops : Ends point := (atLonePoint_iff _).mp lone
      obtain ⟨y', rfl, first, leads'⟩ :=
        later.after some_ (found ▸ (afterLexeme?_point _).mpr stops)
      obtain rfl := eq_append_of_append ['.'] found
      refine ((datum y' rfl ((toHere.trans before).tail first) leads' (absurd trivial)).comp
        (Q := fun u u' => ∃ after, skipBlanks u.rest = ')' :: after ∧ u' = u.withRest after)
        ⟨after, closes, rfl⟩ fun y₂ rest before₂ after₂ => ?_).mono (before.tail first) fun u' => ?_
      · obtain through | ⟨y₃, some₃, before₃, after₃, ends₃⟩ := after₂.blanks
        · refine absurd ⟨y', y₂, s.image, tail, s₁.image, toHere.trans before, lone, ?_, through b,
            ?_⟩ notTail
          · exact datumReads.sound.trans
              (congrArg (fun text => EStateM.Result.ok tail (ReadState.mk text s₁.image)) rest)
          · rw [← through b, ← rest, closes]
            rfl
        · rw [rest, ends₃] at closes
          obtain ⟨y₄, rfl, first₃, leads₃⟩ := after₃.after some₃ (by rw [closes]; rfl)
          obtain rfl := eq_append_of_append [')'] closes
          exact .inl ⟨y₄, rfl, before₃.tail first₃, leads₃, y₄ ++ _, ends₃ _, rfl⟩
      · rintro ⟨u₁, datum, -, after, closes, rfl⟩
        exact .point (congrArg ReadState.rest same) ((later.point some_ _).trans lone) elements datum
          closes
  | element notPoint itemReads nextReads item next =>
      intro y rest toHere leads _
      refine .afterBlanks closed (.element notPoint itemReads nextReads) trivial rest leads
        fun y₁ some_ ends before after same => ?_
      refine ((item y₁ ends (toHere.trans before) after fun _ => some_).comp nextReads
        fun y₂ rest before₂ after => next y₂ rest ((toHere.trans before).trans before₂) after
          (absurd trivial)).mono before fun u' => ?_
      rintro ⟨u₁, item, -, next⟩
      rw [ends, ← after.point some_] at notPoint
      exact .element ((congrArg (atLonePoint ·.rest) same).trans notPoint) (same ▸ item) next
  | gap notPoint gapReads nextReads gap next =>
      intro y rest toHere leads _
      refine .afterBlanks closed (.gap notPoint gapReads nextReads) trivial rest leads
        fun y₁ some_ ends before after same => ?_
      refine ((gap y₁ ends (toHere.trans before) after fun _ => some_).comp nextReads
        fun y₂ rest before₂ after => next y₂ rest ((toHere.trans before).trans before₂) after
          (absurd trivial)).mono before fun u' => ?_
      rintro ⟨u₁, gap, -, next⟩
      rw [ends, ← after.point some_] at notPoint
      exact .gap ((congrArg (atLonePoint ·.rest) same).trans notPoint) (same ▸ gap) next
  | done ends =>
      intro y rest toHere leads _
      refine .afterBlanks closed (.done ends) trivial rest leads fun y₁ some_ shape _ _ _ => ?_
      exact absurd (List.append_eq_nil_iff.mp (shape.symm.trans ends)).1 some_
  | form itemReads nextReads item next =>
      intro y rest toHere leads _
      refine .afterBlanks closed (.form itemReads nextReads) trivial rest leads
        fun y₁ some_ ends before after same => ?_
      refine ((item y₁ ends (toHere.trans before) after fun _ => some_).comp nextReads
        fun y₂ rest before₂ after => next y₂ rest ((toHere.trans before).trans before₂) after
          (absurd trivial)).mono before fun u' => ?_
      rintro ⟨u₁, item, -, next⟩
      exact .form (same ▸ item) next
  | nothing gapReads nextReads gap next =>
      intro y rest toHere leads _
      refine .afterBlanks closed (.nothing gapReads nextReads) trivial rest leads
        fun y₁ some_ ends before after same => ?_
      refine ((gap y₁ ends (toHere.trans before) after fun _ => some_).comp nextReads
        fun y₂ rest before₂ after => next y₂ rest ((toHere.trans before).trans before₂) after
          (absurd trivial)).mono before fun u' => ?_
      rintro ⟨u₁, gap, -, next⟩
      exact .nothing (same ▸ gap) next

/-- When all data of a text are read, nothing is left. -/
theorem Reads.ends {forms : List Value} (reads : Reads features judgment s data s')
    (all : judgment = .all forms) : s'.rest = [] := by
  induction reads generalizing forms with
  | done ends => exact ends
  | form _ _ _ next | nothing _ _ _ next => exact next rfl
  | _ => cases all

/-- A block comment is white space: with blanks around it, it may be inserted between any two
lexemes of a text that can be read, except between the tail of a list and its closing bracket, and
the same data are read and the same image is left. -/
theorem readAll_commented {image : Image} {forms : List Value}
    (closed : skipBlockComment 0 body = some []) (between : Leads b x [])
    (notTail : ¬AfterTail features b x)
    (readable : readAll features ⟨x ++ b, image⟩ = .ok forms s') :
    readAll features ⟨x ++ (commentAround body ++ b), image⟩ = .ok forms s' := by
  obtain ⟨data, reads⟩ := Reads.of_readAll readable
  obtain ⟨y', -, -, -, carried⟩ | carried :=
    reads.carried closed notTail x rfl .refl between (absurd trivial)
  · exact absurd (carried.ends rfl) (by simp [commentAround, ReadState.withRest])
  · exact carried.sound

/-- A comment within a comment is inserted between two characters of a list. -/
theorem readAll_commented_list :
    skipBlockComment 0 "x #|y|# z|#".toList = some [] ∧ Leads " #\\b)".toList "(#\\a".toList [] ∧
      ¬AfterTail [] " #\\b)".toList "(#\\a".toList ∧
      ∃ forms s',
        readAll [] ⟨"(#\\a".toList ++ " #\\b)".toList, Image.initial 0⟩ = .ok forms s' ∧
        readAll [] ⟨"(#\\a".toList ++ (commentAround "x #|y|# z|#".toList ++ " #\\b)".toList),
          Image.initial 0⟩ = .ok forms s' := by
  have closed : skipBlockComment 0 "x #|y|# z|#".toList = some [] := by decide +kernel
  have opening : Follows " #\\b)".toList "(#\\a".toList "#\\a".toList := by
    exact ⟨by decide +kernel, by decide +kernel⟩
  have character : Follows " #\\b)".toList "#\\a".toList [] :=
    ⟨by decide +kernel, by decide +kernel⟩
  have between : Leads " #\\b)".toList "(#\\a".toList [] := .head opening (.single character)
  have notTail : ¬AfterTail [] " #\\b)".toList "(#\\a".toList := by
    rintro ⟨_, _, _, _, _, _, _, _, _, closes⟩
    exact absurd closes (by decide +kernel)
  have succeeds : failure? (readAll [] ⟨"(#\\a".toList ++ " #\\b)".toList, Image.initial 0⟩) = none := by
    decide +kernel
  obtain ⟨forms, s', readable⟩ := ok_of_failure? succeeds
  exact ⟨closed, between, notTail, forms, s', readable,
    readAll_commented closed between notTail readable⟩

/-- After a tail a comment makes a list unreadable. -/
theorem readAll_comment_after_tail :
    failure? (readAll [] ⟨"(#\\a . #\\b)".toList, Image.initial 0⟩) = none ∧
      failure? (readAll [] ⟨"(#\\a . #\\b #|x|# )".toList, Image.initial 0⟩) =
        some (.unexpectedChar '#') := by
  decide +kernel

end Insertion

end LispScript.Reader
