import LispScript.Proofs.ReadingRules
import LispScript.Session

/-!
Reading a text form by form. What a reading leaves of a text is the end of it that begins where the
reader has stopped, and nothing but this end and the image tells how reading goes on. So a reader of its
own for each form gives the same as one reader for all of them.
-/

namespace LispScript

namespace Reader

section Rest

variable {features : List String} {s s' : ReadState} {judgment : Judgment} {data : List Value}

theorem scanned?_suffix {make : α → Atom} {scan : List Char → Except ReadError α × List Char}
    (scans : Scans scan) {text rest : List Char} {a : Atom}
    (found : scanned? make (scan text) = some (a, rest)) : rest <:+ text := by
  have suffix := scans.suffix text
  unfold scanned? at found
  split at found
  · rename_i scanned
    cases found
    rwa [scanned] at suffix
  · cases found

theorem atom?_suffix {text rest : List Char} {a : Atom} (found : atom? text = some (a, rest)) :
    rest <:+ text := by
  unfold atom? at found
  split at found
  · cases found
  · rename_i text
    obtain ⟨⟨string, after⟩, scanned, same⟩ := Option.map_eq_some_iff.mp found
    cases same
    exact (scanString_suffix scanned).trans (List.suffix_cons _ _)
  · exact ((scanned?_suffix .character found).trans (List.suffix_cons _ _)).trans
      (List.suffix_cons _ _)
  · exact ((scanned?_suffix .token found).trans (List.suffix_cons _ _)).trans
      (List.suffix_cons _ _)
  · cases found
  · split at found
    · cases found
    · exact scanned?_suffix .token found

theorem mark?_suffix {text rest : List Char} {operator : String}
    (found : mark? text = some (operator, rest)) : rest <:+ text := by
  unfold mark? at found
  split at found
  · cases found
    exact List.suffix_cons _ _
  · cases found
    exact List.suffix_cons _ _
  · split at found
    · cases found
      exact (List.tail_suffix _).trans (List.suffix_cons _ _)
    · cases found
      exact List.suffix_cons _ _
  · cases found
    exact (List.suffix_cons _ _).trans (List.suffix_cons _ _)
  · cases found

theorem guard?_suffix {text rest : List Char} {wanted : Bool}
    (found : guard? text = some (wanted, rest)) : rest <:+ text := by
  unfold guard? at found
  split at found
  · cases found
    exact (List.suffix_cons _ _).trans (List.suffix_cons _ _)
  · cases found
    exact (List.suffix_cons _ _).trans (List.suffix_cons _ _)
  · cases found

theorem suffix_of_blanks {text rest : List Char} {c : Char} (found : skipBlanks text = c :: rest) :
    rest <:+ text :=
  (List.suffix_cons c rest).trans (found ▸ skipBlanksFrom_suffix false text)

/-- What is left of a text is an end of it. -/
theorem Reads.suffix (reads : Reads features judgment s data s') : s'.rest <:+ s.rest := by
  have blanks (s : ReadState) : (pastBlanks s).rest <:+ s.rest := skipBlanksFrom_suffix false s.rest
  induction reads with
  | atom found made => exact (Atom.make_apart _).ok made |>.1 ▸ atom?_suffix found
  | marked found _ made ih =>
      have same := ((IsApart.wrapIn _ _).ok made).1
      exact same ▸ ih.trans (mark?_suffix found)
  | list opens _ made ih =>
      have same := ((IsApart.onHeap _).ok made).1
      exact same ▸ ih.trans (opens ▸ List.suffix_cons _ _)
  | vector opens _ made ih =>
      have same := ((makeVector_apart _ _).ok made).1
      exact same ▸ ih.trans (opens ▸ (List.suffix_cons _ _).trans (List.suffix_cons _ _))
  | comment opens closes =>
      exact (skipBlockComment_suffix closes).trans
        (opens ▸ (List.suffix_cons _ _).trans (List.suffix_cons _ _))
  | kept guard _ _ _ ihTested ihForm | excluded guard _ _ _ ihTested ihForm =>
      exact ihForm.trans (ihTested.trans (guard?_suffix guard))
  | here _ ih => exact ih.trans (blanks _)
  | later _ _ ihGap ihNext => exact ihNext.trans (ihGap.trans (blanks _))
  | close closes => exact suffix_of_blanks closes
  | point point _ _ _ closes ih =>
      exact (suffix_of_blanks closes).trans (ih.trans (suffix_of_blanks point))
  | element _ _ _ ihItem ihNext => exact ihNext.trans (ihItem.trans (blanks _))
  | gap _ _ _ ihGap ihNext => exact ihNext.trans (ihGap.trans (blanks _))
  | done _ => exact blanks _
  | form _ _ ihItem ihNext => exact ihNext.trans (ihItem.trans (blanks _))
  | nothing _ _ ihGap ihNext => exact ihNext.trans (ihGap.trans (blanks _))

theorem item_suffix {value? : Option Value} (ready : AtItem s)
    (ended : item features s = .ok value? s') : s'.rest <:+ s.rest := by
  obtain ⟨data, reads⟩ := Reads.of_item ready.ready ended
  exact reads.suffix

theorem read_suffix {form? : Option Value} (ended : read features s = .ok form? s') :
    s'.rest <:+ s.rest := by
  induction length : s.rest.length using Nat.strongRecOn generalizing s with
  | ind n ih =>
      have blanks : (pastBlanks s).rest <:+ s.rest := skipBlanksFrom_suffix false s.rest
      rw [read_eq] at ended
      split at ended
      · cases ended
        exact blanks
      · rename_i some_
        have ready := atItem_pastBlanks some_
        cases found : item features (pastBlanks s) with
        | error e later =>
            rw [found] at ended
            cases ended
        | ok value? later =>
            rw [found] at ended
            have suffix := (item_suffix ready found).trans blanks
            have shorter := (item_ok ready found).1
            have bound := blanks.length_le
            cases value? with
            | some value =>
                cases ended
                exact suffix
            | none => exact (ih _ (by omega) ended rfl).trans suffix

/-- The rest of a text begins after as many characters as the reader has passed. -/
theorem read_rest {text : List Char} {image : Image} {form? : Option Value}
    (ended : read features ⟨text, image⟩ = .ok form? s) : s.rest = text.drop (position text s) :=
  List.suffix_iff_eq_drop.mp (read_suffix ended)

end Rest

end Reader

section Offsets

/-- The offset in bytes at which a text goes on after so many characters. -/
def byteOffset : Nat → List Char → Nat
  | count + 1, c :: cs => c.utf8Size + byteOffset count cs
  | _, _ => 0

/-- What stands in a text from an offset in bytes on. -/
def cutAtByte : Nat → List Char → List Char
  | offset + 1, c :: cs => cutAtByte (offset + 1 - c.utf8Size) cs
  | _, cs => cs

theorem cutAtByte_byteOffset (count : Nat) (text : List Char) :
    cutAtByte (byteOffset count text) text = text.drop count := by
  fun_induction byteOffset count text with
  | case1 count c cs ih =>
      obtain ⟨size, size_eq⟩ := Nat.exists_eq_add_of_lt c.utf8Size_pos
      rw [show c.utf8Size + byteOffset count cs = size + byteOffset count cs + 1 by omega, cutAtByte,
        show size + byteOffset count cs + 1 - c.utf8Size = byteOffset count cs by omega, ih,
        List.drop_succ_cons]
  | case2 count text other =>
      cases count with
      | zero => exact cutAtByte.eq_2 0 text nofun
      | succ count =>
          cases text with
          | nil => rfl
          | cons c cs => exact (other count c cs rfl rfl).elim

end Offsets

section Sequences

variable {features : List String}

/-- Data that were seen before do not matter to the ones that follow. -/
theorem Reader.readManyFrom_seen (count : Nat) (seen : List Value) (s : ReadState) :
    readManyFrom features count seen s = withBefore seen.reverse (readManyFrom features count [] s) := by
  induction count generalizing seen s with
  | zero => exact congrArg (EStateM.Result.ok · s) (List.append_nil _).symm
  | succ count ih =>
      rw [readManyFrom_succ, readManyFrom_succ]
      cases read features s with
      | error e s' => rfl
      | ok form? s' =>
          cases form? with
          | none => exact congrArg (EStateM.Result.ok · s') (List.append_nil _).symm
          | some value =>
              dsimp only
              rw [ih, ih [value], ← withBefore_append, List.reverse_cons, List.reverse_singleton]

namespace Session

/-- The next form of a text, by a reader of its own. Where the rest of the text begins is told by the
number of characters that this reader has passed. -/
def readNextByCount (text : List Char) : SessionStep (Option (Value × List Char)) := fun s =>
  match Reader.read s.features ⟨text, s.image⟩ with
  | .ok form? later =>
      let rest := cutAtByte (byteOffset (Reader.position text later) text) text
      .ok (form?.map (·, rest)) (s.withImage later.image)
  | .error e later => .error (.reader e) (s.withImage later.image)

theorem readNext_eq (text : List Char) : readNext text = readNextByCount text := by
  funext session
  have read : reading Reader.read text session =
      match Reader.read session.features ⟨text, session.image⟩ with
      | .ok form? later => .ok (form?, later.rest) (session.withImage later.image)
      | .error e later => .error (.reader e) (session.withImage later.image) := by
    unfold reading image
    cases Reader.read session.features ⟨text, session.state.image⟩ <;> rfl
  change EStateM.bind (reading Reader.read text) _ session = _
  rw [EStateM.bind, read, readNextByCount]
  cases ended : Reader.read session.features ⟨text, session.image⟩ with
  | error e later => rfl
  | ok form? later =>
      dsimp only
      rw [cutAtByte_byteOffset, ← Reader.read_rest ended]
      rfl

/-- What a session makes of the forms that were read. -/
def afterReading (session : Session) (f : List Value → α) :
    EStateM.Result ReadError ReadState (List Value) → EStateM.Result SessionError Session α
  | .ok forms later => .ok (f forms) (session.withImage later.image)
  | .error e later => .error (.reader e) (session.withImage later.image)

/-- Forms that are taken in one after another, each as soon as it is read. -/
theorem foldForms_eq {α : Type} (f : α → Value → α) (count : Nat) (a : α) (text : List Char)
    (session : Session) :
    foldForms (fun a form => pure (f a form)) count a text session =
      session.afterReading (·.foldl f a)
        (Reader.readManyFrom session.features count [] ⟨text, session.image⟩) := by
  induction count generalizing a text session with
  | zero => rfl
  | succ count ih =>
      rw [foldForms, Reader.readManyFrom]
      change EStateM.bind (readNext text) _ session = session.afterReading _ (EStateM.bind _ _ _)
      rw [EStateM.bind, EStateM.bind, readNext_eq, readNextByCount]
      cases ended : Reader.read session.features ⟨text, session.image⟩ with
      | error e later => rfl
      | ok form? later =>
          cases form? with
          | none => rfl
          | some form =>
              have rest := Reader.read_rest ended
              dsimp only [Option.map]
              rw [cutAtByte_byteOffset, ← rest, Reader.readManyFrom_seen]
              refine (ih (f a form) later.rest (session.withImage later.image)).trans ?_
              have image : (session.withImage later.image).image = later.image := rfl
              have features : (session.withImage later.image).features = session.features := rfl
              rw [image, features]
              cases Reader.readManyFrom session.features count [] later <;> rfl

/-- Reading a text form by form is reading it in one go. A session reads each form of a text by a reader
of its own, on the rest that the one before has left: the text from the character on that this one had
not passed yet. As long as nothing else is done in between, any number of forms read in this way are those
that one reader finds in the whole text, in the same image afterwards, with the same symbols in the same
order; and where reading fails, it does so after the same forms, with the same error, and in the same
image. -/
theorem reads_form_by_form (session : Session) (text : List Char) :
    (∀ rest, readNext rest = readNextByCount rest) ∧
      ∀ (α : Type) (f : α → Value → α) (a : α),
        (∀ count, foldForms (fun a form => pure (f a form)) count a text session =
          session.afterReading (·.foldl f a)
            (Reader.readManyFrom session.features count [] ⟨text, session.image⟩)) ∧
        foldText (fun a form => pure (f a form)) a (String.ofList text) session =
          session.afterReading (·.foldl f a)
            (Reader.readAll session.features ⟨text, session.image⟩) := by
  refine ⟨readNext_eq, fun α f a => ⟨fun count => foldForms_eq f count a text session, ?_⟩⟩
  rw [foldText, String.length_ofList, String.toList_ofList]
  exact foldForms_eq f (text.length + 1) a text session

end Session

end Sequences

end LispScript
