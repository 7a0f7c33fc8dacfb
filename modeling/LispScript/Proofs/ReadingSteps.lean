import LispScript.Proofs.Concatenation
import LispScript.Proofs.Forms

/-!
The reader without fuel. Its parts obey equations by what the text begins with: an atom, a mark, a
bracket, a vector, a block comment or a feature guard, after blanks where blanks may stand.
-/

namespace LispScript

/-- The same place with another package current. -/
def ReadState.withCurrent (s : ReadState) (package : PackageId) : ReadState :=
  { s with image := { s.image with symbols := s.image.symbols.setCurrent package } }

def ReadState.withRest (s : ReadState) (rest : List Char) : ReadState := { s with rest }

namespace Reader

section Lexemes

/-- An item without parts. -/
inductive Atom where
  | string (text : String)
  | character (c : Char)
  | uninterned (token : Token)
  | spelled (token : Token)

/-- The value of an atom. -/
def Atom.make : Atom → Read Value
  | string text => onHeap (·.allocString text)
  | character c => pure (.character c)
  | uninterned token => do return .symbol (← onSymbols (·.makeSymbol token.text))
  | spelled token => atomOfToken token

/-- What a scanner of tokens or characters finds if it succeeds. -/
def scanned? (make : α → Atom) : Except ReadError α × List Char → Option (Atom × List Char)
  | (.ok a, rest) => some (make a, rest)
  | (.error _, _) => none

/-- The atom that a text begins with, and what follows it. -/
def atom? : List Char → Option (Atom × List Char)
  | [] => none
  | '"' :: rest => (scanString [] rest).map fun (text, rest) => (.string text, rest)
  | '#' :: '\\' :: rest => scanned? .character (scanCharacter rest)
  | '#' :: ':' :: rest => scanned? .uninterned (scanToken rest)
  | '#' :: _ => none
  | c :: rest => if isTerminating c then none else scanned? .spelled (scanToken (c :: rest))

theorem atom?_token {c : Char} (goes : isTerminating c = false) (other : c ≠ '#')
    (rest : List Char) : atom? (c :: rest) = scanned? .spelled (scanToken (c :: rest)) := by
  unfold atom?
  split
  · rename_i same
    cases same
  · rename_i same
    obtain ⟨rfl, -⟩ := List.cons.inj same
    cases goes
  · rename_i same
    exact absurd (List.cons.inj same).1 other
  · rename_i same
    exact absurd (List.cons.inj same).1 other
  · rename_i same
    exact absurd (List.cons.inj same).1 other
  · rename_i same
    obtain ⟨rfl, rfl⟩ := List.cons.inj same
    exact if_neg (by simp [goes])

/-- The operator that the mark at the front of a text stands for, and what follows the mark. -/
def mark? : List Char → Option (String × List Char)
  | '\'' :: rest => some ("QUOTE", rest)
  | '\x60' :: rest => some ("BACKQUOTE", rest)
  | ',' :: rest =>
      if rest.head? = some '@' then some ("UNQUOTE-SPLICING", rest.tail)
      else some ("UNQUOTE", rest)
  | '#' :: '\'' :: rest => some ("FUNCTION", rest)
  | _ => none

/-- Whether a guard wants its features to be present. -/
def guard? : List Char → Option (Bool × List Char)
  | '#' :: '+' :: rest => some (true, rest)
  | '#' :: '-' :: rest => some (false, rest)
  | _ => none

end Lexemes

/-- A vector of the elements of a list. -/
def makeVector (items : List Value) (tail : Value) : Read Value := do
  let list ← onHeap (·.allocListWithTail items tail)
  let (items, _) := (← get).image.heap.splitDotted list
  onHeap (·.allocVector items.toArray)

section Steps

variable {α β : Type} {s s' : ReadState} {x y : Read α} {f : α → Read β}

/-- Why a step fails, if it does. -/
def failure? : EStateM.Result ReadError ReadState α → Option ReadError
  | .ok _ _ => none
  | .error e _ => some e

theorem ok_of_failure? {result : EStateM.Result ReadError ReadState α}
    (succeeds : failure? result = none) : ∃ a s, result = .ok a s := by
  cases result with
  | ok a s => exact ⟨a, s, rfl⟩
  | error e s => cases succeeds

theorem bind_of_ok {a : α} (ended : x s = .ok a s') : (x >>= f) s = f a s' := by
  change EStateM.bind x f s = _
  rw [EStateM.bind, ended]

theorem bind_of_error {e : ReadError} (ended : x s = .error e s') :
    (x >>= f) s = .error e s' := by
  change EStateM.bind x f s = _
  rw [EStateM.bind, ended]

theorem bind_congr_at (same : x s = y s) : (x >>= f) s = (y >>= f) s := by
  change EStateM.bind x f s = EStateM.bind y f s
  rw [EStateM.bind, EStateM.bind, same]

theorem map_congr_at (same : x s = y s) {f : α → β} : (f <$> x) s = (f <$> y) s := by
  change EStateM.map f x s = EStateM.map f y s
  rw [EStateM.map, EStateM.map, same]

theorem map_of_ok {a : α} (ended : x s = .ok a s') {f : α → β} :
    (f <$> x) s = .ok (f a) s' := by
  change EStateM.map f x s = _
  rw [EStateM.map, ended]

theorem ok_of_map {f : α → β} {b : β} (ended : (f <$> x) s = .ok b s') :
    ∃ a, x s = .ok a s' ∧ f a = b := by
  change EStateM.map f x s = _ at ended
  rw [EStateM.map] at ended
  split at ended
  · rename_i a t done
    cases ended
    exact ⟨a, done, rfl⟩
  · cases ended

theorem advance_cons {f : Unit → Read α} {c : Char} {rest : List Char} {image : Image} :
    (advance 1 >>= f) ⟨c :: rest, image⟩ = f () ⟨rest, image⟩ := rfl

theorem pastBlanks_eq {text : List Char} (found : skipBlanks s.rest = text) :
    pastBlanks s = ⟨text, s.image⟩ := by
  rw [pastBlanks, found]

theorem atLonePoint_cons {text : List Char} (lone : atLonePoint text = true) :
    ∃ rest, text = '.' :: rest := by
  unfold atLonePoint at lone
  split at lone
  · exact ⟨_, rfl⟩
  · exact ⟨_, rfl⟩
  · cases lone

theorem ok_of_lex {scan : List Char → Except ReadError α × List Char} {a : α}
    (ended : lex scan s = .ok a s') : scan s.rest = (.ok a, s'.rest) ∧ s' = s.withRest s'.rest := by
  unfold lex at ended
  split at ended
  · cases ended
    exact ⟨by assumption, rfl⟩
  · cases ended

theorem lex_of_ok {scan : List Char → Except ReadError α × List Char} {a : α} {r : List Char}
    (scanned : scan s.rest = (.ok a, r)) : lex scan s = .ok a (s.withRest r) := by
  unfold lex
  rw [scanned]
  rfl

end Steps

section Readers

variable {features : List String} {fuel : Nat} {s s' : ReadState} {rest : List Char} {image : Image}

/-- A datum that must be there, with fuel enough for any text. -/
def datum (features : List String) : Read Value := do
  readDatum features (stepsFor (← get).rest.length)

/-- The elements of a list after those in `seen`, with fuel enough for any text. -/
def elements (features : List String) (seen : List Value) : Read (List Value × Value) := do
  readElements features (stepsFor (← get).rest.length) seen

/-- A feature expression and the form it guards. -/
def guarded (features : List String) (wanted : Bool) : Read (Option Value) := do
  let expression ← withPackage PackageId.keyword (datum features)
  let image := (← get).image
  let present := featureHolds features image image.heap.size expression
  let form ← datum features
  return if present = wanted then some form else none

/-- What no longer depends on its fuel from some amount on. -/
theorem eq_of_steady {γ : Type} (result : Nat → γ) {least : Nat}
    (steady : ∀ fuel, least ≤ fuel → result (fuel + 1) = result fuel) {fuel other : Nat}
    (enough : least ≤ fuel) (enough' : least ≤ other) : result fuel = result other := by
  have from_ (fuel : Nat) (enough : least ≤ fuel) : result fuel = result least := by
    induction fuel, enough using Nat.le_induction with
    | base => rfl
    | succ fuel enough ih => rw [steady fuel enough, ih]
  rw [from_ fuel enough, from_ other enough']

theorem readDatum_eq (enough : 3 * s.rest.length + 2 ≤ fuel) :
    readDatum features fuel s = datum features s :=
  eq_of_steady (fun fuel => readDatum features fuel s)
    (fun fuel enough => ((Ample.all features fuel).datum _ enough).same s (Nat.le_refl _)) enough
    (by rw [stepsFor]; omega)

theorem readElements_eq {seen : List Value} (enough : 3 * s.rest.length + 2 ≤ fuel) :
    readElements features fuel seen s = elements features seen s :=
  eq_of_steady (fun fuel => readElements features fuel seen s)
    (fun fuel enough => ((Ample.all features fuel).elements _ seen enough).same s (Nat.le_refl _))
    enough (by rw [stepsFor]; omega)

theorem datum_ok {v : Value} (ended : datum features s = .ok v s') :
    s'.rest.length < s.rest.length :=
  (((Ample.all features (stepsFor s.rest.length)).datum _ (by rw [stepsFor]; omega)).ok s v s'
    (Nat.le_refl _) ended).1

theorem withPackage_eq {α : Type} (package : PackageId) (step : Read α) :
    withPackage package step s =
      match step (s.withCurrent package) with
      | .ok a s' => .ok a (s'.withCurrent s.image.symbols.current)
      | .error e s' => .error e (s'.withCurrent s.image.symbols.current) := rfl

/-- How a datum is read from an item. -/
def continueWithDatum (next : Read Value) :
    EStateM.Result ReadError ReadState (Option Value) → EStateM.Result ReadError ReadState Value
  | .ok (some value) s => .ok value s
  | .ok none s => next s
  | .error e s => .error e s

/-- A datum is the next item that yields one. -/
theorem datum_eq (s : ReadState) :
    datum features s =
      if skipBlanks s.rest = [] then .error .unexpectedEnd (pastBlanks s)
      else if (skipBlanks s.rest).head? = some ')' then
        .error (.unexpectedChar ')') (pastBlanks s)
      else continueWithDatum (datum features) (item features (pastBlanks s)) := by
  have unfolded : datum features s = readDatum features (4 * s.rest.length + 3 + 1) s := rfl
  rw [unfolded, readDatum, bind_of_ok (show skip s = .ok () (pastBlanks s) from rfl),
    bind_of_ok (show peek (pastBlanks s) = .ok (skipBlanks s.rest).head? (pastBlanks s) from rfl)]
  by_cases ends : skipBlanks s.rest = []
  · rw [if_pos ends, ends]
    rfl
  · have shorter := pastBlanks_length s
    have ready := atItem_pastBlanks ends
    obtain ⟨c, left, shape⟩ := List.exists_cons_of_ne_nil ends
    rw [if_neg ends, shape]
    generalize first : (c :: left).head? = next?
    split
    · cases first
    · rw [if_pos rfl]
      rfl
    · rename_i c notClosing
      rw [if_neg (fun same => notClosing (Option.some.inj same)),
        bind_congr_at (readItem_eq_item ready (by omega))]
      cases ended : item features (pastBlanks s) with
      | error e s' => rw [bind_of_error ended]; rfl
      | ok value? s' =>
          rw [bind_of_ok ended]
          cases value? with
          | some value => rfl
          | none =>
              obtain ⟨taken, -⟩ := item_ok ready ended
              exact readDatum_eq (by omega)

theorem item_cons (c : Char) (rest : List Char) (image : Image) :
    item features ⟨c :: rest, image⟩ =
      readItem features (4 * (rest.length + 1) + 3 + 1) ⟨c :: rest, image⟩ := rfl

theorem item_list :
    item features ⟨'(' :: rest, image⟩ =
      (elements features [] >>= fun found =>
        some <$> onHeap (·.allocListWithTail found.1 found.2)) ⟨rest, image⟩ := by
  rw [item_cons, readItem]
  change (readElements features _ [] >>= _) ⟨rest, image⟩ = _
  exact bind_congr_at (readElements_eq (by dsimp only; omega))

theorem item_sharp :
    item features ⟨'#' :: rest, image⟩ =
      readDispatch features (4 * (rest.length + 1) + 3) ⟨rest, image⟩ := by
  rw [item_cons, readItem]
  rfl

theorem item_vector :
    item features ⟨'#' :: '(' :: rest, image⟩ =
      (elements features [] >>= fun found => some <$> makeVector found.1 found.2)
        ⟨rest, image⟩ := by
  rw [item_sharp, readDispatch]
  change (readElements features _ [] >>= _) ⟨rest, image⟩ = _
  rw [bind_congr_at (readElements_eq (by dsimp only [List.length_cons]; omega))]
  rfl

theorem item_comment :
    item features ⟨'#' :: '|' :: rest, image⟩ =
      (lex commentScanner >>= fun _ => pure none) ⟨rest, image⟩ := by
  rw [item_sharp, readDispatch]
  rfl

theorem wrapped_eq (operator : String) (enough : 3 * s.rest.length + 2 ≤ fuel) :
    (some <$> (wrapIn operator =<< readDatum features fuel)) s =
      (some <$> (wrapIn operator =<< datum features)) s :=
  map_congr_at (bind_congr_at (readDatum_eq enough))

theorem item_marked {text : List Char} {operator : String}
    (found : mark? text = some (operator, rest)) :
    item features ⟨text, image⟩ = (some <$> (wrapIn operator =<< datum features)) ⟨rest, image⟩ := by
  unfold mark? at found
  split at found
  · cases found
    rw [item_cons, readItem]
    exact wrapped_eq (s := ⟨rest, image⟩) _ (by dsimp only; omega)
  · cases found
    rw [item_cons, readItem]
    exact wrapped_eq (s := ⟨rest, image⟩) _ (by dsimp only; omega)
  · rename_i left
    rw [item_cons, readItem]
    split at found
    · rename_i splices
      cases found
      obtain ⟨rest, rfl⟩ := List.head?_eq_some_iff.mp splices
      exact wrapped_eq (s := ⟨rest, image⟩) _ (by dsimp only [List.length_cons]; omega)
    · rename_i plain
      cases found
      change (if rest.head? = some '@' then _ else _ : Read (Option Value)) _ = _
      rw [if_neg plain]
      exact wrapped_eq (s := ⟨rest, image⟩) _ (by dsimp only; omega)
  · cases found
    rw [item_sharp, readDispatch]
    exact wrapped_eq (s := ⟨rest, image⟩) _ (by dsimp only [List.length_cons]; omega)
  · cases found

theorem readGuarded_eq (wanted : Bool) (enough : 3 * s.rest.length + 3 ≤ fuel) :
    readGuarded features fuel wanted s = guarded features wanted s := by
  obtain ⟨fuel, rfl⟩ := Nat.exists_eq_add_of_le' (Nat.le_trans (Nat.le_add_left 1 _) enough)
  have tested : withPackage PackageId.keyword (readDatum features fuel) s =
      withPackage PackageId.keyword (datum features) s := by
    unfold withPackage
    dsimp only
    rw [readDatum_eq (by dsimp only; omega)]
  rw [readGuarded, guarded, bind_congr_at tested]
  cases ended : withPackage PackageId.keyword (datum features) s with
  | error e s' => rw [bind_of_error ended, bind_of_error ended]
  | ok expression s' =>
      have shorter : s'.rest.length ≤ s.rest.length := by
        rw [withPackage_eq] at ended
        split at ended
        · rename_i middle
          cases ended
          exact (datum_ok middle).le
        · cases ended
      rw [bind_of_ok ended, bind_of_ok ended]
      exact bind_congr_at (readDatum_eq (by omega))

theorem item_guarded {text : List Char} {wanted : Bool}
    (found : guard? text = some (wanted, rest)) :
    item features ⟨text, image⟩ = guarded features wanted ⟨rest, image⟩ := by
  unfold guard? at found
  split at found
  · cases found
    rw [item_sharp, readDispatch]
    exact readGuarded_eq (s := ⟨rest, image⟩) _ (by dsimp only [List.length_cons]; omega)
  · cases found
    rw [item_sharp, readDispatch]
    exact readGuarded_eq (s := ⟨rest, image⟩) _ (by dsimp only [List.length_cons]; omega)
  · cases found

theorem scanned?_eq {make : α → Atom} {result : Except ReadError α × List Char} {a : Atom}
    (found : scanned? make result = some (a, rest)) :
    ∃ scanned, result = (.ok scanned, rest) ∧ a = make scanned := by
  unfold scanned? at found
  split at found
  · cases found
    exact ⟨_, rfl, rfl⟩
  · cases found

theorem item_token {c : Char} (goes : isTerminating c = false) (other : c ≠ '#') :
    item features ⟨c :: rest, image⟩ =
      (lex scanToken >>= fun token => some <$> atomOfToken token) ⟨c :: rest, image⟩ := by
  rw [item_cons, readItem]
  rw [bind_of_ok (show peek ⟨c :: rest, image⟩ = .ok (some c) ⟨c :: rest, image⟩ from rfl)]
  generalize first : some c = next?
  split
  · cases first
  iterate 6
    · cases first
      cases goes
  · cases first
    contradiction
  · rfl

theorem item_atom {text : List Char} {a : Atom} (found : atom? text = some (a, rest)) :
    item features ⟨text, image⟩ = (some <$> a.make) ⟨rest, image⟩ := by
  unfold atom? at found
  split at found
  · cases found
  · rename_i left
    obtain ⟨⟨text, after⟩, closed, same⟩ := Option.map_eq_some_iff.mp found
    cases same
    rw [item_cons, readItem]
    change (lex stringScanner >>= fun text => some <$> onHeap (·.allocString text)) ⟨left, image⟩ = _
    rw [bind_of_ok (lex_of_ok (r := rest) (a := text) _)]
    · rfl
    · rw [stringScanner, closed]
  · rename_i left
    obtain ⟨c, scanned, rfl⟩ := scanned?_eq found
    rw [item_sharp, readDispatch]
    change (lex scanCharacter >>= _) ⟨left, image⟩ = _
    rw [bind_of_ok (lex_of_ok scanned)]
    rfl
  · rename_i left
    obtain ⟨token, scanned, rfl⟩ := scanned?_eq found
    rw [item_sharp, readDispatch]
    change (lex scanToken >>= _) ⟨left, image⟩ = _
    rw [bind_of_ok (lex_of_ok scanned)]
    rfl
  · cases found
  · rename_i c left notString notCharacter notUninterned other
    split at found
    · cases found
    · rename_i goes
      obtain ⟨token, scanned, rfl⟩ := scanned?_eq found
      rw [item_token (by simpa using goes) other, bind_of_ok (lex_of_ok scanned)]
      rfl

/-- How the elements of a list go on after an item. -/
def continueWithElements (next : List Value → Read (List Value × Value)) (seen : List Value) :
    EStateM.Result ReadError ReadState (Option Value) →
      EStateM.Result ReadError ReadState (List Value × Value)
  | .ok (some value) s => next (value :: seen) s
  | .ok none s => next seen s
  | .error e s => .error e s

/-- What follows the lone point of a list. -/
def dotted (features : List String) (seen : List Value) : Read (List Value × Value) := do
  if seen.isEmpty then throw (.unexpectedChar '.')
  advance 1
  let tail ← datum features
  closing seen.reverse tail

/-- The elements of a list end at a closing bracket or after a lone point; else they begin with an
item. -/
theorem elements_eq (seen : List Value) (s : ReadState) :
    elements features seen s =
      atElement (.error .unterminatedList (pastBlanks s))
        (.ok (seen.reverse, .nil) (s.withRest (skipBlanks s.rest).tail))
        (dotted features seen (pastBlanks s))
        (continueWithElements (elements features) seen (item features (pastBlanks s)))
        (skipBlanks s.rest) := by
  have unfolded : elements features seen s = readElements features (4 * s.rest.length + 3 + 1) seen s :=
    rfl
  have shorter := pastBlanks_length s
  rw [unfolded, readElements, bind_of_ok (show skip s = .ok () (pastBlanks s) from rfl),
    bind_of_ok (show (get : Read ReadState) (pastBlanks s) = .ok (pastBlanks s) (pastBlanks s) from rfl)]
  dsimp only
  cases found : skipBlanks s.rest with
  | nil =>
      rw [pastBlanks_eq found]
      rfl
  | cons c left =>
      by_cases closes : c = ')'
      · subst closes
        rw [pastBlanks_eq found]
        rfl
      · have ready := atItem_pastBlanks (s := s) (by rw [found]; exact List.cons_ne_nil _ _)
        rw [pastBlanks_eq found] at shorter ready ⊢
        dsimp only at shorter
        refine (congrFun (atElement_other (β := Read (List Value × Value)) _ _ _ _ closes left)
          _).trans ?_
        rw [atElement_other _ _ _ _ closes]
        split
        · rename_i lone
          obtain ⟨rest, same⟩ := atLonePoint_cons lone
          cases same
          rw [dotted]
          dsimp only
          split
          · rfl
          · rw [advance_cons, advance_cons]
            exact bind_congr_at (readDatum_eq (by dsimp only [List.length_cons] at shorter ⊢; omega))
        · rw [bind_congr_at (readItem_eq_item ready (by dsimp only; omega))]
          cases ended : item features ⟨c :: left, s.image⟩ with
          | error e s' => rw [bind_of_error ended]; rfl
          | ok value? s' =>
              obtain ⟨taken, -⟩ := item_ok ready ended
              dsimp only at taken
              rw [bind_of_ok ended]
              cases value? <;> exact readElements_eq (by omega)

theorem dotted_cons {seen : List Value} (some_ : seen ≠ []) :
    dotted features seen ⟨'.' :: rest, image⟩ =
      (datum features >>= closing seen.reverse) ⟨rest, image⟩ := by
  rw [dotted, if_neg (by simpa using some_)]
  rfl

/-- How the data of a text go on after an item. -/
def continueWithAll (next : Read (List Value)) :
    EStateM.Result ReadError ReadState (Option Value) →
      EStateM.Result ReadError ReadState (List Value)
  | .ok (some value) s => withBefore [value] (next s)
  | .ok none s => next s
  | .error e s => .error e s

/-- All data of a text begin with its first item. -/
theorem readAll_item (s : ReadState) :
    readAll features s =
      if skipBlanks s.rest = [] then .ok [] (pastBlanks s)
      else continueWithAll (readAll features) (item features (pastBlanks s)) := by
  rw [readAll_eq, read_eq]
  by_cases ends : skipBlanks s.rest = []
  · rw [if_pos ends, if_pos ends]
  · rw [if_neg ends, if_neg ends]
    cases item features (pastBlanks s) with
    | error e s' => rfl
    | ok value? s' =>
        cases value? with
        | some v => rfl
        | none => exact (readAll_eq s').symm

theorem Atom.make_apart (a : Atom) : IsApart a.make := by
  cases a with
  | string text => exact .onHeap (·.allocString text)
  | character c => exact .pure _
  | uninterned token => exact .bind (.onSymbols _) fun _ => .pure _
  | spelled token => exact .atomOfToken token

theorem makeVector_apart (items : List Value) (tail : Value) : IsApart (makeVector items tail) :=
  .bind (.onHeap _) fun _ => .get (fun _ => .onHeap _) fun _ _ => rfl

/-- What is made does not depend on the text. -/
theorem IsApart.ok {α : Type} {step : Read α} {a : α} (apart : IsApart step)
    (ended : step s = .ok a s') :
    s'.rest = s.rest ∧ ∀ text, step (s.withRest text) = .ok a (s'.withRest text) := by
  have own := apart s.rest s.image
  cases bare : step ⟨[], s.image⟩ with
  | error e s₁ =>
      rw [bare] at own
      cases ended.symm.trans own
  | ok b s₁ =>
      rw [bare] at own
      cases ended.symm.trans own
      refine ⟨rfl, fun text => ?_⟩
      have other := apart text s.image
      rw [bare] at other
      exact other

end Readers

end Reader

end LispScript
