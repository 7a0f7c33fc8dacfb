import LispScript.Proofs.Reading

/-!
Reading one text after another. The readers of single items and of whole texts obey recursions
without fuel; from them, the data of two texts on lines of their own are the data of the first and
then those of the second, read in the image that the first left.
-/

namespace LispScript.Reader

variable {features : List String} {s s' : ReadState}

section Items

variable {fuel : Nat}

/-- The next item, with fuel enough for any text. -/
def item (features : List String) : Read (Option Value) := do
  readItem features (stepsFor (← get).rest.length)

/-- A state that stands before an item. -/
abbrev AtItem (s : ReadState) : Prop := Ready s.rest.length s.rest

theorem AtItem.followedBy (ready : AtItem s) (text : List Char) : AtItem (s.followedBy text) where
  within := Nat.le_refl _
  ready := by
    obtain ⟨c, left, shape⟩ := List.exists_cons_of_ne_nil ready.some
    have begins := ready.ready
    rw [shape] at begins
    change skipBlanks (s.rest ++ _) = s.rest ++ _
    rw [shape]
    exact skipBlanksFrom_append begins _
  some := by simp [ReadState.followedBy]

theorem readItem_add (ready : AtItem s) (enough : 3 * s.rest.length + 1 ≤ fuel) (more : Nat) :
    readItem features (fuel + more) s = readItem features fuel s := by
  induction more with
  | zero => rfl
  | succ more ih =>
      rw [← Nat.add_assoc, ((Ample.all features _).item _ (by omega)).same s ready, ih]

theorem readItem_eq_item (ready : AtItem s) (enough : 3 * s.rest.length + 1 ≤ fuel) :
    readItem features fuel s = item features s := by
  change _ = readItem features (4 * (s.rest.length + 1)) s
  have least (fuel : Nat) (enough : 3 * s.rest.length + 1 ≤ fuel) :
      readItem features fuel s = readItem features (3 * s.rest.length + 1) s := by
    obtain ⟨more, rfl⟩ := Nat.exists_eq_add_of_le enough
    exact readItem_add ready (Nat.le_refl _) more
  rw [least fuel enough, least (4 * (s.rest.length + 1)) (by omega)]

/-- An item takes characters, and is read alike before a text on a new line. -/
theorem item_ok {value : Option Value} (ready : AtItem s)
    (ended : item features s = .ok value s') :
    s'.rest.length < s.rest.length ∧
      ∀ text, item features (s.followedBy text) = .ok value (s'.followedBy text) := by
  have read (text : List Char) :=
    ((Ample.all features (3 * (s.followedBy text).rest.length + 1)).item s.rest.length
      (by simp only [ReadState.followedBy, List.length_append]; omega)).ok s value s' ready
      ((readItem_eq_item ready
        (by simp only [ReadState.followedBy, List.length_append]; omega)).trans ended)
  refine ⟨(read []).1, fun text => ?_⟩
  rw [← readItem_eq_item (ready.followedBy text) (Nat.le_succ _)]
  exact (read text).2 text

theorem item_error {e : ReadError} (ready : AtItem s) (ended : item features s = .error e s') :
    s'.rest.length ≤ s.rest.length := by
  rw [← readItem_eq_item ready (Nat.le_refl _)] at ended
  exact ((Ample.all features _).item _ (Nat.le_refl _)).error s e s' ready ended

end Items

section Data

variable {fuel : Nat} {c : Char} {left : List Char}

/-- The state after the blanks. -/
def pastBlanks (s : ReadState) : ReadState := { s with rest := skipBlanks s.rest }

theorem atItem_pastBlanks (some_ : skipBlanks s.rest ≠ []) : AtItem (pastBlanks s) :=
  ⟨Nat.le_refl _, skipBlanksFrom_ready false s.rest, some_⟩

theorem pastBlanks_length (s : ReadState) : (pastBlanks s).rest.length ≤ s.rest.length :=
  skipBlanksFrom_length false s.rest

/-- What is read once an item was read, or left out. -/
def continueWith (next : Read (Option Value)) :
    EStateM.Result ReadError ReadState (Option Value) →
      EStateM.Result ReadError ReadState (Option Value)
  | .ok (some value) s => .ok (some value) s
  | .ok none s => next s
  | .error e s => .error e s

/-- What comes after the blanks tells how reading goes on. -/
theorem readNext_eq :
    readNext features (fuel + 1) s =
      (match (pastBlanks s).rest.head? with
      | none => pure none
      | some _ => do
          match ← readItem features fuel with
          | some value => return some value
          | none => readNext features fuel : Read (Option Value)) (pastBlanks s) := by
  rw [readNext]
  rfl

theorem readNext_succ (some_ : skipBlanks s.rest ≠ []) :
    readNext features (fuel + 1) s =
      continueWith (readNext features fuel) (readItem features fuel (pastBlanks s)) := by
  obtain ⟨c, left, shape⟩ := List.exists_cons_of_ne_nil some_
  have first : (pastBlanks s).rest.head? = some c := by
    change (skipBlanks s.rest).head? = _
    rw [shape]
    rfl
  rw [readNext_eq, first]
  change EStateM.bind _ _ _ = _
  rw [EStateM.bind]
  cases readItem features fuel (pastBlanks s) with
  | error e s' => rfl
  | ok value s' => cases value <;> rfl

theorem readNext_end (none_ : skipBlanks s.rest = []) :
    readNext features (fuel + 1) s = .ok none (pastBlanks s) := by
  have last : (pastBlanks s).rest.head? = none := by
    change (skipBlanks s.rest).head? = _
    rw [none_]
    rfl
  rw [readNext_eq, last]
  rfl

theorem readNext_enough {other : Nat} (enough : 3 * s.rest.length + 2 ≤ fuel)
    (enough' : 3 * s.rest.length + 2 ≤ other) :
    readNext features other s = readNext features fuel s := by
  induction length : s.rest.length using Nat.strongRecOn generalizing s fuel other with
  | ind n ih =>
      obtain ⟨fuel, rfl⟩ := Nat.exists_eq_add_of_le' (Nat.le_trans (Nat.le_add_left 1 _) enough)
      obtain ⟨other, rfl⟩ := Nat.exists_eq_add_of_le' (Nat.le_trans (Nat.le_add_left 1 _) enough')
      by_cases none_ : skipBlanks s.rest = []
      · rw [readNext_end none_, readNext_end none_]
      · have shorter := pastBlanks_length s
        have ready := atItem_pastBlanks none_
        rw [readNext_succ none_, readNext_succ none_, readItem_eq_item ready (by omega),
          readItem_eq_item ready (by omega)]
        cases ended : item features (pastBlanks s) with
        | error e s' => rfl
        | ok value s' =>
            cases value with
            | some value => rfl
            | none =>
                obtain ⟨taken, -⟩ := item_ok ready ended
                exact ih _ (by omega) (by omega) (by omega) rfl

/-- The next datum is the next item that yields one. -/
theorem read_eq (s : ReadState) :
    read features s =
      if skipBlanks s.rest = [] then .ok none (pastBlanks s)
      else continueWith (read features) (item features (pastBlanks s)) := by
  have unfolded : read features s = readNext features (4 * s.rest.length + 3 + 1) s := rfl
  rw [unfolded]
  split
  · rename_i none_
    exact readNext_end none_
  · rename_i some_
    have shorter := pastBlanks_length s
    have ready := atItem_pastBlanks some_
    rw [readNext_succ some_, readItem_eq_item ready (by omega)]
    cases ended : item features (pastBlanks s) with
    | error e s' => rfl
    | ok value s' =>
        cases value with
        | some value => rfl
        | none =>
            obtain ⟨taken, -⟩ := item_ok ready ended
            have again : read features s' = readNext features (4 * (s'.rest.length + 1)) s' := rfl
            change _ = read features s'
            rw [again]
            exact readNext_enough (by omega) (by omega)

end Data

section Texts

variable {value : Value} {forms : List Value}

theorem pastBlanks_followedBy (some_ : skipBlanks s.rest ≠ []) (text : List Char) :
    skipBlanks (s.followedBy text).rest ≠ [] ∧
      pastBlanks (s.followedBy text) = (pastBlanks s).followedBy text := by
  obtain ⟨c, left, shape⟩ := List.exists_cons_of_ne_nil some_
  have skips : skipBlanks (s.rest ++ '\n' :: text) = c :: left ++ '\n' :: text :=
    skipBlanksFrom_append shape _
  refine ⟨fun none_ => ?_, ?_⟩
  · exact absurd (skips.symm.trans none_) (List.cons_ne_nil _ _)
  · simp only [pastBlanks, ReadState.followedBy, skips, shape]

theorem read_some (ended : read features s = .ok (some value) s') :
    s'.rest.length < s.rest.length ∧
      ∀ text, read features (s.followedBy text) = .ok (some value) (s'.followedBy text) := by
  induction length : s.rest.length using Nat.strongRecOn generalizing s with
  | ind n ih =>
      rw [read_eq] at ended
      split at ended
      · cases ended
      · rename_i some_
        have shorter := pastBlanks_length s
        have ready := atItem_pastBlanks some_
        cases found : item features (pastBlanks s) with
        | error e later =>
            rw [found] at ended
            cases ended
        | ok got later =>
            rw [found] at ended
            obtain ⟨taken, newline⟩ := item_ok ready found
            have followed (text : List Char) : read features (s.followedBy text) =
                continueWith (read features) (.ok got (later.followedBy text)) := by
              obtain ⟨more, same⟩ := pastBlanks_followedBy some_ text
              rw [read_eq, if_neg more, same, newline]
            cases got with
            | some got =>
                cases ended
                exact ⟨by omega, followed⟩
            | none =>
                obtain ⟨less, again⟩ := ih _ (by omega) ended rfl
                exact ⟨by omega, fun text => (followed text).trans (again text)⟩

theorem read_none (ended : read features s = .ok none s') :
    s'.rest = [] ∧ ∀ text, read features (s.followedBy text) = read features ⟨text, s'.image⟩ := by
  induction length : s.rest.length using Nat.strongRecOn generalizing s with
  | ind n ih =>
      rw [read_eq] at ended
      split at ended
      · rename_i none_
        cases ended
        refine ⟨none_, fun text => ?_⟩
        have blank : skipBlanks (s.followedBy text).rest = skipBlanks text :=
          skipBlanksFrom_newline none_ text
        have same : pastBlanks (s.followedBy text) =
            pastBlanks ⟨text, (pastBlanks s).image⟩ := by
          simp only [pastBlanks, blank]
          rfl
        rw [read_eq (s.followedBy text), read_eq ⟨text, _⟩, same, blank]
      · rename_i some_
        have shorter := pastBlanks_length s
        have ready := atItem_pastBlanks some_
        cases found : item features (pastBlanks s) with
        | error e later =>
            rw [found] at ended
            cases ended
        | ok got later =>
            rw [found] at ended
            obtain ⟨taken, newline⟩ := item_ok ready found
            cases got with
            | some got => cases ended
            | none =>
                obtain ⟨nothing, again⟩ := ih _ (by omega) ended rfl
                refine ⟨nothing, fun text => ?_⟩
                obtain ⟨more, same⟩ := pastBlanks_followedBy some_ text
                rw [read_eq, if_neg more, same, newline]
                exact again text

theorem read_error {e : ReadError} (ended : read features s = .error e s') :
    s'.rest.length ≤ s.rest.length := by
  induction length : s.rest.length using Nat.strongRecOn generalizing s with
  | ind n ih =>
      rw [read_eq] at ended
      split at ended
      · cases ended
      · rename_i some_
        have shorter := pastBlanks_length s
        have ready := atItem_pastBlanks some_
        cases found : item features (pastBlanks s) with
        | error e later =>
            rw [found] at ended
            cases ended
            have := item_error ready found
            omega
        | ok got later =>
            rw [found] at ended
            obtain ⟨taken, -⟩ := item_ok ready found
            cases got with
            | some got => cases ended
            | none =>
                have := ih _ (by omega) ended rfl
                omega

/-- A reading of a text with further data before its own. -/
def withBefore (forms : List Value) :
    EStateM.Result ReadError ReadState (List Value) →
      EStateM.Result ReadError ReadState (List Value)
  | .ok more s => .ok (forms ++ more) s
  | .error e s => .error e s

theorem withBefore_append (first second : List Value)
    (result : EStateM.Result ReadError ReadState (List Value)) :
    withBefore (first ++ second) result = withBefore first (withBefore second result) := by
  cases result with
  | ok more s => exact congrArg (EStateM.Result.ok · s) (List.append_assoc first second more)
  | error e s => rfl

/-- Many data are the next one and those after it. -/
theorem readManyFrom_succ (count : Nat) (seen : List Value) (s : ReadState) :
    readManyFrom features (count + 1) seen s = match read features s with
      | .ok (some value) s' => readManyFrom features count (value :: seen) s'
      | .ok none s' => .ok seen.reverse s'
      | .error e s' => .error e s' := by
  rw [readManyFrom]
  change EStateM.bind _ _ _ = _
  rw [EStateM.bind]
  cases read features s with
  | error e s' => rfl
  | ok got s' => cases got <;> rfl

/-- A reading of many data, whose count is enough for the text. -/
theorem readManyFrom_eq (count : Nat) (enough : s.rest.length < count) (seen : List Value) :
    readManyFrom features count seen s = withBefore seen.reverse (readAll features s) := by
  induction length : s.rest.length using Nat.strongRecOn generalizing s count seen with
  | ind n ih =>
      obtain ⟨count, rfl⟩ := Nat.exists_eq_add_of_lt enough
      have whole : readAll features s = readManyFrom features (s.rest.length + 1) [] s := rfl
      rw [whole, readManyFrom_succ, readManyFrom_succ]
      cases ended : read features s with
      | error e s' => rfl
      | ok got s' =>
          cases got with
          | none => exact congrArg (EStateM.Result.ok · s') (List.append_nil _).symm
          | some value =>
              obtain ⟨taken, -⟩ := read_some ended
              dsimp only
              rw [ih _ (by omega) _ (by omega) _ rfl, ih _ (by omega) _ (by omega) _ rfl,
                ← withBefore_append, List.reverse_cons, List.reverse_singleton]

/-- All data of a text are the next one and all data after it. -/
theorem readAll_eq (s : ReadState) :
    readAll features s = match read features s with
      | .ok (some value) s' => withBefore [value] (readAll features s')
      | .ok none s' => .ok [] s'
      | .error e s' => .error e s' := by
  change readManyFrom features (s.rest.length + 1) [] s = _
  rw [readManyFrom]
  change EStateM.bind _ _ _ = _
  rw [EStateM.bind]
  cases ended : read features s with
  | error e s' => rfl
  | ok got s' =>
      cases got with
      | none => rfl
      | some value =>
          obtain ⟨taken, -⟩ := read_some ended
          exact readManyFrom_eq _ taken _

/-- How many characters of a text were passed. -/
def position (text : List Char) (s : ReadState) : Nat := text.length - s.rest.length

theorem readAll_error {e : ReadError} (ended : readAll features s = .error e s') :
    s'.rest.length ≤ s.rest.length := by
  induction length : s.rest.length using Nat.strongRecOn generalizing s with
  | ind n ih =>
      rw [readAll_eq] at ended
      cases found : read features s with
      | error e later =>
          rw [found] at ended
          cases ended
          exact length ▸ read_error found
      | ok got later =>
          rw [found] at ended
          cases got with
          | none => cases ended
          | some value =>
              obtain ⟨taken, -⟩ := read_some found
              change withBefore [value] (readAll features later) = _ at ended
              cases rest : readAll features later with
              | ok more later' =>
                  rw [rest] at ended
                  cases ended
              | error e later' =>
                  rw [rest] at ended
                  cases ended
                  have := ih _ (by omega) rest rfl
                  omega

theorem readAll_append {forms : List Value} (first : readAll features s = .ok forms s')
    (text : List Char) :
    readAll features (s.followedBy text) =
      withBefore forms (readAll features ⟨text, s'.image⟩) := by
  induction length : s.rest.length using Nat.strongRecOn generalizing s forms with
  | ind n ih =>
      rw [readAll_eq] at first
      cases found : read features s with
      | error e later =>
          rw [found] at first
          cases first
      | ok got later =>
          rw [found] at first
          cases got with
          | none =>
              cases first
              obtain ⟨-, again⟩ := read_none found
              rw [readAll_eq, again, ← readAll_eq]
              cases readAll features ⟨text, s'.image⟩ <;> rfl
          | some value =>
              obtain ⟨taken, newline⟩ := read_some found
              rw [readAll_eq, newline]
              change withBefore [value] (readAll features later) = _ at first
              cases rest : readAll features later with
              | error e later' =>
                  rw [rest] at first
                  cases first
              | ok more later' =>
                  rw [rest] at first
                  cases first
                  dsimp only
                  rw [ih _ (by omega) rest rfl, ← withBefore_append]

/-- The data of two texts on lines of their own are those of the first and then those of the second,
read in the image that the first left. Where the second fails, the place of the failure is shifted
by the first text and the newline. -/
theorem readAll_followed {a b : List Char} {image : Image}
    (first : readAll features ⟨a, image⟩ = .ok forms s) :
    readAll features ⟨a ++ '\n' :: b, image⟩ =
        withBefore forms (readAll features ⟨b, s.image⟩) ∧
      ∀ e later, readAll features ⟨b, s.image⟩ = .error e later →
        position (a ++ '\n' :: b) later = position b later + (a.length + 1) := by
  refine ⟨readAll_append first b, fun e later failed => ?_⟩
  have bound : later.rest.length ≤ b.length := readAll_error failed
  simp only [position, List.length_append, List.length_cons]
  omega

/-- An empty list is read before a text whose first character is an error. -/
theorem readAll_followed_of_empty_list :
    readAll [] ⟨"()".toList ++ '\n' :: ")".toList, Image.initial 1000⟩ =
        withBefore [.nil] (readAll [] ⟨")".toList, Image.initial 1000⟩) ∧
      ∀ e later, readAll [] ⟨")".toList, Image.initial 1000⟩ = .error e later →
        position ("()".toList ++ '\n' :: ")".toList) later =
          position ")".toList later + ("()".toList.length + 1) := by
  have first (image : Image) : readAll [] ⟨"()".toList, image⟩ = .ok [.nil] ⟨[], image⟩ := by
    rfl
  have followed := readAll_followed (b := ")".toList) (first (Image.initial 1000))
  exact followed

end Texts

end LispScript.Reader
