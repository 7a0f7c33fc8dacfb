import LispScript.Proofs.Escapes
import LispScript.Proofs.ReadBack
import LispScript.Proofs.Scanning

/-!
What a reading depends on. A step that succeeds consumes characters and looks at none beyond a
newline after them, and its fuel plays no part once there are three units for each character that is
left. Both are told of two steps at once, the second of which has more fuel.
-/

namespace LispScript

/-- The state before the same text with a further text after it, on a line of its own. -/
def ReadState.followedBy (s : ReadState) (text : List Char) : ReadState :=
  { s with rest := s.rest ++ '\n' :: text }

namespace Reader

section Steps

variable {α β : Type} {before after : List Char → Prop} {least more : Nat} {x y : Read α}
  {f g : α → Read β}

/-- Two steps that agree on the texts told by `before`. Where they succeed they consume at least so
many characters, and they succeed in the same way before a text that follows on a new line. -/
structure Matches (before : List Char → Prop) (least : Nat) (x y : Read α) : Prop where
  same : ∀ s, before s.rest → y s = x s
  ok : ∀ s a s', before s.rest → x s = .ok a s' → s'.rest.length + least ≤ s.rest.length ∧
    ∀ text, y (s.followedBy text) = .ok a (s'.followedBy text)
  error : ∀ s e s', before s.rest → x s = .error e s' → s'.rest.length ≤ s.rest.length

/-- Texts of at most so many characters. -/
def Within (n : Nat) (cs : List Char) : Prop := cs.length ≤ n

/-- Texts of at most so many characters that begin with a token or a bracket. -/
structure Ready (n : Nat) (cs : List Char) : Prop where
  within : cs.length ≤ n
  ready : IsReady cs
  some : cs ≠ []

theorem Matches.mono (matches_ : Matches after more x y) (weaker : ∀ cs, before cs → after cs)
    (fewer : least ≤ more) : Matches before least x y where
  same s held := matches_.same s (weaker _ held)
  ok s a s' held ended :=
    have ⟨length, newline⟩ := matches_.ok s a s' (weaker _ held) ended
    ⟨by omega, newline⟩
  error s e s' held := matches_.error s e s' (weaker _ held)

theorem Matches.weak (matches_ : Matches before least x y) : Matches before 0 x y :=
  matches_.mono (fun _ held => held) (Nat.zero_le _)

theorem Matches.pure (a : α) : Matches before 0 (pure a) (pure a) where
  same _ _ := rfl
  ok s b s' _ ended := by
    cases ended
    exact ⟨Nat.le_refl _, fun _ => rfl⟩
  error _ _ _ _ ended := by cases ended

theorem Matches.throw (e : ReadError) : Matches before least (throw e : Read α) (throw e) where
  same _ _ := rfl
  ok _ _ _ _ ended := by cases ended
  error s e s' _ ended := by
    cases ended
    exact Nat.le_refl _

/-- Steps in a row: the later one begins where fewer characters are left. -/
theorem Matches.bind (n : Nat) (first : Matches before least x y)
    (bounded : ∀ cs, before cs → cs.length ≤ n)
    (next : ∀ a m, m + least ≤ n → Matches (Within m) 0 (f a) (g a)) :
    Matches before least (x >>= f) (y >>= g) where
  same s held := by
    change EStateM.bind y g s = EStateM.bind x f s
    rw [EStateM.bind, EStateM.bind, first.same s held]
    cases ended : x s with
    | error e s' => rfl
    | ok a s' =>
        obtain ⟨shorter, -⟩ := first.ok s a s' held ended
        have bound := bounded _ held
        exact (next a s'.rest.length (by omega)).same s' (Nat.le_refl _)
  ok s b s'' held ended := by
    change EStateM.bind x f s = _ at ended
    rw [EStateM.bind] at ended
    split at ended
    · rename_i a s' middle
      obtain ⟨shorter, newline⟩ := first.ok s a s' held middle
      have bound := bounded _ held
      obtain ⟨shorter', newline'⟩ :=
        (next a s'.rest.length (by omega)).ok s' b s'' (Nat.le_refl _) ended
      refine ⟨by omega, fun text => ?_⟩
      change EStateM.bind y g _ = _
      rw [EStateM.bind, newline text]
      exact newline' text
    · cases ended
  error s e s'' held ended := by
    change EStateM.bind x f s = _ at ended
    rw [EStateM.bind] at ended
    split at ended
    · rename_i a s' middle
      obtain ⟨shorter, -⟩ := first.ok s a s' held middle
      have bound := bounded _ held
      have := (next a s'.rest.length (by omega)).error s' e s'' (Nat.le_refl _) ended
      omega
    · rename_i middle
      cases ended
      exact first.error s e s'' held middle

theorem Matches.map (first : Matches before least x y) (h : α → β) :
    Matches before least (h <$> x) (h <$> y) where
  same s held := by
    change EStateM.map h y s = EStateM.map h x s
    rw [EStateM.map, EStateM.map, first.same s held]
  ok s b s' held ended := by
    change EStateM.map h x s = _ at ended
    rw [EStateM.map] at ended
    split at ended
    · rename_i middle
      cases ended
      obtain ⟨shorter, newline⟩ := first.ok s _ _ held middle
      refine ⟨shorter, fun text => ?_⟩
      change EStateM.map h y _ = _
      rw [EStateM.map, newline text]
    · cases ended
  error s e s' held ended := by
    change EStateM.map h x s = _ at ended
    rw [EStateM.map] at ended
    split at ended
    · cases ended
    · rename_i middle
      cases ended
      exact first.error s _ _ held middle

/-- A step that leaves the text alone and does not look at it. -/
def IsApart (x : Read α) : Prop :=
  ∀ rest image, x ⟨rest, image⟩ = match x ⟨[], image⟩ with
    | .ok a s => .ok a ⟨rest, s.image⟩
    | .error e s => .error e ⟨rest, s.image⟩

theorem IsApart.pure (a : α) : IsApart (pure a : Read α) := fun _ _ => rfl

theorem IsApart.throw (e : ReadError) : IsApart (throw e : Read α) := fun _ _ => rfl

theorem IsApart.onSymbols (change_ : SymbolTable → α × SymbolTable) :
    IsApart (onSymbols change_) :=
  fun _ _ => rfl

theorem IsApart.onHeap (change_ : Heap → α × Heap) : IsApart (onHeap change_) := fun _ _ => rfl

theorem IsApart.bind (first : IsApart x) (next : ∀ a, IsApart (f a)) : IsApart (x >>= f) := by
  intro rest image
  change EStateM.bind x f _ = match EStateM.bind x f _ with | .ok a s => _ | .error e s => _
  rw [EStateM.bind, EStateM.bind, first rest image]
  cases x ⟨[], image⟩ with
  | error e s => rfl
  | ok a s =>
      dsimp only
      rw [next a rest s.image, next a s.rest s.image]
      cases f a ⟨[], s.image⟩ <;> rfl

theorem IsApart.map (first : IsApart x) (h : α → β) : IsApart (h <$> x) := by
  intro rest image
  change EStateM.map h x _ = match EStateM.map h x _ with | .ok a s => _ | .error e s => _
  rw [EStateM.map, EStateM.map, first rest image]
  cases x ⟨[], image⟩ <;> rfl

theorem IsApart.get {h : ReadState → Read α} (next : ∀ s, IsApart (h s))
    (image : ∀ rest image, h ⟨rest, image⟩ = h ⟨[], image⟩) : IsApart (get >>= h) := by
  intro rest current
  change h ⟨rest, current⟩ _ = match h ⟨[], current⟩ _ with | .ok a s => _ | .error e s => _
  rw [image]
  exact next _ _ _

theorem Matches.ofApart (apart : IsApart x) : Matches before 0 x x where
  same _ _ := rfl
  ok s a s' _ ended := by
    obtain ⟨rest, image⟩ := s
    rw [apart] at ended
    split at ended
    · rename_i middle
      cases ended
      refine ⟨Nat.le_refl _, fun text => ?_⟩
      rw [ReadState.followedBy, apart, middle]
      rfl
    · cases ended
  error s e s' _ ended := by
    obtain ⟨rest, image⟩ := s
    rw [apart] at ended
    split at ended
    · cases ended
    · cases ended
      exact Nat.le_refl _

/-- What is done next may depend on the state, but not on a text that follows on a new line. -/
theorem Matches.get {h k : ReadState → Read α}
    (next : ∀ s, before s.rest → Matches (· = s.rest) least (h s) (k s))
    (newline : ∀ s text, before s.rest → k (s.followedBy text) = k s) :
    Matches before least (get >>= h) (get >>= k) where
  same s held := (next s held).same s rfl
  ok s a s' held ended := by
    obtain ⟨shorter, later⟩ := (next s held).ok s a s' rfl ended
    refine ⟨shorter, fun text => ?_⟩
    change k (s.followedBy text) (s.followedBy text) = _
    rw [newline s text held]
    exact later text
  error s e s' held ended := (next s held).error s e s' rfl ended

theorem Matches.lex {scan : List Char → Except ReadError α × List Char} (scans : Scans scan) :
    Matches before 0 (lex scan) (lex scan) where
  same _ _ := rfl
  ok s a s' _ ended := by
    rw [Reader.lex] at ended
    have length := scans.length s.rest
    split at ended
    · rename_i rest scanned
      cases ended
      rw [scanned] at length
      refine ⟨length, fun text => ?_⟩
      have followed : (s.followedBy text).rest = s.rest ++ '\n' :: text := rfl
      rw [Reader.lex, followed, scans.newline _ _ _ scanned]
      rfl
    · cases ended
  error s e s' _ ended := by
    rw [Reader.lex] at ended
    have length := scans.length s.rest
    split at ended
    · cases ended
    · rename_i rest scanned
      cases ended
      rw [scanned] at length
      exact length

/-- A token is passed, which has a character at least. -/
theorem Matches.token
    (begins : ∀ cs, before cs → ∃ c left, cs = c :: left ∧ isTerminating c = false) :
    Matches before 1 (Reader.lex scanToken) (Reader.lex scanToken) where
  same _ _ := rfl
  ok s a s' held ended := by
    have scans : Matches before 0 (Reader.lex scanToken) (Reader.lex scanToken) := .lex .token
    obtain ⟨-, newline⟩ := scans.ok s a s' held ended
    refine ⟨?_, newline⟩
    obtain ⟨c, left, shape, goes⟩ := begins _ held
    have length := scanToken_length goes left
    rw [Reader.lex, shape] at ended
    split at ended
    · rename_i rest scanned
      cases ended
      rw [scanned] at length
      rw [shape]
      exact Nat.succ_le_succ length
    · cases ended
  error s e s' held ended := (Matches.lex .token).error s e s' held ended

/-- A step at the end of the text that finds nothing there. -/
def Fails (x : Read α) : Prop := ∀ image, ∃ e, x ⟨[], image⟩ = .error e ⟨[], image⟩

/-- Texts that begin with a certain character. -/
def OpensWith (before : List Char → Prop) (c : Char) (cs : List Char) : Prop :=
  before cs ∧ cs.head? = some c

theorem OpensWith.some {c : Char} {cs : List Char} (begins : OpensWith before c cs) : cs ≠ [] := by
  rintro rfl
  cases begins.2

/-- A look at the next character, where the end of the text would be an error. -/
theorem Matches.peek {h k : Option Char → Read α} (fails : Fails (h none))
    (same : ∀ image, k none ⟨[], image⟩ = h none ⟨[], image⟩)
    (next : ∀ c, Matches (OpensWith before c) least (h (some c)) (k (some c))) :
    Matches before least (peek >>= h) (peek >>= k) where
  same s held := by
    obtain ⟨rest, image⟩ := s
    cases rest with
    | nil => exact same image
    | cons c cs => exact (next c).same ⟨c :: cs, image⟩ ⟨held, rfl⟩
  ok s a s' held ended := by
    obtain ⟨rest, image⟩ := s
    cases rest with
    | nil =>
        obtain ⟨e, failed⟩ := fails image
        cases ended.symm.trans failed
    | cons c cs => exact (next c).ok ⟨c :: cs, image⟩ a s' ⟨held, rfl⟩ ended
  error s e s' held ended := by
    obtain ⟨rest, image⟩ := s
    cases rest with
    | nil =>
        obtain ⟨e, failed⟩ := fails image
        cases ended.symm.trans failed
        exact Nat.le_refl _
    | cons c cs => exact (next c).error ⟨c :: cs, image⟩ e s' ⟨held, rfl⟩ ended

/-- The next character is passed. -/
theorem Matches.advance (n : Nat) {h k : Unit → Read α}
    (some_ : ∀ cs, before cs → cs ≠ [] ∧ cs.length ≤ n)
    (next : ∀ m, m + 1 ≤ n → Matches (Within m) 0 (h ()) (k ())) :
    Matches before 1 (advance 1 >>= h) (advance 1 >>= k) where
  same s held := by
    obtain ⟨rest, image⟩ := s
    obtain ⟨nonempty, bound⟩ := some_ _ held
    obtain ⟨c, left, rfl⟩ := List.exists_cons_of_ne_nil nonempty
    exact (next left.length bound).same ⟨left, image⟩ (Nat.le_refl _)
  ok s a s' held ended := by
    obtain ⟨rest, image⟩ := s
    obtain ⟨nonempty, bound⟩ := some_ _ held
    obtain ⟨c, left, rfl⟩ := List.exists_cons_of_ne_nil nonempty
    obtain ⟨shorter, newline⟩ :=
      (next left.length bound).ok ⟨left, image⟩ a s' (Nat.le_refl _) ended
    exact ⟨Nat.succ_le_succ shorter, newline⟩
  error s e s' held ended := by
    obtain ⟨rest, image⟩ := s
    obtain ⟨nonempty, bound⟩ := some_ _ held
    obtain ⟨c, left, rfl⟩ := List.exists_cons_of_ne_nil nonempty
    exact Nat.le_succ_of_le
      ((next left.length bound).error ⟨left, image⟩ e s' (Nat.le_refl _) ended)

theorem Ready.skipped {n : Nat} {cs left : List Char} {c : Char} (within : Within n cs)
    (found : skipBlanks cs = c :: left) : Ready n (c :: left) where
  within := found ▸ Nat.le_trans (skipBlanksFrom_length false cs) within
  ready := found ▸ skipBlanksFrom_ready false cs
  some := List.cons_ne_nil _ _

/-- Blanks are passed, after which the end of the text would be an error. -/
theorem Matches.skip {n : Nat} {h k : Unit → Read α} (fails : Fails (h ()))
    (same : ∀ image, k () ⟨[], image⟩ = h () ⟨[], image⟩)
    (next : Matches (Ready n) least (h ()) (k ())) :
    Matches (Within n) least (skip >>= h) (skip >>= k) where
  same s held := by
    change k () ⟨skipBlanks s.rest, s.image⟩ = h () ⟨skipBlanks s.rest, s.image⟩
    cases found : skipBlanks s.rest with
    | nil => exact same _
    | cons c left => exact next.same ⟨c :: left, s.image⟩ (.skipped held found)
  ok s a s' held ended := by
    change h () ⟨skipBlanks s.rest, s.image⟩ = _ at ended
    have length := skipBlanksFrom_length false s.rest
    cases found : skipBlanks s.rest with
    | nil =>
        rw [found] at ended
        obtain ⟨e, failed⟩ := fails s.image
        cases ended.symm.trans failed
    | cons c left =>
        rw [found] at ended
        obtain ⟨shorter, newline⟩ :=
          next.ok ⟨c :: left, s.image⟩ a s' (.skipped held found) ended
        rw [← skipBlanks, found] at length
        refine ⟨Nat.le_trans shorter length, fun text => ?_⟩
        change k () ⟨skipBlanks (s.rest ++ '\n' :: text), s.image⟩ = _
        rw [skipBlanks, skipBlanksFrom_append found]
        exact newline text
  error s e s' held ended := by
    change h () ⟨skipBlanks s.rest, s.image⟩ = _ at ended
    have length := skipBlanksFrom_length false s.rest
    cases found : skipBlanks s.rest with
    | nil =>
        rw [found] at ended
        obtain ⟨e, failed⟩ := fails s.image
        cases ended.symm.trans failed
        exact Nat.zero_le _
    | cons c left =>
        rw [found] at ended
        rw [← skipBlanks, found] at length
        exact Nat.le_trans (next.error ⟨c :: left, s.image⟩ e s' (.skipped held found) ended) length

theorem Matches.withPackage (package : PackageId) (step : Matches before least x y) :
    Matches before least (withPackage package x) (withPackage package y) where
  same s held := by
    unfold Reader.withPackage
    dsimp only
    rw [step.same _ (by exact held)]
  ok s a s' held ended := by
    unfold Reader.withPackage at ended
    dsimp only at ended
    split at ended
    · rename_i middle
      cases ended
      obtain ⟨shorter, newline⟩ := step.ok _ _ _ (by exact held) middle
      refine ⟨shorter, fun text => ?_⟩
      have later := newline text
      unfold Reader.withPackage
      dsimp only [ReadState.followedBy] at later ⊢
      rw [later]
    · cases ended
  error s e s' held ended := by
    unfold Reader.withPackage at ended
    dsimp only at ended
    split at ended
    · cases ended
    · rename_i middle
      obtain ⟨rfl, rfl⟩ := EStateM.Result.error.inj ended
      have shorter := step.error _ _ _ (by exact held) middle
      exact shorter

end Steps

section Atoms

theorem IsApart.symbolOfToken (token : Token) : IsApart (symbolOfToken token) := by
  unfold Reader.symbolOfToken
  split
  · exact .bind (fun _ _ => rfl) fun package => .onSymbols _
  · exact .onSymbols _
  · refine .get (fun s => ?_) fun _ _ => rfl
    dsimp only
    split
    · exact .throw _
    · split
      · exact .onSymbols _
      · split
        · exact .pure _
        · exact .throw _

theorem IsApart.atomOfToken (token : Token) : IsApart (atomOfToken token) := by
  have symbol : IsApart (do return Value.ofSymbol (← Reader.symbolOfToken token)) :=
    .bind (.symbolOfToken token) fun _ => .pure _
  unfold Reader.atomOfToken
  dsimp only
  split
  · split
    · split
      · exact .bind (.throw _) fun _ => .pure _
      · exact .bind (.throw _) fun _ => symbol
    · split
      · exact .pure _
      · exact symbol
  · exact symbol

theorem IsApart.wrapIn (operator : String) (datum : Value) : IsApart (wrapIn operator datum) :=
  .bind (.onSymbols _) fun _ => .onHeap _

end Atoms

section Items

variable {features : List String} {fuel : Nat}

/-- The fuel plays no part from a certain amount on: each of the readers is told with one unit more
of it. -/
structure Ample (features : List String) (fuel : Nat) : Prop where
  item : ∀ n, 3 * n + 1 ≤ fuel →
    Matches (Ready n) 1 (readItem features fuel) (readItem features (fuel + 1))
  dispatch : ∀ n, 3 * n + 1 ≤ fuel →
    Matches (Within n) 1 (readDispatch features fuel) (readDispatch features (fuel + 1))
  guarded : ∀ n wanted, 3 * n + 3 ≤ fuel →
    Matches (Within n) 1 (readGuarded features fuel wanted)
      (readGuarded features (fuel + 1) wanted)
  elements : ∀ n seen, 3 * n + 2 ≤ fuel →
    Matches (Within n) 1 (readElements features fuel seen) (readElements features (fuel + 1) seen)
  datum : ∀ n, 3 * n + 2 ≤ fuel →
    Matches (Within n) 1 (readDatum features fuel) (readDatum features (fuel + 1))

theorem Ample.zero (features : List String) : Ample features 0 where
  item _ enough := by omega
  dispatch _ enough := by omega
  guarded _ _ enough := by omega
  elements _ _ enough := by omega
  datum _ enough := by omega

/-- What comes after an item, with one character less at least. -/
theorem Ample.after_item {α : Type} (ample : Ample features fuel) (n : Nat)
    (enough : 3 * n + 1 ≤ fuel) (c : Char) {f g : Option Value → Read α}
    (next : ∀ value m, m + 1 ≤ n → Matches (Within m) 0 (f value) (g value)) :
    Matches (OpensWith (Ready n) c) 1 (readItem features fuel >>= f)
      (readItem features (fuel + 1) >>= g) :=
  .bind n ((ample.item n enough).mono (fun _ held => held.1) (Nat.le_refl _))
    (fun _ held => held.1.within) next

theorem Ample.datum_succ (ample : Ample features fuel) (n : Nat) (enough : 3 * n + 2 ≤ fuel + 1) :
    Matches (Within n) 1 (readDatum features (fuel + 1)) (readDatum features (fuel + 2)) := by
  rw [readDatum, readDatum]
  refine .skip (fun image => ⟨_, rfl⟩) (fun _ => rfl) (.peek (fun image => ⟨_, rfl⟩)
    (fun _ => rfl) fun c => ?_)
  split
  · rename_i closing
    cases closing
  · exact .throw _
  · refine ample.after_item n (by omega) c fun value m shorter => ?_
    cases value with
    | none => exact (ample.datum m (by omega)).weak
    | some value => exact .pure value

theorem Ample.guarded_succ (ample : Ample features fuel) (n : Nat) (wanted : Bool)
    (enough : 3 * n + 3 ≤ fuel + 1) :
    Matches (Within n) 1 (readGuarded features (fuel + 1) wanted)
      (readGuarded features (fuel + 2) wanted) := by
  rw [readGuarded, readGuarded]
  have expression := (ample.datum n (by omega)).withPackage PackageId.keyword
  refine .bind n expression (fun _ held => held) fun value m shorter => ?_
  refine .get (fun s held => ?_) fun _ _ _ => rfl
  dsimp only
  refine .bind m ((ample.datum m (by omega)).weak.mono ?_ (Nat.le_refl _)) ?_ fun _ _ _ => .pure _
  · rintro _ rfl
    exact held
  · rintro _ rfl
    exact held

/-- A choice by what the rest of a list begins with: nothing, its end, a lone point or an item. -/
def atElement {β : Type} (ended closing point item : β) (cs : List Char) : β :=
  match cs with
  | [] => ended
  | ')' :: _ => closing
  | _ => if atLonePoint cs then point else item

theorem atElement_other {β : Type} (ended closing point item : β) {c : Char} (other : c ≠ ')')
    (left : List Char) :
    atElement ended closing point item (c :: left) =
      if atLonePoint (c :: left) then point else item := by
  unfold atElement
  split
  · contradiction
  · rename_i same
    exact absurd (List.cons.inj same).1 other
  · rfl

/-- The choice is made by what stands before a new line. -/
theorem atElement_newline {β : Type} (ended closing point item : β) {cs : List Char}
    (some_ : cs ≠ []) (text : List Char) :
    atElement ended closing point item (cs ++ '\n' :: text) =
      atElement ended closing point item cs := by
  obtain ⟨c, left, rfl⟩ := List.exists_cons_of_ne_nil some_
  have point_eq : atLonePoint (c :: left ++ '\n' :: text) = atLonePoint (c :: left) := by
    by_cases isPoint : c = '.'
    · subst isPoint
      cases left <;> rfl
    · simp [atLonePoint, isPoint]
  by_cases closes : c = ')'
  · subst closes
    rfl
  · rw [List.cons_append] at point_eq ⊢
    rw [atElement_other _ _ _ _ closes, atElement_other _ _ _ _ closes, point_eq]

/-- The end of a list after its tail. -/
def closing (items : List Value) (tail : Value) : Read (List Value × Value) := do
  skip
  match ← peek with
  | some ')' => do
      advance 1
      return (items, tail)
  | some c => do
      advance 1
      throw (.unexpectedChar c)
  | none => throw .unterminatedList

theorem Matches.closing (n : Nat) (items : List Value) (tail : Value) :
    Matches (Within n) 1 (closing items tail) (closing items tail) := by
  refine .skip (fun image => ⟨_, rfl⟩) (fun _ => rfl)
    (.peek (fun image => ⟨_, rfl⟩) (fun _ => rfl) fun c => ?_)
  have nonempty : ∀ cs, OpensWith (Ready n) c cs → cs ≠ [] ∧ cs.length ≤ n :=
    fun cs held => ⟨held.1.some, held.1.within⟩
  split
  · exact .advance n nonempty fun _ _ => .pure _
  · exact .advance n nonempty fun _ _ => .throw _
  · contradiction

theorem Ample.elements_succ (ample : Ample features fuel) (n : Nat) (seen : List Value)
    (enough : 3 * n + 2 ≤ fuel + 1) :
    Matches (Within n) 1 (readElements features (fuel + 1) seen)
      (readElements features (fuel + 2) seen) := by
  rw [readElements, readElements]
  refine .skip (fun image => ⟨_, rfl⟩) (fun _ => rfl)
    (.get (fun s held => ?_) fun s text held => atElement_newline _ _ _ _ held.some text)
  have nonempty : ∀ cs, cs = s.rest → cs ≠ [] ∧ cs.length ≤ n := by
    rintro _ rfl
    exact ⟨held.some, held.within⟩
  have tail : Matches (· = s.rest) 1
      (advance 1 >>= fun _ => readDatum features fuel >>= Reader.closing seen.reverse)
      (advance 1 >>= fun _ => readDatum features (fuel + 1) >>= Reader.closing seen.reverse) :=
    .advance n nonempty fun m shorter =>
      .bind m (ample.datum m (by omega)).weak (fun _ held => held)
        fun _ _ _ => (Matches.closing _ _ _).weak
  dsimp only
  split
  · exact .throw _
  · exact .advance n nonempty fun _ _ => .pure _
  · split
    · split
      · exact Matches.throw (.unexpectedChar '.')
      · exact tail
    · refine .bind n ((ample.item n (by omega)).mono ?_ (Nat.le_refl _))
        (fun cs same => (nonempty cs same).2) fun value m shorter => ?_
      · rintro _ rfl
        exact held
      · cases value with
        | none => exact (ample.elements m _ (by omega)).weak
        | some value => exact (ample.elements m _ (by omega)).weak

theorem readDatum_end (features : List String) (fuel : Nat) (image : Image) :
    readDatum features fuel ⟨[], image⟩ = .error .unexpectedEnd ⟨[], image⟩ := by
  cases fuel with
  | zero => rw [readDatum]; rfl
  | succ fuel => rw [readDatum]; rfl

theorem wrapped_end (features : List String) (fuel : Nat) (operator : String) (image : Image) :
    (some <$> (wrapIn operator =<< readDatum features fuel)) ⟨[], image⟩ =
      .error .unexpectedEnd ⟨[], image⟩ := by
  change EStateM.map some (EStateM.bind (readDatum features fuel) (wrapIn operator)) _ = _
  rw [EStateM.map, EStateM.bind, readDatum_end]

theorem Ample.wrapped (ample : Ample features fuel) (n : Nat) (enough : 3 * n + 2 ≤ fuel)
    (operator : String) :
    Matches (Within n) 0 (some <$> (wrapIn operator =<< readDatum features fuel))
      (some <$> (wrapIn operator =<< readDatum features (fuel + 1))) :=
  .map (.bind n (ample.datum n enough).weak (fun _ held => held) fun _ _ _ =>
    .ofApart (.wrapIn _ _)) _

/-- A list after its opening bracket. -/
theorem Ample.list (ample : Ample features fuel) (n : Nat) (enough : 3 * n + 2 ≤ fuel)
    {α : Type} {build : List Value × Value → Read α} (apart : ∀ parts, IsApart (build parts)) :
    Matches (Within n) 0 (readElements features fuel [] >>= build)
      (readElements features (fuel + 1) [] >>= build) :=
  .bind n (ample.elements n [] enough).weak (fun _ held => held) fun parts _ _ =>
    .ofApart (apart parts)

theorem Ample.dispatch_succ (ample : Ample features fuel) (n : Nat)
    (enough : 3 * n + 1 ≤ fuel + 1) :
    Matches (Within n) 1 (readDispatch features (fuel + 1)) (readDispatch features (fuel + 2)) := by
  rw [readDispatch, readDispatch]
  refine .peek (fun image => ⟨_, rfl⟩) (fun _ => rfl) fun c => ?_
  dsimp only
  refine .advance n (fun cs held => ⟨held.some, held.1⟩) fun m shorter => ?_
  split
  · exact ample.wrapped m (by omega) _
  · refine ample.list m (by omega) fun parts => .bind (.onHeap _) fun list => ?_
    exact .get (fun s => .map (.onHeap _) _) fun _ _ => rfl
  · exact .bind m (.lex .token) (fun _ held => held) fun token _ _ =>
      .ofApart (.bind (.onSymbols _) fun _ => .pure _)
  · exact .bind m (.lex .character) (fun _ held => held) fun _ _ _ => .pure _
  · exact .bind m (.lex .comment) (fun _ held => held) fun _ _ _ => .pure _
  · exact (ample.guarded m true (by omega)).weak
  · exact (ample.guarded m false (by omega)).weak
  · exact .throw _

/-- What follows a comma, after which the end of the text is an error either way. -/
theorem Ample.unquoted (ample : Ample features fuel) (n : Nat) (enough : 3 * n + 2 ≤ fuel) :
    Matches (Within n) 0
      (do
        if (← peek) = some '@' then
          advance 1
          some <$> (wrapIn "UNQUOTE-SPLICING" =<< readDatum features fuel)
        else some <$> (wrapIn "UNQUOTE" =<< readDatum features fuel))
      (do
        if (← peek) = some '@' then
          advance 1
          some <$> (wrapIn "UNQUOTE-SPLICING" =<< readDatum features (fuel + 1))
        else some <$> (wrapIn "UNQUOTE" =<< readDatum features (fuel + 1))) := by
  refine .peek (fun image => ⟨_, wrapped_end features fuel _ image⟩)
    (fun image => (wrapped_end features _ _ image).trans (wrapped_end features _ _ image).symm)
    fun c => ?_
  split
  · refine .weak (.advance n (fun cs held => ⟨held.some, held.1⟩) fun m shorter => ?_)
    exact ample.wrapped m (by omega) _
  · exact (ample.wrapped n enough _).mono (fun _ held => held.1) (Nat.le_refl _)

theorem Ample.item_succ (ample : Ample features fuel) (n : Nat)
    (enough : 3 * n + 1 ≤ fuel + 1) :
    Matches (Ready n) 1 (readItem features (fuel + 1)) (readItem features (fuel + 2)) := by
  rw [readItem, readItem]
  refine .peek (fun image => ⟨_, rfl⟩) (fun _ => rfl) fun c => ?_
  have nonempty : ∀ cs, OpensWith (Ready n) c cs → cs ≠ [] ∧ cs.length ≤ n :=
    fun cs held => ⟨held.some, held.1.within⟩
  split
  · contradiction
  · exact .advance n nonempty fun m shorter =>
      ample.list m (by omega) fun _ => .map (.onHeap _) _
  · exact .throw _
  · exact .advance n nonempty fun m shorter => ample.wrapped m (by omega) _
  · exact .advance n nonempty fun m shorter => ample.wrapped m (by omega) _
  · exact .advance n nonempty fun m shorter => ample.unquoted m (by omega)
  · exact .advance n nonempty fun m shorter => .bind m (.lex .string) (fun _ held => held)
      fun _ _ _ => .ofApart (.map (.onHeap _) _)
  · exact .advance n nonempty fun m shorter => (ample.dispatch m (by omega)).weak
  · rename_i opens closes quote backquote comma string sharp same
    cases same
    refine .bind n (.token fun cs held => ?_) (fun _ held => held.1.within) fun token _ _ =>
      .ofApart (.map (.atomOfToken token) _)
    obtain ⟨held, head⟩ := held
    obtain ⟨left, rfl⟩ := List.head?_eq_some_iff.mp head
    obtain ⟨notBlank, notComment⟩ := held.ready.head
    refine ⟨c, left, rfl, ?_⟩
    simp only [isTerminating, notBlank, Bool.false_or, Bool.or_eq_false_iff, beq_eq_false_iff_ne]
    exact ⟨⟨⟨⟨⟨⟨opens, closes⟩, quote⟩, string⟩, notComment⟩, backquote⟩, comma⟩

/-- From a certain amount on, more fuel changes nothing. -/
theorem Ample.all (features : List String) (fuel : Nat) : Ample features fuel := by
  induction fuel with
  | zero => exact .zero features
  | succ fuel ih =>
      exact ⟨ih.item_succ, ih.dispatch_succ, ih.guarded_succ, ih.elements_succ, ih.datum_succ⟩

end Items

end Reader

end LispScript
