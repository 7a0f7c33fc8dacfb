import LispScript.Reader

/-!
How far the scanners look. Each consumes characters from the front, and none beyond a newline after
what it takes.
-/

namespace LispScript.Reader

section Blanks

variable {inComment : Bool} {cs left : List Char} {c : Char}

theorem skipBlanksFrom_suffix (inComment : Bool) (cs : List Char) :
    skipBlanksFrom inComment cs <:+ cs := by
  fun_induction skipBlanksFrom inComment cs with
  | case1 => exact List.suffix_rfl
  | case2 _ _ ih => exact ih.trans (List.suffix_cons _ _)
  | case3 _ _ _ _ _ ih => exact ih.trans (List.suffix_cons _ _)
  | case4 _ _ _ _ ih => exact ih.trans (List.suffix_cons _ _)
  | case5 => exact List.suffix_rfl

theorem skipBlanksFrom_length (inComment : Bool) (cs : List Char) :
    (skipBlanksFrom inComment cs).length ≤ cs.length :=
  (skipBlanksFrom_suffix inComment cs).length_le

/-- Where something other than blanks is left, the blanks end before it whatever comes later. -/
theorem skipBlanksFrom_append (found : skipBlanksFrom inComment cs = c :: left)
    (more : List Char) :
    skipBlanksFrom inComment (cs ++ more) = c :: left ++ more := by
  fun_induction skipBlanksFrom inComment cs with
  | case1 => cases found
  | case2 _ _ ih => rw [List.cons_append, skipBlanksFrom, if_pos rfl, ih found]
  | case3 _ _ _ code blank ih =>
      rw [List.cons_append, skipBlanksFrom, if_neg code, if_pos blank, ih found]
  | case4 _ _ code other ih =>
      rw [List.cons_append, skipBlanksFrom, if_neg code, if_neg other, if_pos rfl, ih found]
  | case5 _ _ _ code other noComment =>
      rw [List.cons_append, skipBlanksFrom, if_neg code, if_neg other, if_neg noComment]
      cases found
      rfl

/-- A newline ends the comment that a text of blanks may leave open. -/
theorem skipBlanksFrom_newline (blank : skipBlanksFrom inComment cs = []) (more : List Char) :
    skipBlanksFrom inComment (cs ++ '\n' :: more) = skipBlanks more := by
  fun_induction skipBlanksFrom inComment cs with
  | case1 inComment => cases inComment <;> rfl
  | case2 _ _ ih => rw [List.cons_append, skipBlanksFrom, if_pos rfl, ih blank]
  | case3 _ _ _ code white ih =>
      rw [List.cons_append, skipBlanksFrom, if_neg code, if_pos white, ih blank]
  | case4 _ _ code other ih =>
      rw [List.cons_append, skipBlanksFrom, if_neg code, if_neg other, if_pos rfl, ih blank]
  | case5 => cases blank

/-- A text that begins with neither a blank nor a comment. -/
def IsReady (cs : List Char) : Prop := skipBlanks cs = cs

theorem skipBlanksFrom_ready (inComment : Bool) (cs : List Char) :
    IsReady (skipBlanksFrom inComment cs) := by
  fun_induction skipBlanksFrom inComment cs with
  | case1 => rfl
  | case2 _ _ ih => exact ih
  | case3 _ _ _ _ _ ih => exact ih
  | case4 _ _ _ _ ih => exact ih
  | case5 _ _ _ _ other noComment =>
      rw [IsReady, skipBlanks, skipBlanksFrom, if_neg (by simp), if_neg other, if_neg noComment]

theorem IsReady.head (ready : IsReady (c :: cs)) : Text.isBlank c = false ∧ c ≠ ';' := by
  have length (inComment : Bool) : skipBlanksFrom inComment cs ≠ c :: cs := fun same => by
    have shorter := skipBlanksFrom_length inComment cs
    rw [same, List.length_cons] at shorter
    omega
  rw [IsReady, skipBlanks, skipBlanksFrom, if_neg (by simp)] at ready
  split at ready
  · exact absurd ready (length false)
  · rename_i notBlank
    split at ready
    · exact absurd ready (length true)
    · rename_i notComment
      exact ⟨Bool.eq_false_iff.mpr notBlank, notComment⟩

end Blanks

section Scanners

variable {α : Type} {scan : List Char → Except ReadError α × List Char}

/-- A scanner that consumes from the front and is content with the newline that ends its line. -/
structure Scans (scan : List Char → Except ReadError α × List Char) : Prop where
  suffix : ∀ cs, (scan cs).2 <:+ cs
  newline : ∀ cs a left, scan cs = (.ok a, left) → ∀ text,
    scan (cs ++ '\n' :: text) = (.ok a, left ++ '\n' :: text)

theorem Scans.length (scans : Scans scan) (cs : List Char) : (scan cs).2.length ≤ cs.length :=
  (scans.suffix cs).length_le

theorem isTerminating_newline : isTerminating '\n' = true := by decide

theorem scanTokenFrom_suffix (inBars : Bool) (token : PartialToken) (cs : List Char) :
    (scanTokenFrom inBars token cs).2 <:+ cs := by
  fun_induction scanTokenFrom inBars token cs with
  | case1 | case2 | case3 => exact List.nil_suffix
  | case4 _ _ _ _ ih => exact (ih.trans (List.suffix_cons _ _)).trans (List.suffix_cons _ _)
  | case5 _ _ _ ih | case6 _ _ _ _ ih => exact ih.trans (List.suffix_cons _ _)
  | case7 _ _ _ _ ih => exact (ih.trans (List.suffix_cons _ _)).trans (List.suffix_cons _ _)
  | case8 _ _ _ _ _ ih => exact ih.trans (List.suffix_cons _ _)
  | case9 => exact (by assumption : _ <:+ _).trans (List.suffix_cons _ _)
  | case10 => exact List.suffix_rfl
  | case11 => exact (by assumption : _ <:+ _).trans (List.suffix_cons _ _)

theorem scanTokenFrom_length (inBars : Bool) (token : PartialToken) (cs : List Char) :
    (scanTokenFrom inBars token cs).2.length ≤ cs.length :=
  (scanTokenFrom_suffix inBars token cs).length_le

/-- A colon marks a package unless it is escaped or comes after another. -/
theorem scanTokenFrom_colon (inBars : Bool) (token : PartialToken) (cs : List Char) :
    scanTokenFrom inBars token (':' :: cs) =
      if inBars || token.qualifier.isSome then scanTokenFrom inBars (token.add [':']) cs
      else if cs.head? = some ':' then scanTokenFrom inBars (token.mark true) cs.tail
      else scanTokenFrom inBars (token.mark false) cs := by
  cases cs with
  | nil => rfl
  | cons c cs =>
      by_cases colon : c = ':'
      · subst colon
        rw [scanTokenFrom]
        rfl
      · rw [scanTokenFrom]
        · simp [colon]
        · rintro rest ⟨⟩
          exact colon rfl

theorem scanTokenFrom_newline {inBars : Bool} {partial_ : PartialToken} {cs left : List Char}
    {token : Token} (scanned : scanTokenFrom inBars partial_ cs = (.ok token, left))
    (text : List Char) :
    scanTokenFrom inBars partial_ (cs ++ '\n' :: text) = (.ok token, left ++ '\n' :: text) := by
  fun_induction scanTokenFrom inBars partial_ cs with
  | case1 => cases scanned
  | case2 inBars _ outside =>
      cases scanned
      rw [List.nil_append, scanTokenFrom, if_neg outside, if_pos isTerminating_newline]
      all_goals decide
  | case3 => cases scanned
  | case4 _ _ _ _ ih => rw [List.cons_append, List.cons_append, scanTokenFrom, ih scanned]
  | case5 _ _ _ ih => rw [List.cons_append, scanTokenFrom, ih scanned]
  | case6 _ _ _ literal ih =>
      rw [List.cons_append, scanTokenFrom_colon, if_pos literal, ih scanned]
  | case7 _ _ marks _ ih =>
      rw [List.cons_append, List.cons_append, scanTokenFrom_colon, if_neg marks,
        if_pos (by rfl)]
      exact ih scanned
  | case8 _ _ marks rest single ih =>
      have other : (rest ++ '\n' :: text).head? ≠ some ':' := by
        cases rest with
        | nil => simp
        | cons c rest => exact fun same => single rest (by cases same; rfl)
      rw [List.cons_append, scanTokenFrom_colon, if_neg marks, if_neg other, ih scanned]
  | case9 _ _ _ _ _ _ ih =>
      rw [List.cons_append, scanTokenFrom, if_pos rfl, ih scanned]
      all_goals assumption
  | case10 _ _ _ _ _ _ _ outside terminates =>
      cases scanned
      rw [List.cons_append, scanTokenFrom, if_neg outside, if_pos terminates]
      all_goals assumption
  | case11 _ _ _ _ _ _ _ outside continues ih =>
      rw [List.cons_append, scanTokenFrom, if_neg outside, if_neg continues, ih scanned]
      all_goals assumption

theorem Scans.token : Scans scanToken where
  suffix := scanTokenFrom_suffix false {}
  newline _ _ _ scanned := scanTokenFrom_newline scanned

/-- A token takes the character that it begins with. -/
theorem scanToken_length {c : Char} (goes : isTerminating c = false) (cs : List Char) :
    (scanToken (c :: cs)).2.length ≤ cs.length := by
  rw [scanToken, scanTokenFrom.eq_def]
  split
  · contradiction
  · rename_i same
    cases same
    split
    · exact Nat.zero_le _
    · exact Nat.le_succ_of_le (scanTokenFrom_length _ _ _)
  · rename_i same
    cases same
    exact scanTokenFrom_length _ _ _
  · rename_i same
    cases same
    split
    · exact scanTokenFrom_length _ _ _
    · split
      · exact Nat.le_succ_of_le (scanTokenFrom_length _ _ _)
      · exact scanTokenFrom_length _ _ _
  · rename_i same
    cases same
    rw [if_neg (by simp), if_neg (by simp [goes])]
    exact scanTokenFrom_length _ _ _

/-- The scanner of strings, which has nothing left when a string does not end. -/
def stringScanner (cs : List Char) : Except ReadError String × List Char :=
  match scanString [] cs with
  | some (text, rest) => (.ok text, rest)
  | none => (.error .unterminatedString, [])

theorem scanString_suffix {seen cs left : List Char} {text : String}
    (scanned : scanString seen cs = some (text, left)) : left <:+ cs := by
  fun_induction scanString seen cs with
  | case1 | case3 => cases scanned
  | case2 =>
      cases scanned
      exact List.suffix_cons _ _
  | case4 _ _ _ ih => exact ((ih scanned).trans (List.suffix_cons _ _)).trans (List.suffix_cons _ _)
  | case5 _ _ _ _ _ ih => exact (ih scanned).trans (List.suffix_cons _ _)

theorem scanString_append {seen cs left : List Char} {text : String}
    (scanned : scanString seen cs = some (text, left)) (more : List Char) :
    scanString seen (cs ++ more) = some (text, left ++ more) := by
  fun_induction scanString seen cs with
  | case1 | case3 => cases scanned
  | case2 =>
      cases scanned
      rw [List.cons_append, scanString]
  | case4 _ _ _ ih => rw [List.cons_append, List.cons_append, scanString, ih scanned]
  | case5 _ _ _ _ _ ih =>
      rw [List.cons_append, scanString, ih scanned]
      all_goals assumption

theorem Scans.string : Scans stringScanner where
  suffix cs := by
    rw [stringScanner]
    split
    · rename_i scanned
      exact scanString_suffix scanned
    · exact List.nil_suffix
  newline cs a left scanned more := by
    rw [stringScanner] at scanned ⊢
    split at scanned
    · rename_i found
      cases scanned
      rw [scanString_append found]
    · cases scanned

/-- The scanner of block comments. -/
def commentScanner (cs : List Char) : Except ReadError Unit × List Char :=
  match skipBlockComment 0 cs with
  | some rest => (.ok (), rest)
  | none => (.error .unexpectedEnd, [])

theorem skipBlockComment_suffix {inner : Nat} {cs left : List Char}
    (skipped : skipBlockComment inner cs = some left) : left <:+ cs := by
  fun_induction skipBlockComment inner cs with
  | case1 _ _ ih => exact ((ih skipped).trans (List.suffix_cons _ _)).trans (List.suffix_cons _ _)
  | case2 =>
      cases skipped
      exact (List.suffix_cons _ _).trans (List.suffix_cons _ _)
  | case3 _ _ ih => exact ((ih skipped).trans (List.suffix_cons _ _)).trans (List.suffix_cons _ _)
  | case4 _ _ _ _ _ ih => exact (ih skipped).trans (List.suffix_cons _ _)
  | case5 => cases skipped

theorem skipBlockComment_append {inner : Nat} {cs left : List Char}
    (skipped : skipBlockComment inner cs = some left) (more : List Char) :
    skipBlockComment inner (cs ++ more) = some (left ++ more) := by
  fun_induction skipBlockComment inner cs with
  | case1 _ _ ih => exact ih skipped
  | case2 =>
      cases skipped
      rfl
  | case3 _ _ ih => exact ih skipped
  | case4 inner c rest notOpened notClosed ih =>
      cases rest with
      | nil => cases skipped
      | cons d rest =>
          rw [List.cons_append, List.cons_append, skipBlockComment]
          · exact ih skipped
          · rintro rest' rfl ⟨⟩
            exact notOpened rest rfl rfl
          · rintro rest' rfl ⟨⟩
            exact notClosed rest rfl rfl
  | case5 => cases skipped

theorem Scans.comment : Scans commentScanner where
  suffix cs := by
    rw [commentScanner]
    split
    · rename_i skipped
      exact skipBlockComment_suffix skipped
    · exact List.nil_suffix
  newline cs a left scanned more := by
    rw [commentScanner] at scanned ⊢
    split at scanned
    · rename_i found
      cases scanned
      rw [skipBlockComment_append found]
    · cases scanned

/-- A newline ends what a token could be made of. -/
theorem span_newline (cs more : List Char) :
    (cs ++ '\n' :: more).takeWhile (!isTerminating ·) = cs.takeWhile (!isTerminating ·) ∧
      (cs ++ '\n' :: more).dropWhile (!isTerminating ·) =
        cs.dropWhile (!isTerminating ·) ++ '\n' :: more := by
  induction cs with
  | nil => simp [isTerminating_newline]
  | cons c cs ih =>
      rw [List.cons_append, List.takeWhile_cons, List.takeWhile_cons, List.dropWhile_cons,
        List.dropWhile_cons]
      split
      · exact ⟨by rw [ih.1], ih.2⟩
      · exact ⟨rfl, rfl⟩

theorem Scans.character : Scans scanCharacter where
  suffix cs := by
    cases cs with
    | nil => exact List.suffix_rfl
    | cons c rest =>
        have dropped : rest.dropWhile (!isTerminating ·) <:+ c :: rest :=
          (List.dropWhile_suffix _).trans (List.suffix_cons _ _)
        simp only [scanCharacter]
        split
        · exact dropped
        · split <;> exact dropped
  newline cs a left scanned more := by
    cases cs with
    | nil => cases scanned
    | cons c rest =>
        obtain ⟨taken, dropped⟩ := span_newline rest more
        simp only [scanCharacter, List.cons_append, taken, dropped] at scanned ⊢
        split at scanned
        · rename_i bare
          rw [if_pos bare]
          cases scanned
          rfl
        · rename_i named
          rw [if_neg named]
          split at scanned
          · cases scanned
            rfl
          · cases scanned

end Scanners

end LispScript.Reader
