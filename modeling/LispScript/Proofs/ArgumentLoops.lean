import LispScript.Proofs.LambdaLists
import LispScript.Proofs.Receiving

/-!
The loops at the head of a function: the search for keywords among the arguments, the complaint about
keywords that are not known, and the collection of the rest. A search tries the pairs in order and
goes by the first that fits.
-/

namespace LispScript.Machine

open Script Compiler Discipline

variable {c first steps turns : Nat} {call : Caller} {args : List Value} {i j : Image}
  {ps : List (Value × Value)} {index host : String} {old : Value}

section Pairs

/-- The arguments from a place on are the given pairs. -/
structure Paired (args : List Value) (first : Nat) (ps : List (Value × Value)) : Prop where
  ends : args.length ≤ first + 2 * ps.length
  key : ∀ (k : Nat) pair, ps[k]? = some pair →
    args[first + 2 * k]? = some pair.1 ∧ args[first + 2 * k + 1]? = some pair.2

/-- Arguments of which an even number follows the positional ones, behind the acceptor. -/
theorem paired_pairs {acceptor : Value} {data : List Value} {n : Nat}
    (even : (data.drop n).length % 2 = 0) :
    Paired (acceptor :: data) (n + 1) (pairs (data.drop n)) := by
  refine ⟨?_, fun k pair found => ?_⟩
  · rw [pairs_length, List.length_cons]
    rw [List.length_drop] at even ⊢
    omega
  · obtain ⟨key, value⟩ := pairs_getElem? found
    rw [List.getElem?_drop] at key value
    have first_eq : n + 1 + 2 * k = n + 2 * k + 1 := by omega
    rw [first_eq, List.getElem?_cons_succ, List.getElem?_cons_succ]
    exact ⟨key, value⟩

/-- A loop over pairs stands at one of them. -/
structure AtPair (c : Nat) (index : String) (first : Nat) (i : Image) (k : Nat) (j : Image) :
    Prop where
  touches : Touches c (· = index) i j
  position : j.own? c index = some (countValue (first + 2 * k))

theorem AtPair.here {k : Nat} (at_ : AtPair c index first i k j) (apart : index ≠ "arguments")
    (receiving : Receiving c args i) : Receiving c args j :=
  receiving.touches at_.touches (Ne.symm apart)

variable (receiving : Receiving c args i) (paired : Paired args first ps)
  (apart : index ≠ "arguments")
include receiving paired apart

theorem settles_key {k : Nat} {pair : Value × Value} (at_ : AtPair c index first i k j)
    (found : ps[k]? = some pair) : Settles call turns c j (argumentAt (.ident index)) pair.1 := by
  have here := at_.here apart receiving
  exact here.settles_argument (here.settles_own at_.position) (paired.key k pair found).1

theorem settles_pairedArgument {k : Nat} {pair : Value × Value}
    (at_ : AtPair c index first i k j) (found : ps[k]? = some pair) :
    Settles call turns c j (pairedArgument index) pair.2 := by
  have here := at_.here apart receiving
  have stands := (paired.key k pair found).2
  have small := Nat.lt_trans (List.getElem?_eq_some_iff.mp stands).1 here.short
  refine here.settles_argument ?_ stands
  rw [Settles, evalExpr_operator (by simp) (here.settles_own at_.position)
    (evalExpr_countLiteral call turns 1)]
  exact countValue_add small

variable {body : List Stmt}

omit paired in
/-- The test of a loop over pairs. -/
theorem settles_inside (call : Caller) (turns : Nat) {k : Nat} (at_ : AtPair c index first i k j) :
    Settles call turns c j (.binary .lt (.ident index) argumentsLength)
      (.bool (decide (first + 2 * k < args.length))) := by
  have here := at_.here apart receiving
  rw [Settles, evalExpr_operator (by simp) (here.settles_own at_.position) here.settles_length]
  change EStateM.Result.ok (Value.bool (decide
    (Float.ofNat (first + 2 * k) < Float.ofNat args.length))) j = _
  rw [decide_eq_decide.mpr (Number.lt_ofNat_iff receiving.short)]

theorem settles_pairTest {k : Nat} {pair : Value × Value} (at_ : AtPair c index first i k j)
    (found : ps[k]? = some pair) :
    Settles call turns c j (.binary .lt (.ident index) argumentsLength) (.bool true) := by
  have inside := settles_inside receiving apart call turns at_
  rwa [decide_eq_true (List.getElem?_eq_some_iff.mp (paired.key k pair found).1).1] at inside

/-- A loop over pairs gets past those at which its body does nothing. -/
theorem scanPairs_reaches {m : Nat} (le : m ≤ ps.length) (enough : m ≤ turns)
    (there : i.own? c index = some old)
    (passes : ∀ k j, AtPair c index first i k j → k < m →
      execBlock call turns c body j = .ok .normal j) :
    ∃ j, AtPair c index first i m j ∧ exec call turns c (scanPairs index first body) i =
      loopTurns call turns c (.binary .lt (.ident index) argumentsLength)
        (assignVar index (.binary .add (.ident index) (countLiteral 2))) body (turns - m) j := by
  have start_ok : evalExpr call turns c (assignVar index (countLiteral first)) i =
      .ok (countValue first) (i.setOwn c index (countValue first)) :=
    receiving.evalExpr_assignVar (evalExpr_countLiteral call turns first) (.refl c (· = index) i)
      there
  have start : AtPair c index first i 0 (i.setOwn c index (countValue first)) :=
    ⟨.one receiving.bound .., own?_setOwn receiving.bound⟩
  rw [scanPairs, exec_iterate start_ok]
  refine loopTurns_advances (fun k j at_ less => ?_) (Nat.zero_le m) enough start
  have here := at_.here apart receiving
  have found := List.getElem?_eq_getElem (Nat.lt_of_lt_of_le less le)
  have behind := (List.getElem?_eq_some_iff.mp (paired.key k _ found).2).1
  have next_ok : Settles call turns c j (.binary .add (.ident index) (countLiteral 2))
      (countValue (first + 2 * (k + 1))) := by
    have short := receiving.short
    rw [Settles, evalExpr_operator (by simp) (here.settles_own at_.position)
      (evalExpr_countLiteral call turns 2), countValue_add (by omega)]
    rfl
  exact ⟨settles_pairTest receiving paired apart at_ found, j, _, _, passes k j at_ less,
    here.evalExpr_assignVar next_ok (.refl c (· = index) j) at_.position,
    at_.touches.trans (.one here.bound ..), own?_setOwn here.bound⟩

/-- A loop over pairs stops behind the last one. -/
theorem settles_pairTest_ends (at_ : AtPair c index first i ps.length j) :
    Settles call turns c j (.binary .lt (.ident index) argumentsLength) (.bool false) := by
  have outside := settles_inside receiving apart call turns at_
  rwa [decide_eq_false (Nat.not_lt.mpr paired.ends)] at outside

/-- A search among pairs goes by the first one that hits. -/
theorem scanPairs_search {hit : Value × Value → Bool} {test : Expr} (found : List Stmt)
    (enough : ps.length < turns) (there : i.own? c index = some old)
    (tests : ∀ k j pair, AtPair c index first i k j → ps[k]? = some pair →
      Settles call turns c j test (.bool (hit pair))) :
    match ps.find? hit with
    | none => ∃ j, Touches c (· = index) i j ∧
        exec call turns c (scanPairs index first [.branch test found []]) i = .ok .normal j
    | some pair => ∃ k j, ps[k]? = some pair ∧ AtPair c index first i k j ∧
        (∀ j', execBlock call turns c found j = .ok (.left none) j' →
          exec call turns c (scanPairs index first [.branch test found []]) i = .ok .normal j') ∧
        ∀ e j', execBlock call turns c found j = .error e j' →
          exec call turns c (scanPairs index first [.branch test found []]) i = .error e j' := by
  have passes {m : Nat} (le : m ≤ ps.length)
      (misses : ∀ (k : Nat) pair, k < m → ps[k]? = some pair → hit pair = false) :
      ∀ k j, AtPair c index first i k j → k < m →
        execBlock call turns c [.branch test found []] j = .ok .normal j := by
    intro k j at_ less
    have stands := List.getElem?_eq_getElem (Nat.lt_of_lt_of_le less le)
    have test_ok := tests k j _ at_ stands
    rw [misses k _ less stands] at test_ok
    rw [execBlock_singleton, exec_branch test_ok]
    rfl
  cases searched : ps.find? hit with
  | none =>
      have misses := List.find?_eq_none.mp searched
      obtain ⟨j, at_, same⟩ := scanPairs_reaches receiving paired apart (Nat.le_refl ps.length)
        (Nat.le_of_lt enough) there (passes (Nat.le_refl _) fun k pair _ stands => by
          simpa using misses pair (List.mem_of_getElem? stands))
      exact ⟨j, at_.touches, same.trans (loopTurns_stops (by omega)
        (settles_pairTest_ends receiving paired apart at_))⟩
  | some pair =>
      obtain ⟨hits, m, bound, rfl, before⟩ := List.find?_eq_some_iff_getElem.mp searched
      have stands := List.getElem?_eq_getElem bound
      obtain ⟨j, at_, same⟩ := scanPairs_reaches receiving paired apart (Nat.le_of_lt bound)
        (by omega) there (passes (Nat.le_of_lt bound) fun k pair less stands => by
          obtain ⟨inside, rfl⟩ := List.getElem?_eq_some_iff.mp stands
          simpa using before k less)
      have goes : Settles call turns c j (.binary .lt (.ident index) argumentsLength)
          (.bool true) := settles_pairTest receiving paired apart at_ stands
      have test_ok := tests m j _ at_ stands
      rw [hits] at test_ok
      have taken : execBlock call turns c [.branch test found []] j =
          execBlock call turns c found j := by
        rw [execBlock_singleton, exec_branch test_ok]
        rfl
      refine ⟨m, j, stands, at_, fun j' left => ?_, fun e j' failed => ?_⟩
      · rw [same, loopTurns_leaves (by omega) goes (taken.trans left)]
      · rw [same, loopTurns_fails (by omega) goes (taken.trans failed)]

end Pairs

section Keys

variable {flag? : Option String} {keyword default : Expr} {kw : Value}

theorem strictEq_undefined (defined : old ≠ .undefined) : old.strictEq .undefined = false := by
  cases old <;> first | rfl | exact absurd rfl defined

theorem settles_undefined : Settles call turns c i .undefined .undefined := by
  rw [Settles, evalExpr]
  rfl

/-- The flag of a keyword parameter is set, if there is one. -/
theorem Receiving.exec_flag (receiving : Receiving c args i)
    (there : ∀ flag ∈ flag?, ∃ old, i.own? c flag = some old) :
    ∃ j, Touches c (· ∈ flag?) i j ∧ (∀ flag ∈ flag?, j.own? c flag = some .t) ∧
      execBlock call turns c (flag?.toList.map fun flag => assignStmt flag .t) i =
        .ok .normal j := by
  cases flag? with
  | none => exact ⟨i, .refl .., nofun, rfl⟩
  | some flag =>
      obtain ⟨old, held⟩ := there flag rfl
      refine ⟨i.setOwn c flag .t, (Touches.one receiving.bound ..).mono ?_, ?_, ?_⟩
      · rintro _ rfl
        rfl
      · rintro _ ⟨⟩
        exact own?_setOwn receiving.bound
      · change execBlock call turns c [assignStmt flag .t] i = _
        rw [execBlock_singleton]
        exact receiving.exec_assignStmt settles_t (.refl c (· = flag) i) held

/-- The search for the argument of a keyword, which a variable gets and a flag tells of. -/
def keywordSearch (index : String) (first : Nat) (host : String) (flag? : Option String)
    (keyword : Expr) : Stmt :=
  scanPairs index first [.branch (.binary .strictEq (argumentAt (.ident index)) keyword)
    ([assignStmt host (pairedArgument index)] ++
      flag?.toList.map (fun flag => assignStmt flag .t) ++ [.leave none]) []]

variable (receiving : Receiving c args i) (paired : Paired args first ps)
  (apart : index ≠ "arguments") (enough : ps.length < turns)
  (there : i.own? c index = some old) (unset : i.own? c host = some .undefined)
  (host_ne : host ≠ index) (host_apart : host ≠ "arguments")
  (flags : ∀ flag ∈ flag?, ∃ old, i.own? c flag = some old)
  (flags_ne : ∀ flag ∈ flag?, flag ≠ index ∧ flag ≠ host ∧ flag ≠ "arguments")
  (keyword_ok : ∀ j, Touches c (· = index) i j → Settles call turns c j keyword kw)
include receiving paired apart enough there unset host_ne flags flags_ne keyword_ok host_apart

/-- The leftmost argument for a keyword counts. -/
theorem keywordSearch_run :
    match ps.find? (·.1.strictEq kw) with
    | some pair => ∃ j, Touches c (fun name => name = index ∨ name = host ∨ name ∈ flag?) i j ∧
        j.own? c host = some pair.2 ∧ (∀ flag ∈ flag?, j.own? c flag = some .t) ∧
        exec call turns c (keywordSearch index first host flag? keyword) i = .ok .normal j
    | none => ∃ j, Touches c (· = index) i j ∧
        exec call turns c (keywordSearch index first host flag? keyword) i = .ok .normal j := by
  have tests : ∀ k j pair, AtPair c index first i k j → ps[k]? = some pair →
      Settles call turns c j (.binary .strictEq (argumentAt (.ident index)) keyword)
        (.bool (pair.1.strictEq kw)) := fun k j pair at_ stands =>
    evalExpr_strictEq (settles_key receiving paired apart at_ stands) (keyword_ok j at_.touches)
  have searched := scanPairs_search receiving paired apart ([assignStmt host (pairedArgument index)] ++
    flag?.toList.map (fun flag => assignStmt flag .t) ++ [.leave none]) enough there tests
  cases found : ps.find? (·.1.strictEq kw) with
  | none =>
      rw [found] at searched
      exact searched
  | some pair =>
      rw [found] at searched
      obtain ⟨k, j, stands, at_, leaves, -⟩ := searched
      have here := at_.here apart receiving
      have thereHost : j.own? c host = some .undefined :=
        (at_.touches.kept host host_ne).trans unset
      have taken : exec call turns c (assignStmt host (pairedArgument index)) j = _ :=
        here.exec_assignStmt (settles_pairedArgument receiving paired apart at_ stands)
          (.refl c (· = host) j) thereHost
      have touchesHost := Touches.one here.bound host pair.2
      have thereFlags : ∀ flag ∈ flag?,
          ∃ old, (j.setOwn c host pair.2).own? c flag = some old := by
        intro flag member
        obtain ⟨old, held⟩ := flags flag member
        exact touchesHost.there flag old ((at_.touches.kept flag (flags_ne flag member).1).trans held)
      obtain ⟨last, touchesFlags, set, flagged⟩ :=
        (here.touches touchesHost (Ne.symm host_apart)).exec_flag thereFlags
      have held : last.own? c host = some pair.2 :=
        (touchesFlags.kept host fun member => (flags_ne host member).2.1 rfl).trans
          (own?_setOwn here.bound)
      have touches : Touches c (fun name => name = index ∨ name = host ∨ name ∈ flag?) i last :=
        ((at_.touches.mono fun _ => .inl).trans (touchesHost.mono fun _ same => .inr (.inl same))).trans
          (touchesFlags.mono fun _ member => .inr (.inr member))
      refine ⟨last, touches, held, set, leaves last ?_⟩
      rw [List.append_assoc, List.singleton_append, execBlock_continues taken,
        execBlock_append_continues flagged]
      rfl

variable (default) in
/-- What is done for a keyword parameter: without an argument for its keyword there is the
default. -/
theorem keyCode_run (defined : ∀ pair ∈ ps, pair.2 ≠ .undefined) :
    match ps.find? (·.1.strictEq kw) with
    | some pair => ∃ j, Touches c (fun name => name = index ∨ name = host ∨ name ∈ flag?) i j ∧
        j.own? c host = some pair.2 ∧ (∀ flag ∈ flag?, j.own? c flag = some .t) ∧
        execBlock call turns c (keyCode index first host flag? keyword default) i = .ok .normal j
    | none => ∃ j, Touches c (· = index) i j ∧
        execBlock call turns c (keyCode index first host flag? keyword default) i =
          exec call turns c (assignStmt host default) j := by
  have searched := keywordSearch_run receiving paired apart enough there unset host_ne host_apart
    flags flags_ne keyword_ok
  -- After the search the variable tells by its value whether there was an argument.
  have after : ∀ j value, exec call turns c (keywordSearch index first host flag? keyword) i =
      .ok .normal j → Receiving c args j → j.own? c host = some value →
      execBlock call turns c (keyCode index first host flag? keyword default) i =
        if value.strictEq .undefined then execBlock call turns c [assignStmt host default] j
        else execBlock call turns c [] j := by
    intro j value ran here held
    have test_ok : Settles call turns c j (.binary .strictEq (.ident host) .undefined)
        (.bool (value.strictEq .undefined)) :=
      evalExpr_strictEq (here.settles_own held) settles_undefined
    have next : execBlock call turns c (keyCode index first host flag? keyword default) i = _ :=
      execBlock_continues ran
    rw [next, execBlock_singleton, exec_branch test_ok]
  cases found : ps.find? (·.1.strictEq kw) with
  | none =>
      rw [found] at searched
      obtain ⟨j, touches, ran⟩ := searched
      have held : j.own? c host = some .undefined := (touches.kept host host_ne).trans unset
      refine ⟨j, touches, ?_⟩
      rw [after j _ ran (receiving.touches touches (Ne.symm apart)) held, execBlock_singleton]
      rfl
  | some pair =>
      rw [found] at searched
      obtain ⟨j, touches, held, set, ran⟩ := searched
      have here : Receiving c args j := by
        refine receiving.touches touches ?_
        rintro (same | same | member)
        · exact apart same.symm
        · exact host_apart same.symm
        · exact (flags_ne _ member).2.2 rfl
      refine ⟨j, touches, held, set, ?_⟩
      rw [after j _ ran here held, strictEq_undefined (defined pair (List.mem_of_find?_eq_some found))]
      rfl

end Keys

section Complaints

variable {allow : String} {keywords : List Expr} {allowKey l r : Expr} {kws : List Value}
  {kwAllow key : Value}

/-- The check that the arguments from a place on come in pairs. -/
theorem Receiving.exec_pairCheck (receiving : Receiving c args i) (first : Nat) :
    exec (callWithin (steps + 1)) turns c (pairCheck first) i =
      if (args.length - first) % 2 = 1 then .error (.failed .oddKeywords) i
      else .ok .normal i := by
  have extra_ok : Settles (callWithin (steps + 1)) turns c i
      (.binary .sub argumentsLength (countLiteral first))
      (.number (Float.ofNat args.length - Float.ofNat first)) := by
    rw [Settles, evalExpr_operator (by simp) receiving.settles_length
      (evalExpr_countLiteral _ _ first)]
    rfl
  have test_ok : Settles (callWithin (steps + 1)) turns c i
      (.binary .gt (.binary .sub argumentsLength (countLiteral first)) (countLiteral 0))
      (.bool (decide (Float.ofNat 0 < Float.ofNat args.length - Float.ofNat first))) := by
    rw [Settles, evalExpr_operator (by simp) extra_ok (evalExpr_countLiteral _ _ 0)]
    rfl
  have checked := evalExpr_callRoutine (r := .checkKeywordPairs) receiving.ordered
    (evalList_settled (.cons extra_ok .nil))
  rw [pairCheck, exec_branch test_ok]
  by_cases more : first < args.length
  · have small : args.length - first < Number.exactLimit :=
      Nat.lt_of_le_of_lt (Nat.sub_le ..) receiving.short
    rw [Number.ofNat_sub (Nat.le_of_lt more) receiving.short] at checked ⊢
    rw [if_pos (decide_eq_true ((Number.ofNat_lt_iff (by decide)).mpr (by omega))),
      execBlock_singleton, exec]
    have counted : runNative (callWithin steps) (.routine .checkKeywordPairs)
        [.number (Float.ofNat (args.length - first))] i =
          if (args.length - first) % 2 = 0 then .ok .undefined i
          else .error (.failed .oddKeywords) i := by
      change (Machine.count (countValue (args.length - first)) >>= _) i = _
      rw [bind_of_ok (count_ok _), Number.toCount_ofNat small]
      split <;> rfl
    rw [counted] at checked
    by_cases even : (args.length - first) % 2 = 0
    · rw [if_pos even] at checked
      rw [bind_of_ok checked, if_neg (by omega)]
      rfl
    · rw [if_neg even] at checked
      rw [if_pos (by omega)]
      change EStateM.bind _ _ i = _
      rw [EStateM.bind, checked]
  · have even : ¬ (args.length - first) % 2 = 1 := by omega
    rw [decide_eq_false (Number.not_positive_sub (Nat.le_of_not_lt more) receiving.short),
      if_neg even]
    rfl

theorem settles_and {a b : Bool} (left : Settles call turns c i l (.bool a))
    (right : Settles call turns c i r (.bool b)) :
    Settles call turns c i (.binary .and l r) (.bool (a && b)) := by
  rw [Settles, evalExpr, bind_of_ok left]
  cases a with
  | false => rfl
  | true => exact right

/-- The test for an argument that is none of some keywords. -/
theorem settles_unknownTest (key_ok : Settles call turns c i (argumentAt (.ident index)) key)
    (keywords_ok : List.Forall₂ (Settles call turns c i) keywords kws) :
    Settles call turns c i (unknownTest index keywords) (.bool (kws.all fun kw => !key.strictEq kw)) := by
  have differs : ∀ {code kw}, Settles call turns c i code kw →
      Settles call turns c i (.binary .strictNe (argumentAt (.ident index)) code)
        (.bool (!key.strictEq kw)) := by
    intro code kw ok
    rw [Settles, evalExpr_operator (by simp) key_ok ok]
    rfl
  have joined : ∀ {codes kws} test (b : Bool), List.Forall₂ (Settles call turns c i) codes kws →
      Settles call turns c i test (.bool b) →
      Settles call turns c i
        ((codes.map (Expr.binary .strictNe (argumentAt (.ident index)))).foldl (Expr.binary .and) test)
        (.bool (b && kws.all fun kw => !key.strictEq kw)) := by
    intro codes kws test b all
    induction all generalizing test b with
    | nil => simp
    | cons first _ ih =>
        intro ok
        rw [List.map_cons, List.foldl_cons, List.all_cons, ← Bool.and_assoc]
        exact ih _ _ (settles_and ok (differs first))
  cases keywords_ok with
  | nil =>
      rw [Settles, unknownTest, List.map_nil, evalExpr]
      rfl
  | cons first rest => exact joined _ _ rest (differs first)

theorem settles_or {a b : Bool} (left : Settles call turns c i l (.bool a))
    (right : Settles call turns c i r (.bool b)) :
    Settles call turns c i (.binary .or l r) (.bool (a || b)) := by
  rw [Settles, evalExpr, bind_of_ok left]
  cases a with
  | true => rfl
  | false => exact right

/-- The complaint about the first keyword that is not known. -/
theorem complaint_run (hit : Value × Value → Bool) (test : Expr) (receiving : Receiving c args i)
    (paired : Paired args first ps) (apart : index ≠ "arguments") (enough : ps.length < turns)
    (there : i.own? c index = some old)
    (tests : ∀ k j pair, AtPair c index first i k j → ps[k]? = some pair →
      Settles (callWithin (steps + 1)) turns c j test (.bool (hit pair))) :
    ∃ j, Touches c (· = index) i j ∧
      exec (callWithin (steps + 1)) turns c (scanPairs index first
          [.branch test [.effect (.callRoutine .unknownKeyword [argumentAt (.ident index)])] []]) i =
        match ps.find? hit with
        | none => .ok .normal j
        | some pair => .error (.failed (.unknownKeyword (j.print pair.1))) j := by
  have searched := scanPairs_search receiving paired apart
    [.effect (.callRoutine .unknownKeyword [argumentAt (.ident index)])] enough there tests
  cases found : ps.find? hit with
  | none =>
      rw [found] at searched
      exact searched
  | some pair =>
      rw [found] at searched
      obtain ⟨k, j, stands, at_, -, fails⟩ := searched
      have here := at_.here apart receiving
      have done : evalList (callWithin (steps + 1)) turns c [argumentAt (.ident index)] j =
          .ok [pair.1] j :=
        evalList_settled (.cons (settles_key receiving paired apart at_ stands) .nil)
      have complained := evalExpr_callRoutine (r := .unknownKeyword) here.ordered done
      refine ⟨j, at_.touches, fails _ _ ?_⟩
      rw [execBlock_singleton, exec]
      change EStateM.bind _ _ j = _
      rw [EStateM.bind, complained]
      rfl

/-- The check for keywords that are not known: a call may waive it, and otherwise the leftmost one is
complained about. -/
theorem unknownKeyCheck_run (receiving : Receiving c args i) (paired : Paired args first ps)
    (apart : index ≠ "arguments") (enough : ps.length < turns)
    (there : i.own? c index = some old) (fresh : i.own? c allow = none)
    (allow_ne : allow ≠ index) (allow_apart : allow ≠ "arguments")
    (keywords_ok : ∀ j, Touches c (fun name => name = index ∨ name = allow) i j →
      List.Forall₂ (Settles (callWithin (steps + 1)) turns c j) keywords kws ∧
        Settles (callWithin (steps + 1)) turns c j allowKey kwAllow)
    (defined : ∀ pair ∈ ps, pair.2 ≠ .undefined) :
    ∃ j, Touches c (fun name => name = index ∨ name = allow) i j ∧
      execBlock (callWithin (steps + 1)) turns c
          (unknownKeyCheck index allow first keywords allowKey) i =
        if (ps.find? (·.1.strictEq kwAllow)).any (!·.2.isNil) then .ok .normal j
        else match ps.find? fun pair => (kws ++ [kwAllow]).all (!pair.1.strictEq ·) with
          | none => .ok .normal j
          | some pair => .error (.failed (.unknownKeyword (j.print pair.1))) j := by
  let both : String → Prop := fun name => name = index ∨ name = allow
  have keeps : ¬ both "arguments" := by
    rintro (same | same)
    · exact apart same.symm
    · exact allow_apart same.symm
  obtain ⟨i₁, declared, touches₁, -, unset⟩ := receiving.exec_declare allow
  have there₁ : i₁.own? c index = some old := (touches₁.kept index (Ne.symm allow_ne)).trans there
  have receiving₁ := receiving.touches touches₁ (Ne.symm allow_apart)
  have none_ : ∀ flag ∈ (none : Option String), False := nofun
  have allowKey_ok : ∀ j, Touches c (· = index) i₁ j →
      Settles (callWithin (steps + 1)) turns c j allowKey kwAllow := fun j touches =>
    (keywords_ok j ((touches₁.mono fun _ => .inr).trans (touches.mono fun _ => .inl))).2
  have searched := keywordSearch_run receiving₁ paired apart enough there₁ (unset fresh) allow_ne
    allow_apart (fun flag member => (none_ flag member).elim)
    (fun flag member => (none_ flag member).elim) allowKey_ok
  -- What the search left in the variable tells whether the call waives the complaint.
  obtain ⟨i₂, value, touches₂, ran, held, waived⟩ : ∃ i₂ value, Touches c both i₁ i₂ ∧
      exec (callWithin (steps + 1)) turns c (keywordSearch index first allow none allowKey) i₁ =
        .ok .normal i₂ ∧ i₂.own? c allow = some value ∧
      (value.strictEq .undefined || value.strictEq .nil) =
        !(ps.find? (·.1.strictEq kwAllow)).any (!·.2.isNil) := by
    cases found : ps.find? (·.1.strictEq kwAllow) with
    | none =>
        rw [found] at searched
        obtain ⟨i₂, touches₂, ran⟩ := searched
        exact ⟨i₂, .undefined, touches₂.mono fun _ => .inl, ran,
          (touches₂.kept allow allow_ne).trans (unset fresh), rfl⟩
    | some pair =>
        rw [found] at searched
        obtain ⟨i₂, touches₂, held, -, ran⟩ := searched
        refine ⟨i₂, pair.2, touches₂.mono fun name changed => ?_, ran, held, ?_⟩
        · rcases changed with same | same | member
          · exact .inl same
          · exact .inr same
          · cases member
        · rw [strictEq_undefined (defined pair (List.mem_of_find?_eq_some found))]
          obtain ⟨_, value⟩ := pair
          cases value <;> rfl
  have receiving₂ := receiving₁.touches touches₂ keeps
  obtain ⟨old₂, there₂⟩ := touches₂.there index old there₁
  have touches₁₂ : Touches c both i i₂ := (touches₁.mono fun _ => .inr).trans touches₂
  have unwaived : Settles (callWithin (steps + 1)) turns c i₂
      (.binary .or (.binary .strictEq (.ident allow) .undefined)
        (.binary .strictEq (.ident allow) .nil))
      (.bool (value.strictEq .undefined || value.strictEq .nil)) :=
    settles_or (evalExpr_strictEq (receiving₂.settles_own held) settles_undefined)
      (evalExpr_strictEq (receiving₂.settles_own held) settles_nil)
  obtain ⟨j, touches₃, complained⟩ := complaint_run
    (fun pair => (kws ++ [kwAllow]).all (!pair.1.strictEq ·))
    (unknownTest index (keywords ++ [allowKey])) receiving₂ paired apart enough there₂ fun k j pair at_ stands => by
      obtain ⟨keywords_ok, allowKey_ok⟩ :=
        keywords_ok j (touches₁₂.trans (at_.touches.mono fun _ => .inl))
      exact settles_unknownTest (settles_key receiving₂ paired apart at_ stands)
        (List.rel_append keywords_ok (.cons allowKey_ok .nil))
  have whole : execBlock (callWithin (steps + 1)) turns c
      (unknownKeyCheck index allow first keywords allowKey) i =
        if value.strictEq .undefined || value.strictEq .nil then
          exec (callWithin (steps + 1)) turns c (scanPairs index first
            [.branch (unknownTest index (keywords ++ [allowKey]))
              [.effect (.callRoutine .unknownKeyword [argumentAt (.ident index)])] []]) i₂
        else .ok .normal i₂ := by
    change execBlock _ turns c (.declare allow :: keywordSearch index first allow none allowKey ::
      [.branch _ [scanPairs index first [.branch (unknownTest index (keywords ++ [allowKey])) _ _]]
        []]) i = _
    rw [execBlock_continues declared, execBlock_continues ran, execBlock_singleton,
      exec_branch unwaived]
    split
    · rw [execBlock_singleton]
    · rfl
  rw [whole, waived]
  cases (ps.find? (·.1.strictEq kwAllow)).any (!·.2.isNil) with
  | true => exact ⟨i₂, touches₁₂, rfl⟩
  | false => exact ⟨j, touches₁₂.trans (touches₃.mono fun _ => .inl), complained⟩

end Complaints

section Rest

theorem isFreshList_kept {before heap later : Heap} {value : Value} {items : List Value}
    (fresh : IsFreshList before heap value items) (keeps : heap.Keeps later) :
    IsFreshList before later value items := by
  induction items generalizing value with
  | nil => exact fresh
  | cons item items ih =>
      obtain ⟨a, same, new, bound, car, rest⟩ := fresh
      refine ⟨a, same, new, Nat.lt_of_lt_of_le bound keeps.cells, ?_, ?_⟩
      · rw [keeps.cell a bound, car]
      · rw [keeps.cell a bound]
        exact ih rest

theorem isFreshList_since {before earlier heap : Heap} {value : Value} {items : List Value}
    (fresh : IsFreshList before heap value items) (le : earlier.cells.size ≤ before.cells.size) :
    IsFreshList earlier heap value items := by
  induction items generalizing value with
  | nil => exact fresh
  | cons item items ih =>
      obtain ⟨a, same, new, bound, car, rest⟩ := fresh
      exact ⟨a, same, Nat.le_trans le new, bound, car, ih rest⟩

/-- The last arguments, so many of them, have been collected, and the loop stands before the next
one. -/
structure Collected (c : Nat) (index host : String) (args : List Value) (i : Image) (k : Nat)
    (j : Image) : Prop where
  touches : Touches c (fun name => name = index ∨ name = host) i j
  position : j.own? c index = some (countValue (args.length - 1 - k))
  list : ∃ value, j.own? c host = some value ∧
    IsFreshList i.heap j.heap value (args.drop (args.length - k))

variable (receiving : Receiving c args i) (apart : index ≠ "arguments")
  (host_apart : host ≠ "arguments") (host_ne : host ≠ index)
include receiving apart host_apart

theorem Collected.here {k : Nat} (collected : Collected c index host args i k j) :
    Receiving c args j := by
  refine receiving.touches collected.touches ?_
  rintro (same | same)
  · exact apart same.symm
  · exact host_apart same.symm

include host_ne

/-- One more argument is put in front of those collected. -/
theorem Collected.turn {k : Nat} (collected : Collected c index host args i k j)
    (positive : 1 ≤ first) (more : k < args.length - first) :
    ∃ j₁ j₂, execBlock (callWithin (steps + 1)) turns c
        [assignStmt host (.callPrimitive .cons [argumentAt (.ident index), .ident host])] j =
          .ok .normal j₁ ∧
      evalExpr (callWithin (steps + 1)) turns c
        (assignVar index (.binary .sub (.ident index) (countLiteral 1))) j₁ =
          .ok (countValue (args.length - 1 - (k + 1))) j₂ ∧
      Collected c index host args i (k + 1) j₂ := by
  have here := collected.here receiving apart host_apart
  obtain ⟨value, held, list⟩ := collected.list
  have inside : args.length - 1 - k < args.length := by omega
  have arg_ok : Settles (callWithin (steps + 1)) turns c j (argumentAt (.ident index))
      args[args.length - 1 - k] :=
    here.settles_argument (here.settles_own collected.position) (List.getElem?_eq_getElem inside)
  -- The cons is new in the heap, and nothing else about the heap has changed.
  let consed : Image :=
    { j with heap := (j.heap.allocCell args[args.length - 1 - k] value).2 }
  have made : evalExpr (callWithin (steps + 1)) turns c
      (.callPrimitive .cons [argumentAt (.ident index), .ident host]) j =
        .ok (.cons j.heap.cells.size) consed :=
    evalExpr_callPrimitive here.ordered
      (evalList_settled (.cons arg_ok (.cons (here.settles_own held) .nil)))
  have touches₁ : Touches c (· = host) j consed := .allocCell ..
  have touches₂ : Touches c (· = host) consed (consed.setOwn c host (.cons j.heap.cells.size)) :=
    Touches.one (i := consed) here.bound ..
  have here₂ := (here.touches touches₁ host_apart.symm).touches touches₂ host_apart.symm
  have position : (consed.setOwn c host (.cons j.heap.cells.size)).own? c index =
      some (countValue (args.length - 1 - k)) :=
    (touches₂.kept index host_ne.symm).trans collected.position
  have next_ok : Settles (callWithin (steps + 1)) turns c
      (consed.setOwn c host (.cons j.heap.cells.size))
      (.binary .sub (.ident index) (countLiteral 1)) (countValue (args.length - 1 - (k + 1))) := by
    have short := receiving.short
    rw [Settles, evalExpr_operator (by simp) (here₂.settles_own position)
      (evalExpr_countLiteral _ _ 1), countValue_sub (by omega) (by omega)]
    rfl
  have touches₃ := Touches.one here₂.bound index (countValue (args.length - 1 - (k + 1)))
  refine ⟨_, _, ?_, here₂.evalExpr_assignVar next_ok (.refl c (· = index) _) position, ?_, ?_, ?_⟩
  · rw [execBlock_singleton]
    exact here.exec_assignStmt made touches₁ held
  · exact collected.touches.trans (((touches₁.trans touches₂).mono fun _ => .inr).trans
      (touches₃.mono fun _ => .inl))
  · exact own?_setOwn here₂.bound
  · refine ⟨.cons j.heap.cells.size, ?_, ?_⟩
    · rw [own?_setOwn_of_ne here₂.bound host_ne]
      exact own?_setOwn here.bound
    · have split : args.drop (args.length - (k + 1)) =
          args[args.length - 1 - k] :: args.drop (args.length - k) := by
        have at_ : args.length - (k + 1) = args.length - 1 - k := by omega
        have behind : args.length - k = args.length - 1 - k + 1 := by omega
        rw [at_, behind]
        exact List.drop_eq_getElem_cons inside
      rw [split]
      have cell : (consed.heap.cell j.heap.cells.size) = ⟨args[args.length - 1 - k], value⟩ := by
        simp [consed, Heap.allocCell, Heap.cell]
      refine ⟨_, rfl, collected.touches.keeps.cells, ?_, congrArg Cell.car cell, ?_⟩
      · change _ < (j.heap.cells.push _).size
        simp
      · change IsFreshList _ _ (consed.heap.cell j.heap.cells.size).cdr _
        rw [cell]
        exact isFreshList_kept list ((touches₁.trans touches₂).keeps.trans touches₃.keeps)

/-- The arguments from a place on are collected in a new list. -/
theorem collectRest_run (enough : args.length ≤ turns) (positive : 1 ≤ first) :
    ∃ j value, Touches c (fun name => name = index ∨ name = host) i j ∧
      execBlock (callWithin (steps + 1)) turns c (collectRest host index first) i = .ok .normal j ∧
      j.own? c host = some value ∧ IsFreshList i.heap j.heap value (args.drop first) := by
  have nil_ok : Settles (callWithin (steps + 1)) turns c i .nil .nil := settles_nil
  have touches₁ := Touches.one receiving.bound host .nil
  have receiving₁ := receiving.touches touches₁ host_apart.symm
  obtain ⟨i₂, declared, touches₂, ⟨old, there⟩, -⟩ := receiving₁.exec_declare index
  have receiving₂ := receiving₁.touches touches₂ apart.symm
  have count_ok : evalExpr (callWithin (steps + 1)) turns c (assignVar index argumentCount) i₂ =
      .ok (countValue (args.length - 1)) (i₂.setOwn c index (countValue (args.length - 1))) :=
    receiving₂.evalExpr_assignVar receiving₂.settles_count (.refl c (· = index) i₂) there
  have touches₃ := Touches.one receiving₂.bound index (countValue (args.length - 1))
  have start : Collected c index host args i 0
      (i₂.setOwn c index (countValue (args.length - 1))) := by
    refine ⟨((touches₁.mono fun _ => .inr).trans (touches₂.mono fun _ => .inl)).trans
      (touches₃.mono fun _ => .inl), own?_setOwn receiving₂.bound, .nil, ?_, ?_⟩
    · rw [own?_setOwn_of_ne receiving₂.bound host_ne, touches₂.kept host host_ne]
      exact own?_setOwn receiving.bound
    · rw [Nat.sub_zero, List.drop_length]
      rfl
  have test_ok : ∀ k j, Collected c index host args i k j →
      Settles (callWithin (steps + 1)) turns c j (.binary .ge (.ident index) (countLiteral first))
        (.bool (decide (first ≤ args.length - 1 - k))) := by
    intro k j collected
    have here := collected.here receiving apart host_apart
    have small : args.length - 1 - k < Number.exactLimit := by
      have := receiving.short
      omega
    rw [Settles, evalExpr_operator (by simp) (here.settles_own collected.position)
      (evalExpr_countLiteral _ _ first)]
    change EStateM.Result.ok (Value.bool (decide
      (Float.ofNat first ≤ Float.ofNat (args.length - 1 - k)))) j = _
    rw [decide_eq_decide.mpr (Number.le_ofNat_iff small)]
  have positive_args := receiving.positive
  obtain ⟨j, collected, same⟩ : ∃ j, Collected c index host args i (args.length - first) j ∧
      loopTurns (callWithin (steps + 1)) turns c (.binary .ge (.ident index) (countLiteral first))
        (assignVar index (.binary .sub (.ident index) (countLiteral 1)))
        [assignStmt host (.callPrimitive .cons [argumentAt (.ident index), .ident host])] turns
        (i₂.setOwn c index (countValue (args.length - 1))) = _ := by
    refine loopTurns_advances (fun k j collected more => ?_) (Nat.zero_le _) (by omega) start
    obtain ⟨j₁, j₂, ran, stepped, next⟩ :=
      collected.turn receiving apart host_apart host_ne positive more
    have goes := test_ok k j collected
    rw [decide_eq_true (by omega)] at goes
    exact ⟨goes, j₁, _, j₂, ran, stepped, next⟩
  obtain ⟨value, held, list⟩ := collected.list
  refine ⟨j, value, collected.touches, ?_, held, ?_⟩
  · have stops := test_ok _ j collected
    rw [decide_eq_false (by omega)] at stops
    rw [collectRest, execBlock_continues (receiving.exec_define nil_ok),
      execBlock_continues declared, execBlock_singleton, exec_iterate count_ok, same,
      loopTurns_stops (by omega) stops]
  · by_cases reaches : first ≤ args.length
    · have at_ : args.length - (args.length - first) = first := by omega
      rwa [at_] at list
    · have all : args.drop first = [] := List.drop_eq_nil_of_le (by omega)
      have none_ : args.drop (args.length - (args.length - first)) = [] := by
        rw [Nat.sub_eq_zero_of_le (Nat.le_of_not_le reaches), Nat.sub_zero, List.drop_length]
      rwa [none_, ← all] at list

end Rest

end LispScript.Machine
