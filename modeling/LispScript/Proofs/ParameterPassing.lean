import LispScript.Proofs.ArgumentBinding
import LispScript.Proofs.Lambdas

/-!
Parameter passing. The statements at the head of a function refuse the arguments that its lambda list
refuses, with the failure that it says, and otherwise give each of its variables the value that it says.
-/

namespace LispScript.Compiler

open Script Machine Discipline

variable {s s₁ t : CompileState} {env env' : Environment} {head head' : Head}
  {specials : List SymbolId} {c : Nat} {i j : Image} {acceptor : Value} {data : List Value}
  {list : LambdaList} {steps turns : Nat}

section Arity

/-- A number of parameters is counted, unless it is larger than any number of arguments. -/
theorem toCount_cases (n : Nat) : Number.toCount (Float.ofNat n) = n ∨
    Number.exactLimit ≤ n ∧ Number.exactLimit ≤ Number.toCount (Float.ofNat n) := by
  by_cases small : n < Number.exactLimit
  · exact .inl (Number.toCount_ofNat small)
  · exact .inr ⟨Nat.le_of_not_lt small, Number.exactLimit_le_toCount (Nat.le_of_not_lt small)⟩

/-- The failure of a call with a number of arguments that is not allowed. -/
def arityError (list : LambdaList) (count : Nat) : Interrupt :=
  .failed (.arity (list.expected count) count)

theorem exec_checkArgs (receiving : Receiving c (acceptor :: data) i)
    (optional : list.optional = []) (fixed : list.isVariadic = false) :
    exec (callWithin (steps + 1)) turns c
        (.effect (.callRoutine .checkArgs [argumentCount, countLiteral list.required.length])) i =
      if list.allows data.length then .ok .normal i
      else .error (arityError list data.length) i := by
  have short := receiving.short
  rw [List.length_cons] at short
  have allows_eq : list.allows data.length =
      (data.length == Number.toCount (Float.ofNat list.required.length)) := by
    have positional : list.positional = list.required.length := by
      simp [LambdaList.positional, optional]
    rw [Bool.eq_iff_iff, beq_iff_eq, LambdaList.allows, positional, fixed]
    simp only [Bool.false_or, Bool.and_eq_true, decide_eq_true_eq]
    rcases toCount_cases list.required.length with same | ⟨large, larger⟩ <;> omega
  have expected_eq : list.expected data.length = countText list.required.length := by
    simp [LambdaList.expected, optional, fixed]
  rw [allows_eq, arityError, expected_eq]
  exact receiving.exec_check .checkArgs (· == ·) toString (fun _ _ => rfl) _

theorem execBlock_checkAtLeast (list : LambdaList) (steps turns : Nat)
    (receiving : Receiving c (acceptor :: data) i) :
    execBlock (callWithin (steps + 1)) turns c
        (if 0 < list.required.length then [.effect (.callRoutine .checkArgsAtLeast
          [argumentCount, countLiteral list.required.length])] else []) i =
      if list.required.length ≤ data.length then .ok .normal i
      else .error (.failed (.arity ("at least " ++ countText list.required.length) data.length)) i := by
  have short := receiving.short
  rw [List.length_cons] at short
  by_cases some_ : 0 < list.required.length
  · have fits_iff : Number.toCount (Float.ofNat list.required.length) ≤ data.length ↔
        list.required.length ≤ data.length := by
      rcases toCount_cases list.required.length with same | ⟨large, larger⟩ <;> omega
    have checked : exec (callWithin (steps + 1)) turns c _ i = _ := receiving.exec_check
      .checkArgsAtLeast (fun got min => min ≤ got) ("at least " ++ toString ·) (fun _ _ => rfl) list.required.length
    rw [if_pos some_, execBlock_singleton]
    refine checked.trans ?_
    simp only [List.length_cons, Nat.add_sub_cancel, decide_eq_true_eq, fits_iff]
    rfl
  · rw [if_neg some_, if_pos (by omega)]
    rfl

theorem execBlock_checkAtMost (list : LambdaList) (steps turns : Nat)
    (receiving : Receiving c (acceptor :: data) i) :
    execBlock (callWithin (steps + 1)) turns c
        (if list.isVariadic then [] else [.effect (.callRoutine .checkArgsAtMost
          [argumentCount, countLiteral (list.required.length + list.optional.length)])]) i =
      if list.isVariadic || decide (data.length ≤ list.positional) then .ok .normal i
      else .error (.failed (.arity ("at most " ++ countText list.positional) data.length)) i := by
  have short := receiving.short
  rw [List.length_cons] at short
  cases variadic : list.isVariadic with
  | true => rfl
  | false =>
      have fits_iff : data.length ≤ Number.toCount (Float.ofNat list.positional) ↔
          data.length ≤ list.positional := by
        rcases toCount_cases list.positional with same | ⟨large, larger⟩ <;> omega
      have checked : exec (callWithin (steps + 1)) turns c _ i = _ := receiving.exec_check
        .checkArgsAtMost (fun got max => got ≤ max) ("at most " ++ toString ·) (fun _ _ => rfl) list.positional
      rw [if_neg (by decide), execBlock_singleton]
      refine checked.trans ?_
      simp only [List.length_cons, Nat.add_sub_cancel, decide_eq_true_eq, fits_iff, Bool.false_or]
      rfl

/-- The checks at the head of a function let the numbers of arguments pass that its lambda list
allows. -/
theorem arityChecks_run (list : LambdaList) (steps turns : Nat)
    (receiving : Receiving c (acceptor :: data) i) :
    execBlock (callWithin (steps + 1)) turns c (arityChecks list) i =
      if list.allows data.length then .ok .normal i
      else .error (arityError list data.length) i := by
  unfold arityChecks
  dsimp only
  by_cases only : (list.optional.length = 0 && !list.isVariadic) = true
  · have parts : list.optional = [] ∧ list.isVariadic = false := by simpa using only
    rw [if_pos only, execBlock_singleton, exec_checkArgs receiving parts.1 parts.2]
  · have expected_eq : list.expected data.length =
        if data.length < list.required.length then "at least " ++ countText list.required.length
        else "at most " ++ countText list.positional := by
      have more : ¬ (list.optional = [] && !list.isVariadic) = true := by simpa using only
      rw [LambdaList.expected, if_neg more]
    rw [if_neg only, arityError, expected_eq]
    by_cases enough : list.required.length ≤ data.length
    · have passed := execBlock_checkAtLeast list steps turns receiving
      rw [if_pos enough] at passed
      rw [execBlock_append_continues passed, execBlock_checkAtMost list steps turns receiving,
        if_neg (Nat.not_lt.mpr enough), LambdaList.allows, decide_eq_true enough, Bool.true_and]
    · have failed := execBlock_checkAtLeast list steps turns receiving
      rw [if_neg enough] at failed
      rw [execBlock_append_fails failed, if_pos (Nat.lt_of_not_le enough), LambdaList.allows,
        decide_eq_false enough, Bool.false_and, if_neg (by decide)]

end Arity

section KeySection

variable {depth n : Nat} {context : Context} {left : List SymbolId} {made : LiteralKey → Value}

theorem mem_of_mem_pairs {rest : List Value} {pair : Value × Value} (member : pair ∈ pairs rest) :
    pair.1 ∈ rest ∧ pair.2 ∈ rest := by
  obtain ⟨k, found⟩ := List.mem_iff_getElem?.mp member
  obtain ⟨key, value⟩ := pairs_getElem? found
  exact ⟨List.mem_of_getElem? key, List.mem_of_getElem? value⟩

/-- What the section of keyword parameters comes to. -/
structure KeySectionBound (c₀ : Counters) (list : LambdaList) (left : List SymbolId) (n : Nat)
    (s t : CompileState) (head head' : Head) : Prop where
  binds : Binds (list.keys.flatMap KeyParam.vars) s t head.env head'.env
  hosts : ∀ id ∈ list.keys.flatMap KeyParam.vars, ∃ host, IsHost t head'.env id host ∧
    Made s.counters t.counters host
  code : ∃ code, head'.prologue = head.prologue.add code ∧
    ∀ host : SymbolId → String, (∀ id ∈ left, IsHost s head.env id (host id)) →
    (∀ id ∈ list.keys.flatMap KeyParam.vars, IsHost t head'.env id (host id)) →
    (∀ id ∈ left, Made c₀ s.counters (host id)) →
    ∀ steps turns c acceptor data made i, Entered made (acceptor :: data) c t i →
    data.length < turns → (∀ value ∈ data, value ≠ .undefined) →
    (∀ d name, Made s.counters d name → i.own? c name = none) →
    (∀ id ∈ left, ∃ value, i.own? c (host id) = some value) →
    ∃ j, Touches c (Made s.counters t.counters) i j ∧
      match (if list.hasKeys then list.keyRefusal? (data.drop n) else none) with
      | some refusal => execBlock (callWithin (steps + 1)) turns c code i =
          .error (.failed (list.failure data.length j.print refusal)) j
      | none => execBlock (callWithin (steps + 1)) turns c code i = .ok .normal j ∧
          ∀ param ∈ list.keys, KeyReceives s.image made host (data.drop n) param c j

theorem waives_eq (named : list.allowOtherKeys = false) (rest : List Value) :
    list.waives rest = ((pairs rest).find?
      (·.1.strictEq (.ofSymbol SymbolId.allowOtherKeysKey))).any (!·.2.isNil) := by
  rw [LambdaList.waives, named, Bool.false_or, argumentFor?]
  cases (pairs rest).find? (·.1.strictEq (.ofSymbol SymbolId.allowOtherKeysKey)) <;> rfl

theorem not_knows_eq (list : LambdaList) : (fun pair : Value × Value => !list.knows pair.1) =
    fun pair => (list.keys.map (fun p : KeyParam => Value.ofSymbol p.keyword) ++
      [Value.ofSymbol SymbolId.allowOtherKeysKey]).all (!pair.1.strictEq ·) := by
  funext pair
  simp [LambdaList.knows, List.all_eq_not_any_not, Function.comp_def]

/-- The check for unknown keywords at the end of the section, unless there is none. -/
def UnknownChecked (list : LambdaList) (index : String) (first : Nat) (keywords : List Expr)
    (s t : CompileState) (code : List Stmt) : Prop :=
  if list.allowOtherKeys then code = [] else
    ∃ allow allowKey, Made s.counters t.counters allow ∧
      (IsMade t allowKey fun _ => .ofSymbol SymbolId.allowOtherKeysKey) ∧
      code = unknownKeyCheck index allow first keywords allowKey

/-- What a section of keyword parameters is compiled to. -/
structure KeySectionParts (c₀ : Counters) (list : LambdaList) (left : List SymbolId) (first : Nat)
    (s s₁ s₂ t : CompileState) (head head₂ head' : Head) (index : String) (keywords : List Expr) :
    Prop where
  begins : GoesOn head.env s s₁
  madeIndex : Made s.counters s₁.counters index
  bound : KeysBound c₀ index first left s₁ s₂ (head.add [.declare index, pairCheck first]) head₂
    list.keys keywords
  ends : GoesOn head₂.env s₂ t
  env : head'.env = head₂.env
  code : ∃ code, head'.prologue = head₂.prologue.add code ∧
    UnknownChecked list index first keywords s₂ t code

theorem bindKeySection_parts {c₀ : Counters} {first : Nat} (ready : Ready s head.env)
    (lexical : ∀ id ∈ list.keys.flatMap KeyParam.vars, IsLexical specials s id)
    (simple : ∀ before param after, list.keys = before ++ param :: after →
      IsSimple s.image (left ++ before.flatMap KeyParam.vars) param.default)
    (hosts : ∀ id ∈ left, id ≠ SymbolId.nil ∧ ∃ name, IsHost s head.env id name)
    (notNil : ∀ id ∈ list.keys.flatMap KeyParam.vars, id ≠ SymbolId.nil)
    (distinct : (left ++ list.keys.flatMap KeyParam.vars).Nodup) (leads : c₀.Leads s.counters)
    (ok : bindKeySection (compileWithin depth) context specials head list first s = .ok head' t) :
    ∃ s₁ s₂ head₂ index keywords,
      KeySectionParts c₀ list left first s s₁ s₂ t head head₂ head' index keywords := by
  obtain ⟨index, s₁, fresh, ok⟩ := ok_of_bind ok
  obtain ⟨⟨head₂, keywords⟩, s₂, keys, ok⟩ := ok_of_bind ok
  obtain ⟨begins, madeIndex⟩ := freshVariable_ok ready fresh
  have ready₁ : Ready s₁ (head.add [.declare index, pairCheck first]).env := begins.ready
  have bound := bindKeys_ok ready₁ (fun id member => (lexical id member).later ready begins.onward)
    (fun before param after same => begins.onward.image ▸ simple before param after same)
    (fun id member => by
      obtain ⟨notNil, h, isHost⟩ := hosts id member
      exact ⟨notNil, h, ((begins.binds ready).isHost List.not_mem_nil).mpr isHost⟩)
    notNil distinct (madeIndex.right leads) (leads.trans begins.onward.counters) keys
  refine ⟨s₁, s₂, head₂, index, keywords, ?_⟩
  dsimp only at ok
  by_cases allows : list.allowOtherKeys = true
  · rw [if_pos allows] at ok
    cases ok
    refine ⟨begins, madeIndex, bound, bound.binds.ready.stays, rfl, [], (add_nil _).symm, ?_⟩
    rw [UnknownChecked, if_pos allows]
  · rw [if_neg allows] at ok
    obtain ⟨allowKey, s₃, symbol, ok⟩ := ok_of_bind ok
    obtain ⟨allow, s₄, freshAllow, ended⟩ := ok_of_bind ok
    cases ended
    obtain ⟨goes₃, isMade⟩ := symbolLiteral_ok bound.binds.ready symbol
    obtain ⟨goes₄, madeAllow⟩ := freshVariable_ok goes₃.ready freshAllow
    refine ⟨begins, madeIndex, bound, goes₃.trans goes₄, rfl, _, rfl, ?_⟩
    rw [UnknownChecked, if_neg allows]
    exact ⟨allow, allowKey, madeAllow.right goes₃.onward.counters, fun call turns c i made holds =>
      isMade call turns c i made (holds.earlier goes₄.onward), rfl⟩

/-- The statements of a section of keyword parameters run. -/
theorem KeySectionParts.keySectionBound {c₀ : Counters} {s₂ : CompileState} {head₂ : Head}
    {index : String} {keywords : List Expr} (ready : Ready s head.env)
    (parts : KeySectionParts c₀ list left (n + 1) s s₁ s₂ t head head₂ head' index keywords)
    (simple : ∀ param ∈ list.keys,
      IsSimple s.image (left ++ list.keys.flatMap KeyParam.vars) param.default)
    (keyed : list.hasKeys = true) :
    KeySectionBound c₀ list left n s t head head' := by
  obtain ⟨codeKeys, prologueKeys, runsKeys⟩ := parts.bound.code
  obtain ⟨codeCheck, prologueCheck, checked⟩ := parts.code
  have upto₂ := (parts.begins.binds ready).trans parts.bound.binds
  have binds : Binds (list.keys.flatMap KeyParam.vars) s t head.env head'.env := by
    have whole := upto₂.trans (parts.ends.binds parts.bound.binds.ready)
    rw [← parts.env] at whole
    simpa using whole
  have leads₁ := parts.begins.onward.counters
  have leads₂ := parts.bound.binds.onward.counters
  have leads₃ := parts.ends.onward.counters
  have madeIndex := (parts.madeIndex.left leads₂).left leads₃
  have later : ∀ id h, IsHost t head'.env id h ↔ IsHost s₂ head₂.env id h := by
    intro id h
    rw [parts.env]
    exact (parts.ends.binds parts.bound.binds.ready).isHost List.not_mem_nil
  refine ⟨binds, fun id member => ?_, [.declare index, pairCheck (n + 1)] ++ (codeKeys ++ codeCheck),
    ?_, ?_⟩
  · obtain ⟨h, isHost, made⟩ := parts.bound.hosts id member
    exact ⟨h, (later id h).mpr isHost, (made.right leads₁).left leads₃⟩
  · rw [prologueCheck, prologueKeys, ← add_add, ← add_add]
    rfl
  intro host agrees named generated steps turns c acceptor data made i entered enough defined absent
    values
  rw [if_pos keyed]
  obtain ⟨i₁, declared, touches₁, ⟨old, there⟩, -⟩ := entered.receiving.exec_declare index
  have entered₁ := entered.touches touches₁ fun name same => ⟨_, _, same ▸ parts.madeIndex⟩
  have pairs_checked : exec (callWithin (steps + 1)) turns c (pairCheck (n + 1)) i₁ = _ :=
    entered₁.receiving.exec_pairCheck (n + 1)
  have count_eq : (acceptor :: data).length - (n + 1) = (data.drop n).length := by
    rw [List.length_cons, List.length_drop]
    omega
  rw [count_eq] at pairs_checked
  by_cases odd : (data.drop n).length % 2 = 1
  · rw [if_pos odd] at pairs_checked
    refine ⟨i₁, touches₁.mono fun name same => same ▸ madeIndex, ?_⟩
    rw [LambdaList.keyRefusal?, if_pos odd]
    change execBlock _ _ _ (_ :: _ :: (codeKeys ++ codeCheck)) i = _
    rw [execBlock_continues declared, execBlock_fails pairs_checked]
    rfl
  rw [if_neg odd] at pairs_checked
  have paired : Paired (acceptor :: data) (n + 1) (pairs (data.drop n)) :=
    paired_pairs (by omega)
  have few : (pairs (data.drop n)).length < turns := by
    rw [pairs_length, List.length_drop]
    omega
  have definedPairs : ∀ pair ∈ pairs (data.drop n), pair.2 ≠ .undefined := fun pair member =>
    defined _ (List.mem_of_mem_drop (mem_of_mem_pairs member).2)
  obtain ⟨i₂, touches₂, ran₂, receives⟩ := runsKeys host
    (fun id member => ((parts.begins.binds ready).isHost List.not_mem_nil).mpr (agrees id member))
    (fun id member => (later id _).mp (named id member))
    (fun id member => ⟨(generated id member).left leads₁, fun same =>
      (generated id member).disjoint (same ▸ parts.madeIndex)⟩)
    (callWithin (steps + 1)) turns c (acceptor :: data) made i₁ (data.drop n)
    (entered₁.earlier parts.ends.onward) paired few definedPairs ⟨old, there⟩
    (fun d name again => by
      rw [touches₁.kept name fun same => parts.madeIndex.disjoint (same ▸ again),
        absent d name (again.right leads₁)])
    (fun id member => by
      obtain ⟨value, held⟩ := values id member
      exact touches₁.there _ value held)
  rw [parts.begins.onward.image] at receives
  have touches : Touches c (Made s.counters t.counters) i i₂ := by
    refine (touches₁.mono fun name same => same ▸ madeIndex).trans (touches₂.mono fun name changed => ?_)
    rcases changed with rfl | again
    · exact madeIndex
    · exact (again.right leads₁).left leads₃
  have prefix_ran : execBlock (callWithin (steps + 1)) turns c
      ([.declare index, pairCheck (n + 1)] ++ (codeKeys ++ codeCheck)) i =
        execBlock (callWithin (steps + 1)) turns c codeCheck i₂ := by
    change execBlock _ _ _ (_ :: _ :: (codeKeys ++ codeCheck)) i = _
    rw [execBlock_continues declared, execBlock_continues pairs_checked,
      execBlock_append_continues ran₂]
  rw [prefix_ran]
  unfold UnknownChecked at checked
  by_cases allows : list.allowOtherKeys = true
  · rw [if_pos allows] at checked
    have waived : list.waives (data.drop n) = true := by simp [LambdaList.waives, allows]
    refine ⟨i₂, touches, ?_⟩
    rw [LambdaList.keyRefusal?, if_neg odd, if_pos waived, checked]
    exact ⟨rfl, receives⟩
  rw [if_neg allows] at checked
  obtain ⟨allow, allowKey, madeAllow, isAllow, rfl⟩ := checked
  have entered₂ := entered.touches touches fun name again => ⟨_, _, again⟩
  have madeAllow' : Made s.counters t.counters allow :=
    madeAllow.right (leads₁.trans leads₂)
  have generatedBoth : ∀ name, name = index ∨ name = allow → ∃ d d', Made d d' name := by
    rintro name (rfl | rfl)
    · exact ⟨_, _, parts.madeIndex⟩
    · exact ⟨_, _, madeAllow⟩
  obtain ⟨old₂, there₂⟩ := touches₂.there index old there
  have fresh : i₂.own? c allow = none := by
    rw [touches₂.kept allow, touches₁.kept allow, absent _ allow madeAllow']
    · exact fun same => parts.madeIndex.disjoint (same ▸ madeAllow.right leads₂)
    · rintro (same | again)
      · exact (parts.madeIndex.left leads₂).disjoint (same ▸ madeAllow)
      · exact again.disjoint madeAllow
  obtain ⟨i₃, touches₃, complained⟩ := unknownKeyCheck_run entered₂.receiving paired
    parts.madeIndex.ne_arguments few there₂ fresh
    (fun same => (parts.madeIndex.left leads₂).disjoint (same ▸ madeAllow)) madeAllow.ne_arguments
    (fun j touches => by
      have literals := (entered₂.touches touches generatedBoth).literals
      exact ⟨parts.bound.keywords _ _ c j made (literals.earlier parts.ends.onward),
        isAllow _ _ c j made literals⟩) definedPairs
  refine ⟨i₃, touches.trans (touches₃.mono ?_), ?_⟩
  · rintro name (rfl | rfl)
    · exact madeIndex
    · exact madeAllow'
  have still : ∀ param ∈ list.keys,
      KeyReceives s.image made host (data.drop n) param c i₃ := by
    intro param member
    refine (receives param member).kept touches₃ (simple param member) fun id inside => ?_
    have known : Made c₀ s.counters (host id) ∨ Made s₁.counters s₂.counters (host id) := by
      have cases_ : id ∈ left ∨ id ∈ list.keys.flatMap KeyParam.vars := by
        rcases List.mem_append.mp inside with inside | own
        · exact List.mem_append.mp inside
        · exact .inr (List.mem_flatMap.mpr ⟨param, member, own⟩)
      rcases cases_ with old | new
      · exact .inl (generated id old)
      · obtain ⟨h, isHost, made⟩ := parts.bound.hosts id new
        rw [((later id _).mp (named id new)).unique isHost]
        exact .inr made
    rintro (same | same) <;> rw [same] at known
    · rcases known with before | after
      · exact before.disjoint parts.madeIndex
      · exact parts.madeIndex.disjoint after
    · rcases known with before | after
      · exact before.disjoint madeAllow'
      · exact after.disjoint madeAllow
  rw [LambdaList.keyRefusal?, if_neg odd, complained, ← waives_eq (by simpa using allows),
    ← not_knows_eq]
  cases list.waives (data.drop n) with
  | true => exact ⟨rfl, still⟩
  | false =>
      cases (pairs (data.drop n)).find? fun pair => !list.knows pair.1 with
      | none => exact ⟨rfl, still⟩
      | some pair => rfl

end KeySection

section Positional

variable {depth : Nat} {context : Context} {made : LiteralKey → Value} {hosts : List String}
  {host : SymbolId → String}

/-- The variables of positional parameters have got their values. -/
structure PositionalReceives (image : Image) (made : LiteralKey → Value) (host : SymbolId → String)
    (list : LambdaList) (data : List Value) (c : Nat) (j : Image) : Prop where
  required : ∀ (k : Nat) var, list.required[k]? = some var →
    ∃ arg, data[k]? = some arg ∧ j.own? c (host var) = some arg
  given : ∀ (k : Nat) param arg, list.optional[k]? = some param →
    data[list.required.length + k]? = some arg → j.own? c (host param.var) = some arg
  missing : ∀ (k : Nat) param, list.optional[k]? = some param →
    data.length ≤ list.required.length + k → ∃ value,
      DefaultHas image made (fun id value => j.own? c (host id) = some value) param.default value ∧
        j.own? c (host param.var) = some value
  flag : ∀ (k : Nat) param flag, list.optional[k]? = some param → param.supplied = some flag →
    j.own? c (host flag) = some (.ofBool (decide (list.required.length + k < data.length)))

/-- The variables of positional parameters. -/
def LambdaList.positionalVars (list : LambdaList) : List SymbolId :=
  list.required ++ list.optional.flatMap OptionalParam.vars

theorem mem_positionalVars_required {var : SymbolId} {k : Nat}
    (found : list.required[k]? = some var) : var ∈ list.positionalVars :=
  List.mem_append_left _ (List.mem_of_getElem? found)

theorem mem_positionalVars_optional {param : OptionalParam} {k : Nat} {id : SymbolId}
    (found : list.optional[k]? = some param) (member : id ∈ param.vars) :
    id ∈ list.positionalVars :=
  List.mem_append_right _ (List.mem_flatMap.mpr ⟨param, List.mem_of_getElem? found, member⟩)

/-- What was received stays while other variables change. -/
theorem PositionalReceives.kept {image : Image} {names : String → Prop}
    (receives : PositionalReceives image made host list data c i) (touches : Touches c names i j)
    (simple : ∀ param ∈ list.optional, IsSimple image list.positionalVars param.default)
    (free : ∀ id ∈ list.positionalVars, ¬ names (host id)) :
    PositionalReceives image made host list data c j := by
  have still : ∀ id ∈ list.positionalVars, j.own? c (host id) = i.own? c (host id) :=
    fun id member => touches.kept _ (free id member)
  refine ⟨fun k var found => ?_, fun k param arg found has => ?_, fun k param found short => ?_,
    fun k param flag found supplied => ?_⟩
  · obtain ⟨arg, has, held⟩ := receives.required k var found
    exact ⟨arg, has, (still var (mem_positionalVars_required found)).trans held⟩
  · rw [still param.var (mem_positionalVars_optional found List.mem_cons_self)]
    exact receives.given k param arg found has
  · obtain ⟨value, has, held⟩ := receives.missing k param found short
    refine ⟨value, has.mono (simple param (List.mem_of_getElem? found)) fun id member value was => ?_,
      (still param.var (mem_positionalVars_optional found List.mem_cons_self)).trans held⟩
    rw [still id member, was]
  · rw [still flag (mem_positionalVars_optional found (by simp [OptionalParam.vars, supplied]))]
    exact receives.flag k param flag found supplied

/-- The variables of optional parameters are those that get values and those that tell of them. -/
theorem optionalVars_perm (params : List OptionalParam) :
    (params.flatMap OptionalParam.vars).Perm (flagsOf params ++ params.map (·.var)) := by
  induction params with
  | nil => exact .refl _
  | cons param params ih =>
      rw [List.flatMap_cons, List.map_cons]
      have flags_eq : flagsOf (param :: params) = param.supplied.toList ++ flagsOf params :=
        List.flatMap_cons
      rw [flags_eq, List.append_assoc]
      refine ((ih.append_left (param.supplied.toList)).cons param.var).trans ?_
      refine List.Perm.trans ?_ (List.Perm.append_left _ List.perm_middle.symm)
      exact List.perm_middle.symm

/-- What the binding of positional parameters comes to. -/
structure PositionalBound (list : LambdaList) (s t : CompileState) (head head' : Head)
    (hosts : List String) : Prop where
  binds : Binds list.positionalVars s t head.env head'.env
  areHosts : ∀ id ∈ list.positionalVars, ∃ host, IsHost t head'.env id host ∧
    Made s.counters t.counters host
  newHosts : Discipline.NewHosts s.counters t.counters list.positional hosts
  code : ∃ code, head'.prologue = head.prologue.add code ∧
    ∀ host : SymbolId → String, (∀ id ∈ list.positionalVars, IsHost t head'.env id (host id)) →
    ∀ call turns c acceptor data made i, Entered made (acceptor :: data) c t i →
    list.required.length ≤ data.length →
    (∀ (k : Nat) name, hosts[k]? = some name → i.own? c name = some (argument data k)) →
    ∃ j, Touches c (Made s.counters t.counters) i j ∧
      execBlock call turns c code i = .ok .normal j ∧
      PositionalReceives s.image made host list data c j

theorem getElem?_of_forall₂ {α β : Type} {R : α → β → Prop} {as : List α} {bs : List β}
    (all : List.Forall₂ R as bs) {k : Nat} {a : α} (found : as[k]? = some a) :
    ∃ b, bs[k]? = some b ∧ R a b := by
  obtain ⟨bound, rfl⟩ := List.getElem?_eq_some_iff.mp found
  have bound' : k < bs.length := all.length_eq ▸ bound
  exact ⟨bs[k], List.getElem?_eq_getElem bound', all.get bound bound'⟩

variable {s₂ : CompileState} {head₁ head₂ : Head} {requiredHosts optionalHosts : List String}

/-- What positional parameters are compiled to. -/
structure PositionalParts (list : LambdaList) (s s₁ s₂ t : CompileState)
    (head head₁ head₂ head' : Head) (requiredHosts optionalHosts : List String) : Prop where
  distinct : list.positionalVars.Nodup
  same : head₁.prologue = head.prologue
  required : Binds list.required s s₁ head.env head₁.env
  newRequired : Discipline.NewHosts s.counters s₁.counters list.required.length requiredHosts
  areRequired : List.Forall₂ (IsHost s₁ head₁.env) list.required requiredHosts
  flags : FlagsBound s₁ s₂ head₁ head₂ list.optional optionalHosts list.required.length
  optional : Binds (list.optional.map (·.var)) s₂ t head₂.env head'.env
  areOptional : ∀ param ∈ list.optional.zip optionalHosts, IsHost t head'.env param.1.var param.2
  code : ∃ code, head'.prologue = head₂.prologue.add code ∧
    ∀ host : SymbolId → String,
    (∀ id ∈ list.required ++ flagsOf list.optional, IsHost s₂ head₂.env id (host id)) →
    (∀ param ∈ list.optional.zip optionalHosts, host param.1.var = param.2) →
    ∀ call turns c args made i, Entered made args c t i →
    Awaiting host (list.required ++ flagsOf list.optional) optionalHosts c i →
    list.required.length ≤ args.length - 1 →
    ∃ j, Supplied s.image made host (list.optional.zip optionalHosts) c list.required.length
        (args.length - 1) i j ∧
      execBlock call turns c code i = .ok .normal j

theorem positionalVars_nodup (distinct : list.positionalVars.Nodup) :
    (list.required ++ flagsOf list.optional ++ list.optional.map (·.var)).Nodup := by
  rw [List.append_assoc]
  exact ((optionalVars_perm list.optional).append_left list.required).nodup_iff.mp distinct

theorem mem_positionalVars {id : SymbolId} : id ∈ list.positionalVars ↔
    id ∈ list.required ++ flagsOf list.optional ++ list.optional.map (·.var) := by
  rw [List.append_assoc]
  exact ((optionalVars_perm list.optional).append_left list.required).mem_iff

theorem positional_parts (ready : Ready s head.env)
    (lexical : ∀ id ∈ list.positionalVars, IsLexical specials s id)
    (notNil : ∀ id ∈ list.positionalVars, id ≠ SymbolId.nil)
    (distinct : list.positionalVars.Nodup)
    (simple : ∀ before param after, list.optional = before ++ param :: after →
      IsSimple s.image (list.required ++ before.flatMap OptionalParam.vars) param.default)
    (ok₁ : bindRequired specials head list.required s = .ok (head₁, requiredHosts) s₁)
    (ok₂ : bindSupplied specials head₁ list.required.length list.optional s₁ =
      .ok (head₂, optionalHosts) s₂)
    (ok₃ : bindDefaults (compileWithin depth) context specials head₂ list.required.length
      (list.optional.zip optionalHosts) s₂ = .ok head' t) :
    PositionalParts list s s₁ s₂ t head head₁ head₂ head' requiredHosts optionalHosts := by
  have whole := positionalVars_nodup distinct
  obtain ⟨distinctLeft, -, apart⟩ := List.nodup_append.mp whole
  obtain ⟨distinctRequired, distinctFlags, apartFlags⟩ := List.nodup_append.mp distinctLeft
  have listed : ∀ id, id ∈ list.required ++ flagsOf list.optional → id ∈ list.positionalVars :=
    fun id member => mem_positionalVars.mpr (List.mem_append_left _ member)
  obtain ⟨same, binds₁, new₁, areHosts₁⟩ := bindRequired_ok ready
    (fun id member => lexical id (listed id (List.mem_append_left _ member))) distinctRequired ok₁
  have flagsBound := bindSupplied_ok binds₁.ready (fun id member =>
    (lexical id (listed id (List.mem_append_right _ member))).later ready binds₁.onward) distinctFlags
    ok₂
  have upto₂ := binds₁.onward.trans flagsBound.binds.onward
  have length_eq : optionalHosts.length = list.optional.length := flagsBound.newHosts.length
  have firsts : (list.optional.zip optionalHosts).map Prod.fst = list.optional :=
    List.map_fst_zip (by omega)
  have hosts_eq : (list.optional.zip optionalHosts).map Prod.snd = optionalHosts :=
    List.map_snd_zip (by omega)
  have vars_eq : (list.optional.zip optionalHosts).map (·.1.var) = list.optional.map (·.var) := by
    conv_rhs => rw [← firsts, List.map_map]
    rfl
  have optional_mem : ∀ param ∈ list.optional.zip optionalHosts,
      param.1.var ∈ list.positionalVars := fun param member => by
    refine mem_positionalVars.mpr (List.mem_append_right _ ?_)
    exact List.mem_map_of_mem (firsts ▸ List.mem_map_of_mem member)
  have simple₂ : ∀ before param after, list.optional.zip optionalHosts = before ++ param :: after →
      IsSimple s₂.image (list.required ++ flagsOf list.optional ++ before.map (·.1.var))
        param.1.default := by
    intro before param after same
    have split : list.optional = before.map Prod.fst ++ param.1 :: after.map Prod.fst := by
      rw [← firsts, same, List.map_append, List.map_cons]
    rw [upto₂.image]
    refine (simple _ _ _ split).mono fun id member => ?_
    rcases List.mem_append.mp member with here | there
    · exact List.mem_append_left _ (List.mem_append_left _ here)
    · rcases List.mem_append.mp ((optionalVars_perm _).mem_iff.mp there) with flag | var
      · refine List.mem_append_left _ (List.mem_append_right _ ?_)
        rw [split]
        obtain ⟨other, inside, own⟩ := List.mem_flatMap.mp flag
        exact List.mem_flatMap.mpr ⟨other, List.mem_append_left _ inside, own⟩
      · rw [List.map_map] at var
        exact List.mem_append_right _ var
  have hosts₂ : ∀ id ∈ list.required ++ flagsOf list.optional,
      id ≠ SymbolId.nil ∧ ∃ name, IsHost s₂ head₂.env id name := by
    intro id member
    refine ⟨notNil id (listed id member), ?_⟩
    rcases List.mem_append.mp member with here | there
    · obtain ⟨k, found⟩ := List.mem_iff_getElem?.mp here
      obtain ⟨h, -, isHost⟩ := getElem?_of_forall₂ areHosts₁ found
      exact ⟨h, (flagsBound.binds.isHost fun again => apartFlags id here id again rfl).mpr isHost⟩
    · obtain ⟨h, isHost, -⟩ := flagsBound.flags id there
      exact ⟨h, isHost⟩
  obtain ⟨binds₃, areHosts₃, code, prologue, runs⟩ := bindDefaults_ok flagsBound.binds.ready
    (fun param member => (lexical _ (optional_mem param member)).later ready upto₂) simple₂ hosts₂
    (fun param member => notNil _ (optional_mem param member)) (vars_eq ▸ whole)
    (fun param member => (flagsBound.newHosts.made _
      (hosts_eq ▸ List.mem_map_of_mem member)).ever) ok₃
  refine ⟨distinct, same, binds₁, new₁, areHosts₁, flagsBound, vars_eq ▸ binds₃, areHosts₃, code,
    prologue, ?_⟩
  intro host agrees named call turns c args made i entered awaiting enough
  rw [hosts_eq] at runs
  rw [← upto₂.image]
  exact runs host agrees named call turns c args made i entered awaiting flagsBound.newHosts.nodup
    (fun name member => ⟨_, _, flagsBound.newHosts.made name member⟩) enough

/-- Where the parameters of a positional section are. -/
theorem PositionalParts.areHosts
    (parts : PositionalParts list s s₁ s₂ t head head₁ head₂ head' requiredHosts optionalHosts) :
    (∀ (k : Nat) var, list.required[k]? = some var → ∃ h, requiredHosts[k]? = some h ∧
      IsHost s₂ head₂.env var h ∧ IsHost t head'.env var h) ∧
    (∀ flag ∈ flagsOf list.optional, ∃ h, Made s₁.counters s₂.counters h ∧ h ∉ optionalHosts ∧
      IsHost s₂ head₂.env flag h ∧ IsHost t head'.env flag h) ∧
    ∀ (k : Nat) param, list.optional[k]? = some param → ∃ h, optionalHosts[k]? = some h ∧
      (list.optional.zip optionalHosts)[k]? = some (param, h) ∧ IsHost t head'.env param.var h := by
  obtain ⟨distinctLeft, -, apart⟩ := List.nodup_append.mp (positionalVars_nodup parts.distinct)
  obtain ⟨-, -, apartFlags⟩ := List.nodup_append.mp distinctLeft
  have later : ∀ id ∈ list.required ++ flagsOf list.optional, ∀ h, IsHost t head'.env id h ↔
      IsHost s₂ head₂.env id h := fun id member h =>
    parts.optional.isHost fun again => apart id member id again rfl
  refine ⟨fun k var found => ?_, fun flag member => ?_, fun k param found => ?_⟩
  · have member := List.mem_of_getElem? found
    obtain ⟨h, at_, isHost⟩ := getElem?_of_forall₂ parts.areRequired found
    have isHost₂ := (parts.flags.binds.isHost fun again =>
      apartFlags var member var again rfl).mpr isHost
    exact ⟨h, at_, isHost₂, (later var (List.mem_append_left _ member) h).mpr isHost₂⟩
  · obtain ⟨h, isHost, made, outside⟩ := parts.flags.flags flag member
    exact ⟨h, made, outside, isHost, (later flag (List.mem_append_right _ member) h).mpr isHost⟩
  · have bound : k < optionalHosts.length := by
      rw [parts.flags.newHosts.length]
      exact (List.getElem?_eq_some_iff.mp found).1
    have at_ : optionalHosts[k]? = some optionalHosts[k] := List.getElem?_eq_getElem bound
    have zipped : (list.optional.zip optionalHosts)[k]? = some (param, optionalHosts[k]) :=
      List.getElem?_zip_eq_some.mpr ⟨found, at_⟩
    exact ⟨_, at_, zipped, parts.areOptional _ (List.mem_of_getElem? zipped)⟩

theorem flagsOf_getElem? {params : List OptionalParam} {flag : SymbolId}
    (member : flag ∈ flagsOf params) :
    ∃ (k : Nat) (param : OptionalParam), params[k]? = some param ∧ param.supplied = some flag := by
  obtain ⟨param, inside, own⟩ := List.mem_flatMap.mp member
  obtain ⟨k, found⟩ := List.mem_iff_getElem?.mp inside
  exact ⟨k, param, found, by simpa using own⟩

theorem mem_flagsOf {params : List OptionalParam} {param : OptionalParam} {flag : SymbolId} {k : Nat}
    (found : params[k]? = some param) (supplied : param.supplied = some flag) :
    flag ∈ flagsOf params :=
  List.mem_flatMap.mpr ⟨param, List.mem_of_getElem? found, by simp [supplied]⟩

/-- Positional parameters get their values. -/
theorem PositionalParts.positionalBound
    (parts : PositionalParts list s s₁ s₂ t head head₁ head₂ head' requiredHosts optionalHosts) :
    PositionalBound list s t head head' (requiredHosts ++ optionalHosts) := by
  obtain ⟨areRequired, areFlags, areOptional⟩ := parts.areHosts
  have leads₁ := parts.required.onward.counters
  have leads₂ := parts.flags.binds.onward.counters
  have leads₃ := parts.optional.onward.counters
  have madeRequired : ∀ h ∈ requiredHosts, Made s.counters s₁.counters h := parts.newRequired.made
  have madeOptional : ∀ h ∈ optionalHosts, Made s₁.counters s₂.counters h :=
    parts.flags.newHosts.made
  have wider : ∀ h, Made s₁.counters s₂.counters h → Made s.counters t.counters h :=
    fun h made => (made.right leads₁).left leads₃
  obtain ⟨codeFlags, prologueFlags, runsFlags⟩ := parts.flags.code
  obtain ⟨codeDefaults, prologueDefaults, runsDefaults⟩ := parts.code
  refine ⟨((parts.required.trans parts.flags.binds).trans parts.optional).mono fun id member =>
    mem_positionalVars.mpr member, fun id member => ?_, ?_, codeFlags ++ codeDefaults, ?_, ?_⟩
  · rcases List.mem_append.mp (mem_positionalVars.mp member) with left | optional
    · rcases List.mem_append.mp left with required | flag
      · obtain ⟨k, found⟩ := List.mem_iff_getElem?.mp required
        obtain ⟨h, at_, -, isHost⟩ := areRequired k id found
        exact ⟨h, isHost, (madeRequired h (List.mem_of_getElem? at_)).left (leads₂.trans leads₃)⟩
      · obtain ⟨h, made, -, -, isHost⟩ := areFlags id flag
        exact ⟨h, isHost, wider h made⟩
    · obtain ⟨param, inside, rfl⟩ := List.mem_map.mp optional
      obtain ⟨k, found⟩ := List.mem_iff_getElem?.mp inside
      obtain ⟨h, at_, -, isHost⟩ := areOptional k param found
      exact ⟨h, isHost, wider h (madeOptional h (List.mem_of_getElem? at_))⟩
  · have both := parts.newRequired.append parts.flags.newHosts leads₁ leads₂
    exact ⟨fun h member => (both.made h member).left leads₃, both.nodup, both.length⟩
  · rw [prologueDefaults, prologueFlags, parts.same, add_add]
  intro host named call turns c acceptor data made i entered enough values
  have namedAt : ∀ id ∈ list.positionalVars, ∀ h, IsHost t head'.env id h → host id = h :=
    fun id member h isHost => (named id member).unique isHost
  -- The arguments are in the script parameters from the start.
  have valueRequired : ∀ (k : Nat) var, list.required[k]? = some var →
      host var ∈ requiredHosts ∧ i.own? c (host var) = some (argument data k) := by
    intro k var found
    obtain ⟨h, at_, -, isHost⟩ := areRequired k var found
    rw [namedAt var (mem_positionalVars_required found) h isHost]
    refine ⟨List.mem_of_getElem? at_, values k h ?_⟩
    rw [List.getElem?_append_left (List.getElem?_eq_some_iff.mp at_).1, at_]
  have valueOptional : ∀ (k : Nat) name, optionalHosts[k]? = some name →
      i.own? c name = some (argument data (list.required.length + k)) := by
    intro k name at_
    refine values _ name ?_
    rw [← parts.newRequired.length, List.getElem?_append_right (Nat.le_add_right ..),
      Nat.add_sub_cancel_left, at_]
  have flagHost : ∀ flag ∈ flagsOf list.optional, Made s₁.counters s₂.counters (host flag) ∧
      host flag ∉ optionalHosts ∧ IsHost s₂ head₂.env flag (host flag) := by
    intro flag member
    obtain ⟨h, made, outside, isHost₂, isHost⟩ := areFlags flag member
    have listed : flag ∈ list.positionalVars :=
      mem_positionalVars.mpr (List.mem_append_left _ (List.mem_append_right _ member))
    rw [namedAt flag listed h isHost]
    exact ⟨made, outside, isHost₂⟩
  have requiredApart : ∀ (k : Nat) var, list.required[k]? = some var →
      ¬ Made s₁.counters s₂.counters (host var) := fun k var found made =>
    (madeRequired _ (valueRequired k var found).1).disjoint made
  obtain ⟨i₁, touches₁, ran₁, set⟩ := runsFlags call turns c (acceptor :: data) i entered.receiving
  have entered₁ := entered.touches touches₁ fun name again => ⟨_, _, again.1⟩
  have count_eq : (acceptor :: data).length - 1 = data.length := by simp
  rw [count_eq] at set
  have flagged : ∀ (k : Nat) param flag, list.optional[k]? = some param →
      param.supplied = some flag → i₁.own? c (host flag) =
        some (.ofBool (decide (list.required.length + k < data.length))) :=
    fun k param flag found supplied =>
      set k param flag _ found supplied (flagHost flag (mem_flagsOf found supplied)).2.2
  have awaiting : Awaiting host (list.required ++ flagsOf list.optional) optionalHosts c i₁ := by
    refine ⟨fun id member => ?_, fun name member => ?_, fun id member => ?_⟩
    · rcases List.mem_append.mp member with required | flag
      · obtain ⟨k, found⟩ := List.mem_iff_getElem?.mp required
        exact touches₁.there _ _ (valueRequired k id found).2
      · obtain ⟨k, param, found, supplied⟩ := flagsOf_getElem? flag
        exact ⟨_, flagged k param id found supplied⟩
    · obtain ⟨k, at_⟩ := List.mem_iff_getElem?.mp member
      exact touches₁.there _ _ (valueOptional k name at_)
    · rcases List.mem_append.mp member with required | flag
      · obtain ⟨k, found⟩ := List.mem_iff_getElem?.mp required
        exact fun inside => requiredApart k id found (madeOptional _ inside)
      · exact (flagHost id flag).2.1
  have agrees : ∀ id ∈ list.required ++ flagsOf list.optional,
      IsHost s₂ head₂.env id (host id) := by
    intro id member
    rcases List.mem_append.mp member with required | flag
    · obtain ⟨k, found⟩ := List.mem_iff_getElem?.mp required
      obtain ⟨h, -, isHost₂, isHost⟩ := areRequired k id found
      exact namedAt id (mem_positionalVars_required found) h isHost ▸ isHost₂
    · exact (flagHost id flag).2.2
  have zipped : ∀ (k : Nat) param, list.optional[k]? = some param →
      optionalHosts[k]? = some (host param.var) ∧
        (list.optional.zip optionalHosts)[k]? = some (param, host param.var) := by
    intro k param found
    obtain ⟨h, at_, pair, isHost⟩ := areOptional k param found
    rw [namedAt param.var (mem_positionalVars_optional found List.mem_cons_self) h isHost]
    exact ⟨at_, pair⟩
  have namedZip : ∀ param ∈ list.optional.zip optionalHosts, host param.1.var = param.2 := by
    intro param member
    obtain ⟨k, found⟩ := List.mem_iff_getElem?.mp member
    have first_ := (List.getElem?_zip_eq_some.mp found).1
    have same := (zipped k param.1 first_).2
    rw [found] at same
    exact (congrArg Prod.snd (Option.some.inj same)).symm
  obtain ⟨j, supplied, ran₂⟩ := runsDefaults host agrees namedZip call turns c (acceptor :: data) made
    i₁ entered₁ awaiting (count_eq ▸ enough)
  rw [count_eq] at supplied
  have inHosts : ∀ name, name ∈ (list.optional.zip optionalHosts).map Prod.snd →
      name ∈ optionalHosts := by
    intro name member
    obtain ⟨pair, inside, rfl⟩ := List.mem_map.mp member
    exact (List.of_mem_zip inside).2
  have before_given : ∀ (k : Nat) param, list.optional[k]? = some param →
      i₁.own? c (host param.var) = some (argument data (list.required.length + k)) := by
    intro k param found
    have at_ := (zipped k param found).1
    rw [touches₁.kept _ fun changed => changed.2 (List.mem_of_getElem? at_)]
    exact valueOptional k _ at_
  refine ⟨j, (touches₁.mono fun name again => wider name again.1).trans
    (supplied.touches.mono fun name member => wider name (madeOptional name (inHosts name member))),
    ?_, ?_⟩
  · rw [execBlock_append_continues ran₁, ran₂]
  refine ⟨fun k var found => ?_, fun k param arg found has => ?_, fun k param found short =>
    supplied.missing k _ (zipped k param found).2 short, fun k param flag found is => ?_⟩
  · have bound : k < data.length :=
      Nat.lt_of_lt_of_le (List.getElem?_eq_some_iff.mp found).1 enough
    have apart := requiredApart k var found
    refine ⟨data[k], List.getElem?_eq_getElem bound, ?_⟩
    rw [supplied.touches.kept _ fun member => apart (madeOptional _ (inHosts _ member)),
      touches₁.kept _ fun changed => apart changed.1, (valueRequired k var found).2]
    simp [argument, List.getElem?_eq_getElem bound]
  · have inside : list.required.length + k < data.length :=
      (List.getElem?_eq_some_iff.mp has).1
    rw [supplied.given k _ (zipped k param found).2 inside, before_given k param found]
    simp [argument, has]
  · have outside := (flagHost flag (mem_flagsOf found is)).2.1
    rw [supplied.touches.kept _ fun member => outside (inHosts _ member)]
    exact flagged k param flag found is

end Positional

section Parameters

variable {depth : Nat} {context : Context} {hosts : List String}

/-- The part of `bindParameters` that is about the rest parameter. -/
def bindRest? (specials : List SymbolId) (head : Head) (first : Nat) :
    Option SymbolId → Compile Head
  | some rest => bindRest specials head first rest
  | none => return head

/-- The part of `bindParameters` that is about keyword parameters. -/
def bindKeySection? (compile : FormCompiler) (context : Context) (specials : List SymbolId)
    (head : Head) (list : LambdaList) (first : Nat) : Compile Head :=
  if list.hasKeys then bindKeySection compile context specials head list first else return head

theorem bindParameters_eq (compile : FormCompiler) (context : Context) (specials : List SymbolId)
    (list : LambdaList) :
    bindParameters compile context specials list = (do
      let (head, requiredHosts) ← bindRequired specials (checkedHead context list) list.required
      let (head, optionalHosts) ← bindSupplied specials head list.required.length list.optional
      let head ← bindDefaults compile context specials head list.required.length
        (list.optional.zip optionalHosts)
      let head ← bindRest? specials head (list.positional + 1) list.rest
      let head ← bindKeySection? compile context specials head list (list.positional + 1)
      return (head, requiredHosts ++ optionalHosts)) := by
  unfold bindParameters bindKeySection?
  cases list.rest <;> cases list.hasKeys <;> rfl

/-- What the binding of a rest parameter comes to, if there is one. -/
structure RestBound (list : LambdaList) (first : Nat) (s t : CompileState) (head head' : Head) :
    Prop where
  binds : Binds list.rest.toList s t head.env head'.env
  areHosts : ∀ id ∈ list.rest.toList, ∃ host, IsHost t head'.env id host ∧
    Made s.counters t.counters host
  code : ∃ code, head'.prologue = head.prologue.add code ∧
    ∀ host : SymbolId → String, (∀ id ∈ list.rest.toList, IsHost t head'.env id (host id)) →
    ∀ steps turns c args i, Receiving c args i → args.length ≤ turns →
    ∃ j, Touches c (Made s.counters t.counters) i j ∧
      execBlock (callWithin (steps + 1)) turns c code i = .ok .normal j ∧
      ∀ var, list.rest = some var → ∃ value,
        IsFreshList i.heap j.heap value (args.drop first) ∧ j.own? c (host var) = some value

theorem bindRest?_ok {first : Nat} (ready : Ready s head.env)
    (lexical : ∀ id ∈ list.rest.toList, IsLexical specials s id) (positive : 1 ≤ first)
    (ok : bindRest? specials head first list.rest s = .ok head' t) :
    RestBound list first s t head head' := by
  cases rest : list.rest with
  | none =>
      rw [rest] at ok
      cases ok
      refine ⟨?_, ?_, [], (add_nil _).symm, fun host _ steps turns c args i _ _ =>
        ⟨i, .refl .., rfl, ?_⟩⟩
      all_goals rw [rest]
      · exact ready.stays.binds ready
      · nofun
      · nofun
  | some var =>
      rw [rest] at ok
      obtain ⟨binds, h, isHost, made, code, prologue, runs⟩ :=
        bindRest_ok ready (lexical var (by simp [rest])) positive ok
      refine ⟨?_, ?_, code, prologue, fun host named steps turns c args i receiving enough => ?_⟩
      · rw [rest]
        exact binds
      · rw [rest]
        intro id member
        obtain rfl := List.mem_singleton.mp member
        exact ⟨h, isHost, made⟩
      · obtain ⟨j, value, touches, ran, held, fresh⟩ := runs steps turns c args i receiving enough
        refine ⟨j, touches, ran, fun other same => ⟨value, fresh, ?_⟩⟩
        obtain rfl := Option.some.inj (rest.symm.trans same)
        rw [(named var (by simp [rest])).unique isHost, held]

theorem bindKeySection?_ok {c₀ : Counters} {left : List SymbolId} {n : Nat}
    (ready : Ready s head.env)
    (lexical : ∀ id ∈ list.keys.flatMap KeyParam.vars, IsLexical specials s id)
    (simple : ∀ before param after, list.keys = before ++ param :: after →
      IsSimple s.image (left ++ before.flatMap KeyParam.vars) param.default)
    (hosts : ∀ id ∈ left, id ≠ SymbolId.nil ∧ ∃ name, IsHost s head.env id name)
    (notNil : ∀ id ∈ list.keys.flatMap KeyParam.vars, id ≠ SymbolId.nil)
    (distinct : (left ++ list.keys.flatMap KeyParam.vars).Nodup) (leads : c₀.Leads s.counters)
    (keyed : list.keys ≠ [] → list.hasKeys = true)
    (ok : bindKeySection? (compileWithin depth) context specials head list (n + 1) s = .ok head' t) :
    KeySectionBound c₀ list left n s t head head' := by
  unfold bindKeySection? at ok
  by_cases has : list.hasKeys = true
  · rw [if_pos has] at ok
    obtain ⟨s₁, s₂, head₂, index, keywords, parts⟩ :=
      bindKeySection_parts ready lexical simple hosts notNil distinct leads ok
    refine parts.keySectionBound ready (fun param member => ?_) has
    obtain ⟨before, after, same⟩ := List.append_of_mem member
    refine (simple before param after same).mono fun id inside => ?_
    rcases List.mem_append.mp inside with old | earlier
    · exact List.mem_append_left _ old
    · refine List.mem_append_right _ ?_
      rw [same, List.flatMap_append]
      exact List.mem_append_left _ earlier
  · rw [if_neg has] at ok
    cases ok
    have none_ : list.keys = [] := by
      by_contra some_
      exact has (keyed some_)
    refine ⟨?_, ?_, [], (add_nil _).symm, ?_⟩
    · rw [none_]
      exact ready.stays.binds ready
    · rw [none_]
      nofun
    · intro host _ _ _ steps turns c acceptor data made i _ _ _ _ _
      refine ⟨i, .refl .., ?_⟩
      rw [if_neg has, none_]
      exact ⟨rfl, nofun⟩

/-- What the head of a function comes to. -/
structure ParametersBound (list : LambdaList) (s t : CompileState) (env : Environment) (head : Head)
    (hosts : List String) : Prop where
  binds : Binds list.boundVars s t env head.env
  areHosts : ∀ id ∈ list.boundVars, ∃ host, IsHost t head.env id host ∧
    Made s.counters t.counters host
  newHosts : Discipline.NewHosts s.counters t.counters list.positional hosts
  code : ∃ code, head.prologue = { current := code } ∧
    ∀ host : SymbolId → String, (∀ id ∈ list.boundVars, IsHost t head.env id (host id)) →
    ∀ steps turns c acceptor data made i, Entered made (acceptor :: data) c t i →
    data.length < turns → (∀ value ∈ data, value ≠ .undefined) →
    (∀ (k : Nat) name, hosts[k]? = some name → i.own? c name = some (argument data k)) →
    (∀ d name, Made s.counters d name → name ∉ hosts → i.own? c name = none) →
    ∃ j, Touches c (Made s.counters t.counters) i j ∧
      match list.refusal? data with
      | some refusal => execBlock (callWithin (steps + 1)) turns c code i =
          .error (.failed (list.failure data.length j.print refusal)) j
      | none => execBlock (callWithin (steps + 1)) turns c code i = .ok .normal j ∧
          list.Receives data
            (DefaultHas s.image made fun id value => j.own? c (host id) = some value) i.heap j.heap
            fun id value => j.own? c (host id) = some value

theorem PositionalReceives.there {image : Image} {made : LiteralKey → Value}
    {host : SymbolId → String} (receives : PositionalReceives image made host list data c i) :
    ∀ id ∈ list.positionalVars, ∃ value, i.own? c (host id) = some value := by
  intro id member
  rcases List.mem_append.mp member with required | optional
  · obtain ⟨k, found⟩ := List.mem_iff_getElem?.mp required
    obtain ⟨arg, -, held⟩ := receives.required k id found
    exact ⟨arg, held⟩
  · obtain ⟨param, inside, own⟩ := List.mem_flatMap.mp optional
    obtain ⟨k, found⟩ := List.mem_iff_getElem?.mp inside
    rcases List.mem_cons.mp own with rfl | flag
    · by_cases given : list.required.length + k < data.length
      · exact ⟨_, receives.given k param _ found (List.getElem?_eq_getElem given)⟩
      · obtain ⟨value, -, held⟩ := receives.missing k param found (Nat.le_of_not_lt given)
        exact ⟨value, held⟩
    · exact ⟨_, receives.flag k param id found (by simpa using flag)⟩

/-- The whole of what a lambda list says, from its sections. -/
theorem receives_of_sections {image : Image} {made : LiteralKey → Value} {host : SymbolId → String}
    {before later : Heap} (positional : PositionalReceives image made host list data c j)
    (rest : ∀ var, list.rest = some var → ∃ value,
      IsFreshList before later value (data.drop list.positional) ∧ j.own? c (host var) = some value)
    (keys : ∀ param ∈ list.keys,
      KeyReceives image made host (data.drop list.positional) param c j) :
    list.Receives data (DefaultHas image made fun id value => j.own? c (host id) = some value) before
      later fun id value => j.own? c (host id) = some value where
  required := positional.required
  given := positional.given
  missing := positional.missing
  givenFlag := positional.flag
  rest := rest
  key param member := (keys param member).key
  keyDefault param member := (keys param member).default
  keyFlag param member := (keys param member).flag

/-- Positional parameters, the rest parameter and keyword parameters are bound in this order. -/
theorem ParametersBound.of_sections {s₂ : CompileState} {head₁ head₂ : Head}
    (positional : PositionalBound list s s₁ (checkedHead context list) head₁ hosts)
    (rest : RestBound list (list.positional + 1) s₁ s₂ head₁ head₂)
    (keys : KeySectionBound s.counters list (list.positionalVars ++ list.rest.toList)
      list.positional s₂ t head₂ head)
    (distinct : list.boundVars.Nodup)
    (simple : list.HasSimpleDefaults s.image) :
    ParametersBound list s t context.env head hosts := by
  obtain ⟨distinctLeft, -, apartKeys⟩ := List.nodup_append.mp
    (show (list.positionalVars ++ list.rest.toList ++ list.keys.flatMap KeyParam.vars).Nodup from
      distinct)
  obtain ⟨-, -, apartRest⟩ := List.nodup_append.mp distinctLeft
  have leads₁ := positional.binds.onward.counters
  have leads₂ := rest.binds.onward.counters
  have leads₃ := keys.binds.onward.counters
  have laterRest : ∀ id ∈ list.positionalVars, ∀ h, IsHost s₂ head₂.env id h ↔
      IsHost s₁ head₁.env id h := fun id member h =>
    rest.binds.isHost fun again => apartRest id member id again rfl
  have laterKeys : ∀ id ∈ list.positionalVars ++ list.rest.toList, ∀ h, IsHost t head.env id h ↔
      IsHost s₂ head₂.env id h := fun id member h =>
    keys.binds.isHost fun again => apartKeys id member id again rfl
  obtain ⟨codeP, prologueP, runsP⟩ := positional.code
  obtain ⟨codeR, prologueR, runsR⟩ := rest.code
  obtain ⟨codeK, prologueK, runsK⟩ := keys.code
  have hostsLeft : ∀ id ∈ list.positionalVars ++ list.rest.toList, ∃ h, IsHost t head.env id h ∧
      Made s.counters s₂.counters h := by
    intro id member
    rcases List.mem_append.mp member with here | there
    · obtain ⟨h, isHost, made⟩ := positional.areHosts id here
      exact ⟨h, (laterKeys id member h).mpr ((laterRest id here h).mpr isHost), made.left leads₂⟩
    · obtain ⟨h, isHost, made⟩ := rest.areHosts id there
      exact ⟨h, (laterKeys id member h).mpr isHost, made.right leads₁⟩
  refine ⟨(positional.binds.trans rest.binds).trans keys.binds, fun id member => ?_, ?_,
    arityChecks list ++ (codeP ++ (codeR ++ codeK)), ?_, ?_⟩
  · rcases List.mem_append.mp (show id ∈ list.positionalVars ++ list.rest.toList ++
      list.keys.flatMap KeyParam.vars from member) with left | key
    · obtain ⟨h, isHost, made⟩ := hostsLeft id left
      exact ⟨h, isHost, made.left leads₃⟩
    · obtain ⟨h, isHost, made⟩ := keys.hosts id key
      exact ⟨h, isHost, made.right (leads₁.trans leads₂)⟩
  · exact ⟨fun h member => (positional.newHosts.made h member).left (leads₂.trans leads₃),
      positional.newHosts.nodup, positional.newHosts.length⟩
  · rw [prologueK, prologueR, prologueP]
    simp [checkedHead, Prologue.add]
  intro host named steps turns c acceptor data made i entered enough defined values absent
  have wider₁ : ∀ name, Made s.counters s₁.counters name → Made s.counters t.counters name :=
    fun name made => made.left (leads₂.trans leads₃)
  have wider₂ : ∀ name, Made s₁.counters s₂.counters name → Made s.counters t.counters name :=
    fun name made => (made.right leads₁).left leads₃
  have wider₃ : ∀ name, Made s₂.counters t.counters name → Made s.counters t.counters name :=
    fun name made => made.right (leads₁.trans leads₂)
  have madeLeft : ∀ id ∈ list.positionalVars ++ list.rest.toList,
      Made s.counters s₂.counters (host id) := by
    intro id member
    obtain ⟨h, isHost, made⟩ := hostsLeft id member
    rwa [(named id (List.mem_append_left _ member)).unique isHost]
  have namedLeft : ∀ id ∈ list.positionalVars ++ list.rest.toList,
      IsHost s₂ head₂.env id (host id) :=
    fun id member => (laterKeys id member _).mp (named id (List.mem_append_left _ member))
  have madePositional : ∀ id ∈ list.positionalVars, Made s.counters s₁.counters (host id) := by
    intro id member
    obtain ⟨h, isHost, made⟩ := positional.areHosts id member
    have isHost₁ := (laterRest id member _).mp (namedLeft id (List.mem_append_left _ member))
    rwa [isHost₁.unique isHost]
  have checked := arityChecks_run list steps turns entered.receiving
  by_cases allowed : list.allows data.length = true
  case neg =>
    rw [if_neg allowed] at checked
    refine ⟨i, .refl .., ?_⟩
    rw [LambdaList.refusal?, if_pos (by simpa using allowed)]
    exact execBlock_append_fails checked
  rw [if_pos allowed] at checked
  have required : list.required.length ≤ data.length := by
    have both := Bool.and_eq_true_iff.mp allowed
    simpa using both.1
  obtain ⟨i₁, touches₁, ran₁, received⟩ := runsP host
    (fun id member => (laterRest id member _).mp (namedLeft id (List.mem_append_left _ member)))
    (callWithin (steps + 1)) turns c acceptor data made i
    (entered.earlier (rest.binds.onward.trans keys.binds.onward)) required values
  have entered₁ := entered.touches touches₁ fun name again => ⟨_, _, again⟩
  obtain ⟨i₂, touches₂, ran₂, receivedRest⟩ := runsR host
    (fun id member => namedLeft id (List.mem_append_right _ member)) steps turns c
    (acceptor :: data) i₁ entered₁.receiving (by rw [List.length_cons]; omega)
  have entered₂ := entered₁.touches touches₂ fun name again => ⟨_, _, again⟩
  have simplePositional : ∀ param ∈ list.optional,
      IsSimple s.image list.positionalVars param.default := by
    intro param member
    obtain ⟨before, after, same⟩ := List.append_of_mem member
    refine (simple.optional before param after same).mono fun id inside => ?_
    rcases List.mem_append.mp inside with here | earlier
    · exact List.mem_append_left _ here
    · refine List.mem_append_right _ ?_
      rw [same, List.flatMap_append]
      exact List.mem_append_left _ earlier
  have received₂ := received.kept touches₂ simplePositional fun id member made =>
    (madePositional id member).disjoint made
  obtain ⟨i₃, touches₃, outcome⟩ := runsK host namedLeft
    (fun id member => named id (List.mem_append_right _ member)) madeLeft steps turns c acceptor data
    made i₂ entered₂ enough defined
    (fun d name again => by
      rw [touches₂.kept name fun made => made.disjoint again,
        touches₁.kept name fun made => (made.left leads₂).disjoint again]
      exact absent d name (again.right (leads₁.trans leads₂)) fun member =>
        ((positional.newHosts.made name member).left leads₂).disjoint again)
    (fun id member => by
      rcases List.mem_append.mp member with here | there
      · exact received₂.there id here
      · obtain ⟨value, -, held⟩ := receivedRest id (by simpa using there)
        exact ⟨value, held⟩)
  have touches : Touches c (Made s.counters t.counters) i i₃ :=
    ((touches₁.mono wider₁).trans (touches₂.mono wider₂)).trans (touches₃.mono wider₃)
  have ran : execBlock (callWithin (steps + 1)) turns c
      (arityChecks list ++ (codeP ++ (codeR ++ codeK))) i =
        execBlock (callWithin (steps + 1)) turns c codeK i₂ := by
    rw [execBlock_append_continues checked, execBlock_append_continues ran₁,
      execBlock_append_continues ran₂]
  refine ⟨i₃, touches, ?_⟩
  have refusal_eq : list.refusal? data =
      if list.hasKeys then list.keyRefusal? (data.drop list.positional) else none := by
    rw [LambdaList.refusal?, if_neg (by simp [allowed])]
  rw [refusal_eq, ran]
  rw [rest.binds.onward.image, positional.binds.onward.image] at outcome
  cases refused : (if list.hasKeys then list.keyRefusal? (data.drop list.positional) else none) with
  | some refusal =>
      rw [refused] at outcome
      exact outcome
  | none =>
      rw [refused] at outcome
      obtain ⟨last, receivedKeys⟩ := outcome
      refine ⟨last, receives_of_sections (received₂.kept touches₃ simplePositional fun id member made =>
        (madeLeft id (List.mem_append_left _ member)).disjoint made) (fun var is => ?_) receivedKeys⟩
      obtain ⟨value, fresh, held⟩ := receivedRest var is
      refine ⟨value, ?_, ?_⟩
      · have dropped : (acceptor :: data).drop (list.positional + 1) = data.drop list.positional :=
          List.drop_succ_cons
        rw [dropped] at fresh
        exact isFreshList_kept (isFreshList_since fresh touches₁.keeps.cells) touches₃.keeps
      · rw [touches₃.kept _ fun made => (madeLeft var (List.mem_append_right _ (by simp [is]))).disjoint
          made, held]

theorem bindParameters_ok (ready : Ready s context.env)
    (lexical : ∀ id ∈ list.boundVars, IsLexical specials s id)
    (notNil : ∀ id ∈ list.boundVars, id ≠ SymbolId.nil) (distinct : list.boundVars.Nodup)
    (simple : list.HasSimpleDefaults s.image) (keyed : list.keys ≠ [] → list.hasKeys = true)
    (ok : bindParameters (compileWithin depth) context specials list s = .ok (head, hosts) t) :
    ParametersBound list s t context.env head hosts := by
  rw [bindParameters_eq] at ok
  obtain ⟨⟨head₁, requiredHosts⟩, s₁, ok₁, ok⟩ := ok_of_bind ok
  obtain ⟨⟨head₂, optionalHosts⟩, s₂, ok₂, ok⟩ := ok_of_bind ok
  obtain ⟨head₃, s₃, ok₃, ok⟩ := ok_of_bind ok
  obtain ⟨head₄, s₄, ok₄, ok⟩ := ok_of_bind ok
  obtain ⟨head₅, s₅, ok₅, ended⟩ := ok_of_bind ok
  cases ended
  have inPositional : ∀ id ∈ list.positionalVars, id ∈ list.boundVars := fun id member =>
    List.mem_append_left _ (List.mem_append_left _ member)
  have inRest : ∀ id ∈ list.rest.toList, id ∈ list.boundVars := fun id member =>
    List.mem_append_left _ (List.mem_append_right _ member)
  have inKeys : ∀ id ∈ list.keys.flatMap KeyParam.vars, id ∈ list.boundVars := fun id member =>
    List.mem_append_right _ member
  have distinctAll : (list.positionalVars ++ list.rest.toList ++
      list.keys.flatMap KeyParam.vars).Nodup := distinct
  obtain ⟨distinctLeft, -, -⟩ := List.nodup_append.mp distinctAll
  obtain ⟨distinctPositional, -, apartRest⟩ := List.nodup_append.mp distinctLeft
  have ready₀ : Ready s (checkedHead context list).env := ready
  have positional := (positional_parts ready₀ (fun id member => lexical id (inPositional id member))
    (fun id member => notNil id (inPositional id member)) distinctPositional simple.optional ok₁ ok₂
    ok₃).positionalBound
  have onward₃ := positional.binds.onward
  have rest := bindRest?_ok positional.binds.ready
    (fun id member => (lexical id (inRest id member)).later ready onward₃) (Nat.le_add_left ..) ok₄
  have onward₄ := onward₃.trans rest.binds.onward
  have hosts₄ : ∀ id ∈ list.positionalVars ++ list.rest.toList,
      id ≠ SymbolId.nil ∧ ∃ name, IsHost s₄ head₄.env id name := by
    intro id member
    refine ⟨notNil id (List.mem_append_left _ member), ?_⟩
    rcases List.mem_append.mp member with here | there
    · obtain ⟨h, isHost, -⟩ := positional.areHosts id here
      exact ⟨h, (rest.binds.isHost fun again => apartRest id here id again rfl).mpr isHost⟩
    · obtain ⟨h, isHost, -⟩ := rest.areHosts id there
      exact ⟨h, isHost⟩
  have keys := bindKeySection?_ok rest.binds.ready
    (fun id member => (lexical id (inKeys id member)).later ready onward₄)
    (fun before param after same => onward₄.image ▸ simple.key before param after same) hosts₄
    (fun id member => notNil id (inKeys id member)) distinctAll onward₄.counters keyed ok₅
  exact .of_sections positional rest keys distinct simple

end Parameters

end LispScript.Compiler
