import LispScript.Proofs.LambdaCalls
import LispScript.Proofs.Proclamations
import LispScript.Proofs.Rebinding

/-!
Code around a body that binds special variables. Whatever forms bind them, and in whatever order with
other variables, the body comes to stand within dynamic bindings, one for each of them, in the order in
which the variables are bound.
-/

namespace LispScript.Compiler

open Script Machine Discipline

section Code

variable {s₀ s t : CompileState} {specials : List SymbolId} {id : SymbolId} {host : String}
  {vars more : List (SymbolId × String)} {stmts : List Stmt} {prologue : Prologue}
  {rs : List Rebinding} {code : Expr}

/-- The code of a symbol in a unit. -/
inductive IsSymbolIn (s : CompileState) (id : SymbolId) : Expr → Prop where
  | nil (same : id = SymbolId.nil) : IsSymbolIn s id .nil
  | t (same : id = SymbolId.t) : IsSymbolIn s id .t
  | hoisted {name : String} (notNil : id ≠ SymbolId.nil)
      (held : s.literals.names[(LiteralKey.symbol id).code]? = some name) :
      IsSymbolIn s id (.ident name)

theorem IsSymbolIn.lasts (isSymbol : IsSymbolIn s id code) (lasts : Lasts s t) :
    IsSymbolIn t id code := by
  cases isSymbol with
  | nil same => exact .nil same
  | t same => exact .t same
  | hoisted notNil held => exact .hoisted notNil (lasts.names _ _ held)

theorem symbolLiteral_isSymbol (ok : symbolLiteral id s = .ok code t) : IsSymbolIn t id code := by
  unfold symbolLiteral at ok
  split at ok
  · rename_i same
    cases ok
    exact .nil same
  · rename_i notNil
    split at ok
    · rename_i same
      cases ok
      exact .t same
    · cases found : s.literals.names[(LiteralKey.symbol id).code]? with
      | some name =>
          rw [hoist_found _ found] at ok
          cases ok
          exact .hoisted notNil found
      | none =>
          have made : (do return symbolInitializer (← symbols) id : Compile Expr) s =
              .ok (symbolInitializer s.image.symbols id) s := rfl
          have added := (hoist_absent found made).symm.trans ok
          split at added
          · cases added
          · cases added
            refine .hoisted notNil ?_
            simp only [addLiteral, Std.TreeMap.getElem?_insert_self]

/-- What is around a body, as far as it was built: the dynamic bindings, of symbols that the unit has,
are made where the variables are bound that the form declares special or that are proclaimed so. The
statements are those that the bindings came between. -/
structure Rebinds (s₀ : CompileState) (specials : List SymbolId)
    (vars : List (SymbolId × String)) (stmts : List Stmt) (s : CompileState) (prologue : Prologue)
    (rs : List Rebinding) : Prop where
  finish : ∀ body, prologue.finish body = Rebinding.rebound rs (prologue.current ++ body)
  places : ∀ r ∈ rs, IsSymbolIn s r.symbol r.place
  among : (rs.map fun r => (r.symbol, r.host)).Sublist vars
  dynamic : ∀ var ∈ vars, var.1 ∈ specials ∨ s₀.bindings.Proclaims var.1 →
    var ∈ rs.map fun r => (r.symbol, r.host)
  between : rs.flatMap (·.before) ++ prologue.current = stmts

theorem rebound_snoc (rs : List Rebinding) (r : Rebinding) (rest : List Stmt) :
    Rebinding.rebound (rs ++ [r]) rest = Rebinding.rebound rs (Rebinding.rebound [r] rest) :=
  List.foldr_append

theorem Rebinds.start (s₀ s : CompileState) (specials : List SymbolId) (stmts : List Stmt) :
    Rebinds s₀ specials [] stmts s { current := stmts } [] where
  finish _ := rfl
  places _ member := (List.not_mem_nil member).elim
  among := .slnil
  dynamic _ member := (List.not_mem_nil member).elim
  between := rfl

theorem Rebinds.lasts (rebinds : Rebinds s₀ specials vars stmts s prologue rs) (lasts : Lasts s t) :
    Rebinds s₀ specials vars stmts t prologue rs :=
  { rebinds with places := fun r member => (rebinds.places r member).lasts lasts }

theorem Rebinds.add (rebinds : Rebinds s₀ specials vars stmts s prologue rs) (more : List Stmt) :
    Rebinds s₀ specials vars (stmts ++ more) s (prologue.add more) rs :=
  { rebinds with
    finish := fun body => by
      rw [Prologue.finish_add, rebinds.finish, Prologue.add, List.append_assoc]
    between := by
      rw [Prologue.add, ← rebinds.between, List.append_assoc] }

/-- A variable that is bound in a form keeps its place among those that are special. -/
theorem Rebinds.lexical (rebinds : Rebinds s₀ specials vars stmts s prologue rs)
    (lexical : ¬ (id ∈ specials ∨ s₀.bindings.Proclaims id)) :
    Rebinds s₀ specials (vars ++ [(id, host)]) stmts s prologue rs :=
  { rebinds with
    among := rebinds.among.trans (List.sublist_append_left _ _)
    dynamic := fun var member special => by
      rcases List.mem_append.mp member with before | last
      · exact rebinds.dynamic var before special
      · obtain rfl := List.mem_singleton.mp last
        exact (lexical special).elim }

/-- One more dynamic binding. -/
theorem Rebinds.dynamically (rebinds : Rebinds s₀ specials vars stmts s prologue rs)
    {later : Prologue} (ok : prologue.bindSpecial id (.ident host) s = .ok later t) :
    ∃ rs', Rebinds s₀ specials (vars ++ [(id, host)]) stmts t later rs' := by
  have lasts : Lasts s t := (bindSpecial_obeys prologue id (.ident host)).ended ok
  obtain ⟨place, s₁, symbol, ok⟩ := ok_of_bind ok
  obtain ⟨old, s₂, fresh, ended⟩ := ok_of_bind ok
  cases ended
  have isSymbol := (symbolLiteral_isSymbol symbol).lasts
    ((Obeys.onCounters (R := Lasts) _ fun _ => rfl).ended fresh)
  let r : Rebinding := ⟨prologue.current, id, place, old, host⟩
  refine ⟨rs ++ [r], ⟨fun body => ?_, fun r' member => ?_, ?_, fun var member special => ?_, ?_⟩⟩
  · rw [rebound_snoc, List.nil_append, Prologue.finish_section, rebinds.finish]
    rfl
  · rcases List.mem_append.mp member with before | last
    · exact (rebinds.lasts lasts).places r' before
    · rw [List.mem_singleton.mp last]
      exact isSymbol
  · rw [List.map_append]
    exact rebinds.among.append (List.Sublist.refl [(id, host)])
  · rw [List.map_append]
    rcases List.mem_append.mp member with before | last
    · exact List.mem_append_left _ (rebinds.dynamic var before special)
    · exact List.mem_append_right _ last
  · rw [List.flatMap_append, List.append_nil, ← rebinds.between]
    exact congrArg _ (List.append_nil _)

theorem bindsSpecial_ok {special : Bool} (ok : bindsSpecial id specials s = .ok special t) :
    s = t ∧ (special = true ↔ id ∈ specials ∨ s.bindings.Proclaims id) := by
  unfold bindsSpecial at ok
  split at ok
  · rename_i declared
    cases ok
    exact ⟨rfl, iff_of_true rfl (.inl (List.contains_iff_mem.mp declared))⟩
  · rename_i undeclared
    rw [bind_get] at ok
    have undeclared : id ∉ specials := fun member =>
      undeclared (List.contains_iff_mem.mpr member)
    cases found : s.bindings.getGlobal? id .vars with
    | some binding =>
        simp only [found] at ok
        cases ok
        refine ⟨rfl, fun special => .inr ⟨binding, found, special⟩, ?_⟩
        rintro (declared | ⟨other, same, special⟩)
        · exact absurd declared undeclared
        · rw [found] at same
          cases same
          exact special
    | none =>
        simp only [found] at ok
        cases ok
        refine ⟨rfl, nofun, ?_⟩
        rintro (declared | ⟨other, same, -⟩)
        · exact absurd declared undeclared
        · rw [found] at same
          cases same

/-- A variable is bound, dynamically or not. -/
theorem Rebinds.bindParameter {head head' : Head} (lasts : Lasts s₀ s)
    (rebinds : Rebinds s₀ specials vars stmts s head.prologue rs)
    (ok : Compiler.bindParameter specials head id host s = .ok head' t) :
    ∃ rs', Rebinds s₀ specials (vars ++ [(id, host)]) stmts t head'.prologue rs' := by
  unfold Compiler.bindParameter at ok
  obtain ⟨special, s₁, asked, ok⟩ := ok_of_bind ok
  obtain ⟨rfl, meaning⟩ := bindsSpecial_ok asked
  have bound : ∀ {s₂ prologue rs}, Rebinds s₀ specials (vars ++ [(id, host)]) stmts s₂ prologue rs →
      (do
        let binding ← variableBinding id host special
        return ({ env := binding :: head.env, prologue } : Head) : Compile Head) s₂ = .ok head' t →
      ∃ rs', Rebinds s₀ specials (vars ++ [(id, host)]) stmts t head'.prologue rs' := by
    intro s₂ prologue rs rebinds ok
    obtain ⟨binding, s₃, made, ended⟩ := ok_of_bind ok
    cases ended
    exact ⟨rs, rebinds.lasts ((variableBinding_obeys (R := Lasts) id host special).ended made)⟩
  cases special with
  | true =>
      obtain ⟨prologue, s₂, made, ok⟩ := ok_of_bind ok
      obtain ⟨rs', rebinds'⟩ := rebinds.dynamically made
      exact bound rebinds' ok
  | false =>
      refine bound (rebinds.lexical fun special => ?_) ok
      have special := meaning.mpr (special.imp_right (lasts.proclaimed id))
      cases special

/-- The code of a variable's first value, with the script variable that the value is put in. -/
structure Init where
  symbol : SymbolId
  host : String
  code : Expr

def Init.stmt (init : Init) : Stmt := .define init.host init.code

def Init.var (init : Init) : SymbolId × String := (init.symbol, init.host)

/-- The code of an init is that of the form which a binding has for it. -/
def IsInit (compile : FormCompiler) (binding : SymbolId × Value) (init : Init) : Prop :=
  init.symbol = binding.1 ∧
    ∃ context s t, compileSingle compile context binding.2 s = .ok init.code t

variable {compile : FormCompiler} {context : Context} {bindings : List (SymbolId × Value)}
  {hosts : List (SymbolId × String)} {head head' : Head}
  (forms : ∀ context form, Obeys Lasts (compile context form))

theorem Prologue.add_add (prologue : Prologue) (first second : List Stmt) :
    (prologue.add first).add second = prologue.add (first ++ second) := by
  rw [Prologue.add, Prologue.add, Prologue.add, List.append_assoc]

theorem Prologue.add_nil (prologue : Prologue) : prologue.add [] = prologue := by
  rw [Prologue.add, List.append_nil]

theorem defineInits_ok {later : Prologue}
    (ok : defineInits compile context prologue bindings s = .ok (later, hosts) t) :
    ∃ inits : List Init, later = prologue.add (inits.map Init.stmt) ∧ hosts = inits.map Init.var ∧
      List.Forall₂ (IsInit compile) bindings inits := by
  induction bindings generalizing s prologue hosts with
  | nil =>
      cases ok
      exact ⟨[], (Prologue.add_nil _).symm, rfl, .nil⟩
  | cons binding rest ih =>
      obtain ⟨id, form⟩ := binding
      obtain ⟨host, s₁, fresh, ok⟩ := ok_of_bind ok
      obtain ⟨code, s₂, compiled, ok⟩ := ok_of_bind ok
      obtain ⟨⟨later, hosts⟩, s₃, others, ended⟩ := ok_of_bind ok
      cases ended
      obtain ⟨inits, rfl, rfl, are⟩ := ih others
      refine ⟨⟨id, host, code⟩ :: inits, Prologue.add_add .., rfl,
        .cons ⟨rfl, context, s₁, s₂, compiled⟩ are⟩

theorem Rebinds.bindHosts (lasts : Lasts s₀ s)
    (rebinds : Rebinds s₀ specials vars stmts s head.prologue rs)
    (ok : Compiler.bindHosts specials head hosts s = .ok head' t) :
    ∃ rs', Rebinds s₀ specials (vars ++ hosts) stmts t head'.prologue rs' := by
  induction hosts generalizing s vars head rs with
  | nil =>
      cases ok
      exact ⟨rs, (List.append_nil vars).symm ▸ rebinds⟩
  | cons binding rest ih =>
      obtain ⟨id, host⟩ := binding
      obtain ⟨head₁, s₁, bound, ok⟩ := ok_of_bind ok
      obtain ⟨rs₁, rebinds₁⟩ := rebinds.bindParameter lasts bound
      have lasts₁ := (bindParameter_obeys (R := Lasts) specials head id host).ended bound
      obtain ⟨rs₂, rebinds₂⟩ := ih (Interning.trans lasts lasts₁) rebinds₁ ok
      exact ⟨rs₂, by rwa [List.append_assoc] at rebinds₂⟩

include forms

theorem Rebinds.bindInits (lasts : Lasts s₀ s)
    (rebinds : Rebinds s₀ specials vars stmts s head.prologue rs)
    (ok : Compiler.bindInits compile context specials head bindings s = .ok head' t) :
    ∃ (inits : List Init) (rs' : List Rebinding), List.Forall₂ (IsInit compile) bindings inits ∧
      Rebinds s₀ specials (vars ++ inits.map Init.var) (stmts ++ inits.map Init.stmt) t
        head'.prologue rs' := by
  induction bindings generalizing s vars stmts head rs with
  | nil =>
      cases ok
      exact ⟨[], rs, .nil, by simpa using rebinds⟩
  | cons binding rest ih =>
      obtain ⟨id, form⟩ := binding
      obtain ⟨host, s₁, fresh, ok⟩ := ok_of_bind ok
      obtain ⟨code, s₂, compiled, ok⟩ := ok_of_bind ok
      obtain ⟨head₃, s₃, bound, ok⟩ := ok_of_bind ok
      have lasts₁ : Lasts s s₁ := (Obeys.freshVariableFor id).ended fresh
      have lasts₂ : Lasts s₁ s₂ := (compileSingle_obeys forms form).ended compiled
      have lasts₃ := (bindParameter_obeys (R := Lasts) _ _ _ _).ended bound
      have before := Interning.trans lasts₁ lasts₂
      have added := (rebinds.lasts before).add [.define host code]
      obtain ⟨rs₃, rebinds₃⟩ := added.bindParameter (Interning.trans lasts before) bound
      obtain ⟨inits, rs', are, rebinds'⟩ :=
        ih (Interning.trans lasts (Interning.trans before lasts₃)) rebinds₃ ok
      refine ⟨⟨id, host, code⟩ :: inits, rs', .cons ⟨rfl, _, s₁, s₂, compiled⟩ are, ?_⟩
      rw [List.append_assoc, List.append_assoc] at rebinds'
      exact rebinds'

end Code

section Parameters

variable {s₀ s t u : CompileState} {specials : List SymbolId} {vars : List (SymbolId × String)}
  {head head' : Head} {compile : FormCompiler} {context : Context} {list : LambdaList}
  (forms : ∀ context form, Obeys Lasts (compile context form))

/-- The variables that a head has bound so far. -/
def HasBound (s₀ : CompileState) (specials : List SymbolId) (vars : List (SymbolId × String))
    (s : CompileState) (head : Head) : Prop :=
  Lasts s₀ s ∧ ∃ stmts rs, Rebinds s₀ specials vars stmts s head.prologue rs

theorem HasBound.later (bound : HasBound s₀ specials vars s head) (lasts : Lasts s t) :
    HasBound s₀ specials vars t head := by
  obtain ⟨before, stmts, rs, rebinds⟩ := bound
  exact ⟨Interning.trans before lasts, stmts, rs, rebinds.lasts lasts⟩

theorem HasBound.ended {α : Type} {step : Compile α} {a : α}
    (bound : HasBound s₀ specials vars s head) (obeys : Obeys Lasts step) (ok : step s = .ok a t) :
    HasBound s₀ specials vars t head :=
  bound.later (obeys.ended ok)

theorem HasBound.add (bound : HasBound s₀ specials vars s head) (stmts : List Stmt) :
    HasBound s₀ specials vars s (head.add stmts) := by
  obtain ⟨before, sofar, rs, rebinds⟩ := bound
  exact ⟨before, _, rs, rebinds.add stmts⟩

theorem HasBound.bindParameter (bound : HasBound s₀ specials vars s head) {id : SymbolId}
    {host : String} (ok : Compiler.bindParameter specials head id host s = .ok head' t) :
    HasBound s₀ specials (vars ++ [(id, host)]) t head' := by
  obtain ⟨before, stmts, rs, rebinds⟩ := bound
  obtain ⟨rs', rebinds'⟩ := rebinds.bindParameter before ok
  exact ⟨Interning.trans before ((bindParameter_obeys specials head id host).ended ok), stmts, rs',
    rebinds'⟩

theorem HasBound.bindRequired {ids : List SymbolId} {hosts : List String}
    (bound : HasBound s₀ specials vars s head)
    (ok : Compiler.bindRequired specials head ids s = .ok (head', hosts) t) :
    hosts.length = ids.length ∧ HasBound s₀ specials (vars ++ ids.zip hosts) t head' := by
  induction ids generalizing s vars head hosts with
  | nil =>
      cases ok
      exact ⟨rfl, (List.append_nil vars).symm ▸ bound⟩
  | cons id rest ih =>
      obtain ⟨host, s₁, fresh, ok⟩ := ok_of_bind ok
      obtain ⟨head₂, s₂, made, ok⟩ := ok_of_bind ok
      obtain ⟨⟨head₃, hosts₃⟩, s₃, others, ended⟩ := ok_of_bind ok
      cases ended
      obtain ⟨length, bound'⟩ := ih ((bound.ended (.freshVariableFor id) fresh).bindParameter made) others
      rw [List.append_assoc] at bound'
      exact ⟨congrArg (· + 1) length, bound'⟩

theorem HasBound.bindSupplied {position : Nat} {params : List OptionalParam} {hosts : List String}
    (bound : HasBound s₀ specials vars s head)
    (ok : Compiler.bindSupplied specials head position params s = .ok (head', hosts) t) :
    hosts.length = params.length ∧
      ∃ flags : List (SymbolId × String), flags.map Prod.fst = params.filterMap (·.supplied) ∧
        HasBound s₀ specials (vars ++ flags) t head' := by
  induction params generalizing s vars head hosts position with
  | nil =>
      cases ok
      exact ⟨rfl, [], rfl, (List.append_nil vars).symm ▸ bound⟩
  | cons param rest ih =>
      obtain ⟨host, s₁, fresh, ok⟩ := ok_of_bind ok
      have bound₁ := bound.ended (.freshVariableFor param.var) fresh
      cases given : param.supplied with
      | none =>
          simp only [given] at ok
          obtain ⟨head₂, s₂, made, ok⟩ := ok_of_bind ok
          cases made
          obtain ⟨⟨head₃, hosts₃⟩, s₃, others, ended⟩ := ok_of_bind ok
          cases ended
          obtain ⟨length, flags, same, bound'⟩ := ih bound₁ others
          refine ⟨congrArg (· + 1) length, flags, ?_, bound'⟩
          rw [same, List.filterMap_cons_none given]
      | some supplied =>
          simp only [given] at ok
          obtain ⟨flag, s₂, freshFlag, ok⟩ := ok_of_bind ok
          obtain ⟨head₃, s₃, made, ok⟩ := ok_of_bind ok
          obtain ⟨⟨head₄, hosts₄⟩, s₄, others, ended⟩ := ok_of_bind ok
          cases ended
          have bound₂ := (bound₁.ended (.freshVariableFor supplied) freshFlag).add
            [.define flag (.cond (.binary .gt argumentCount (countLiteral position)) .t .nil)]
          obtain ⟨length, flags, same, bound'⟩ := ih (bound₂.bindParameter made) others
          rw [List.append_assoc] at bound'
          refine ⟨congrArg (· + 1) length, (supplied, flag) :: flags, ?_, bound'⟩
          rw [List.map_cons, same, List.filterMap_cons_some given]

/-- Variables of optional parameters, with their script parameters. -/
def optionalVars (params : List (OptionalParam × String)) : List (SymbolId × String) :=
  params.map fun param => (param.1.var, param.2)

theorem optionalVars_zip (params : List OptionalParam) (hosts : List String) :
    optionalVars (params.zip hosts) = (params.map (·.var)).zip hosts :=
  (List.zip_map_left ..).symm

theorem HasBound.lexical (bound : HasBound s₀ specials vars s head)
    {more : List (SymbolId × String)}
    (lexical : ∀ var ∈ more, ¬ (var.1 ∈ specials ∨ s₀.bindings.Proclaims var.1)) :
    HasBound s₀ specials (vars ++ more) s head := by
  induction more generalizing vars with
  | nil => exact (List.append_nil vars).symm ▸ bound
  | cons var rest ih =>
      obtain ⟨here, others⟩ := List.forall_mem_cons.mp lexical
      obtain ⟨before, stmts, rs, rebinds⟩ := bound
      have bound' : HasBound s₀ specials (vars ++ [var] ++ rest) s head :=
        ih ⟨before, stmts, rs, rebinds.lexical here⟩ others
      rwa [List.append_assoc] at bound'

theorem anyM_bindsSpecial {params : List (OptionalParam × String)} {some_ : Bool}
    (ok : (params.anyM fun (param, _) => bindsSpecial param.var specials : Compile Bool) s =
      .ok some_ t) :
    s = t ∧ (some_ = false →
      ∀ var ∈ optionalVars params, ¬ (var.1 ∈ specials ∨ s.bindings.Proclaims var.1)) := by
  induction params with
  | nil =>
      cases ok
      exact ⟨rfl, fun _ _ member => (List.not_mem_nil member).elim⟩
  | cons param rest ih =>
      rw [List.anyM_cons] at ok
      obtain ⟨special, s₁, asked, ok⟩ := ok_of_bind ok
      obtain ⟨rfl, meaning⟩ := bindsSpecial_ok asked
      cases special with
      | true =>
          cases ok
          exact ⟨rfl, nofun⟩
      | false =>
          obtain ⟨same, others⟩ := ih ok
          refine ⟨same, fun none_ => List.forall_mem_cons.mpr ⟨fun special => ?_, others none_⟩⟩
          cases meaning.mpr special

include forms

theorem HasBound.bindDefaultsInOrder {position : Nat} {params : List (OptionalParam × String)}
    (bound : HasBound s₀ specials vars s head)
    (ok : Compiler.bindDefaultsInOrder compile context specials head position params s =
      .ok head' t) :
    HasBound s₀ specials (vars ++ optionalVars params) t head' := by
  induction params generalizing s vars head position with
  | nil =>
      cases ok
      exact (List.append_nil vars).symm ▸ bound
  | cons param rest ih =>
      obtain ⟨param, host⟩ := param
      obtain ⟨default, s₁, compiled, ok⟩ := ok_of_bind ok
      obtain ⟨head₂, s₂, made, ok⟩ := ok_of_bind ok
      have bound₁ := (bound.ended (compileSingle_obeys forms _) compiled).add
        [.branch (.binary .le argumentCount (countLiteral position)) [assignStmt host default] []]
      have bound' := ih (bound₁.bindParameter made) ok
      rwa [List.append_assoc] at bound'

theorem HasBound.bindDefaults {position : Nat} {params : List (OptionalParam × String)}
    (bound : HasBound s₀ specials vars s head)
    (ok : Compiler.bindDefaults compile context specials head position params s = .ok head' t) :
    HasBound s₀ specials (vars ++ optionalVars params) t head' := by
  obtain ⟨special, s₁, asked, rest⟩ := ok_of_bind ok
  obtain ⟨rfl, none_⟩ := anyM_bindsSpecial asked
  have lasts := (bindDefaults_obeys forms context specials head position params).ended ok
  cases special with
  | true => exact bound.bindDefaultsInOrder forms rest
  | false =>
      have bound' := bound.lexical fun var member special =>
        none_ rfl var member (special.imp_right (bound.1.proclaimed var.1))
      rw [if_neg (by simp)] at rest
      split at rest
      · cases rest
        exact bound'
      · obtain ⟨⟨env, cases_⟩, s₂, made, ended⟩ := ok_of_bind rest
        cases ended
        exact (bound'.later lasts).add [.select argumentCount cases_]

omit forms in
theorem HasBound.bindRest {first : Nat} {rest : SymbolId}
    (bound : HasBound s₀ specials vars s head)
    (ok : Compiler.bindRest specials head first rest s = .ok head' t) :
    ∃ host, HasBound s₀ specials (vars ++ [(rest, host)]) t head' := by
  obtain ⟨host, s₁, fresh, ok⟩ := ok_of_bind ok
  obtain ⟨index, s₂, freshIndex, ok⟩ := ok_of_bind ok
  have bound₂ := (bound.ended (.freshVariableFor rest) fresh).ended (.onCounters _ fun _ => rfl)
    freshIndex
  exact ⟨host, (bound₂.add _).bindParameter ok⟩

theorem HasBound.bindKeys {index : String} {first : Nat} {params : List KeyParam}
    {keywords : List Expr} (bound : HasBound s₀ specials vars s head)
    (ok : Compiler.bindKeys compile context specials index first head params s =
      .ok (head', keywords) t) :
    ∃ more : List (SymbolId × String),
      more.map Prod.fst = params.flatMap (fun param => param.supplied.toList ++ [param.var]) ∧
        HasBound s₀ specials (vars ++ more) t head' := by
  induction params generalizing s vars head keywords with
  | nil =>
      cases ok
      exact ⟨[], rfl, (List.append_nil vars).symm ▸ bound⟩
  | cons param rest ih =>
      obtain ⟨host, s₁, fresh, ok⟩ := ok_of_bind ok
      obtain ⟨keyword, s₂, symbol, ok⟩ := ok_of_bind ok
      obtain ⟨flag?, s₃, flags, ok⟩ := ok_of_bind ok
      obtain ⟨default, s₄, compiled, after⟩ := ok_of_bind ok
      have bound₂ := (bound.ended (.freshVariableFor param.var) fresh).ended
        (.symbolLiteral param.keyword) symbol
      have flagsObey : Obeys Lasts (param.supplied.mapM fun supplied => do
          return (supplied, ← freshVariableFor supplied)) :=
        .optionMapM _ fun _ => .bind (.freshVariableFor _) fun _ => .pure _
      have bound₄ := (bound₂.ended flagsObey flags).ended (compileSingle_obeys forms _) compiled
      cases supplied : param.supplied with
      | none =>
          rw [supplied] at flags
          cases flags
          obtain ⟨head₅, s₅, same, after⟩ := ok_of_bind after
          cases same
          obtain ⟨head₆, s₆, made, after⟩ := ok_of_bind after
          obtain ⟨⟨head₇, keywords₇⟩, s₇, others, ended⟩ := ok_of_bind after
          cases ended
          obtain ⟨more, same, bound'⟩ := ih ((bound₄.add _).bindParameter made) others
          rw [List.append_assoc] at bound'
          refine ⟨_, ?_, bound'⟩
          simp [same, supplied]
      | some var =>
          rw [supplied] at flags
          obtain ⟨named, s₃', freshFlag, ended⟩ := ok_of_bind flags
          cases ended
          obtain ⟨flag, s₃', freshFlag, ended⟩ := ok_of_bind freshFlag
          cases ended
          obtain ⟨head₅, s₅, flagged, after⟩ := ok_of_bind after
          obtain ⟨head₆, s₆, made, after⟩ := ok_of_bind after
          obtain ⟨⟨head₇, keywords₇⟩, s₇, others, ended⟩ := ok_of_bind after
          cases ended
          obtain ⟨more, same, bound'⟩ :=
            ih (((bound₄.add _).bindParameter flagged).bindParameter made) others
          rw [List.append_assoc, List.append_assoc] at bound'
          refine ⟨_, ?_, bound'⟩
          simp [same, supplied]

theorem HasBound.bindKeySection {first : Nat} (bound : HasBound s₀ specials vars s head)
    (ok : Compiler.bindKeySection compile context specials head list first s = .ok head' t) :
    ∃ more : List (SymbolId × String),
      more.map Prod.fst = list.keys.flatMap (fun param => param.supplied.toList ++ [param.var]) ∧
        HasBound s₀ specials (vars ++ more) t head' := by
  obtain ⟨index, s₁, fresh, ok⟩ := ok_of_bind ok
  have bound₁ := (bound.ended (.onCounters _ fun _ => rfl) fresh).add [.declare index, pairCheck first]
  obtain ⟨⟨head₂, keywords⟩, s₂, keys, ok⟩ := ok_of_bind ok
  obtain ⟨more, same, bound₂⟩ := bound₁.bindKeys forms keys
  refine ⟨more, same, ?_⟩
  cases allowed : list.allowOtherKeys with
  | true =>
      simp only [allowed] at ok
      cases ok
      exact bound₂
  | false =>
      simp only [allowed] at ok
      obtain ⟨allowKey, s₃, symbol, ok⟩ := ok_of_bind ok
      obtain ⟨allow, s₄, freshAllow, ended⟩ := ok_of_bind ok
      cases ended
      exact ((bound₂.ended (.symbolLiteral _) symbol).ended (.onCounters _ fun _ => rfl)
        freshAllow).add _

/-- The head of a function binds the variables of its lambda list; the script parameters of required
and optional parameters are those that the function has. -/
theorem bindParameters_hasBound {hosts : List String} (keyed : list.keys ≠ [] → list.hasKeys = true)
    (ok : Compiler.bindParameters compile context specials list s = .ok (head, hosts) t) :
    ∃ vars : List (SymbolId × String), HasBound s specials vars t head ∧
      (∀ id, id ∈ vars.map Prod.fst ↔ id ∈ list.boundVars) ∧
      ∀ var ∈ (list.required ++ list.optional.map (·.var)).zip hosts, var ∈ vars := by
  obtain ⟨⟨head₁, required⟩, s₁, first, ok⟩ := ok_of_bind ok
  obtain ⟨⟨head₂, optional⟩, s₂, second, ok⟩ := ok_of_bind ok
  obtain ⟨head₃, s₃, third, ok⟩ := ok_of_bind ok
  have bound₀ : HasBound s specials [] s
      { env := context.env, prologue := { current := arityChecks list } } :=
    ⟨Interning.refl s, _, [], Rebinds.start s s specials (arityChecks list)⟩
  obtain ⟨count₁, bound₁⟩ := bound₀.bindRequired first
  obtain ⟨count₂, flags, areFlags, bound₂⟩ := bound₁.bindSupplied second
  have bound₃ := bound₂.bindDefaults forms third
  have keys : ∀ {s₄ head₄ vars}, HasBound s specials vars s₄ head₄ →
      (do
        let head ← if list.hasKeys then
            Compiler.bindKeySection compile context specials head₄ list
              (list.required.length + list.optional.length + 1)
          else pure head₄
        return (head, required ++ optional) : Compile (Head × List String)) s₄ =
          .ok (head, hosts) t →
      ∃ more : List (SymbolId × String),
        more.map Prod.fst = list.keys.flatMap (fun param => param.supplied.toList ++ [param.var]) ∧
          hosts = required ++ optional ∧ HasBound s specials (vars ++ more) t head := by
    intro s₄ head₄ vars bound₄ ok
    cases section_ : list.hasKeys with
    | true =>
        simp only [section_, if_true] at ok
        obtain ⟨head₅, s₅, made, ended⟩ := ok_of_bind ok
        cases ended
        obtain ⟨more, same, bound₅⟩ := bound₄.bindKeySection forms made
        exact ⟨more, same, rfl, bound₅⟩
    | false =>
        simp only [section_] at ok
        cases ok
        have none_ : list.keys = [] := by
          by_contra some_
          rw [keyed some_] at section_
          cases section_
        exact ⟨[], by rw [none_]; rfl, rfl, (List.append_nil vars).symm ▸ bound₄⟩
  have rest : ∃ more : List (SymbolId × String), ∃ s₄ head₄, more.map Prod.fst = list.rest.toList ∧
      HasBound s specials
        ([] ++ list.required.zip required ++ flags ++ optionalVars (list.optional.zip optional) ++ more)
        s₄ head₄ ∧
      (do
        let head ← if list.hasKeys then
            Compiler.bindKeySection compile context specials head₄ list
              (list.required.length + list.optional.length + 1)
          else pure head₄
        return (head, required ++ optional) : Compile (Head × List String)) s₄ =
          .ok (head, hosts) t := by
    cases variable_ : list.rest with
    | none =>
        simp only [variable_] at ok
        exact ⟨[], s₃, head₃, rfl, (List.append_nil _).symm ▸ bound₃, ok⟩
    | some rest =>
        simp only [variable_] at ok
        obtain ⟨head₄, s₄, made, ok⟩ := ok_of_bind ok
        obtain ⟨host, bound₄⟩ := bound₃.bindRest made
        exact ⟨[(rest, host)], s₄, head₄, rfl, bound₄, ok⟩
  obtain ⟨restVars, s₄, head₄, areRest, bound₄, ok⟩ := rest
  obtain ⟨keyVars, areKeys, rfl, bound₅⟩ := keys bound₄ ok
  refine ⟨_, bound₅, fun id => ?_, fun var member => ?_⟩
  · have requiredVars : (list.required.zip required).map Prod.fst = list.required :=
      List.map_fst_zip (Nat.le_of_eq count₁.symm)
    have optionals : ((list.optional.map (·.var)).zip optional).map Prod.fst =
        list.optional.map (·.var) :=
      List.map_fst_zip (by rw [List.length_map, count₂])
    simp only [optionalVars_zip, List.map_append, requiredVars, areFlags, optionals, areRest,
      areKeys, LambdaList.boundVars, List.mem_append, List.mem_flatMap, List.mem_filterMap,
      List.mem_map, List.mem_cons, List.not_mem_nil, Option.mem_toList]
    constructor
    · rintro (((((⟨_, none_, -⟩ | required) | ⟨param, member, supplied⟩) | ⟨param, member, same⟩) | rest) |
        ⟨param, member, flag | var | none_⟩)
      · exact none_.elim
      · exact .inl (.inl (.inl required))
      · exact .inl (.inl (.inr ⟨param, member, .inr supplied⟩))
      · exact .inl (.inl (.inr ⟨param, member, .inl same.symm⟩))
      · exact .inl (.inr rest)
      · exact .inr ⟨param, member, .inr flag⟩
      · exact .inr ⟨param, member, .inl var⟩
      · exact none_.elim
    · rintro (((required | ⟨param, member, same | supplied⟩) | rest) |
        ⟨param, member, var | flag⟩)
      · exact .inl (.inl (.inl (.inl (.inr required))))
      · exact .inl (.inl (.inr ⟨param, member, same.symm⟩))
      · exact .inl (.inl (.inl (.inr ⟨param, member, supplied⟩)))
      · exact .inl (.inr rest)
      · exact .inr ⟨param, member, .inr (.inl var)⟩
      · exact .inr ⟨param, member, .inl flag⟩
  · rw [List.zip_append count₁.symm] at member
    rw [optionalVars_zip]
    rcases List.mem_append.mp member with required | optional <;> simp [*]

end Parameters

end LispScript.Compiler
