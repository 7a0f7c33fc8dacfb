import LispScript.Proofs.Additions

/-!
Generated names. The names made between two states of the counters are told apart from all names made
before or after, from the names of literals, and from those that scripts use otherwise.
-/

namespace LispScript.Compiler

/-- The names of variables and tokens that are made while the counters go on. -/
inductive Made (c c' : Counters) : String → Prop where
  | variable_ (hint : String) (n : Nat) (later : c.vars < n) (done : n ≤ c'.vars) :
      Made c c' (identifierStem hint ++ "_" ++ toString n)
  | block (n : Nat) (later : c.blocks < n) (done : n ≤ c'.blocks) : Made c c' ("b" ++ toString n)
  | tagbody (n : Nat) (later : c.tagbodies < n) (done : n ≤ c'.tagbodies) :
      Made c c' ("tb" ++ toString n)

/-- The name of a literal. -/
def literalName (n : Nat) : String := "l" ++ toString n

namespace Counters

/-- Counters that went on. -/
structure Leads (c c' : Counters) : Prop where
  vars : c.vars ≤ c'.vars
  literals : c.literals ≤ c'.literals
  blocks : c.blocks ≤ c'.blocks
  tagbodies : c.tagbodies ≤ c'.tagbodies

theorem Leads.refl (c : Counters) : c.Leads c :=
  ⟨Nat.le_refl _, Nat.le_refl _, Nat.le_refl _, Nat.le_refl _⟩

variable {c c' c'' : Counters}

theorem Leads.trans (first : c.Leads c') (second : c'.Leads c'') : c.Leads c'' :=
  ⟨Nat.le_trans first.vars second.vars, Nat.le_trans first.literals second.literals,
    Nat.le_trans first.blocks second.blocks, Nat.le_trans first.tagbodies second.tagbodies⟩

end Counters

section Digits

theorem underscore_notMem_digits (n : Nat) : '_' ∉ (toString n).toList := by
  rw [Nat.toString_eq_repr, Nat.toList_repr]
  exact Nat.underscore_not_in_toDigits

theorem toString_inj {n m : Nat} (same : toString n = toString m) : n = m :=
  Nat.repr_injective same

/-- What follows the last underscore is told by the whole. -/
theorem suffix_eq {stem stem' digits digits' : List Char} (absent : '_' ∉ digits)
    (absent' : '_' ∉ digits') (same : stem ++ '_' :: digits = stem' ++ '_' :: digits') :
    digits = digits' := by
  rcases List.append_eq_append_iff.mp same with ⟨more, stem_eq, rest_eq⟩ | ⟨more, stem_eq, rest_eq⟩
  · cases more with
    | nil => simpa using rest_eq
    | cons c more =>
        obtain ⟨-, digits_eq⟩ := List.cons.inj rest_eq
        exact absurd (digits_eq ▸ List.mem_append_right more List.mem_cons_self) absent
  · cases more with
    | nil => simpa using rest_eq.symm
    | cons c more =>
        obtain ⟨-, digits_eq⟩ := List.cons.inj rest_eq
        exact absurd (digits_eq ▸ List.mem_append_right more List.mem_cons_self) absent'

theorem variable_inj {hint hint' : String} {n m : Nat}
    (same : identifierStem hint ++ "_" ++ toString n = identifierStem hint' ++ "_" ++ toString m) :
    n = m := by
  have lists := congrArg String.toList same
  simp only [String.toList_append, List.append_assoc] at lists
  have digits : (toString n).toList = (toString m).toList :=
    suffix_eq (underscore_notMem_digits n) (underscore_notMem_digits m) lists
  exact toString_inj (String.toList_inj.mp digits)

theorem underscore_mem_variable (hint : String) (n : Nat) :
    '_' ∈ (identifierStem hint ++ "_" ++ toString n).toList := by
  rw [String.toList_append, String.toList_append]
  exact List.mem_append_left _ (List.mem_append_right _ List.mem_cons_self)

theorem underscore_notMem_numbered {stem : String} (absent : '_' ∉ stem.toList) (n : Nat) :
    '_' ∉ (stem ++ toString n).toList := by
  rw [String.toList_append]
  intro member
  rcases List.mem_append.mp member with inside | inside
  · exact absent inside
  · exact underscore_notMem_digits n inside

theorem numbered_inj {stem : String} {n m : Nat} (same : stem ++ toString n = stem ++ toString m) :
    n = m := by
  have lists := congrArg String.toList same
  simp only [String.toList_append, List.append_cancel_left_eq] at lists
  exact toString_inj (String.toList_inj.mp lists)

end Digits

section Made

variable {c c' c'' d d' : Counters} {name : String}

theorem Made.mono (made : Made c c' name) (before : d.Leads c) (after : c'.Leads d') :
    Made d d' name := by
  cases made with
  | variable_ hint n later done =>
      exact .variable_ hint n (Nat.lt_of_le_of_lt before.vars later) (Nat.le_trans done after.vars)
  | block n later done =>
      exact .block n (Nat.lt_of_le_of_lt before.blocks later) (Nat.le_trans done after.blocks)
  | tagbody n later done =>
      exact .tagbody n (Nat.lt_of_le_of_lt before.tagbodies later)
        (Nat.le_trans done after.tagbodies)

theorem Made.left (made : Made c c' name) (after : c'.Leads d') : Made c d' name :=
  made.mono (Counters.Leads.refl c) after

theorem Made.right (made : Made c c' name) (before : d.Leads c) : Made d c' name :=
  made.mono before (Counters.Leads.refl c')

theorem block_ne_tagbody (n m : Nat) : "b" ++ toString n ≠ "tb" ++ toString m := by
  intro same
  have lists := congrArg String.toList same
  rw [String.toList_append, String.toList_append] at lists
  have heads : 'b' = 't' := (List.cons.inj lists).1
  exact absurd heads (by decide)

theorem literal_ne_block (n m : Nat) : literalName n ≠ "b" ++ toString m := by
  intro same
  have lists := congrArg String.toList same
  rw [literalName, String.toList_append, String.toList_append] at lists
  have heads : 'l' = 'b' := (List.cons.inj lists).1
  exact absurd heads (by decide)

theorem literal_ne_tagbody (n m : Nat) : literalName n ≠ "tb" ++ toString m := by
  intro same
  have lists := congrArg String.toList same
  rw [literalName, String.toList_append, String.toList_append] at lists
  have heads : 'l' = 't' := (List.cons.inj lists).1
  exact absurd heads (by decide)

/-- A name with an underscore is none without. -/
theorem variable_ne_numbered (hint stem : String) (n m : Nat) (absent : '_' ∉ stem.toList) :
    identifierStem hint ++ "_" ++ toString n ≠ stem ++ toString m := by
  intro same
  exact underscore_notMem_numbered absent m (same ▸ underscore_mem_variable hint n)

/-- No name is made twice. -/
theorem Made.disjoint (made : Made c c' name) (again : Made c' c'' name) : False := by
  cases made with
  | variable_ hint n later done =>
      generalize same : identifierStem hint ++ "_" ++ toString n = name' at again
      cases again with
      | variable_ hint' m later' done' =>
          have := variable_inj same
          omega
      | block m => exact variable_ne_numbered hint "b" n m (by decide) same
      | tagbody m => exact variable_ne_numbered hint "tb" n m (by decide) same
  | block n later done =>
      generalize same : "b" ++ toString n = name' at again
      cases again with
      | variable_ hint m => exact variable_ne_numbered hint "b" m n (by decide) same.symm
      | block m later' done' =>
          have := numbered_inj same
          omega
      | tagbody m => exact block_ne_tagbody n m same
  | tagbody n later done =>
      generalize same : "tb" ++ toString n = name' at again
      cases again with
      | variable_ hint m => exact variable_ne_numbered hint "tb" m n (by decide) same.symm
      | block m => exact block_ne_tagbody m n same.symm
      | tagbody m later' done' =>
          have := numbered_inj same
          omega

theorem Made.ne_literal (made : Made c c' name) (n : Nat) : name ≠ literalName n := by
  cases made with
  | variable_ hint m => exact variable_ne_numbered hint "l" m n (by decide)
  | block m => exact Ne.symm (literal_ne_block n m)
  | tagbody m => exact Ne.symm (literal_ne_tagbody n m)

theorem digit_mem (n : Nat) : ∃ c ∈ (toString n).toList, c.isDigit = true := by
  rw [Nat.toString_eq_repr, Nat.toList_repr]
  obtain ⟨c, rest, digits⟩ := List.exists_cons_of_ne_nil (Nat.toDigits_ne_nil (n := n) (b := 10))
  refine ⟨c, by rw [digits]; exact List.mem_cons_self, ?_⟩
  exact Nat.isDigit_of_mem_toDigits (by decide) (by decide) (digits ▸ List.mem_cons_self)

theorem reservedNames_digitless :
    ∀ name ∈ Discipline.reservedNames, ∀ c ∈ name.toList, c.isDigit = false := by
  have checked : (Discipline.reservedNames.all fun name =>
      name.toList.all fun c => !c.isDigit) = true := by decide
  intro name member c inside
  simpa using List.all_eq_true.mp (List.all_eq_true.mp checked name member) c inside

/-- A name with a number at its end is not one of the names that scripts use otherwise. -/
theorem numbered_unreserved (stem : String) (n : Nat) :
    stem ++ toString n ∉ Discipline.reservedNames := by
  intro reserved
  obtain ⟨c, member, digit⟩ := digit_mem n
  have inside : c ∈ (stem ++ toString n).toList := by
    rw [String.toList_append]
    exact List.mem_append_right _ member
  rw [reservedNames_digitless _ reserved c inside] at digit
  contradiction

theorem Made.unreserved (made : Made c c' name) : name ∉ Discipline.reservedNames := by
  cases made with
  | variable_ hint n => exact numbered_unreserved _ n
  | block n => exact numbered_unreserved "b" n
  | tagbody n => exact numbered_unreserved "tb" n

theorem literalName_unreserved (n : Nat) : literalName n ∉ Discipline.reservedNames :=
  numbered_unreserved "l" n

end Made

end LispScript.Compiler
