import LispScript.Proofs.ScriptText

/-!
All names of a session. Whatever names are asked for, and in whatever order, no two of the answers are
the same, and each can stand as a name in a script. A name is a stem with a number behind it: the stem
does not end in a digit, so the name tells both, and the stem tells which counter the number is from.
-/

namespace LispScript.Compiler

section Stems

variable {stem stem' : String} {n m : Nat}

/-- Of a text, that a number can be written behind it and told apart again. -/
def EndsPlain (stem : String) : Prop := ∀ c ∈ stem.toList.getLast?, c.isDigit = false

theorem isDigit_of_mem_number {c : Char} (member : c ∈ (toString n).toList) : c.isDigit = true := by
  rw [Nat.toString_eq_repr, Nat.toList_repr] at member
  exact Nat.isDigit_of_mem_toDigits (by decide) (by decide) member

/-- A stem that is longer by some digits would end in one. -/
theorem eq_nil_of_endsPlain (front : List Char) {more : List Char}
    (plain : ∀ c ∈ (front ++ more).getLast?, c.isDigit = false)
    (digits : ∀ c ∈ more, c.isDigit = true) : more = [] := by
  cases isLast : more.getLast? with
  | none => exact List.getLast?_eq_none_iff.mp isLast
  | some c =>
      have ends := plain c (by simp [List.getLast?_append, isLast])
      rw [digits c (List.mem_of_getLast? isLast)] at ends
      cases ends

/-- A numbered name tells its stem and its number. -/
theorem numbered_eq (plain : EndsPlain stem) (plain' : EndsPlain stem')
    (same : stem ++ toString n = stem' ++ toString m) : stem = stem' ∧ n = m := by
  have lists := congrArg String.toList same
  simp only [String.toList_append] at lists
  have stems : stem = stem' := by
    apply String.toList_inj.mp
    rcases List.append_eq_append_iff.mp lists with ⟨more, longer, rest⟩ | ⟨more, longer, rest⟩
    · have none_ : more = [] := eq_nil_of_endsPlain stem.toList (by rwa [← longer]) fun c member =>
        isDigit_of_mem_number (rest ▸ List.mem_append_left _ member)
      rw [longer, none_, List.append_nil]
    · have none_ : more = [] := eq_nil_of_endsPlain stem'.toList (by rwa [← longer]) fun c member =>
        isDigit_of_mem_number (rest ▸ List.mem_append_left _ member)
      rw [longer, none_, List.append_nil]
  subst stems
  exact ⟨rfl, numbered_inj same⟩

end Stems

section Schemes

/-- What a generated name is for. -/
inductive Scheme where
  | variable_ (hint : String)
  | literal
  | block
  | token
  | label
deriving DecidableEq, Repr

namespace Scheme

/-- A name of a scheme without its number. -/
def stem : Scheme → String
  | variable_ hint => identifierStem hint ++ "_"
  | literal => "l"
  | block => "b"
  | token => "tb"
  | label => "tbloop"

/-- The counter that numbers come from. A run of a tagbody has a token and a label of one number. -/
def counter : Scheme → Counters → Nat
  | variable_ _ => (·.vars)
  | literal => (·.literals)
  | block => (·.blocks)
  | token | label => (·.tagbodies)

def name (scheme : Scheme) (n : Nat) : String := scheme.stem ++ toString n

variable {scheme scheme' : Scheme} {n m : Nat}

theorem getLast?_stem_variable (hint : String) :
    (variable_ hint).stem.toList.getLast? = some '_' := by
  rw [stem, String.toList_append]
  exact List.getLast?_concat

theorem endsPlain (scheme : Scheme) : EndsPlain scheme.stem := by
  cases scheme with
  | variable_ hint =>
      rw [EndsPlain, getLast?_stem_variable]
      rintro _ ⟨⟩
      rfl
  | literal | block | token | label => simp [EndsPlain, stem]

theorem stem_variable_ne (hint : String) (other : scheme.stem.toList.getLast? ≠ some '_') :
    (variable_ hint).stem ≠ scheme.stem := by
  intro same
  exact other (same ▸ getLast?_stem_variable hint)

/-- Stems tell the schemes apart, but for variables, which share a counter. -/
theorem counter_eq_of_stem_eq (same : scheme.stem = scheme'.stem) :
    scheme.counter = scheme'.counter := by
  cases scheme with
  | variable_ hint =>
      cases scheme' with
      | variable_ hint' => rfl
      | literal | block | token | label =>
          exact absurd same (stem_variable_ne hint (by decide))
  | literal | block | token | label =>
      cases scheme' with
      | variable_ hint' => exact absurd same.symm (stem_variable_ne hint' (by decide))
      | literal | block | token | label => first | rfl | exact absurd same (by decide)

theorem name_eq (same : scheme.name n = scheme'.name m) :
    scheme.stem = scheme'.stem ∧ scheme.counter = scheme'.counter ∧ n = m := by
  obtain ⟨stems, numbers⟩ := numbered_eq scheme.endsPlain scheme'.endsPlain same
  exact ⟨stems, counter_eq_of_stem_eq stems, numbers⟩

/-- The names that a scheme makes while the counters go on. -/
def Makes (scheme : Scheme) (c c' : Counters) (name : String) : Prop :=
  ∃ n, scheme.counter c < n ∧ n ≤ scheme.counter c' ∧ name = scheme.name n

theorem counter_le {c c' : Counters} (leads : c.Leads c') : scheme.counter c ≤ scheme.counter c' := by
  cases scheme with
  | variable_ _ => exact leads.vars
  | literal => exact leads.literals
  | block => exact leads.blocks
  | token | label => exact leads.tagbodies

/-- What is made later is another name. -/
theorem Makes.ne {c c' d d' : Counters} {name name' : String} (made : scheme.Makes c c' name)
    (leads : c'.Leads d) (later : scheme'.Makes d d' name') : name ≠ name' := by
  rintro rfl
  obtain ⟨n, -, done, rfl⟩ := made
  obtain ⟨m, after, -, same⟩ := later
  obtain ⟨-, counters, rfl⟩ := name_eq same
  have ordered : scheme.counter c' ≤ scheme.counter d := counter_le leads
  rw [counters] at done ordered
  omega

end Scheme

end Schemes

section Identifiers

/-- A name that starts with a letter or an underscore and goes on with those and digits. -/
structure IsIdentifier (name : String) : Prop where
  nonempty : name ≠ ""
  noDigit : ∀ c ∈ name.toList.head?, c.isDigit = false
  plain : ∀ c ∈ name.toList, c.isAlphanum = true ∨ c = '_'

/-- The words that name nothing of one's own in the language of scripts, with those that were reserved
for later or are so in strict code, and the names that compiled code uses otherwise. -/
def wordsInUse : List String :=
  ["await", "break", "case", "catch", "class", "const", "continue", "debugger", "default", "delete", "do",
    "else", "enum", "export", "extends", "false", "finally", "for", "function", "if", "import", "in",
    "instanceof", "new", "null", "return", "super", "switch", "this", "throw", "true", "try", "typeof",
    "var", "void", "while", "with", "yield", "let", "static", "implements", "interface", "package",
    "private", "protected", "public", "abstract", "boolean", "byte", "char", "double", "final", "float",
    "goto", "int", "long", "native", "short", "synchronized", "throws", "transient", "volatile", "async",
    "eval", "arguments", "undefined", "values", "cf", "internals"]

theorem isAlphanum_toLower {c : Char} (plain : c.isAlphanum = true) : c.toLower.isAlphanum = true := by
  by_cases capital : c.isUpper = true
  · simp [Char.isAlphanum, (Script.toLower_of_isUpper capital).1]
  · rw [Char.isUpper, decide_eq_true_eq] at capital
    rwa [Char.toLower, dif_neg capital]

theorem identifierStem_plain (hint : String) :
    ∀ c ∈ (identifierStem hint).toList, c.isAlphanum = true ∨ c = '_' := by
  have all : ∀ d ∈ hint.toList.map fun c => if c.isAlphanum then c.toLower else '_',
      d.isAlphanum = true ∨ d = '_' := by
    intro d member
    obtain ⟨c, -, rfl⟩ := List.mem_map.mp member
    split
    · exact .inl (isAlphanum_toLower ‹_›)
    · exact .inr rfl
  rw [identifierStem]
  generalize hint.toList.map (fun c => if c.isAlphanum then c.toLower else '_') = stem at all
  cases stem with
  | nil => exact fun c member => .inl (by simp_all)
  | cons c cs =>
      simp only [String.toList_ofList]
      split
      · exact List.forall_mem_cons.mpr ⟨.inl rfl, all⟩
      · exact all

theorem wordsInUse_digitless : ∀ word ∈ wordsInUse, ∀ c ∈ word.toList, c.isDigit = false := by
  have checked : (wordsInUse.all fun word => word.toList.all fun c => !c.isDigit) = true := by decide
  intro word member c inside
  simpa using List.all_eq_true.mp (List.all_eq_true.mp checked word member) c inside

namespace Scheme

theorem stem_plain (scheme : Scheme) :
    ∀ c ∈ scheme.stem.toList, c.isAlphanum = true ∨ c = '_' := by
  cases scheme with
  | variable_ hint =>
      intro c member
      rw [stem, String.toList_append] at member
      rcases List.mem_append.mp member with inside | inside
      · exact identifierStem_plain hint c inside
      · exact .inr (List.mem_singleton.mp inside)
  | literal | block | token | label => simp [stem]

theorem stem_head (scheme : Scheme) :
    ∃ c cs, scheme.stem.toList = c :: cs ∧ c.isDigit = false := by
  cases scheme with
  | variable_ hint =>
      rw [stem, String.toList_append]
      cases spelled : (identifierStem hint).toList with
      | nil => exact ⟨'_', [], rfl, rfl⟩
      | cons c cs =>
          exact ⟨c, _, rfl, (Script.identifierStem_word hint).2 c (by rw [spelled]; rfl)⟩
  | literal | block | token | label => exact ⟨_, _, rfl, rfl⟩

theorem name_isIdentifier (scheme : Scheme) (n : Nat) : IsIdentifier (scheme.name n) := by
  obtain ⟨c, cs, spelled, noDigit⟩ := scheme.stem_head
  have letters : (scheme.name n).toList = c :: (cs ++ (toString n).toList) := by
    rw [name, String.toList_append, spelled, List.cons_append]
  refine ⟨fun empty => ?_, ?_, fun d member => ?_⟩
  · rw [empty] at letters
    cases letters
  · rw [letters]
    rintro _ ⟨⟩
    exact noDigit
  · rw [name, String.toList_append] at member
    rcases List.mem_append.mp member with inside | inside
    · exact scheme.stem_plain d inside
    · exact .inl (by simp [Char.isAlphanum, isDigit_of_mem_number inside])

theorem name_unused (scheme : Scheme) (n : Nat) : scheme.name n ∉ wordsInUse := by
  intro used
  obtain ⟨c, member, digit⟩ := digit_mem n
  have inside : c ∈ (scheme.name n).toList := by
    rw [name, String.toList_append]
    exact List.mem_append_right _ member
  rw [wordsInUse_digitless _ used c inside] at digit
  cases digit

end Scheme

end Identifiers

section Requests

/-- What names can be asked for. -/
inductive NameRequest where
  | variable_ (hint : String)
  | literal
  | block
  | tagbody
deriving DecidableEq, Repr

/-- The names that answer a request, and the counters after it. -/
def NameRequest.answer (counters : Counters) : NameRequest → List String × Counters
  | variable_ hint =>
      let (name, counters) := counters.freshVariable hint
      ([name], counters)
  | literal =>
      let (name, counters) := counters.freshLiteral
      ([name], counters)
  | block =>
      let (name, counters) := counters.freshBlock
      ([name], counters)
  | tagbody =>
      let ((token, label), counters) := counters.freshTagbody
      ([token, label], counters)

/-- All names that answer requests, one after the other. -/
def answerAll : Counters → List NameRequest → List String × Counters
  | counters, [] => ([], counters)
  | counters, request :: rest =>
      let (names, counters) := request.answer counters
      let (more, counters) := answerAll counters rest
      (names ++ more, counters)

/-- Of counters, that none has stopped at the largest machine word. -/
structure Counters.Below (c : Counters) : Prop where
  vars : c.vars < Number.wordLimit
  literals : c.literals < Number.wordLimit
  blocks : c.blocks < Number.wordLimit
  tagbodies : c.tagbodies < Number.wordLimit

variable {c c' : Counters} {request : NameRequest} {requests : List NameRequest} {names : List String}
  {name : String}

theorem next_of_lt {n : Nat} (below : next n < Number.wordLimit) : next n = n + 1 := by
  unfold next at below ⊢
  omega

theorem Counters.Below.earlier (below : c'.Below) (leads : c.Leads c') : c.Below where
  vars := Nat.lt_of_le_of_lt leads.vars below.vars
  literals := Nat.lt_of_le_of_lt leads.literals below.literals
  blocks := Nat.lt_of_le_of_lt leads.blocks below.blocks
  tagbodies := Nat.lt_of_le_of_lt leads.tagbodies below.tagbodies

/-- One answer: its names are new, and there is no name in it twice. -/
structure Answers (c c' : Counters) (names : List String) : Prop where
  leads : c.Leads c'
  made : ∀ name ∈ names, ∃ scheme : Scheme, scheme.Makes c c' name
  nodup : names.Nodup

theorem Answers.single (scheme : Scheme) (leads : c.Leads c')
    (advanced : scheme.counter c' = scheme.counter c + 1) :
    Answers c c' [scheme.name (scheme.counter c')] where
  leads := leads
  made := by
    rintro _ member
    rw [List.mem_singleton.mp member]
    exact ⟨scheme, _, by omega, Nat.le_refl _, rfl⟩
  nodup := List.nodup_singleton _

theorem NameRequest.answers (answered : request.answer c = (names, c')) (below : c'.Below) :
    Answers c c' names := by
  have refl := Counters.Leads.refl c
  cases request with
  | variable_ hint =>
      cases answered
      have advanced : next c.vars = c.vars + 1 := next_of_lt below.vars
      exact .single (.variable_ hint) { refl with vars := by simp [advanced] } advanced
  | literal =>
      cases answered
      have advanced : next c.literals = c.literals + 1 := next_of_lt below.literals
      exact .single .literal { refl with literals := by simp [advanced] } advanced
  | block =>
      cases answered
      have advanced : next c.blocks = c.blocks + 1 := next_of_lt below.blocks
      exact .single .block { refl with blocks := by simp [advanced] } advanced
  | tagbody =>
      cases answered
      have advanced : next c.tagbodies = c.tagbodies + 1 := next_of_lt below.tagbodies
      have leads : c.Leads { c with tagbodies := next c.tagbodies } :=
        { refl with tagbodies := by simp [advanced] }
      have token := Answers.single .token leads advanced
      have label := Answers.single .label leads advanced
      refine ⟨leads, ?_, ?_⟩
      · rintro name (_ | ⟨_, member⟩)
        · exact token.made _ List.mem_cons_self
        · exact label.made _ member
      · rw [List.nodup_cons]
        refine ⟨fun member => ?_, List.nodup_singleton _⟩
        have same : Scheme.name .token (next c.tagbodies) = Scheme.name .label (next c.tagbodies) :=
          List.mem_singleton.mp member
        exact absurd (Scheme.name_eq same).1 (by decide)

/-- The answers to all requests are one answer. -/
theorem answerAll_answers (below : (answerAll c requests).2.Below) :
    Answers c (answerAll c requests).2 (answerAll c requests).1 := by
  induction requests generalizing c with
  | nil => exact ⟨.refl c, fun _ member => absurd member List.not_mem_nil, List.nodup_nil⟩
  | cons request rest ih =>
      have later : Answers (request.answer c).2 _ _ := ih below
      have first : Answers c (request.answer c).2 (request.answer c).1 :=
        NameRequest.answers rfl (below.earlier later.leads)
      refine ⟨first.leads.trans later.leads, fun name member => ?_, ?_⟩
      · rcases List.mem_append.mp member with now | after
        · obtain ⟨scheme, n, above, done, named⟩ := first.made name now
          exact ⟨scheme, n, above, Nat.le_trans done (Scheme.counter_le later.leads), named⟩
        · obtain ⟨scheme, n, above, done, named⟩ := later.made name after
          exact ⟨scheme, n, Nat.lt_of_le_of_lt (Scheme.counter_le first.leads) above, done, named⟩
      · refine List.nodup_append.mpr ⟨first.nodup, later.nodup, fun name now name' after => ?_⟩
        obtain ⟨scheme, made⟩ := first.made name now
        obtain ⟨scheme', made'⟩ := later.made name' after
        exact made.ne (.refl _) made'

/-- Generated names never collide. However many names are asked for while the counters stay below the
largest machine word, no two of the answers are the same; each can be written as a name, and none is a
word that means something else. -/
theorem generated_names_distinct (requests : List NameRequest) (counters : Counters)
    (below : (answerAll counters requests).2.Below) :
    (answerAll counters requests).1.Nodup ∧
      ∀ name ∈ (answerAll counters requests).1, IsIdentifier name ∧ name ∉ wordsInUse := by
  have answers := answerAll_answers below
  refine ⟨answers.nodup, fun name member => ?_⟩
  obtain ⟨scheme, n, -, -, rfl⟩ := answers.made name member
  exact ⟨scheme.name_isIdentifier n, scheme.name_unused n⟩

/-- Hints that look like names of other schemes, or like names that were made already. -/
def trickyRequests : List NameRequest :=
  [.variable_ "L", .literal, .variable_ "", .variable_ "X_1", .variable_ "1+", .block, .tagbody,
    .variable_ "TB", .tagbody, .variable_ "ß_", .variable_ "X", .literal]

theorem generated_names_distinct_tricky :
    (answerAll {} trickyRequests).2.Below ∧
      (answerAll {} trickyRequests).1 =
        ["l_1", "l1", "v_2", "x_1_3", "v1__4", "b1", "tb1", "tbloop1", "tb_5", "tb2", "tbloop2", "___6",
          "x_7", "l2"] ∧
      (answerAll {} trickyRequests).1.Nodup := by
  have below : (answerAll {} trickyRequests).2.Below := by
    constructor <;> decide
  exact ⟨below, by decide +kernel, (generated_names_distinct trickyRequests {} below).1⟩

end Requests

end LispScript.Compiler
