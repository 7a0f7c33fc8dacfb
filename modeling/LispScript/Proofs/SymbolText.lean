import LispScript.Proofs.Registry
import LispScript.Proofs.Scanning
import LispScript.Proofs.Spelling

/-!
The text of symbols. A name that is printed bare is one token, and one that is printed between bars is
read as it is; what is printed before it tells the package to look it up in.
-/

namespace LispScript

open Reader

/-- A name that the reader gets back from its text, if no number is looked for there: it is printed
between bars, or its characters are as good as upper case. -/
def IsFaithful (name : String) : Prop :=
  Printer.needsBars name = true ∨ ∀ c ∈ name.toList, Text.upcase c = [c]

section Names

variable {name : String} {rest : List Char} {token : PartialToken}

/-- A character of a name that is printed bare neither ends a token nor begins anything else. -/
theorem ordinary_of_bare {c : Char} (bare : Printer.needsBars name = false) (member : c ∈ name.toList) :
    IsOrdinary c ∧ c ∉ ['(', ')', '\'', '\x60', ',', '"', '#'] ∧ Text.isBlank c = false ∧ c ≠ ';' := by
  simp only [Printer.needsBars, Bool.or_eq_false_iff, List.any_eq_false] at bare
  have plain := bare.2 c member
  simp only [Bool.or_eq_true, Printer.isDelimiter, beq_iff_eq, not_or, Bool.not_eq_true] at plain
  obtain ⟨⟨-, noBlank⟩, special⟩ := plain
  refine ⟨⟨special.1.2, special.1.1.2, special.1.1.1.2, ?_⟩, ?_, noBlank, by simp [special]⟩
  · simp [isTerminating, noBlank, special]
  · simp [special]

/-- A bare name does not consist of points. -/
theorem noPoints_of_bare (bare : Printer.needsBars name = false) :
    name.toList.all (· == '.') = false := by
  simp only [Printer.needsBars, Bool.or_eq_false_iff] at bare
  exact bare.1.1

theorem nonempty_of_bare (bare : Printer.needsBars name = false) : name.toList ≠ [] := by
  intro empty
  have noPoints := noPoints_of_bare bare
  rw [empty] at noPoints
  cases noPoints

/-- The reader takes a bare name as one token without a qualifier, in capitals. -/
theorem scanToken_bare (bare : Printer.needsBars name = false) (ends : Ends rest) :
    scanToken (name.toList ++ rest) =
      (.ok { qualifier := none, name := Text.upcaseText name, escaped := false }, rest) := by
  rw [scanToken, scanTokenFrom_ordinary fun c member => (ordinary_of_bare bare member).1,
    scanTokenFrom_ends ends]
  simp [PartialToken.add, PartialToken.finish, Text.upcaseText]

/-- Between bars all characters stand for themselves, escapes taken back. -/
theorem scanTokenFrom_barred (cs : List Char) (escaped : token.escaped = true) :
    scanTokenFrom true token
        ((cs.flatMap fun c => if c == '|' || c == '\\' then ['\\', c] else [c]) ++ '|' :: rest) =
      scanTokenFrom false (token.add cs) rest := by
  have same : ∀ token : PartialToken, token.escaped = true → token.escape = token := by
    rintro ⟨qualifier, seen, escaped⟩ rfl
    rfl
  induction cs generalizing token with
  | nil =>
      change scanTokenFrom (!true) token.escape rest = _
      rw [same token escaped]
      rfl
  | cons c cs ih =>
      have next := @ih (token.add [c]) escaped
      have all : (token.add [c]).add cs = token.add (c :: cs) := by simp [PartialToken.add]
      rw [all] at next
      rw [List.flatMap_cons, List.append_assoc]
      by_cases special : (c == '|' || c == '\\') = true
      · rw [if_pos special]
        change scanTokenFrom true (token.escape.add [c]) _ = _
        rw [same token escaped]
        exact next
      · simp only [Bool.or_eq_true, beq_iff_eq, not_or] at special
        rw [if_neg (by simp [special])]
        by_cases colon : c = ':'
        · subst colon
          exact (scanTokenFrom_colon true token _).trans next
        · rw [List.singleton_append, scanTokenFrom]
          · exact next
          · exact special.2
          · exact special.1
          · exact colon

/-- The printed form of a name that ends a token. -/
theorem scanTokenFrom_nameText (faithful : IsFaithful name) (ends : Ends rest) :
    scanTokenFrom false token ((Printer.nameText name).toList ++ rest) =
      (.ok { qualifier := token.finish.qualifier
             name := String.ofList (token.seen.reverse ++ name.toList)
             escaped := token.escaped || Printer.needsBars name }, rest) := by
  rw [Printer.nameText]
  cases bars : Printer.needsBars name with
  | true =>
      have text_eq : ("|" ++ Printer.escaped (fun c => c == '|' || c == '\\') name ++ "|").toList ++
          rest = '|' :: ((name.toList.flatMap fun c => if c == '|' || c == '\\' then ['\\', c]
            else [c]) ++ '|' :: rest) := by
        rw [String.toList_append, String.toList_append, Printer.escaped, String.toList_ofList]
        simp
      rw [if_pos rfl, text_eq]
      change scanTokenFrom true token.escape _ = _
      rw [scanTokenFrom_barred name.toList rfl, scanTokenFrom_ends ends]
      simp [PartialToken.finish, PartialToken.add, PartialToken.escape]
  | false =>
      have upper := faithful.resolve_left (by simp [bars])
      rw [if_neg Bool.false_ne_true,
        scanTokenFrom_ordinary fun c member => (ordinary_of_bare bars member).1,
        flatMap_upcase upper, scanTokenFrom_ends ends]
      simp [PartialToken.finish, PartialToken.add]

/-- The printed form of a name begins with a bar, or with an ordinary character. -/
theorem nameText_begins (name : String) : ∃ c cs, (Printer.nameText name).toList = c :: cs ∧
    (c = '|' ∨ Printer.needsBars name = false ∧ c ∈ name.toList) := by
  rw [Printer.nameText]
  cases bars : Printer.needsBars name with
  | true =>
      refine ⟨'|', (Printer.escaped (fun c => c == '|' || c == '\\') name ++ "|").toList, ?_, .inl rfl⟩
      rw [if_pos rfl, String.append_assoc, String.toList_append]
      rfl
  | false =>
      obtain ⟨c, cs, shape⟩ := List.exists_cons_of_ne_nil (nonempty_of_bare bars)
      exact ⟨c, cs, shape, .inr ⟨rfl, shape ▸ List.mem_cons_self⟩⟩

theorem nameText_noColon (name : String) (rest : List Char) :
    ((Printer.nameText name).toList ++ rest).head? ≠ some ':' := by
  obtain ⟨c, cs, shape, bar | ⟨bare, member⟩⟩ := nameText_begins name
  · simp [shape, bar]
  · have noColon := (ordinary_of_bare bare member).1.noColon
    simpa [shape] using noColon

/-- A printed name alone. -/
theorem scanToken_nameText (faithful : IsFaithful name) (ends : Ends rest) :
    scanToken ((Printer.nameText name).toList ++ rest) =
      (.ok { qualifier := none, name, escaped := Printer.needsBars name }, rest) := by
  rw [scanToken, scanTokenFrom_nameText faithful ends]
  simp [PartialToken.finish]

/-- A printed name after a qualifier. -/
theorem scanToken_qualified (before : List Char) (doubled : Bool)
    (plainBefore : ∀ c ∈ before, IsPlain c) (faithful : IsFaithful name) (ends : Ends rest) :
    scanToken (before ++ (if doubled then [':', ':'] else [':']) ++
        (Printer.nameText name).toList ++ rest) =
      (.ok { qualifier := some (String.ofList before, doubled), name,
             escaped := Printer.needsBars name }, rest) := by
  rw [List.append_assoc, List.append_assoc, scanToken, scanTokenFrom_plain plainBefore,
    scanTokenFrom_mark doubled rfl (nameText_noColon name rest), scanTokenFrom_nameText faithful ends]
  simp [PartialToken.add, PartialToken.mark, PartialToken.finish]

/-- A name that starts with a capital letter does not consist of points. -/
theorem IsSymbolName.noPoints (isName : IsSymbolName name) :
    name.toList.all (· == '.') = false := by
  obtain ⟨c, cs, spelled, capital, -⟩ := isName
  simp [spelled, (letter_of_isUpper capital).2.2.2]

end Names

namespace Reader

section Symbols

variable {table : SymbolTable} {s s' : ReadState} {token : Token} {name : String} {escaped : Bool}
  {id : SymbolId} {home package : PackageId} {visibility : Visibility}

theorem onSymbols_intern (found : s.image.symbols.findSymbol? name package = some (id, visibility)) :
    onSymbols (·.intern name package) s = .ok id s := by
  simp only [onSymbols, SymbolTable.intern_of_found found]

theorem atomOfToken_symbol (noNumber : token.isPlain = true →
      token.name.toList.all (· == '.') = false ∧ Number.ofToken? token.name.toList = none)
    (found : symbolOfToken token s = .ok id s') :
    atomOfToken token s = .ok (Value.ofSymbol id) s' := by
  have finish : (do return Value.ofSymbol (← symbolOfToken token)) s =
      .ok (Value.ofSymbol id) s' := by
    change EStateM.bind _ _ s = _
    rw [EStateM.bind, found]
    rfl
  rw [atomOfToken]
  by_cases plain : token.isPlain = true
  · obtain ⟨noPoints, noNumber⟩ := noNumber plain
    simp only [plain, if_true, noPoints, Bool.and_false, noNumber]
    exact finish
  · simp only [plain]
    exact finish

/-- A name alone is read as the symbol that it finds. -/
theorem read_here (noNumber : escaped = false →
      name.toList.all (· == '.') = false ∧ Number.ofToken? name.toList = none)
    (found : s.image.symbols.findSymbol? name s.image.symbols.current = some (id, visibility)) :
    atomOfToken { qualifier := none, name, escaped } s = .ok (Value.ofSymbol id) s := by
  refine atomOfToken_symbol (fun plain => noNumber (by simpa [Token.isPlain] using plain)) ?_
  rw [symbolOfToken.eq_def]
  change EStateM.bind currentPackage _ s = _
  simp only [EStateM.bind, currentPackage]
  exact onSymbols_intern found

/-- A name after a colon is read as the keyword. -/
theorem read_keyword
    (found : s.image.symbols.findSymbol? name PackageId.keyword = some (id, visibility)) :
    atomOfToken { qualifier := some ("", false), name, escaped } s = .ok (Value.ofSymbol id) s :=
  atomOfToken_symbol (fun plain => by simp [Token.isPlain] at plain) (onSymbols_intern found)

/-- A name after that of its package is read as the symbol there, with one colon if it is external. -/
theorem read_qualified {packageName : String} (doubled : Bool) (isName : IsPackageName packageName)
    (named : s.image.symbols.findPackage? packageName = some package)
    (found : s.image.symbols.findSymbol? name package = some (id, visibility))
    (external : doubled = false → visibility = .exported) :
    atomOfToken { qualifier := some (packageName, doubled), name, escaped } s =
      .ok (Value.ofSymbol id) s := by
  refine atomOfToken_symbol (fun plain => by simp [Token.isPlain] at plain) ?_
  have nonempty : packageName ≠ "" := by
    rintro rfl
    obtain ⟨c, cs, spelled, -⟩ := isName
    simp at spelled
  simp only [symbolOfToken]
  change EStateM.bind EStateM.get _ s = _
  simp only [EStateM.bind, EStateM.get, SymbolTable.requirePackage, named]
  by_cases interns : (doubled || package = PackageId.keyword) = true
  · rw [if_pos (by simpa using interns)]
    exact onSymbols_intern found
  · have single : doubled = false := by
      cases doubled
      · rfl
      · simp at interns
    rw [if_neg (by simpa using interns), found, external single]
    rfl

/-- The text of a symbol is one token, which stands for that symbol, where the symbol's package needs
not be named or has a plain name. -/
theorem symbolText_token (wellFormed : table.WellFormed) (has : table.HasSymbol id)
    (homed : (table.symbol id).home = some home)
    (reached : home = PackageId.keyword ∨
      (table.findSymbol? (table.symbolName id) table.current).map (·.1) = some id ∨
      IsPackageName (table.packageName home))
    (faithful : IsFaithful (table.symbolName id))
    (noNumber : Printer.qualifier table id = "" → Printer.needsBars (table.symbolName id) = false →
      Number.ofToken? (table.symbolName id).toList = none) :
    ∃ token, (∀ rest, Ends rest →
        scanToken ((Printer.symbolText table true id).toList ++ rest) = (.ok token, rest)) ∧
      ∀ s : ReadState, s.image.symbols = table →
        atomOfToken token s = .ok (Value.ofSymbol id) s := by
  obtain ⟨hasHome, own⟩ := wellFormed.homes id home has homed
  obtain ⟨visibility, atHome⟩ : ∃ visibility,
      table.findSymbol? (table.symbolName id) home = some (id, visibility) :=
    ⟨_, SymbolTable.findSymbol?_of_own own⟩
  rw [Printer.symbolText, if_pos rfl]
  rw [Printer.qualifier] at noNumber ⊢
  simp only [homed] at noNumber ⊢
  by_cases keyword : home = PackageId.keyword
  · subst keyword
    rw [if_pos rfl]
    refine ⟨⟨some ("", false), table.symbolName id, Printer.needsBars (table.symbolName id)⟩,
      fun rest ends => ?_, fun s same => ?_⟩
    · have scanned := scanToken_qualified [] false (by simp) faithful ends
      rwa [if_neg Bool.false_ne_true, List.nil_append, ← show ":".toList = [':'] from rfl,
        ← String.toList_append] at scanned
    · exact read_keyword (by rw [same]; exact atHome)
  rw [if_neg keyword] at noNumber ⊢
  split
  · rename_i accessible
    obtain ⟨⟨other, seen⟩, found, same⟩ := Option.map_eq_some_iff.mp accessible
    have found : table.findSymbol? (table.symbolName id) table.current = some (id, seen) :=
      found.trans (by rw [← same])
    rw [String.empty_append]
    refine ⟨_, fun rest ends => scanToken_nameText faithful ends, fun s same => ?_⟩
    exact read_here (fun bare => ⟨noPoints_of_bare bare, noNumber (if_pos accessible) bare⟩)
      (by rw [same]; exact found)
  · rename_i hidden
    have isPackageName := (reached.resolve_left keyword).resolve_left hidden
    have named : table.findPackage? (table.packageName home) = some home :=
      wellFormed.findPackage? hasHome (by simp [Package.isNamed, SymbolTable.packageName])
    -- Two colons are printed exactly where the symbol is not external.
    obtain ⟨doubled, colons, visible⟩ : ∃ doubled : Bool,
        (if (table.findSymbol? (table.symbol id).name home).map (·.2) = some .exported then ":"
          else "::").toList = (if doubled then [':', ':'] else [':']) ∧
          (doubled = false → visibility = .exported) := by
      have status : (table.findSymbol? (table.symbol id).name home).map (·.2) = some visibility := by
        rw [show (table.symbol id).name = table.symbolName id from rfl, atHome]
        rfl
      rw [status]
      by_cases isExternal : visibility = .exported
      · exact ⟨false, by simp [isExternal], fun _ => isExternal⟩
      · exact ⟨true, by simp [isExternal], by simp⟩
    have packageChars : ∀ c ∈ (table.packageName home).toList, IsPlain c :=
      fun c member => isPlain_of_isNameChar (isPackageName.isNameChar c member)
    refine ⟨⟨some (table.packageName home, doubled), table.symbolName id,
      Printer.needsBars (table.symbolName id)⟩, fun rest ends => ?_, fun s same => ?_⟩
    · have scanned := scanToken_qualified _ doubled packageChars faithful ends
      rw [String.toList_append, String.toList_append, colons]
      rwa [String.ofList_toList] at scanned
    · exact read_qualified doubled isPackageName (by rw [same]; exact named)
        (by rw [same]; exact atHome) visible

end Symbols

end Reader

/-- A plain symbol's text begins with a colon or with a character of a name. -/
theorem IsSymbolName.symbolText_begins {table : SymbolTable} {id : SymbolId} {home : PackageId}
    (isName : IsSymbolName (table.symbolName id)) (homed : (table.symbol id).home = some home)
    (isPackageName : IsPackageName (table.packageName home)) :
    ∃ c cs, (Printer.symbolText table true id).toList = c :: cs ∧ (LispScript.isNameChar c = true ∨ c = ':') := by
  rw [Printer.symbolText, if_pos rfl, isName.nameText_eq, Printer.qualifier]
  simp only [homed]
  obtain ⟨c, cs, spelled, capital, -⟩ := isName
  obtain ⟨d, ds, packageSpelled, packageCapital, -⟩ := isPackageName
  split
  · exact ⟨':', (table.symbolName id).toList, String.toList_append, .inr rfl⟩
  split
  · rw [String.empty_append]
    exact ⟨c, cs, spelled, .inl (isNameChar_of_isUpper capital)⟩
  · rw [String.toList_append, String.toList_append, packageSpelled]
    exact ⟨d, _, rfl, .inl (isNameChar_of_isUpper packageCapital)⟩

end LispScript
