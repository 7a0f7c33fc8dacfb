import LispScript.Proofs.ReadBack

/-!
Printed symbols read back. In the user's package, the text of a symbol of a standard package is read as
that symbol, unless its name is printed bare where the reader sees a number, or letters that are not
their own capitals.
-/

namespace LispScript

namespace SymbolTable

variable {table later : SymbolTable} {id : SymbolId} {p : PackageId} {name : String}

/-- The user's package has `NIL` from `COMMON-LISP`, before any other package that it uses, or has taken
it over. -/
structure SeesNil (table : SymbolTable) : Prop where
  own : (table.package PackageId.commonLispUser).own? "NIL" = none ∨
    (table.package PackageId.commonLispUser).own? "NIL" = some SymbolId.nil
  uses : (table.package PackageId.commonLispUser).uses.head? = some PackageId.commonLisp
  exported : (table.package PackageId.commonLisp).externals.find? "NIL" = some SymbolId.nil

theorem SeesNil.findSymbol? (sees : table.SeesNil) : ∃ visibility,
    table.findSymbol? "NIL" PackageId.commonLispUser = some (SymbolId.nil, visibility) := by
  obtain ⟨own | own, uses, exported⟩ := sees
  · obtain ⟨notInternal, notExternal⟩ := Package.own?_eq_none.mp own
    obtain ⟨more, uses⟩ := List.head?_eq_some_iff.mp uses
    have found : (table.package PackageId.commonLisp).findExternal? "NIL" = some SymbolId.nil :=
      exported
    exact ⟨.inherited, by simp [SymbolTable.findSymbol?, notInternal, notExternal, uses, found]⟩
  · exact ⟨_, findSymbol?_of_own own⟩

/-- Nothing else comes to be known as `NIL` there. -/
theorem Enters.seesNil (enters : table.Enters later p name id) (sees : table.SeesNil)
    (same : p = PackageId.commonLispUser → name = "NIL" → id = SymbolId.nil) : later.SeesNil where
  own := by
    rw [enters.own]
    split
    · rename_i both
      exact .inr (congrArg some (same both.1.symm both.2.symm))
    · exact sees.own
  uses := by rw [enters.uses]; exact sees.uses
  exported := enters.externals _ _ _ sees.exported

theorem SeesNil.alike (sees : table.SeesNil) (alike : table.Alike later)
    (uses : (later.package PackageId.commonLispUser).uses.head? = some PackageId.commonLisp) :
    later.SeesNil where
  own := by rw [alike.own?]; exact sees.own
  uses := uses
  exported := by rw [alike.externals]; exact sees.exported

theorem SeesNil.samePackages (sees : table.SeesNil)
    (same : ∀ q, table.HasPackage q → later.package q = table.package q)
    (standard : 3 ≤ table.packages.size) : later.SeesNil := by
  have user := same PackageId.commonLispUser (show 2 < _ by omega)
  have lisp := same PackageId.commonLisp (show 1 < _ by omega)
  exact ⟨by rw [user]; exact sees.own, by rw [user]; exact sees.uses,
    by rw [lisp]; exact sees.exported⟩

theorem SeesNil.intern (sees : table.SeesNil) (wellFormed : table.WellFormed)
    (has : table.HasPackage p) (name : String) : (table.intern name p).2.SeesNil := by
  cases found : table.findSymbol? name p with
  | some entry =>
      obtain ⟨held, visibility⟩ := entry
      rw [intern_of_found found]
      exact sees
  | none =>
      have enters := wellFormed.enters_new has (p = PackageId.keyword)
        (newSymbol name p ⟨table.symbols.size⟩) rfl (own?_of_findSymbol?_eq_none found)
      rw [intern_of_absent found]
      refine enters.seesNil sees fun user isNil => ?_
      obtain ⟨visibility, visible⟩ := sees.findSymbol?
      have isNil : name = "NIL" := isNil
      rw [user, isNil, visible] at found
      cases found

theorem SeesNil.promote (sees : table.SeesNil) (wellFormed : table.WellFormed)
    (exportable : table.Exportable id p)
    (same : p = PackageId.commonLispUser → table.symbolName id = "NIL" → id = SymbolId.nil) :
    (table.promote id p).SeesNil :=
  (wellFormed.enters_promoted exportable.symbol exportable.package exportable.kept).seesNil sees same

theorem SeesNil.after {op : Operation} (sees : table.SeesNil) (wellFormed : table.WellFormed)
    (applies : op.Applies table) : (op.after table).SeesNil := by
  have standard := wellFormed.standard
  cases op with
  | intern name p => exact sees.intern wellFormed applies name
  | internWithStatus name p => exact sees.intern wellFormed applies name
  | internKeyword name => exact sees.intern wellFormed wellFormed.has_keyword name
  | internStandard name =>
      obtain ⟨middle, -, exportable⟩ := wellFormed.intern wellFormed.has_commonLisp name
      exact (sees.intern wellFormed wellFormed.has_commonLisp name).promote middle exportable nofun
  | makeSymbol _ | gensym _ | setCurrent _ | setValue _ _ | setFunction _ _ | setPlist _ _ =>
      exact sees.samePackages (fun _ _ => rfl) standard
  | makePackage name nicknames uses =>
      rcases Operation.after_makePackage name nicknames uses table with ⟨-, after_eq⟩ | after_eq
      · rw [after_eq]
        refine sees.samePackages (fun q has => ?_) standard
        exact (package_push _ q).trans (if_neg (Nat.ne_of_lt has))
      · rw [after_eq]
        exact sees
  | usePackage p used =>
      refine sees.alike (alike_usePackage applies.1 used) ?_
      change ((table.updatePackage p _).package _).uses.head? = _
      rw [package_update _ applies.1]
      split
      · rename_i same
        subst same
        split
        · exact sees.uses
        · obtain ⟨more, uses⟩ := List.head?_eq_some_iff.mp sees.uses
          rw [uses]
          rfl
      · exact sees.uses
  | exportSymbol id p =>
      rcases Operation.after_exportSymbol id p table with
        ⟨⟨visibility, found⟩, after_eq⟩ | after_eq
      · rw [after_eq]
        refine sees.promote wellFormed (wellFormed.exportable_of_found applies.2 found).1
          fun user isNil => ?_
        obtain ⟨visibility', visible⟩ := sees.findSymbol?
        rw [user, isNil, visible] at found
        cases found
        rfl
      · rw [after_eq]
        exact sees

theorem SeesNil.runs {ops : List Operation} (sees : table.SeesNil) (wellFormed : table.WellFormed)
    (runs : Runs table ops later) : later.SeesNil := by
  induction runs with
  | nil => exact sees
  | cons applies rest ih => exact ih (sees.after wellFormed applies) (wellFormed.after applies).1

theorem initial_seesNil : initial.SeesNil :=
  ⟨.inl (by decide +kernel), by decide +kernel, by decide +kernel⟩

/-- The package of the standard symbols keeps its names, which are plain. -/
theorem plainName_commonLisp {ops : List Operation} (runs : Runs initial ops table) :
    IsPackageName (table.packageName PackageId.commonLisp) := by
  obtain ⟨-, kept⟩ := initial_wellFormed.runs runs
  obtain ⟨-, sameNames⟩ := kept.packages PackageId.commonLisp (by decide +kernel)
  have named : (table.package PackageId.commonLisp).isNamed
      (table.packageName PackageId.commonLisp) = true := by
    simp [Package.isNamed, SymbolTable.packageName]
  rw [sameNames] at named
  have full : (initial.package PackageId.commonLisp).name = "COMMON-LISP" := by decide +kernel
  have short : (initial.package PackageId.commonLisp).nicknames = ["CL"] := by decide +kernel
  rw [Package.isNamed, full, short] at named
  simp only [Bool.or_eq_true, beq_iff_eq, List.contains_cons, List.contains_nil, Bool.or_false]
    at named
  rcases named with same | same
  · exact same ▸ ⟨'C', "OMMON-LISP".toList, by decide +kernel, rfl, by simp [Char.isUpper]⟩
  · exact same ▸ ⟨'C', ['L'], by decide +kernel, rfl, by simp [Char.isUpper]⟩

end SymbolTable

namespace Reader

section Symbols

variable {features : List String} {image : Image} {id : SymbolId} {home : PackageId}
  {ops : List SymbolTable.Operation}

/-- A symbol whose name the reader takes for what it is: it is spelled as it should be, and where
nothing stands before a bare name, that is no number. -/
def IsRecognized (table : SymbolTable) (id : SymbolId) : Prop :=
  IsFaithful (table.symbolName id) ∧
    (Printer.qualifier table id = "" → Printer.needsBars (table.symbolName id) = false →
      Number.ofToken? (table.symbolName id).toList = none)

/-- The text of a symbol begins like a token. -/
theorem symbolText_begins (table : SymbolTable) (homed : (table.symbol id).home = some home)
    (reached : home = PackageId.keyword ∨
      (table.findSymbol? (table.symbolName id) table.current).map (·.1) = some id ∨
      IsPackageName (table.packageName home)) :
    ∃ c cs, (Printer.symbolText table true id).toList = c :: cs ∧
      c ∉ ['(', ')', '\'', '\x60', ',', '"', '#'] ∧ Text.isBlank c = false ∧ c ≠ ';' := by
  rw [Printer.symbolText, if_pos rfl, Printer.qualifier]
  simp only [homed]
  split
  · exact ⟨':', (Printer.nameText (table.symbolName id)).toList, String.toList_append, by decide,
      by decide, by decide⟩
  rename_i notKeyword
  split
  · rw [String.empty_append]
    obtain ⟨c, cs, shape, bar | ⟨bare, member⟩⟩ := nameText_begins (table.symbolName id)
    · exact ⟨c, cs, shape, by simp [bar], by simp [bar, Text.isBlank], by simp [bar]⟩
    · exact ⟨c, cs, shape, (ordinary_of_bare bare member).2⟩
  · rename_i hidden
    obtain ⟨d, ds, spelled, capital, -⟩ := (reached.resolve_left notKeyword).resolve_left hidden
    obtain ⟨⟨-, upper⟩, special⟩ := code_of_isNameChar (isNameChar_of_isUpper capital)
    have goesOn := (isPlain_of_isNameChar (isNameChar_of_isUpper capital)).goesOn
    simp only [isTerminating, Bool.or_eq_false_iff, beq_eq_false_iff_ne] at goesOn
    simp only [List.mem_cons, List.not_mem_nil, or_false, not_or] at special
    refine ⟨d, _, by rw [String.toList_append, String.toList_append, spelled]; rfl, ?_, ?_, ?_⟩
    · simp [goesOn, special]
    · exact goesOn.1.1.1.1.1.1.1
    · simp [goesOn]

/-- `NIL` is printed as a symbol of that name is, where it is seen. -/
theorem print_symbol (isNil : image.symbols.symbolName SymbolId.nil = "NIL")
    (homed : ∃ home, (image.symbols.symbol SymbolId.nil).home = some home ∧ home ≠ PackageId.keyword)
    (visible : (image.symbols.findSymbol? "NIL" image.symbols.current).map (·.1) =
      some SymbolId.nil) (id : SymbolId) :
    image.print (Value.ofSymbol id) = Printer.symbolText image.symbols true id := by
  by_cases nil : id = SymbolId.nil
  · subst nil
    obtain ⟨home, homed, notKeyword⟩ := homed
    have isName : IsSymbolName "NIL" := ⟨'N', ['I', 'L'], rfl, rfl, by simp [LispScript.isNameChar]⟩
    have visible : (image.symbols.findSymbol? (image.symbols.symbol SymbolId.nil).name
        image.symbols.current).map (·.1) = some SymbolId.nil := by
      rw [show (image.symbols.symbol SymbolId.nil).name = "NIL" from isNil]
      exact visible
    rw [Printer.symbolText, if_pos rfl, isNil, isName.nameText_eq, Printer.qualifier]
    simp only [homed, if_neg notKeyword, if_pos visible]
    rfl
  · rw [Value.ofSymbol, if_neg nil]
    rfl

/-- Printed symbols read back. With the user's package current, the text of a symbol that is at home in
a standard package, or is seen from the current one, is read to its end as that symbol, and nothing is
interned, provided that the name is recognized. As for names that are printed bare, the reader never
rejects or splits one: it is taken as one token, without a qualifier and in capitals. -/
theorem symbols_read_back {ops : List SymbolTable.Operation} {image : Image}
    (reachable : SymbolTable.Runs .initial ops image.symbols)
    (current : image.symbols.current = PackageId.commonLispUser) :
    (∀ (id : SymbolId) (home : PackageId), image.symbols.HasSymbol id →
      (image.symbols.symbol id).home = some home →
      home ∈ [PackageId.keyword, PackageId.commonLisp, PackageId.commonLispUser] ∨
        (image.symbols.findSymbol? (image.symbols.symbolName id) image.symbols.current).map (·.1) =
          some id →
      IsRecognized image.symbols id → ∀ features,
      read features ⟨(image.print (Value.ofSymbol id)).toList, image⟩ =
        .ok (some (Value.ofSymbol id)) ⟨[], image⟩) ∧
    ∀ name, Printer.needsBars name = false →
      name.toList.all (· == '.') = false ∧ ∀ rest, Ends rest →
        scanToken (name.toList ++ rest) =
          (.ok { qualifier := none, name := Text.upcaseText name, escaped := false }, rest) := by
  refine ⟨fun id home has homed interned recognized features => ?_,
    fun name bare => ⟨noPoints_of_bare bare, fun rest => scanToken_bare bare⟩⟩
  obtain ⟨wellFormed, kept⟩ := SymbolTable.initial_wellFormed.runs reachable
  obtain ⟨-, nilName, nilHome⟩ := kept.symbols SymbolId.nil (by decide)
  obtain ⟨visibility, visible⟩ :=
    (SymbolTable.initial_seesNil.runs SymbolTable.initial_wellFormed reachable).findSymbol?
  have text_eq : image.print (Value.ofSymbol id) = Printer.symbolText image.symbols true id :=
    print_symbol nilName ⟨PackageId.commonLisp, nilHome, by decide⟩ (by rw [current, visible]; rfl) id
  have reached : home = PackageId.keyword ∨
      (image.symbols.findSymbol? (image.symbols.symbolName id) image.symbols.current).map (·.1) =
        some id ∨ IsPackageName (image.symbols.packageName home) := by
    rcases interned with standard | seen
    · simp only [List.mem_cons, List.not_mem_nil, or_false] at standard
      rcases standard with keyword | rfl | rfl
      · exact .inl keyword
      · exact .inr (.inr (SymbolTable.plainName_commonLisp reachable))
      · have own := (wellFormed.homes id _ has homed).2
        exact .inr (.inl (by rw [current, SymbolTable.findSymbol?_of_own own]; rfl))
    · exact .inr (.inl seen)
  obtain ⟨token, scanned, atom⟩ :=
    symbolText_token wellFormed has homed reached recognized.1 recognized.2
  obtain ⟨c, cs, shape, ordinary, noBlank, noComment⟩ :=
    symbolText_begins image.symbols homed reached
  rw [text_eq]
  have start : skipBlanks (Printer.symbolText image.symbols true id).toList =
      (Printer.symbolText image.symbols true id).toList := by
    rw [shape, skipBlanks, skipBlanksFrom, noBlank, if_neg Bool.false_ne_true,
      if_neg Bool.false_ne_true, if_neg noComment]
  have whole := scanned [] (by simp [Ends])
  rw [List.append_nil] at whole
  have read := atom ⟨[], image⟩ rfl
  exact read_item shape start (readItem_token ordinary (by rw [shape]; rfl) whole read)

/-- A name with a small letter and a blank. -/
theorem symbols_read_back_of_words :
    let image : Image :=
      { symbols := (SymbolTable.Operation.intern "a b" PackageId.commonLispUser).after .initial
        heap := {}
        depthLimit := 0 }
    SymbolTable.Runs .initial [.intern "a b" PackageId.commonLispUser] image.symbols ∧
      image.symbols.current = PackageId.commonLispUser ∧ IsRecognized image.symbols ⟨2⟩ ∧
      read [] ⟨(image.print (.symbol ⟨2⟩)).toList, image⟩ = .ok (some (.symbol ⟨2⟩)) ⟨[], image⟩ := by
  intro image
  have reachable : SymbolTable.Runs .initial [.intern "a b" PackageId.commonLispUser]
      image.symbols := .cons (by decide +kernel) .nil
  have current : image.symbols.current = PackageId.commonLispUser := by decide +kernel
  have bars : Printer.needsBars (image.symbols.symbolName ⟨2⟩) = true := by decide +kernel
  have recognized : IsRecognized image.symbols ⟨2⟩ :=
    ⟨.inl bars, fun _ bare => absurd bars (by simp [bare])⟩
  exact ⟨reachable, current, recognized, (symbols_read_back reachable current).1 ⟨2⟩
    PackageId.commonLispUser (by decide +kernel) (by decide +kernel) (.inl (by decide)) recognized []⟩

/-- A name that is printed bare although the reader takes it for a number, and one with a letter that
is neither small nor its own capital. -/
theorem misprinted_names :
    let image (name : String) : Image :=
      { symbols := (SymbolTable.Operation.intern name PackageId.commonLispUser).after .initial
        heap := {}
        depthLimit := 0 }
    ((image "1D5").print (.symbol ⟨2⟩) = "1D5" ∧
      ∃ x, read [] ⟨"1D5".toList, image "1D5"⟩ = .ok (some (.number x)) ⟨[], image "1D5"⟩) ∧
    (image "\u01C5").print (.symbol ⟨2⟩) = "\u01C5" ∧
      ∃ s, read [] ⟨"\u01C5".toList, image "\u01C5"⟩ = .ok (some (.symbol ⟨3⟩)) s := by
  intro image
  exact ⟨⟨by decide +kernel, _, rfl⟩, by decide +kernel, _, rfl⟩

end Symbols

end Reader

end LispScript
