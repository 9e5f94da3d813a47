import NovelAsm.Proofs.Code.References
import NovelAsm.Proofs.CodeUnit.Targets
import NovelAsm.Proofs.Reports.Segments
import NovelAsm.Proofs.Resolve.Declared
import NovelAsm.Proofs.Session.WholeFile

/-!
References from one end to the other. Every code address in a routine is a symbol of the scope
that it was resolved in, so it names a declaration of its source, and the labels of the source
stand for all of these. No reference dangles, whatever is wrong with a source; and if its
segments are told apart, each leads to the first declaration of its name, which is the one that
the resolver saw.
-/

namespace NovelAsm

namespace Naming

variable {σ : Type} {naming : Naming σ} {P : Referring}

/-- A naming whose symbols are of a kind. -/
def Refers (P : Referring) (naming : Naming σ) : Prop :=
  ∀ name span, Ensures (naming.meaning name span) fun meaning =>
    ∀ symbol, meaning = .symbol symbol → P symbol.name symbol.kind symbol.parameterCount

theorem readLiteral_refers (naming : Naming σ) (token : Token) (span : Span) :
    Ensures (naming.readLiteral token span) (Expr.Refers P) := by
  simp only [readLiteral]
  split
  · split <;> exact Ensures.pure trivial
  · split
    · exact Ensures.pure trivial
    · exact Ensures.behind fun _ => Ensures.pure trivial
  · split
    · exact Ensures.pure trivial
    · exact Ensures.behind fun _ => Ensures.pure trivial

theorem Refers.readName (h : naming.Refers P) (name : Bytes) (span : Span) :
    Ensures (naming.readName name span) (Expr.Refers P) := by
  refine (h name span).bind fun meaning hmeaning => ?_
  split
  · exact Ensures.pure trivial
  · exact Ensures.pure trivial
  · exact Ensures.pure (hmeaning _ rfl)
  · exact Ensures.behind fun _ => Ensures.pure trivial

theorem readRegister_refers (naming : Naming σ) (name : Bytes) (span : Span) :
    Ensures (naming.readRegister name span) (Expr.Refers P) := by
  refine Ensures.behind fun register => ?_
  split <;> exact Ensures.pure trivial

theorem headD_refers {exprs : List Expr} (h : Expr.AllRefer P exprs) {other : Expr}
    (hother : other.Refers P) : (exprs.headD other).Refers P := by
  cases exprs with
  | nil => exact hother
  | cons first rest => exact h.1

mutual

theorem Refers.read (h : naming.Refers P) (tree : SyntaxTree) :
    Ensures (naming.read tree) (Expr.Refers P) := by
  match tree with
  | .token leaf => exact Ensures.pure trivial
  | .node kind children =>
      have hall := h.readAll children
      simp only [Naming.read]
      split
      · split
        · exact readLiteral_refers naming _ _
        · exact Ensures.pure trivial
      · split
        · exact readRegister_refers naming _ _
        · exact Ensures.pure trivial
      · split
        · exact h.readName _ _
        · exact Ensures.pure trivial
      · exact hall.bind fun exprs hexprs => Ensures.pure (headD_refers hexprs trivial)
      · refine hall.bind fun exprs hexprs => ?_
        split
        · exact Ensures.pure hexprs.1
        · exact Ensures.pure trivial
      · refine hall.bind fun exprs hexprs => ?_
        split
        · exact Ensures.pure ⟨hexprs.1, hexprs.2.1⟩
        · exact Ensures.pure trivial
      · split
        · exact Ensures.pure trivial
        · exact Ensures.behind fun _ => Ensures.pure trivial
        · exact hall.bind fun exprs hexprs => Ensures.pure hexprs
      · exact Ensures.pure trivial

theorem Refers.readAll (h : naming.Refers P) (trees : List SyntaxTree) :
    Ensures (naming.readAll trees) (Expr.AllRefer P) := by
  match trees with
  | [] => exact Ensures.pure trivial
  | .token _ :: rest => exact h.readAll rest
  | .node kind children :: rest =>
      exact (h.read (.node kind children)).bind fun first hfirst =>
        (h.readAll rest).bind fun others hothers => Ensures.pure ⟨hfirst, hothers⟩

end

theorem Refers.readCase (h : naming.Refers P) (entry : SyntaxTree) :
    Ensures (naming.readCase entry) fun tableCase =>
      tableCase.key.Refers P ∧ tableCase.target.Refers P := by
  refine (h.readAll entry.children).bind fun parts hparts => Ensures.pure ⟨?_, ?_⟩
  · exact headD_refers hparts trivial
  · match parts with
    | [] | [_] => trivial
    | _ :: second :: _ => exact hparts.2.1

theorem ensures_mapM {α β : Type} {step : α → StateM σ β} {Q : β → Prop} {items : List α}
    (h : ∀ item ∈ items, Ensures (step item) Q) :
    Ensures (items.mapM step) fun results => ∀ result ∈ results, Q result := by
  induction items with
  | nil => exact Ensures.pure nofun
  | cons first rest ih =>
      rw [List.mapM_cons]
      exact (h first (List.mem_cons_self ..)).bind fun result hresult =>
        (ih fun item hitem => h item (List.mem_cons_of_mem _ hitem)).bind fun results hresults =>
          Ensures.pure (List.forall_mem_cons.mpr ⟨hresult, hresults⟩)

theorem Refers.readArgument (h : naming.Refers P) (tree : SyntaxTree) :
    Ensures (naming.readArgument tree) (Argument.Refers P) := by
  simp only [Naming.readArgument]
  split
  · split <;> exact Ensures.pure trivial
  · exact (h.readAll tree.children).bind fun exprs hexprs =>
      Ensures.pure (Expr.allRefer_iff.mp hexprs)
  · exact (ensures_mapM fun entry _ => h.readCase entry).bind fun cases hcases =>
      Ensures.pure hcases
  · exact (h.read tree).bind fun expr hexpr => Ensures.pure hexpr

end Naming

namespace Scope

/-- A code address that stands for a symbol of a scope. -/
def Gives (scope : Scope) : Referring := fun name kind count =>
  ∃ symbol, scope.findSymbol? name = some symbol ∧ symbol.kind = kind ∧
    symbol.parameterCount = count

end Scope

namespace Routine

variable (scope : Scope)

theorem naming_refers (aliases : Aliases) : (naming scope aliases).Refers scope.Gives := by
  intro name span
  refine Ensures.pure fun symbol hmeaning => ?_
  cases hvalue : scope.findValue? name with
  | some value => simp [hvalue] at hmeaning
  | none =>
      cases hsymbol : scope.findSymbol? name with
      | none => simp [hvalue, hsymbol] at hmeaning
      | some found =>
          obtain rfl : found = symbol := by simpa [hvalue, hsymbol] using hmeaning
          have hname : found.name = name := by simpa using List.find?_some hsymbol
          exact ⟨found, hname ▸ hsymbol, rfl, rfl⟩

theorem readInstruction_refers (aliases : Aliases) (tree : SyntaxTree) :
    Ensures (readInstruction scope aliases tree) (Statement.Refers scope.Gives) := by
  simp only [readInstruction]
  split
  · exact (Naming.ensures_mapM fun argument _ =>
      (naming_refers scope aliases).readArgument argument).bind fun arguments harguments =>
        Ensures.pure harguments
  · exact Ensures.pure fun _ hmem => by cases hmem

theorem readBody_refers (aliases : Aliases) (trees : List SyntaxTree) :
    Ensures (readBody scope aliases trees) fun statements =>
      ∀ statement ∈ statements, statement.Refers scope.Gives := by
  induction trees with
  | nil => exact Ensures.pure nofun
  | cons tree rest ih =>
      simp only [readBody]
      split
      · exact ih.bind fun statements hstatements =>
          Ensures.pure (List.forall_mem_cons.mpr ⟨trivial, hstatements⟩)
      · exact (readInstruction_refers scope aliases tree).bind fun first hfirst =>
          ih.bind fun statements hstatements =>
            Ensures.pure (List.forall_mem_cons.mpr ⟨hfirst, hstatements⟩)
      · exact ih

theorem readProcedure_refers (kind : RoutineKind) (tree : SyntaxTree) :
    Ensures (readProcedure scope kind tree) (Routine.Refers scope.Gives) :=
  Ensures.behind fun aliases => Ensures.behind fun _ =>
    (readBody_refers scope aliases tree.children).bind fun _ hstatements =>
      Ensures.pure hstatements

theorem extend_refers {P : Referring} {script : Routine} (h : script.Refers P)
    {statement : Statement} (hstatement : statement.Refers P) (span : Span) :
    (script.extend statement span).Refers P :=
  List.forall_mem_append.mpr ⟨h, List.forall_mem_singleton.mpr hstatement⟩

theorem readItems_refers {current : Option Routine} (items : List SyntaxTree)
    (hcurrent : ∀ routine ∈ current, routine.Refers scope.Gives) :
    Ensures (readItems scope current items) fun routines =>
      ∀ routine ∈ routines, routine.Refers scope.Gives := by
  have hdone {routines : List Routine} {current : Option Routine}
      (hcurrent : ∀ routine ∈ current, routine.Refers scope.Gives)
      (h : ∀ routine ∈ routines, routine.Refers scope.Gives) :
      ∀ routine ∈ current.toList ++ routines, routine.Refers scope.Gives :=
    List.forall_mem_append.mpr ⟨fun routine hmem => hcurrent routine (Option.mem_toList.mp hmem), h⟩
  have hclosed : ∀ routine ∈ (none : Option Routine), routine.Refers scope.Gives :=
    fun _ hmem => by cases hmem
  induction items generalizing current with
  | nil => exact Ensures.pure (by simpa using hcurrent)
  | cons tree rest ih =>
      simp only [readItems]
      split
      · refine (ih ?_).bind fun routines hroutines => Ensures.pure (hdone hcurrent hroutines)
        intro routine hroutine
        rw [← Option.mem_some_iff.mp hroutine]
        exact fun _ hmem => by cases hmem
      · split
        · rename_i script
          refine (readInstruction_refers scope [] tree).bind fun statement hstatement => ih ?_
          intro routine hroutine
          rw [← Option.mem_some_iff.mp hroutine]
          exact extend_refers (hcurrent script rfl) hstatement tree.span
        · exact Ensures.behind fun _ => ih hclosed
      · refine (readProcedure_refers scope .function tree).bind fun routine hroutine =>
          (ih hclosed).bind fun routines hroutines => Ensures.pure (hdone hcurrent ?_)
        exact List.forall_mem_cons.mpr ⟨hroutine, hroutines⟩
      · refine (readProcedure_refers scope .subroutine tree).bind fun routine hroutine =>
          (ih hclosed).bind fun routines hroutines => Ensures.pure (hdone hcurrent ?_)
        exact List.forall_mem_cons.mpr ⟨hroutine, hroutines⟩
      · exact (ih hclosed).bind fun routines hroutines => Ensures.pure (hdone hcurrent hroutines)
      · exact ih hcurrent

/-- The code addresses in the routines of a tree are symbols of the scope. -/
theorem resolve_refers (tree : SyntaxTree) :
    ∀ routine ∈ (resolve scope tree).1, routine.Refers scope.Gives :=
  readItems_refers scope tree.children (fun _ hmem => by cases hmem) []

end Routine

namespace LinkedProgram

/-- The unit of a routine whose spans count from a place. -/
def placeRoutine (entry : Location × Routine) : PlacedUnit := entry.2.placedAt entry.1

variable {P : Referring} {entries : List (Location × Routine)}

theorem map_fst_labelsFrom (cursor : Nat) (entries : List (Location × Routine)) :
    (labelsFrom placeRoutine cursor entries).map Prod.fst =
      (entries.flatMap fun entry => entry.2.labels).map Prod.fst := by
  induction entries generalizing cursor with
  | nil => rfl
  | cons first rest ih =>
      have hfirst : (placeRoutine first).unit.labels.map EncodedLabel.name =
          first.2.labels.map Prod.fst := by
        rw [← Routine.lower_labels]
        simp [placeRoutine, Routine.placedAt, CodeUnit.encode]
      rw [labelsFrom, List.map_append, ih, List.flatMap_cons, List.map_append, ← hfirst,
        List.map_map]
      rfl

/-- A label of some routines is known to the linker. -/
theorem isSome_find?_definedSymbols {cursor : Nat} {name : Bytes} {entry : Location × Routine}
    (hentry : entry ∈ entries) (hname : name ∈ entry.2.labels.map Prod.fst) :
    ((definedSymbols placeRoutine cursor .empty entries).find? name).isSome := by
  have hmem : name ∈ (labelsFrom placeRoutine cursor entries).map Prod.fst := by
    rw [map_fst_labelsFrom, List.map_flatMap]
    exact List.mem_flatMap.mpr ⟨entry, hentry, hname⟩
  obtain ⟨label, hlabel, rfl⟩ := List.mem_map.mp hmem
  rw [find?_definedSymbols, Option.isSome_map, List.find?_isSome]
  exact ⟨label, hlabel, by simp⟩

/-- Routines that refer to symbols which they define wait for nothing else. -/
theorem refers_placeRoutine {names : Bytes → Prop} {entry : Location × Routine}
    (hrefers : entry.2.Refers P) (hnames : ∀ name kind count, P name kind count → names name) :
    Piece.Refers names 0 (placeRoutine entry).unit.piece := by
  refine fun relocation hmem => ?_
  obtain ⟨hfront, hbehind, hname⟩ :=
    CodeUnit.refers_encode entry.2.lower_formed relocation hmem
  refine ⟨hfront, hbehind, fun name hreferent => ?_⟩
  obtain ⟨instruction, hinstruction, destination, hdestination, hplace⟩ := hname name hreferent
  obtain ⟨kind, count, hP⟩ :=
    Routine.lower_refers hrefers instruction hinstruction destination hdestination name hplace
  exact hnames name kind count hP

/-- Linking routines that define what they refer to reports no field without an address. -/
theorem link_unlinked (base : UInt32) (hrefers : ∀ entry ∈ entries, entry.2.Refers P)
    (hdefined : ∀ name kind count, P name kind count →
      ∃ entry ∈ entries, name ∈ entry.2.labels.map Prod.fst) :
    (link base [] (entries.map placeRoutine)).diagnostics.AllUnlinked fun _ => True := by
  have hunits : ∀ entry ∈ entries, Diagnostics.AllUnlinked (fun _ => True)
      ((placeRoutine entry).unit.diagnostics.rebase (placeRoutine entry).origin) :=
    fun entry _ => Diagnostics.AllUnlinked.rebase (CodeUnit.within_everywhere _).encode.diagnostics
  by_cases hfits : Fits placeRoutine base entries
  · have hlink := link_of_refers placeRoutine hfits
      (fun start entry _ => Piece.fills_instructions entry.2.lower_formed)
      (fun entry hentry => refers_placeRoutine (hrefers entry hentry) fun name kind count hP => by
        obtain ⟨other, hother, hname⟩ := hdefined name kind count hP
        exact isSome_find?_definedSymbols hother hname)
    rw [hlink.2.2]
    intro diagnostic hmem
    obtain ⟨entry, hentry, hmem⟩ := List.mem_flatMap.mp hmem
    exact hunits entry hentry diagnostic hmem
  · have hrefused : ((Layout.empty base).place (entries.map placeRoutine)).2 = false := by
      refine Bool.eq_false_iff.mpr fun hplaced => hfits ?_
      have hbase : (Layout.empty base).cursor ≤ addressLimit := by
        have hlt := base.toNat_lt
        simp only [Layout.empty, addressLimit]
        omega
      exact (place_eq placeRoutine hbase hplaced).2
    have hsaid := @place_diagnostics _ placeRoutine entries (Layout.empty base)
    rw [link]
    generalize (Layout.empty base).place (entries.map placeRoutine) = run at hrefused hsaid
    obtain ⟨layout, fits⟩ := run
    obtain rfl : fits = false := hrefused
    intro diagnostic hmem
    rcases hsaid hmem with h | ⟨entry, hentry, h⟩ | ⟨name, span, rfl⟩
    · cases h
    · exact hunits entry hentry diagnostic h
    · exact (Diagnostic.early_error (by simp only [LinkProblem.code]; decide) trivial).toUnlinked

end LinkedProgram

namespace Session

open LinkedProgram (placeRoutine)

/-- What a session finds under a key was there before, or it was made. -/
theorem found_of_keep (session : Session) (signature key : Fingerprint)
    (sources : List (ReadSegment × CodeSource)) {code : KeptCode}
    (h : (session.keep signature sources).codes.find? key = some code) :
    session.codes.find? key = some code ∨ ∃ read, (read, CodeSource.made code) ∈ sources := by
  induction sources generalizing session with
  | nil => exact .inl h
  | cons first rest ih =>
      obtain ⟨read, source⟩ := first
      obtain ⟨next, -, -, hcodes, hkeep⟩ := keep_cons session signature read source rest
      rw [hkeep] at h
      rcases ih next h with hfound | ⟨other, hother⟩
      · rw [hcodes] at hfound
        cases source with
        | made made =>
            simp only [Memo.find?_put] at hfound
            split at hfound
            · obtain rfl := Option.some.inj hfound
              exact .inr ⟨read, List.mem_cons_self ..⟩
            · exact .inl hfound
        | earlier _ => exact .inl hfound
        | shared => exact .inl hfound
      · exact .inr ⟨other, List.mem_cons_of_mem _ hother⟩

/-- What is found under a key is not lost, and something is found for what was made. -/
theorem isSome_find?_keep (session : Session) {signature key : Fingerprint}
    {sources : List (ReadSegment × CodeSource)}
    (h : (session.codes.find? key).isSome ∨ ∃ read code,
      (read, CodeSource.made code) ∈ sources ∧ read.codeKey signature = key) :
    ((session.keep signature sources).codes.find? key).isSome := by
  induction sources generalizing session with
  | nil =>
      rcases h with h | ⟨_, _, hmem, -⟩
      · exact h
      · cases hmem
  | cons first rest ih =>
      obtain ⟨read, source⟩ := first
      obtain ⟨next, -, -, hcodes, hkeep⟩ := keep_cons session signature read source rest
      rw [hkeep]
      refine ih next ?_
      rcases h with h | ⟨other, code, hmem, hkey⟩
      · refine .inl ?_
        rw [hcodes]
        cases source with
        | made made =>
            rw [Memo.find?_put]
            split
            · rfl
            · exact h
        | earlier _ => exact h
        | shared => exact h
      · rcases List.mem_cons.mp hmem with heq | hmem
        · cases heq
          refine .inl ?_
          rw [hcodes, Memo.find?_put, if_pos hkey]
          rfl
        · exact .inr ⟨other, code, hmem, hkey⟩

/-- The routines of segments that take their code from some trees, each with its place. -/
def routinesOf (source : Bytes) (trees : List (ReadSegment × KeptTree)) :
    List (Location × Routine) :=
  trees.flatMap fun (read, kept) =>
    (Routine.resolve (scopeOf source) kept.parsed.tree).1.map fun routine => (read.origin, routine)

/-- What segments that take their code from some trees are linked to. -/
def linkTrees (base : UInt32) (source : Bytes) (trees : List (ReadSegment × KeptTree)) :
    LinkedProgram :=
  linkCodes base (declarations source).2 <| trees.map fun (read, kept) =>
    (read, KeptCode.make (scopeOf source) (signatureOf source) kept)

section Fresh

variable (base : UInt32) {source : Bytes}

/-- At first, code is made for a segment or for one with its text. -/
theorem exists_owner {read : ReadSegment} {chosen : CodeSource}
    (h : (read, chosen) ∈ choices (start base) source) :
    ∃ owner code, (owner, CodeSource.made code) ∈ choices (start base) source ∧
      owner.kept = read.kept ∧
        owner.codeKey (signatureOf source) = read.codeKey (signatureOf source) ∧
      (chosen = .shared ∨ owner = read ∧ chosen = .made code) := by
  cases chosen with
  | earlier code =>
      have hkept : (start base).keptCode? (signatureOf source) read = some code :=
        chosen_of_mem_codeSources _ _ _ _ _ _ _ h
      cases hkept
  | made code => exact ⟨read, code, h, rfl, rfl, .inr ⟨rfl, rfl⟩⟩
  | shared =>
      obtain ⟨-, owner, code, hmade, hkey, htext⟩ := shared_of_mem_choices _ _ h
      exact ⟨owner, code, hmade, kept_eq_of_text_eq (mem_reads_of_mem_choices _ _ hmade)
        (mem_reads_of_mem_choices _ _ h) htext, hkey, .inl rfl⟩

/-- At first, a segment is given the code of a tree: of its own tree, if its code is made for it. -/
theorem exists_tree {kept : Session} (hcodes : kept.codes = (start base).codes)
    (choice : ReadSegment × CodeSource) (h : choice ∈ choices (start base) source) :
    ∃ tree : KeptTree, (choice.2.isMade = true → tree = choice.1.kept) ∧
      (kept.keep (signatureOf source) (choices (start base) source)).codeOf?
          (signatureOf source) choice.1 choice.2 =
        some (KeptCode.make (scopeOf source) (signatureOf source) tree) := by
  obtain ⟨read, chosen⟩ := choice
  obtain ⟨owner, code, hmade, -, hkey, rfl | ⟨rfl, rfl⟩⟩ := exists_owner base h
  · obtain ⟨found, hfound⟩ := Option.isSome_iff_exists.mp
      (isSome_find?_keep kept (.inr ⟨owner, code, hmade, hkey⟩))
    rcases found_of_keep kept _ _ _ hfound with hearlier | ⟨other, hother⟩
    · rw [hcodes] at hearlier
      cases hearlier
    · obtain ⟨-, rfl⟩ := made_of_mem_choices _ _ hother
      exact ⟨other.kept, nofun, hfound⟩
  · obtain ⟨-, rfl⟩ := made_of_mem_choices _ _ hmade
    exact ⟨owner.kept, fun _ => rfl, rfl⟩

/-- Whatever fingerprints its texts have, each segment of a source is given the code of a tree of
the source, and the code of each of these is there. -/
theorem ofSource_eq_linkTrees (source : Bytes) :
    ∃ trees : List (ReadSegment × KeptTree),
      LinkedProgram.ofSource base source = linkTrees base source trees ∧
        (∀ entry ∈ trees, entry.1 ∈ reads source) ∧
        ∀ read ∈ reads source, ∃ owner, (owner, read.kept) ∈ trees := by
  obtain ⟨kept, -, -, -, hcodes, hrun⟩ := assemble_run (start base) source (start_treesValid base)
  have : Nonempty KeptTree := ⟨(readAlone ⟨[], .origin⟩).kept⟩
  choose! tree hown hcode using
    @exists_tree base source kept hcodes
  have hlinked : ((choices (start base) source).filterMap fun choice =>
      ((kept.keep (signatureOf source) (choices (start base) source)).codeOf?
        (signatureOf source) choice.1 choice.2).map fun code => (choice.1, code)) =
      (choices (start base) source).map fun choice => (choice.1,
        KeptCode.make (scopeOf source) (signatureOf source) (tree choice)) := by
    rw [← List.filterMap_eq_map]
    refine List.filterMap_congr fun choice hchoice => ?_
    simp only [hcode choice hchoice, Option.map_some, Function.comp_apply]
  refine ⟨(choices (start base) source).map fun choice => (choice.1, tree choice), ?_, ?_, ?_⟩
  · rw [LinkedProgram.ofSource, hrun, hlinked, linkTrees, List.map_map]
    rfl
  · intro entry hentry
    obtain ⟨choice, hchoice, rfl⟩ := List.mem_map.mp hentry
    exact mem_reads_of_mem_choices _ _ hchoice
  · intro read hmem
    rw [← map_fst_choices (start base) source] at hmem
    obtain ⟨⟨_, chosen⟩, hchoice, rfl⟩ := List.mem_map.mp hmem
    obtain ⟨owner, code, hmade, hkept, -⟩ := exists_owner base hchoice
    refine ⟨owner, List.mem_map.mpr ⟨_, hmade, ?_⟩⟩
    rw [hown _ hmade rfl, hkept]

end Fresh

theorem make_early_everywhere (scope : Scope) (signature : Fingerprint) (kept : KeptTree) :
    (KeptCode.make scope signature kept).diagnostics.AllEarly fun _ => True :=
  (KeptCode.make_early scope signature (covered_everywhere _)
    (List.pairwise_of_forall fun _ _ _ => trivial)).2

theorem parsed_early_everywhere {source : Bytes} {read : ReadSegment} (h : read ∈ reads source) :
    read.kept.parsed.diagnostics.AllEarly fun _ => True := by
  rw [(readAlone_of_mem h).2.1]
  exact ParsedSource.read_early (covered_everywhere _) fun _ _ => trivial

theorem mem_sortByPlace {diagnostics : Diagnostics} {diagnostic : Diagnostic} :
    diagnostic ∈ diagnostics.sortByPlace ↔ diagnostic ∈ diagnostics := List.mem_mergeSort

theorem placedUnits_linkTrees (source : Bytes) (trees : List (ReadSegment × KeptTree)) :
    ((trees.map fun (read, kept) =>
      (read, KeptCode.make (scopeOf source) (signatureOf source) kept)).flatMap
        fun (read, code) => placedUnits read code) =
          (routinesOf source trees).map placeRoutine := by
  simp only [routinesOf, List.flatMap_map, List.map_flatMap, placedUnits, KeptCode.make,
    List.map_map]
  rfl

/-- A name that the scope gives is the name of a declaration, and a label of its routines. -/
theorem exists_label_of_gives {source : Bytes} {name : Bytes} {kind : SymbolKind} {count : Nat}
    (h : (scopeOf source).Gives name kind count) :
    ∃ entry ∈ routines source, name ∈ entry.2.labels.map Prod.fst := by
  obtain ⟨symbol, hfound, -, -⟩ := h
  rw [findSymbol?_scopeOf] at hfound
  have hname : symbol.name = name := by simpa using List.find?_some hfound
  have hmem : symbol.outline ∈ (declared source).map Symbol.outline :=
    List.mem_map_of_mem (List.mem_of_find?_eq_some hfound)
  rw [← filter_labels] at hmem
  obtain ⟨entry, hentry, hlabel⟩ := List.mem_flatMap.mp (List.mem_filter.mp hmem).1
  exact ⟨entry, hentry, List.mem_map.mpr ⟨_, hlabel, hname⟩⟩

/-- A source by itself is linked without a field that gets no address. -/
theorem ofSource_unlinked (base : UInt32) (source : Bytes) :
    (LinkedProgram.ofSource base source).diagnostics.AllUnlinked fun _ => True := by
  obtain ⟨trees, hprogram, htrees, hcovered⟩ := ofSource_eq_linkTrees base source
  have hrefers : ∀ entry ∈ routinesOf source trees, entry.2.Refers (scopeOf source).Gives := by
    intro entry hentry
    obtain ⟨⟨read, kept⟩, -, hentry⟩ := List.mem_flatMap.mp hentry
    obtain ⟨routine, hroutine, rfl⟩ := List.mem_map.mp hentry
    exact Routine.resolve_refers (scopeOf source) kept.parsed.tree routine hroutine
  have hdefined : ∀ name kind count, (scopeOf source).Gives name kind count →
      ∃ entry ∈ routinesOf source trees, name ∈ entry.2.labels.map Prod.fst := by
    intro name kind count hgives
    obtain ⟨entry, hentry, hname⟩ := exists_label_of_gives hgives
    obtain ⟨read, hread, hentry⟩ := List.mem_flatMap.mp hentry
    obtain ⟨routine, hroutine, rfl⟩ := List.mem_map.mp hentry
    obtain ⟨owner, howner⟩ := hcovered read hread
    exact ⟨(owner.origin, routine), List.mem_flatMap.mpr ⟨_, howner,
      List.mem_map.mpr ⟨routine, hroutine, rfl⟩⟩, hname⟩
  have hdeclared : (declarations source).2.AllEarly fun _ => True :=
    Declarations.collect_early fun placed _ => covered_everywhere placed.tree.leaves
  rw [hprogram, linkTrees, linkCodes, placedUnits_linkTrees]
  intro diagnostic hmem
  rcases List.mem_append.mp (mem_sortByPlace.mp hmem) with hmem | hmem
  · rcases List.mem_append.mp hmem with hmem | hmem
    · refine (Diagnostics.allEarly_flatMap (fun linked hlinked => ?_) diagnostic hmem).toUnlinked
      obtain ⟨entry, hentry, rfl⟩ := List.mem_map.mp hlinked
      exact (Diagnostics.AllEarly.rebase (parsed_early_everywhere (htrees entry hentry))).append
        (Diagnostics.AllEarly.rebase (make_early_everywhere _ _ _))
    · exact (hdeclared diagnostic hmem).toUnlinked
  · exact LinkedProgram.link_unlinked base hrefers hdefined diagnostic hmem

/-- The declarations of a source, each with the address of its place in the code. -/
def declaredAt (base : UInt32) (source : Bytes) : List (Symbol × UInt32) :=
  (declared source).zip <|
    ((LinkedProgram.labelsFrom placeRoutine base.toNat (routines source)).filter
      (·.1 ≠ [])).map Prod.snd

/-- The labels with a name stand in the code in the order of the declarations. -/
theorem map_fst_labels (base : UInt32) (source : Bytes) :
    ((LinkedProgram.labelsFrom placeRoutine base.toNat (routines source)).filter
      (·.1 ≠ [])).map Prod.fst = (declared source).map Symbol.name := by
  have hlabels := congrArg (List.map Prod.fst) (filter_labels source)
  rw [List.map_map] at hlabels
  rw [show (declared source).map Symbol.name = _ from hlabels.symm]
  have hfilter {α : Type} (items : List (Bytes × α)) :
      (items.filter (·.1 ≠ [])).map Prod.fst = (items.map Prod.fst).filter (· ≠ []) := by
    rw [List.filter_map]
    rfl
  rw [hfilter, hfilter, LinkedProgram.map_fst_labelsFrom]

theorem find?_zip {items : List Symbol} {labels : List (Bytes × UInt32)}
    (h : labels.map Prod.fst = items.map Symbol.name) (name : Bytes) :
    ((items.zip (labels.map Prod.snd)).find? (·.1.name == name)).map Prod.fst =
        items.find? (·.name == name) ∧
      ((items.zip (labels.map Prod.snd)).find? (·.1.name == name)).map Prod.snd =
        (labels.find? (·.1 == name)).map Prod.snd := by
  induction items generalizing labels with
  | nil =>
      obtain rfl := List.map_eq_nil_iff.mp h
      exact ⟨rfl, rfl⟩
  | cons item rest ih =>
      cases labels with
      | nil => cases h
      | cons label labels =>
          obtain ⟨hfirst, hrest⟩ := List.cons.inj h
          by_cases hname : item.name = name
          · simp [hname, hfirst]
          · simpa [hname, hfirst] using ih hrest

/-- A name that the scope gives is found at the address of its first declaration. -/
theorem find?_declaredAt (base : UInt32) {source : Bytes} {name : Bytes} {kind : SymbolKind}
    {count : Nat} (h : (scopeOf source).Gives name kind count) :
    ∃ symbol address, (declaredAt base source).find? (·.1.name == name) = some (symbol, address) ∧
      (scopeOf source).findSymbol? name = some symbol ∧
      symbol.kind = kind ∧ symbol.parameterCount = count ∧
      (LinkedProgram.definedSymbols placeRoutine base.toNat .empty (routines source)).find? name =
        some address := by
  obtain ⟨symbol, hgiven, hkind, hcount⟩ := h
  have hfound := hgiven
  rw [findSymbol?_scopeOf] at hfound
  have hlabels := map_fst_labels base source
  obtain ⟨hsymbol, haddress⟩ := find?_zip hlabels name
  rw [hfound] at hsymbol
  obtain ⟨⟨_, address⟩, hentry, rfl⟩ := Option.map_eq_some_iff.mp hsymbol
  refine ⟨_, address, hentry, hgiven, hkind, hcount, ?_⟩
  have hname : name ≠ [] := by
    have hmem : name ∈ (declared source).map Symbol.name := by
      refine List.mem_map.mpr ⟨_, List.mem_of_find?_eq_some hfound, ?_⟩
      simpa using List.find?_some hfound
    rw [← hlabels] at hmem
    obtain ⟨label, hlabel, rfl⟩ := List.mem_map.mp hmem
    simpa using (List.mem_filter.mp hlabel).2
  rw [LinkedProgram.find?_definedSymbols]
  rw [hentry, Option.map_some, List.find?_filter] at haddress
  rw [haddress]
  congr 2
  funext label
  by_cases hlabel : label.1 = name
  · simp [hlabel, hname]
  · simp [hlabel]

/-- No reference dangles. Whatever is wrong with a source, it is assembled without a field that
gets no address. If its texts are told apart and its code fits, that is the code of its
instructions with an address for each name: a name that is written for a code address is
declared, its first declaration is the one that was resolved, and its address is the place of
that. -/
theorem ofSource_references (base : UInt32) (source : Bytes) :
    let program := LinkedProgram.ofSource base source
    let Settled : Referring := fun name kind count => ∃ symbol address,
      (declaredAt base source).find? (·.1.name == name) = some (symbol, address) ∧
        (scopeOf source).findSymbol? name = some symbol ∧
        symbol.kind = kind ∧ symbol.parameterCount = count ∧
        program.symbols.find? name = some address
    (∀ diagnostic ∈ program.diagnostics, diagnostic.code ≠ ascii "SASM-E4006") ∧
      (ToldApart source ∨ (texts source).Nodup →
        LinkedProgram.Fits placeRoutine base (routines source) →
          (declaredAt base source).map Prod.fst = declared source ∧
          program.code = LinkedProgram.codesFrom placeRoutine
            (fun start entry => Piece.linkedCode (LinkedProgram.addressIn program.symbols start) 0
              entry.2.lower.1.instructions) base.toNat (routines source) ∧
          ∀ entry ∈ routines source, entry.2.Refers Settled ∧
            Routine.PlacesRefer Settled entry.2.lower.1.instructions) := by
  intro program Settled
  refine ⟨fun diagnostic hmem => (ofSource_unlinked base source diagnostic hmem).code,
    fun happart hfits => ?_⟩
  have hlinked : program =
      linkTrees base source ((reads source).map fun read => (read, read.kept)) := by
    rw [linkTrees, List.map_map]
    exact ofSource_eq_program base source happart
  have hroutines : routinesOf source ((reads source).map fun read => (read, read.kept)) =
      routines source := by
    rw [routinesOf, List.flatMap_map]
    rfl
  rw [linkTrees, linkCodes, placedUnits_linkTrees, hroutines] at hlinked
  have hresolved : ∀ entry ∈ routines source, entry.2.Refers (scopeOf source).Gives := by
    intro entry hentry
    obtain ⟨read, -, hentry⟩ := List.mem_flatMap.mp hentry
    obtain ⟨routine, hroutine, rfl⟩ := List.mem_map.mp hentry
    exact Routine.resolve_refers (scopeOf source) read.kept.parsed.tree routine hroutine
  obtain ⟨hcode, hsymbols, -⟩ := LinkedProgram.link_of_refers placeRoutine hfits
    (fun start entry _ => Piece.fills_instructions entry.2.lower_formed)
    (fun entry hentry => LinkedProgram.refers_placeRoutine (hresolved entry hentry)
      fun name kind count hgives => by
        obtain ⟨other, hother, hname⟩ := exists_label_of_gives hgives
        exact LinkedProgram.isSome_find?_definedSymbols hother hname)
  have hsettled : ∀ name kind count, (scopeOf source).Gives name kind count →
      Settled name kind count := by
    intro name kind count hgives
    obtain ⟨symbol, address, hfirst, hgiven, hkind, hcount, haddress⟩ :=
      find?_declaredAt base hgives
    refine ⟨symbol, address, hfirst, hgiven, hkind, hcount, ?_⟩
    rw [hlinked]
    exact hsymbols ▸ haddress
  refine ⟨?_, ?_, fun entry hentry => ?_⟩
  · refine List.map_fst_zip ?_
    have hlength := congrArg List.length (map_fst_labels base source)
    simp only [List.length_map] at hlength ⊢
    exact hlength.ge
  · rw [hlinked]
    exact hcode.trans (by rw [hsymbols])
  · have hrefers := Routine.Refers.mono hsettled (hresolved entry hentry)
    exact ⟨hrefers, Routine.lower_refers hrefers⟩

/-- A label is declared twice with the same lines, and a jump in front of both. -/
def declaredTwice : Bytes := ascii "S:\n    j A\nA:\n    return\nA:\n    return\n"

theorem ofSource_references_declared_twice :
    let program := LinkedProgram.ofSource 0 declaredTwice
    let Settled : Referring := fun name kind count => ∃ symbol address,
      (declaredAt 0 declaredTwice).find? (·.1.name == name) = some (symbol, address) ∧
        (scopeOf declaredTwice).findSymbol? name = some symbol ∧
        symbol.kind = kind ∧ symbol.parameterCount = count ∧
        program.symbols.find? name = some address
    (ToldApart declaredTwice ∨ (texts declaredTwice).Nodup) ∧
      LinkedProgram.Fits placeRoutine 0 (routines declaredTwice) ∧
      (∀ diagnostic ∈ program.diagnostics, diagnostic.code ≠ ascii "SASM-E4006") ∧
      ∀ entry ∈ routines declaredTwice, entry.2.Refers Settled ∧
        Routine.PlacesRefer Settled entry.2.lower.1.instructions := by
  have happart : ToldApart declaredTwice := by decide +kernel
  have hfits : LinkedProgram.Fits placeRoutine 0 (routines declaredTwice) := by
    unfold LinkedProgram.Fits
    decide +kernel
  have hreferences := ofSource_references 0 declaredTwice
  exact ⟨.inl happart, hfits, hreferences.1, (hreferences.2 (.inl happart) hfits).2.2⟩

/-- Two of these labels have names of one fingerprint, and so have their segments. -/
def collidingLabels : Bytes :=
  ascii "S:\n    j pcvvfxarBbdmf\nihwpfrifikrhb:\n    return\nihwpfrifikrhb:\n    return\n" ++
    ascii "pcvvfxarBbdmf:\n    return\n"

/-- Where texts have one fingerprint, a segment that occurs twice is given the code of another
one, and a jump leads to that in front of the declaration of its name. -/
theorem ofSource_jumps_to_collision :
    LinkedProgram.Fits placeRoutine 0 (routines collidingLabels) ∧
      ((declaredAt 0 collidingLabels).find? (·.1.name == ascii "pcvvfxarBbdmf")).map Prod.snd =
        some 7 ∧
      (LinkedProgram.ofSource 0 collidingLabels).code = [0x47, 6, 0, 0, 0, 0x50, 0x50, 0x50] := by
  unfold LinkedProgram.Fits
  decide +kernel

end Session

end NovelAsm
