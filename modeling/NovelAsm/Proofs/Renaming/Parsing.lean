import NovelAsm.Proofs.Erasure.Steps
import NovelAsm.Proofs.Renaming.Tokens
import NovelAsm.Proofs.Renaming.Trees
import NovelAsm.Proofs.SyntaxTree.Grammar
import NovelAsm.Proofs.SyntaxTree.Parsed
import NovelAsm.Proofs.SyntaxTree.Rebased

/-!
Other names and the parser. The text of a tree with other names is parsed into this tree
(`ParsedSource.read_renamed`).

The parser sees a row of tokens, and whether a token gets another name is told by the tree. So the
tokens to be named otherwise are marked in the tree, by their spans. The parser finds the marked
tree again, and from there a change of names is a change of tokens one by one.
-/

namespace NovelAsm

namespace SyntaxTree

mutual

theorem leaves_relabel {change : Token → Token} : ∀ tree : SyntaxTree,
    (tree.relabel change).leaves = tree.leaves.map change
  | .token _ => rfl
  | .node kind children => by
      rw [relabel_node, leaves, leavesOf_relabelAll children, leaves]

theorem leavesOf_relabelAll {change : Token → Token} : ∀ trees : List SyntaxTree,
    leavesOf (relabelAll change trees) = (leavesOf trees).map change
  | [] => rfl
  | tree :: rest => by
      rw [relabelAll_cons, leavesOf, leaves_relabel tree, leavesOf_relabelAll rest, leavesOf,
        List.map_append]

end

mutual

/-- Trees of one shape with the same tokens are one. -/
theorem eq_of_relabel {change : Token → Token} : ∀ {tree twin : SyntaxTree},
    tree.relabel change = twin.relabel change → tree.leaves = twin.leaves → tree = twin
  | .token leaf, .token other, _, hleaves => congrArg token (List.singleton_inj.mp hleaves)
  | .token _, .node _ _, h, _ => by cases h
  | .node _ _, .token _, h, _ => by cases h
  | .node kind children, .node other others, h, hleaves => by
      rw [relabel_node, relabel_node] at h
      injection h with hkind hchildren
      rw [hkind, eq_of_relabelAll hchildren hleaves]

theorem eq_of_relabelAll {change : Token → Token} : ∀ {trees twins : List SyntaxTree},
    relabelAll change trees = relabelAll change twins → leavesOf trees = leavesOf twins →
      trees = twins
  | [], [], _, _ => rfl
  | [], _ :: _, h, _ => by cases h
  | _ :: _, [], h, _ => by cases h
  | tree :: rest, twin :: others, h, hleaves => by
      rw [relabelAll_cons, relabelAll_cons] at h
      obtain ⟨htree, hrest⟩ := List.cons.inj h
      have hlength : tree.leaves.length = twin.leaves.length := by
        have hsame := congrArg (fun tree => tree.leaves.length) htree
        simpa only [leaves_relabel, List.length_map] using hsame
      rw [leavesOf, leavesOf] at hleaves
      obtain ⟨hfirst, hbehind⟩ := List.append_inj hleaves hlength
      rw [eq_of_relabel htree hfirst, eq_of_relabelAll hrest hbehind]

end

/-- Flags keep their tokens, but for what is changed in flags. -/
theorem Formed.flagTokens_recast {change : SyntaxKind → Token → Token} {tree : SyntaxTree}
    (h : tree.Formed) (parent : SyntaxKind) :
    ∀ token ∈ (tree.recast change parent).flagTokens, ∃ leaf, token = change .flag leaf := by
  induction h generalizing parent with
  | token leaf => exact fun token htoken => absurd htoken List.not_mem_nil
  | @node kind children hshaped hadmits hchildren ih =>
      rw [recast_node]
      by_cases hflag : kind = .flag
      · subst hflag
        change ∀ token ∈ leavesOf (recastAll change .flag children), _
        clear hshaped ih
        induction children with
        | nil => exact fun token htoken => absurd htoken List.not_mem_nil
        | cons child rest ih =>
            obtain ⟨hchild, hrest⟩ := List.forall_mem_cons.mp hadmits
            intro token htoken
            rw [recastAll_cons, leavesOf] at htoken
            rcases List.mem_append.mp htoken with htoken | htoken
            · cases child with
              | token leaf => exact ⟨leaf, List.mem_singleton.mp htoken⟩
              | node _ _ => cases hchild
            · exact ih (fun tree htree => hchildren tree (List.mem_cons_of_mem _ htree)) hrest token
                htoken
      · rw [flagTokens_node hflag]
        clear hshaped hadmits hchildren
        induction children with
        | nil => exact fun token htoken => absurd htoken List.not_mem_nil
        | cons child rest behind =>
            intro token htoken
            rw [recastAll_cons, flagTokensOf_cons] at htoken
            rcases List.mem_append.mp htoken with htoken | htoken
            · exact ih child (List.mem_cons_self ..) kind token htoken
            · exact behind (fun tree htree => ih tree (List.mem_cons_of_mem _ htree)) token htoken

theorem leavesOf_map_related {R : Token → Token → Prop} {change : SyntaxTree → SyntaxTree}
    {trees : List SyntaxTree}
    (h : ∀ tree ∈ trees, List.Forall₂ R tree.leaves (change tree).leaves) :
    List.Forall₂ R (leavesOf trees) (leavesOf (trees.map change)) := by
  induction trees with
  | nil => exact .nil
  | cons tree rest ih =>
      obtain ⟨htree, hrest⟩ := List.forall_mem_cons.mp h
      rw [List.map_cons, leavesOf, leavesOf]
      exact List.rel_append htree (ih hrest)

mutual

theorem core_relabel_bare : ∀ tree : SyntaxTree, (tree.relabel Token.bare).core = tree.core
  | .token _ => rfl
  | .node kind children => by
      rw [relabel_node, core_node, coreAll_relabelAll_bare children, core_node]

theorem coreAll_relabelAll_bare : ∀ trees : List SyntaxTree,
    coreAll (relabelAll Token.bare trees) = coreAll trees
  | [] => rfl
  | .token leaf :: rest => by
      rw [relabelAll_cons, relabel_token, coreAll, coreAll, coreAll_relabelAll_bare rest]
      rfl
  | .node kind children :: rest => by
      rw [relabelAll_cons, coreAll_node_cons, relabel_node, coreAll_node_cons, ← relabel_node,
        core_relabel_bare (.node kind children), coreAll_relabelAll_bare rest]

end

end SyntaxTree

/-- Tokens without their places. -/
def Relabelling.baring : Relabelling where
  change := Token.bare
  move := Diagnostic.bare
  kind_change _ := rfl
  isFlag_change _ := id
  move_error _ _ _ := rfl

theorem Relabelling.baring_keeps (tokens : List Token) : baring.Keeps tokens := fun _ _ => id

/-- A place where no token stands, for tokens that are marked. -/
def Span.marked : Span := ⟨.origin, ⟨0, 0, 0⟩⟩

/-- The token that a marked one stands for. -/
def Token.unmarked (new : Bytes) (token : Token) : Token :=
  if token.span = .marked then ⟨token.kind, new, .origin⟩ else token.bare

theorem Token.unmarked_bare (new : Bytes) (token : Token) :
    token.bare.unmarked new = token.bare := by
  rw [Token.unmarked, Token.span_bare, if_neg (by decide), Token.bare_bare]

/-- Marked tokens under their new name, which is that of no flag. -/
def Relabelling.unmarking (new : Bytes) (hflag : Flag.ofText? new = none) : Relabelling where
  change := Token.unmarked new
  move := Diagnostic.bare
  kind_change token := by
    rw [Token.unmarked]
    split <;> rfl
  isFlag_change token hisFlag := by
    rw [Token.unmarked] at hisFlag
    split at hisFlag
    · rw [hflag] at hisFlag
      cases hisFlag
    · exact hisFlag
  move_error code message token := by
    rw [Token.unmarked]
    split <;> rfl

namespace Names

/-- A token without its place, or marked if it has another name. -/
def mark (names : Names) (parent : SyntaxKind) (leaf : Token) : Token :=
  if names.text parent leaf.text = leaf.text then leaf.bare else { leaf with span := .marked }

/-- The tokens of a tree keep their texts, or they are names that get a new one. -/
def Give (names : Names) (new : Bytes) (tree : SyntaxTree) : Prop :=
  ∀ leaf ∈ tree.leaves, ∀ parent, names.text parent leaf.text = leaf.text ∨
    names.text parent leaf.text = new ∧ leaf.kind.spells new = true

theorem bare_mark (names : Names) (parent : SyntaxKind) (leaf : Token) :
    (names.mark parent leaf).bare = leaf.bare := by
  rw [mark]
  split <;> rfl

theorem unmarked_mark {names : Names} {new : Bytes} {parent : SyntaxKind} {leaf : Token}
    (h : names.text parent leaf.text = leaf.text ∨ names.text parent leaf.text = new) :
    (names.mark parent leaf).unmarked new = (names.token parent leaf).bare := by
  rw [mark]
  split
  · rename_i hsame
    rw [Token.unmarked_bare, Token.bare, token, hsame]
    rfl
  · rename_i hother
    rw [Token.unmarked, if_pos rfl, ← h.resolve_left hother]
    rfl

end Names

namespace ParsedSource

open NovelAsm.Parser SyntaxTree

open Location (origin)

/-- The items before some tokens, of which the places do not matter, as they are found. -/
def Finds (tokens : List Token) (outcome : Parser.Outcome PUnit) (said : Diagnostics) : Prop :=
  Run itemsAllowed false items items (alone tokens) outcome said

theorem exists_finds (tokens : List Token) : ∃ outcome said, Finds tokens outcome said := by
  have hout : Outside false (alone tokens).cursor := .unclean rfl rfl
  obtain ⟨outcome, said, hrun, -⟩ := (items_reads hout).runs hout.toStands rfl
  exact ⟨outcome, said, hrun⟩

variable (labels : Relabelling) {tokens : List Token} {outcome result : Parser.Outcome PUnit}
  {said more : Diagnostics}

/-- Before relabelled tokens the relabelled items are found, and as much is said of them. -/
theorem Finds.relabelled {state : ParseState} {clean : Bool}
    (h : Run itemsAllowed clean items items state outcome said) (hended : state.cursor.Ended)
    (hlabels : (alone tokens).cursor = state.cursor.relabel labels)
    (hkeeps : labels.Keeps (flagTokensOf outcome.trees)) (hfinds : Finds tokens result more) :
    result.trees = relabelAll labels.change outcome.trees ∧ more.length = said.length := by
  have hends := h.relabelled hended hlabels hkeeps (Option.isSome_of_eq_some hfinds.ends)
  obtain ⟨-, -, htrees, rfl⟩ := hfinds.ends.unique hends
  exact ⟨htrees, List.length_map _⟩

/-- Relabelled tokens stand before the end of a text, if that is not relabelled. -/
theorem alone_relabel (hfinish : labels.change Cursor.endToken = Cursor.endToken)
    (tokens : List Token) :
    (alone (tokens.map labels.change)).cursor = (alone tokens).cursor.relabel labels := by
  change Cursor.mk _ Cursor.endToken 0 false = ⟨_, labels.change Cursor.endToken, 0, false⟩
  rw [hfinish]
  rfl

/-- The items of a text without places. -/
theorem Reading.finds {source : Bytes} (h : Reading source origin outcome said)
    (hfinds : Finds (Lexed.bares 0 source) result more) :
    result.trees = relabelAll Token.bare outcome.trees ∧ more.length = said.length := by
  refine Finds.relabelled .baring h.run (Lexed.finish_kind source origin) ?_
    (Relabelling.baring_keeps _) hfinds
  have hfinish : (before source origin).finish.bare = Cursor.endToken :=
    Lexed.bare_finish 0 origin source
  have htokens : (before source origin).rest.map Token.bare = Lexed.bares 0 source :=
    Lexed.map_bare_tokens 0 origin source
  rw [← htokens]
  exact congrArg (fun finish => Cursor.mk _ finish 0 false) hfinish.symm

section Renamed

variable {names : SyntaxTree → Names} {new : Bytes} {trees : List SyntaxTree} {rest : List Token}

/-- Items with their marks. -/
def marks (names : SyntaxTree → Names) (trees : List SyntaxTree) : List SyntaxTree :=
  trees.map fun item => item.recast (names item).mark .sourceFile

/-- Items with their other names. -/
def renames (names : SyntaxTree → Names) (trees : List SyntaxTree) : List SyntaxTree :=
  trees.map fun item => item.recast (names item).token .sourceFile

theorem relabelAll_bare_marks :
    relabelAll Token.bare (marks names trees) = relabelAll Token.bare trees := by
  rw [marks, relabelAll_eq_map, List.map_map, relabelAll_eq_map]
  refine List.map_congr_left fun item _ => ?_
  rw [Function.comp_apply, relabel_recast, relabel_eq_recast item .sourceFile]
  exact recast_congr fun leaf _ kind => (names item).bare_mark kind leaf

theorem relabelAll_unmarked_marks (h : ∀ item ∈ trees, (names item).Give new item) :
    relabelAll (Token.unmarked new) (marks names trees) =
      relabelAll Token.bare (renames names trees) := by
  rw [marks, relabelAll_eq_map, List.map_map, renames, relabelAll_eq_map, List.map_map]
  refine List.map_congr_left fun item hitem => ?_
  rw [Function.comp_apply, Function.comp_apply, relabel_recast, relabel_recast]
  exact recast_congr fun leaf hleaf kind =>
    Names.unmarked_mark ((h item hitem leaf hleaf kind).imp_right And.left)

theorem marks_keeps (hformed : ∀ item ∈ trees, item.Formed) (hflag : Flag.ofText? new = none) :
    (Relabelling.unmarking new hflag).Keeps (flagTokensOf (marks names trees)) := by
  induction trees with
  | nil => exact Relabelling.keeps_nil _
  | cons item rest ih =>
      obtain ⟨hitem, hrest⟩ := List.forall_mem_cons.mp hformed
      rw [marks, List.map_cons, flagTokensOf_cons, Relabelling.keeps_append]
      refine ⟨fun token htoken hisFlag => ?_, ih hrest⟩
      obtain ⟨leaf, rfl⟩ := hitem.flagTokens_recast .sourceFile token htoken
      have hleaf : (names item).mark .flag leaf = leaf.bare := if_pos rfl
      rw [hleaf] at hisFlag ⊢
      exact hisFlag

/-- Before marked tokens, the parser finds the marked items. -/
theorem Finds.marked {found : Parser.Outcome PUnit} {others : Diagnostics}
    (hfinds : Finds ((leavesOf trees ++ rest).map Token.bare) outcome said)
    (htrees : outcome.trees = relabelAll Token.bare trees)
    (h : Finds (leavesOf (marks names trees) ++ rest.map Token.bare) found others) :
    found.trees = marks names trees ∧ others.length = said.length := by
  have hleaves : (leavesOf (marks names trees)).map Token.bare =
      (leavesOf trees).map Token.bare := by
    rw [← leavesOf_relabelAll, relabelAll_bare_marks, leavesOf_relabelAll]
  have hrest : (rest.map Token.bare).map Token.bare = rest.map Token.bare := by
    rw [List.map_map]
    rfl
  have hstart := alone_relabel .baring rfl
    (leavesOf (marks names trees) ++ rest.map Token.bare)
  change (alone ((leavesOf (marks names trees) ++ rest.map Token.bare).map Token.bare)).cursor = _
    at hstart
  rw [List.map_append, hleaves, hrest, ← List.map_append] at hstart
  obtain ⟨hsame, hlength⟩ :=
    Finds.relabelled .baring h rfl hstart (Relabelling.baring_keeps _) hfinds
  have hshape : relabelAll Token.bare found.trees = relabelAll Token.bare (marks names trees) := by
    rw [relabelAll_bare_marks, ← htrees]
    exact hsame.symm
  have hsplit : leavesOf (marks names trees) ++ rest.map Token.bare =
      leavesOf found.trees ++ found.cursor.rest := h.reached.rest_eq
  have hcount : (leavesOf (marks names trees)).length = (leavesOf found.trees).length := by
    have hcount := congrArg (fun trees => (leavesOf trees).length) hshape
    simp only [leavesOf_relabelAll, List.length_map] at hcount
    exact hcount.symm
  exact ⟨eq_of_relabelAll hshape (List.append_inj hsplit hcount).1.symm, hlength.symm⟩

/-- Before tokens with other names, the parser finds the items with these names. -/
theorem Finds.renamed (hformed : ∀ item ∈ trees, item.Formed)
    (hflag : Flag.ofText? new = none) (hnames : ∀ item ∈ trees, (names item).Give new item)
    (hfinds : Finds ((leavesOf trees ++ rest).map Token.bare) outcome said)
    (htrees : outcome.trees = relabelAll Token.bare trees)
    (h : Finds ((leavesOf (renames names trees) ++ rest).map Token.bare) result more) :
    result.trees = relabelAll Token.bare (renames names trees) ∧ more.length = said.length := by
  obtain ⟨found, others, hmarked⟩ :=
    exists_finds (leavesOf (marks names trees) ++ rest.map Token.bare)
  obtain ⟨hfound, hcount⟩ := hfinds.marked htrees hmarked
  have hkeeps : (Relabelling.unmarking new hflag).Keeps (flagTokensOf found.trees) := by
    rw [hfound]
    exact marks_keeps hformed hflag
  have hleaves : (leavesOf (marks names trees)).map (Token.unmarked new) =
      (leavesOf (renames names trees)).map Token.bare := by
    rw [← leavesOf_relabelAll, relabelAll_unmarked_marks hnames, leavesOf_relabelAll]
  have hrest : (rest.map Token.bare).map (Token.unmarked new) = rest.map Token.bare := by
    rw [List.map_map]
    exact List.map_congr_left fun token _ => Token.unmarked_bare new token
  have hstart := alone_relabel (.unmarking new hflag)
    (Token.unmarked_bare new Cursor.endToken) (leavesOf (marks names trees) ++ rest.map Token.bare)
  change (alone ((leavesOf (marks names trees) ++ rest.map Token.bare).map
    (Token.unmarked new))).cursor = _ at hstart
  rw [List.map_append, hleaves, hrest, ← List.map_append] at hstart
  obtain ⟨hitems, hlength⟩ := Finds.relabelled (.unmarking new hflag) hmarked rfl hstart hkeeps h
  exact ⟨by rw [hitems, hfound, ← relabelAll_unmarked_marks hnames]; rfl, hlength.trans hcount⟩

end Renamed

section Text

variable {source : Bytes} {names : SyntaxTree → Names} {new : Bytes}

/-- The items of a text and what no item took are all of its tokens. -/
theorem Reading.bares_eq (h : Reading source origin outcome said) : Lexed.bares 0 source =
    (leavesOf outcome.trees ++ outcome.cursor.rest).map Token.bare := by
  rw [← h.rest_eq]
  exact (Lexed.map_bare_tokens 0 origin source).symm

theorem Reading.children_renameItems (h : Reading source origin outcome said)
    (names : SyntaxTree → Names) : ((read source origin).tree.renameItems names).children =
      renames names outcome.trees ++
        (outcome.cursor.rest ++ [outcome.cursor.finish]).map .token := by
  rw [renameItems, children, h.children_eq, List.map_append, List.map_map]
  refine congrArg _ (List.map_congr_left fun token _ => ?_)
  rw [Function.comp_apply, recast_token, Names.token_of_isNameless _ rfl]

theorem Reading.text_renameItems (h : Reading source origin outcome said)
    (names : SyntaxTree → Names) : ((read source origin).tree.renameItems names).text =
      ((leavesOf (renames names outcome.trees) ++ outcome.cursor.rest).map
        Token.bare).flatMap Token.text := by
  have hleaves : ((read source origin).tree.renameItems names).leaves =
      leavesOf ((read source origin).tree.renameItems names).children := rfl
  have hfinish : outcome.cursor.finish.text = [] := by
    rw [h.finish_eq]
    exact Lexed.text_finish source origin
  rw [text, hleaves, h.children_renameItems, leavesOf_append, leavesOf_tokens, ← List.append_assoc,
    List.flatMap_append, List.flatMap_singleton, hfinish, List.append_nil, List.flatMap_map]
  rfl

/-- The tokens of the items with other names are those of the items, but for the names. -/
theorem retexted_renames {trees : List SyntaxTree} {rest : List Token}
    (hgiven : ∀ item ∈ trees, (names item).Give new item) :
    List.Forall₂ Token.Retexted ((leavesOf trees ++ rest).map Token.bare)
      ((leavesOf (renames names trees) ++ rest).map Token.bare) := by
  rw [List.forall₂_map_left_iff, List.forall₂_map_right_iff]
  refine List.rel_append (leavesOf_map_related fun item hitem => ?_)
    (List.forall₂_same.mpr fun token _ => .inl rfl)
  refine leaves_recast_related fun leaf hleaf kind => ?_
  rcases hgiven item hitem leaf hleaf kind with hsame | ⟨hnew, hspells⟩
  · exact .inl (by rw [Names.token, hsame])
  · exact .inr ⟨(congrArg leaf.kind.spells hnew).trans hspells, rfl⟩

/-- The text of a tree with other names is parsed into that tree, but for places, if the tree was
parsed without a complaint. -/
theorem read_renamed (hclean : (read source origin).diagnostics = [])
    (hflag : Flag.ofText? new = none)
    (hnames : ∀ item ∈ (read source origin).tree.children, (names item).Give new item) :
    (read ((read source origin).tree.renameItems names).text origin).diagnostics = [] ∧
      coreAll (read ((read source origin).tree.renameItems names).text origin).tree.children =
        coreAll ((read source origin).tree.renameItems names).children := by
  obtain ⟨outcome, said, h⟩ := exists_reading source origin
  obtain ⟨hflawless, rfl⟩ := (diagnostics_eq_nil_iff_said h).mp hclean
  have hmem {item : SyntaxTree} (hitem : item ∈ outcome.trees) :
      item ∈ (read source origin).tree.children := by
    rw [h.children_eq]
    exact List.mem_append_left _ hitem
  have hformed : ∀ item ∈ outcome.trees, item.Formed := fun item hitem =>
    (read_children_formed hclean item (hmem hitem)).1
  have hgiven : ∀ item ∈ outcome.trees, (names item).Give new item :=
    fun item hitem => hnames item (hmem hitem)
  have hrelated := @retexted_renames _ _ _ outcome.cursor.rest hgiven
  rw [← h.bares_eq] at hrelated
  obtain ⟨hcut, hwhole, -⟩ := Lexed.bares_retexted hflawless hrelated
  rw [← h.text_renameItems] at hcut hwhole
  obtain ⟨result, more, hresult⟩ :=
    exists_reading ((read source origin).tree.renameItems names).text origin
  obtain ⟨plain, others, hplain⟩ := exists_finds (Lexed.bares 0 source)
  obtain ⟨final, last, hfinal⟩ := exists_finds
    (Lexed.bares 0 ((read source origin).tree.renameItems names).text)
  obtain ⟨htrees, hcount⟩ := h.finds hplain
  obtain ⟨hfound, hreported⟩ := hresult.finds hfinal
  rw [h.bares_eq] at hplain
  rw [hcut] at hfinal
  obtain ⟨hnamed, hsaid⟩ := hplain.renamed hformed hflag hgiven htrees hfinal
  constructor
  · have hnone : more.length = 0 := by
      rw [← hreported, hsaid, hcount, List.length_nil]
    exact (diagnostics_eq_nil_iff_said hresult).mpr ⟨hwhole, List.length_eq_zero_iff.mp hnone⟩
  · -- What no item took has no core, before and after.
    have hcore := h.coreAll_children
    rw [h.children_eq, coreAll_append] at hcore
    rw [hresult.coreAll_children, ← coreAll_relabelAll_bare, ← hfound, hnamed,
      coreAll_relabelAll_bare, h.children_renameItems, coreAll_append,
      List.append_right_eq_self.mp hcore, List.append_nil]

end Text

end ParsedSource

end NovelAsm
