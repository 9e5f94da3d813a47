import NovelAsm.Proofs.SyntaxTree.Routines
import NovelAsm.Proofs.Token.Strings

/-!
Texts are parsed without loss. Before any text the parser runs to its end, and of the nodes that it
has started the root alone is left; the leaves of the tree are the tokens of the text, and so its
text is the text of the tree (`ParsedSource.read_lossless`). The nodes of the tree are as a parser
makes them, whatever is wrong with the text (`ParsedSource.read_grown`).
-/

namespace NovelAsm

namespace ParsedSource

open SyntaxTree NovelAsm.Parser

/-- The tokens of a text, before which its parser stands. -/
def before (source : Bytes) (place : Location) : Cursor :=
  (ParseState.start (Lexed.read source place)).cursor

theorem view_before (source : Bytes) (place : Location) :
    (before source place).view = Lexed.tokensOf source := by
  have hbare : (Lexed.read source place).tokens.map Token.bare = Lexed.bares 0 source :=
    Lexed.map_bare_tokens 0 place source
  rw [Lexed.tokensOf, ← hbare, List.filter_map]
  rfl

theorem before_sound {source : Bytes} (place : Location) (h : Lexed.Flawless 0 source) :
    (before source place).Sound where
  finish := Lexed.bare_finish 0 place source
  inside token htoken := by
    have hbare := Lexed.bares_readable h token.bare (by
      rw [← Lexed.map_bare_tokens 0 place]
      exact List.mem_map_of_mem htoken)
    exact hbare
  notFailed := rfl

theorem before_fit {source : Bytes} (place : Location) (h : Lexed.Flawless 0 source) :
    (before source place).Fit where
  sound := before_sound place h
  readable token htoken hkind := by
    have hbare : token.bare ∈ Lexed.bares 0 source := by
      rw [← Lexed.map_bare_tokens 0 place]
      exact List.mem_map_of_mem htoken
    exact @Lexed.Flawless.string? 0 source h token.bare hbare hkind

/-- Whether nothing is wrong with the tokens of a text. -/
def isLegible (source : Bytes) (place : Location) : Bool :=
  (Lexed.read source place).diagnostics.isEmpty

theorem before_outside (source : Bytes) (place : Location) :
    Outside (isLegible source place) (before source place) where
  ended := Lexed.finish_kind source place
  fit hlegible := before_fit place
    ((Lexed.diagnostics_eq_nil_iff 0 place source).mp (List.isEmpty_iff.mp hlegible))
  nesting_eq := rfl

/-- A text has been read: its items, with what has been reported of them, up to its end. -/
structure Reading (source : Bytes) (place : Location) (outcome : Parser.Outcome PUnit)
    (said : Diagnostics) : Prop where
  run : Run itemsAllowed (isLegible source place) items items
    (.start (Lexed.read source place)) outcome said
  ends : outcome.cursor.peek.kind = .endOfFile

theorem exists_reading (source : Bytes) (place : Location) :
    ∃ outcome said, Reading source place outcome said := by
  have hstart : (ParseState.start (Lexed.read source place)).cursor = before source place := rfl
  have hout := before_outside source place
  obtain ⟨outcome, said, hrun, hends⟩ := (items_reads hout).runs hout.toStands hstart
  exact ⟨outcome, said, hrun, hends⟩

/-- The parser behind the last token of a text. -/
def afterText (source : Bytes) (place : Location) (outcome : Parser.Outcome PUnit)
    (said : Diagnostics) : ParseState :=
  (ParseState.start (Lexed.read source place)).after { outcome.cursor with rest := [] }
    (outcome.trees ++ (outcome.cursor.rest ++ [outcome.cursor.finish]).map .token) said

namespace Reading

variable {source : Bytes} {place : Location} {outcome : Parser.Outcome PUnit} {said : Diagnostics}

theorem file_eq (h : Reading source place outcome said) :
    file.run (.start (Lexed.read source place)) =
      some ((), afterText source place outcome said) := by
  change (items (.start (Lexed.read source place))).bind (fun ended => takeRest ended.2) = _
  rw [h.run.ends]
  refine congrArg (fun state => some ((), state)) ((ParseState.after_after ..).trans ?_)
  rw [List.append_nil]
  rfl

theorem finish_eq (h : Reading source place outcome said) :
    outcome.cursor.finish = (Lexed.read source place).finish := h.run.reached.finish_eq

theorem rest_eq (h : Reading source place outcome said) :
    (Lexed.read source place).tokens = leavesOf outcome.trees ++ outcome.cursor.rest :=
  h.run.reached.rest_eq

theorem nesting_eq (h : Reading source place outcome said) : outcome.cursor.nesting = 0 :=
  h.run.reached.nesting_eq

theorem read_eq (h : Reading source place outcome said) : read source place =
    { tree := .node .sourceFile
        (outcome.trees ++ (outcome.cursor.rest ++ [outcome.cursor.finish]).map .token)
      diagnostics := (Lexed.read source place).diagnostics ++ said } := by
  rw [read, h.file_eq]
  rfl

theorem diagnostics_eq (h : Reading source place outcome said) :
    (read source place).diagnostics = (Lexed.read source place).diagnostics ++ said := by
  rw [h.read_eq]

theorem children_eq (h : Reading source place outcome said) : (read source place).tree.children =
    outcome.trees ++ (outcome.cursor.rest ++ [outcome.cursor.finish]).map .token := by
  rw [h.read_eq]
  rfl

theorem clean_eq (h : Reading source place outcome said) :
    outcome.clean = (read source place).diagnostics.isEmpty := by
  rw [h.run.clean_eq, h.diagnostics_eq, isEmpty_append, isLegible]

/-- Nothing but trivia is left behind the items. -/
theorem isTrivia_of_mem (h : Reading source place outcome said) {token : Token}
    (htoken : token ∈ outcome.cursor.rest) : token.isTrivia = true := by
  have hnone : (outcome.cursor.rest.find? fun token => !outcome.cursor.isSkippable token) =
      none := by
    cases hfind : outcome.cursor.rest.find? fun token => !outcome.cursor.isSkippable token with
    | none => rfl
    | some first =>
        have hpeek : outcome.cursor.peek = first := by rw [Cursor.peek, hfind, Option.getD_some]
        have hfirst : first ∈ (Lexed.read source place).tokens := by
          rw [h.rest_eq]
          exact List.mem_append_right _ (List.mem_of_find?_eq_some hfind)
        exact absurd (hpeek ▸ h.ends) (Lexed.kind_ne_of_mem_tokens hfirst)
  simpa [Cursor.isSkippable, h.nesting_eq] using List.find?_eq_none.mp hnone token htoken

/-- What is left behind the items is not in the core of the tree. -/
theorem coreAll_children (h : Reading source place outcome said) :
    coreAll (read source place).tree.children = coreAll outcome.trees := by
  have hnone : coreAll ((outcome.cursor.rest ++ [outcome.cursor.finish]).map .token) = [] := by
    rw [coreAll_tokens, List.map_eq_nil_iff, List.filter_eq_nil_iff]
    intro token htoken
    rcases List.mem_append.mp htoken with htoken | htoken
    · simp [Token.isSignificant, h.isTrivia_of_mem htoken]
    · rw [List.mem_singleton.mp htoken, h.finish_eq]
      simp [Token.isSignificant, Lexed.finish_kind]
  rw [h.children_eq, coreAll_append, hnone, List.append_nil]

/-- Two texts that are near each other are read alike. -/
theorem compare {other : Bytes} {origin : Location} {result : Parser.Outcome PUnit}
    {more : Diagnostics} (h : Reading source place outcome said)
    (hother : Reading other origin result more)
    (step : Lockstep) (hnear : step.near (before source place) (before other origin))
    (hasks : step.Asks outcome) :
    step.same outcome.trees result.trees ∧ step.near outcome.cursor result.cursor ∧
      step.tells said more := by
  obtain ⟨copy, others, hfollows⟩ := h.run.guides step (.start (Lexed.read other origin)) hnear
    hasks (by rw [hother.run.ends]; rfl)
  obtain ⟨-, hcursor, htrees, rfl⟩ := hfollows.ends.unique hother.run.ends
  exact ⟨htrees ▸ hfollows.same, hcursor ▸ hfollows.near, hfollows.tells⟩

end Reading

/-- The root of the tree of a text. -/
theorem tree_read (source : Bytes) (place : Location) :
    (read source place).tree = .node .sourceFile (read source place).tree.children := by
  obtain ⟨outcome, said, h⟩ := exists_reading source place
  rw [h.read_eq]
  rfl

/-- The leaves of the tree of a text are its tokens. -/
theorem leaves_read (source : Bytes) (place : Location) :
    (read source place).tree.leaves = (Lexed.read source place).all := by
  obtain ⟨outcome, said, h⟩ := exists_reading source place
  rw [h.read_eq, leaves, leavesOf_append, leavesOf_tokens, ← List.append_assoc, ← h.rest_eq,
    h.finish_eq, Lexed.all]

/-- A token of a tree that is not the end of the text has bytes. -/
theorem text_ne_nil_of_mem_leaves {source : Bytes} {place : Location} {token : Token}
    (h : token ∈ (read source place).tree.leaves) (hkind : token.kind ≠ .endOfFile) :
    token.text ≠ [] := by
  rw [leaves_read, Lexed.all] at h
  rcases List.mem_append.mp h with h | h
  · exact Lexed.text_ne_nil_of_mem_tokens h
  · rw [List.mem_singleton.mp h] at hkind
    exact absurd (Lexed.finish_kind source place) hkind

/-- Nothing of a text is lost, whatever it holds. The parser runs to its end, which it would not if
a bound of its loops were used up or a node were finished that had not been started. Then the root
alone stands on the stack, all brackets are closed again, and no token is left. The leaves of the
tree are the tokens of the text, and so its text is the text of the tree. -/
theorem read_lossless (source : Bytes) (place : Location) :
    ∃ last, Parser.file.run (.start (Lexed.read source place)) = some ((), last) ∧
      last.stack = [⟨.sourceFile, (read source place).tree.children⟩] ∧
      last.cursor.nesting = 0 ∧ last.cursor.rest = [] ∧
      (read source place).tree = .node .sourceFile (read source place).tree.children ∧
      (read source place).tree.leaves = (Lexed.read source place).all ∧
      (read source place).tree.text = source := by
  obtain ⟨outcome, said, h⟩ := exists_reading source place
  have hleaves := leaves_read source place
  have htext : (read source place).tree.text = source := by
    have htokens := Lexed.flatMap_text_walk 0 place source
    rw [text, hleaves, Lexed.all, List.flatMap_append, List.flatMap_singleton,
      Lexed.text_finish, List.append_nil, Lexed.read, htokens, List.drop_zero]
  refine ⟨afterText source place outcome said, h.file_eq, ?_, h.nesting_eq, rfl,
    tree_read source place, hleaves, htext⟩
  rw [h.children_eq]
  rfl

/-- The nodes of the tree of a text are as a parser makes them, and well placed if nothing is wrong
with the text. -/
theorem read_grown (source : Bytes) (place : Location) : (read source place).tree.Everywhere
    (Grown (read source place).diagnostics.isEmpty) := by
  obtain ⟨outcome, said, h⟩ := exists_reading source place
  have hgrown := h.run.reached.grown
  have hamong := h.run.reached.among
  rw [h.clean_eq] at hgrown hamong
  rw [show (read source place).tree = .node .sourceFile _ from congrArg ParsedSource.tree h.read_eq]
  refine .node (grown_plain rfl fun hclean =>
    .nameless rfl trivial ((hamong hclean).append (among_tokens _))) fun tree htree => ?_
  rcases List.mem_append.mp htree with hmem | hmem
  · exact hgrown tree hmem
  · obtain ⟨leaf, -, rfl⟩ := List.mem_map.mp hmem
    exact .token leaf

end ParsedSource

end NovelAsm
