import NovelAsm.Proofs.SyntaxTree.Relabelled
import NovelAsm.Proofs.Token.Places

/-!
Where a text begins makes no difference to what it is read as. Moving a place of a text by the
place where the text begins gives the place of the same byte, as long as the line number does not
come round to one again, which takes `2 ^ 32` line feeds. So a text read at a place is the text
read at the origin, with its tokens, its tree and what is said of it moved.
-/

namespace NovelAsm

namespace Location

/-- Only on the first line of a short text is the line number one. -/
theorem behind_origin_line {text : Bytes} (hshort : text.length < 2 ^ 32) :
    (origin.behind text).line = 1 ↔ byte '\n' ∉ text := by
  have hcount : text.count (byte '\n') < 2 ^ 32 := List.count_le_length.trans_lt hshort
  have hline : (origin.behind text).line = 1 + (text.count (byte '\n')).toUInt32 := rfl
  rw [hline, ← List.count_eq_zero]
  constructor
  · intro h
    have hzero : (text.count (byte '\n')).toUInt32 = 0 := by simpa using h
    exact (UInt32.toNat_ofNat_of_lt' hcount).symm.trans (congrArg UInt32.toNat hzero)
  · intro h
    rw [h]
    rfl

/-- Moving a place of a short text gives the place of the same byte, wherever the text begins. -/
theorem rebase_behind_of_short (base : Location) {text : Bytes} (hshort : text.length < 2 ^ 32) :
    (origin.behind text).rebase base = base.behind text := by
  have hfirst := behind_origin_line hshort
  have hcolumn : (if (origin.behind text).line = 1
      then (origin.behind text).column + base.column - 1 else (origin.behind text).column) =
      (base.behind text).column := by
    by_cases h : byte '\n' ∈ text
    · rw [if_neg fun hone => hfirst.mp hone h]
      simp only [behind, if_pos h]
    · rw [if_pos (hfirst.mpr h)]
      simp only [behind, if_neg h]
      exact one_add_sub_one _ _
  rw [rebase, hcolumn, behind_origin_line_add, behind_origin_offset_add]

end Location

namespace Token

def rebase (token : Token) (base : Location) : Token :=
  { token with span := token.span.rebase base }

end Token

namespace Lexed

open Location (origin)

def rebase (lexed : Lexed) (base : Location) : Lexed where
  tokens := lexed.tokens.map (·.rebase base)
  finish := lexed.finish.rebase base
  diagnostics := lexed.diagnostics.rebase base

variable (base : Location)

theorem covering_rebase {front text : Bytes} (hshort : (front ++ text).length < 2 ^ 32) :
    (Span.covering (origin.behind front) text).rebase base =
      Span.covering (base.behind front) text := by
  have hfront : front.length < 2 ^ 32 :=
    (List.prefix_append front text).length_le.trans_lt hshort
  simp only [Span.covering, Span.rebase, Location.advance_eq_behind, Location.behind_append,
    Location.rebase_behind_of_short base hfront, Location.rebase_behind_of_short base hshort]

theorem diagnose_rebase {front text : Bytes} (hshort : (front ++ text).length < 2 ^ 32)
    (flaw : Flaw) : (diagnose (origin.behind front) text flaw).rebase base =
      diagnose (base.behind front) text flaw := by
  have hplace (count : Nat) : ((origin.behind front).advance (text.take count)).rebase base =
      (base.behind front).advance (text.take count) := by
    have hcount : (front ++ text.take count).length < 2 ^ 32 := by
      rw [List.length_append, List.length_take] at *
      omega
    rw [Location.advance_eq_behind, Location.advance_eq_behind, Location.behind_append,
      Location.behind_append, Location.rebase_behind_of_short base hcount]
  simp only [diagnose, Diagnostic.error, Diagnostic.rebase, Span.rebase, hplace, List.map_nil]

/-- What is in front of the rest of a text has been read. -/
theorem walk_rebase {skip : Nat} {front text : Bytes}
    (hshort : (front ++ text.drop skip).length < 2 ^ 32) :
    walk skip (base.behind front) text = (walk skip (origin.behind front) text).rebase base := by
  induction text generalizing skip front with
  | nil =>
      have hfront : front.length < 2 ^ 32 := by simpa using hshort
      simp only [walk, finishAt, rebase, Token.rebase, Span.rebase,
        Location.rebase_behind_of_short base hfront, List.map_nil, Diagnostics.rebase]
  | cons first rest ih =>
      cases skip with
      | succ skip => exact ih hshort
      | zero =>
          let lexeme := Lexeme.scan first rest
          let text := first :: rest.take lexeme.more
          have hsplit : front ++ text ++ rest.drop lexeme.more = front ++ first :: rest := by
            rw [List.append_assoc, List.cons_append, List.take_append_drop]
          have hbehind := ih (hsplit ▸ hshort)
          have hlexeme : (front ++ text).length < 2 ^ 32 := by
            refine lt_of_le_of_lt ?_ hshort
            rw [List.drop_zero, ← hsplit]
            exact (List.prefix_append _ _).length_le
          have hstep (place : Location) : walk 0 (place.behind front) (first :: rest) =
              let behind := walk lexeme.more (place.behind (front ++ text)) rest
              ⟨⟨lexeme.kind, text, .covering (place.behind front) text⟩ :: behind.tokens,
                behind.finish,
                lexeme.flaws.map (diagnose (place.behind front) text) ++ behind.diagnostics⟩ := by
            rw [walk_cons_zero, ← Location.behind_append,
              ← Location.advance_eq_behind (place.behind front)]
            rfl
          have htoken : Token.rebase
              ⟨lexeme.kind, text, .covering (origin.behind front) text⟩ base =
              ⟨lexeme.kind, text, .covering (base.behind front) text⟩ := by
            rw [Token.rebase, covering_rebase base hlexeme]
          have hflaws : (lexeme.flaws.map (diagnose (origin.behind front) text)).map
              (·.rebase base) = lexeme.flaws.map (diagnose (base.behind front) text) := by
            rw [List.map_map]
            exact List.map_congr_left fun flaw _ => diagnose_rebase base hlexeme flaw
          rw [hstep, hstep, hbehind]
          simp only [rebase, Diagnostics.rebase, List.map_cons, List.map_append, htoken, hflaws]

theorem read_rebase {source : Bytes} (hshort : source.length < 2 ^ 32) :
    read source base = (read source origin).rebase base := by
  have hwalk := @walk_rebase base 0 [] source hshort
  rwa [Location.behind_nil, Location.behind_nil] at hwalk

end Lexed

/-- Moving what a text that begins at the origin is read as. -/
def Relabelling.rebasing (base : Location) : Relabelling where
  change token := token.rebase base
  move diagnostic := diagnostic.rebase base
  kind_change _ := rfl
  isFlag_change _ := id
  move_error _ _ _ := rfl

/-- Where a token stands does not make it a flag. -/
theorem Relabelling.rebasing_keeps (base : Location) (tokens : List Token) :
    (rebasing base).Keeps tokens := fun _ _ => id

namespace ParsedSource

open Location (origin)

/-- A text as it is parsed, with all tokens of its tree and all that is said of it moved. -/
def rebase (parsed : ParsedSource) (base : Location) : ParsedSource where
  tree := parsed.tree.relabel (·.rebase base)
  diagnostics := parsed.diagnostics.rebase base

theorem before_rebase (base : Location) {source : Bytes} (hshort : source.length < 2 ^ 32) :
    before source base = (before source origin).relabel (.rebasing base) := by
  simp only [before, ParseState.start, Lexed.read_rebase base hshort]
  rfl

/-- A text of less than `2 ^ 32` bytes that begins at any place has the tokens that it has at the
origin, with the same kinds and texts, and the same tree, and the same is said of its tokens and
of its grammar; every span is the one at the origin, moved. -/
theorem read_rebased (source : Bytes) (base : Location) (hshort : source.length < 2 ^ 32) :
    Lexed.read source base = (Lexed.read source origin).rebase base ∧
      ParsedSource.read source base = (ParsedSource.read source origin).rebase base := by
  have hlexed := Lexed.read_rebase base hshort
  refine ⟨hlexed, ?_⟩
  obtain ⟨outcome, said, h⟩ := exists_reading source origin
  obtain ⟨result, more, hbase⟩ := exists_reading source base
  obtain ⟨htrees, ⟨-, hcursor⟩, hsaid⟩ := h.compare hbase (Parser.relabelled (.rebasing base))
    ⟨Lexed.finish_kind source origin, before_rebase base hshort⟩ (Relabelling.rebasing_keeps base _)
  rw [h.read_eq, hbase.read_eq, hcursor, htrees, hsaid, hlexed]
  simp only [rebase, Lexed.rebase, SyntaxTree.relabel_node, SyntaxTree.relabelAll_append,
    SyntaxTree.relabelAll_tokens, List.map_append, List.map_cons, List.map_nil, Diagnostics.rebase]
  rfl

/-- An instruction on the first line, and on the second one a register that has no name. -/
def namelessRegister : Bytes := ascii "inc $0\ninc $\n"

theorem read_rebased_of_namelessRegister :
    namelessRegister.length < 2 ^ 32 ∧
      ((Lexed.read namelessRegister origin).diagnostics.map fun diagnostic =>
        (diagnostic.span.rebase ⟨7, 5, 100⟩).start) = [⟨8, 5, 111⟩] ∧
      Lexed.read namelessRegister ⟨7, 5, 100⟩ =
        (Lexed.read namelessRegister origin).rebase ⟨7, 5, 100⟩ ∧
      ParsedSource.read namelessRegister ⟨7, 5, 100⟩ =
        (ParsedSource.read namelessRegister origin).rebase ⟨7, 5, 100⟩ := by
  have hshort : namelessRegister.length < 2 ^ 32 := by decide
  exact ⟨hshort, by decide +kernel, read_rebased namelessRegister ⟨7, 5, 100⟩ hshort⟩

end ParsedSource

end NovelAsm
