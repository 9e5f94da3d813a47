import Mathlib.Data.List.Chain
import NovelAsm.Proofs.SyntaxTree.Parsed
import NovelAsm.Proofs.Token.Beginnings

/-!
Where a source is cut. The segments put together are the source; each but the last ends with
a line feed, and each but the first begins with a line that opens an item. A segment that is
parsed without a complaint therefore begins with a token that opens an item whatever stands
before it.
-/

namespace NovelAsm

namespace Segment

open Lexeme (EndsLine)

theorem flatten_lines (source : Bytes) : (lines source).flatten = source := by
  induction source with
  | nil => rfl
  | cons b rest ih =>
      simp only [lines]
      split
      · simp [ih]
      · cases hlines : lines rest with
        | nil => simpa [hlines] using ih
        | cons line more => simpa [hlines] using ih

theorem ne_nil_of_mem_lines {source line : Bytes} (h : line ∈ lines source) : line ≠ [] := by
  induction source generalizing line with
  | nil => cases h
  | cons b rest ih =>
      simp only [lines] at h
      split at h
      · rcases List.mem_cons.mp h with rfl | h
        · exact List.cons_ne_nil _ _
        · exact ih h
      · split at h
        · obtain rfl := List.mem_singleton.mp h
          exact List.cons_ne_nil _ _
        · rename_i first more hlines
          rcases List.mem_cons.mp h with rfl | h
          · exact List.cons_ne_nil _ _
          · exact ih (hlines ▸ List.mem_cons_of_mem _ h)

/-- Every line but the last ends with a line feed. -/
theorem lines_isChain (source : Bytes) :
    (lines source).IsChain fun line _ => EndsLine line := by
  induction source with
  | nil => exact .nil
  | cons b rest ih =>
      simp only [lines]
      split
      · rename_i hline
        rw [List.isChain_cons]
        obtain rfl : b = byte '\n' := by simpa using hline
        exact ⟨fun _ _ => rfl, ih⟩
      · cases hlines : lines rest with
        | nil => exact .singleton _
        | cons line more =>
            rw [hlines, List.isChain_cons] at ih
            simp only [List.isChain_cons]
            refine ⟨fun other hother => ?_, ih.2⟩
            have hline := ih.1 other hother
            have hne : line ≠ [] := ne_nil_of_mem_lines (hlines ▸ List.mem_cons_self ..)
            obtain ⟨c, others, rfl⟩ := List.exists_cons_of_ne_nil hne
            simpa [EndsLine] using hline

/-- A text whose first line opens an item. -/
def Opening (text : Bytes) : Prop := (readHead (content text)).opensItem = true

theorem map_snd_mark (state : State) (texts : List Bytes) :
    (mark state texts).map Prod.snd = texts := by
  induction texts generalizing state with
  | nil => rfl
  | cons line rest ih => simp [mark, ih]

theorem opensItem_of_mem_mark {state : State} {texts : List Bytes} {line : Bytes}
    (h : (true, line) ∈ mark state texts) : (readHead (content line)).opensItem = true := by
  induction texts generalizing state with
  | nil => cases h
  | cons first rest ih =>
      rcases List.mem_cons.mp h with h | h
      · obtain ⟨hopens, rfl⟩ := Prod.ext_iff.mp h
        exact ((Bool.and_eq_true _ _).mp hopens.symm).2
      · exact ih h

/-- Texts of which each but the last ends with a line feed, and each but the first opens an
item. -/
def Cut (texts : List Bytes) : Prop := texts.IsChain fun text next => EndsLine text ∧ Opening next

theorem Opening.append {line more : Bytes} (h : Opening line) (hend : more = [] ∨ EndsLine line) :
    Opening (line ++ more) := by
  rcases hend with rfl | hend
  · rwa [List.append_nil]
  · rw [Opening, content, Lexeme.takeWhile_append _ ⟨_, hend.exists_mem, by decide⟩]
    exact h

theorem nil_or_endsLine {place : Location} {line : Bytes} {rest : List (Bool × Bytes)}
    (hlines : ∀ next ∈ (rest.map Prod.snd).head?, EndsLine line) :
    (gather place rest).1 = [] ∨ EndsLine line := by
  cases rest with
  | nil => exact Or.inl rfl
  | cons second rest => exact Or.inr (hlines _ rfl)

theorem endsLine_append {text : Bytes} (line : Bytes) (h : EndsLine text) :
    EndsLine (line ++ text) := by
  rw [EndsLine, List.getLast?_append, h]
  rfl

/-- A line and the lines that are joined to it, before another segment. -/
theorem endsLine_gathered {place : Location} {line : Bytes} {rest : List (Bool × Bytes)}
    (hlines : ∀ next ∈ (rest.map Prod.snd).head?, EndsLine line)
    (hne : (gather place rest).2 ≠ [])
    (hend : (gather place rest).1 = [] ∨ EndsLine (gather place rest).1) :
    EndsLine (line ++ (gather place rest).1) := by
  rcases hend with hnone | hends
  · rw [hnone, List.append_nil]
    cases rest with
    | nil => exact absurd rfl hne
    | cons second rest => exact hlines _ rfl
  · exact endsLine_append line hends

/-- Joining marked lines loses nothing, and cuts behind line feeds alone. -/
theorem gather_spec (place : Location) (marked : List (Bool × Bytes))
    (hlines : (marked.map Prod.snd).IsChain fun line _ => EndsLine line)
    (hopens : ∀ line, (true, line) ∈ marked → Opening line) :
    (gather place marked).1 ++ ((gather place marked).2.map text).flatten =
        (marked.map Prod.snd).flatten ∧
      Cut ((gather place marked).2.map text) ∧
      (∀ first ∈ ((gather place marked).2.map text).head?, Opening first) ∧
      ((gather place marked).2 ≠ [] → (gather place marked).1 = [] ∨
        EndsLine (gather place marked).1) := by
  induction marked generalizing place with
  | nil => exact ⟨rfl, .nil, nofun, fun h => absurd rfl h⟩
  | cons first rest ih =>
      obtain ⟨opens, line⟩ := first
      rw [List.map_cons, List.isChain_cons] at hlines
      obtain ⟨htext, hcut, hfirst, hend⟩ := ih (place.advance line) hlines.2
        fun other hother => hopens other (List.mem_cons_of_mem _ hother)
      have hline (hne : (gather (place.advance line) rest).2 ≠ []) :
          EndsLine (line ++ (gather (place.advance line) rest).1) :=
        endsLine_gathered hlines.1 hne (hend hne)
      cases opens with
      | true =>
          simp only [gather, if_true, List.map_cons, List.flatten_cons, List.nil_append]
          refine ⟨by rw [List.append_assoc, htext], ?_, fun first hhead => ?_,
            fun _ => Or.inl trivial⟩
          · refine List.isChain_cons.mpr ⟨fun next hnext => ⟨hline ?_, hfirst next hnext⟩, hcut⟩
            intro hnone
            simp [hnone] at hnext
          · obtain rfl := Option.some.inj hhead
            exact (hopens line (List.mem_cons_self ..)).append (nil_or_endsLine hlines.1)
      | false =>
          simp only [gather, Bool.false_eq_true, if_false, List.map_cons, List.flatten_cons]
          exact ⟨by rw [List.append_assoc, htext], hcut, hfirst, fun hne => Or.inr (hline hne)⟩

/-- The segments of a source put together are the source, which is cut where an item opens. -/
theorem split_spec (source : Bytes) :
    ((split source).map text).flatten = source ∧ Cut ((split source).map text) := by
  have hlines := lines_isChain source
  have hmap := map_snd_mark .initial (lines source)
  have hopens (line : Bytes) (h : (true, line) ∈ mark .initial (lines source)) : Opening line :=
    opensItem_of_mem_mark h
  rw [← hmap] at hlines
  unfold split
  split
  · rename_i hmark
    rw [hmark] at hmap
    have hsource := flatten_lines source
    rw [← hmap] at hsource
    exact ⟨hsource, .singleton _⟩
  · rename_i opens line rest hmark
    rw [hmark] at hlines hmap hopens
    rw [List.map_cons, List.isChain_cons] at hlines
    obtain ⟨htext, hcut, hfirst, hend⟩ := gather_spec (Location.origin.advance line) rest hlines.2
      fun other hother => hopens other (List.mem_cons_of_mem _ hother)
    have hsource := flatten_lines source
    rw [← hmap, List.map_cons, List.flatten_cons, ← htext] at hsource
    simp only [gather, if_true, List.map_cons, List.flatten_cons]
    refine ⟨by rw [List.append_assoc, hsource], List.isChain_cons.mpr ⟨fun next hnext => ?_, hcut⟩⟩
    have hne : (gather (Location.origin.advance line) rest).2 ≠ [] := by
      intro hnone
      simp [hnone] at hnext
    exact ⟨endsLine_gathered hlines.1 hne (hend hne), hfirst next hnext⟩

/-- What holds of no lines, and of lines with one of the source in front if it holds of them, holds
of the texts that marked lines are joined to. -/
theorem gather_closed {P : Bytes → Prop} (hnil : P []) (place : Location)
    {marked : List (Bool × Bytes)} (hcons : ∀ line ∈ marked, ∀ text, P text → P (line.2 ++ text)) :
    P (gather place marked).1 ∧ ∀ segment ∈ (gather place marked).2, P segment.text := by
  induction marked generalizing place with
  | nil => exact ⟨hnil, nofun⟩
  | cons first rest ih =>
      obtain ⟨opens, line⟩ := first
      obtain ⟨hfirst, hrest⟩ := List.forall_mem_cons.mp hcons
      obtain ⟨htext, hsegments⟩ := ih (place.advance line) hrest
      cases opens with
      | true => exact ⟨hnil, List.forall_mem_cons.mpr ⟨hfirst _ htext, hsegments⟩⟩
      | false => exact ⟨hfirst _ htext, hsegments⟩

/-- A segment is lines of the source behind one another. -/
theorem split_closed {P : Bytes → Prop} {source : Bytes} (hnil : P [])
    (hcons : ∀ line ∈ lines source, ∀ text, P text → P (line ++ text)) :
    ∀ segment ∈ split source, P segment.text := by
  have hmarked : ∀ line ∈ mark .initial (lines source), ∀ text, P text → P (line.2 ++ text) :=
    fun line hline => hcons line.2 (map_snd_mark .initial (lines source) ▸
      List.mem_map_of_mem hline)
  rw [split]
  split
  · exact List.forall_mem_singleton.mpr hnil
  · rename_i opens line rest hmark
    rw [hmark] at hmarked
    obtain ⟨hfirst, hrest⟩ := List.forall_mem_cons.mp hmarked
    exact (@gather_closed P hnil .origin ((true, line) :: rest)
      (List.forall_mem_cons.mpr ⟨hfirst, hrest⟩)).2

/-- Lines of a text end at its line feeds. -/
theorem lines_append {body : Bytes} (h : byte '\n' ∉ body) (rest : Bytes) :
    lines (body ++ byte '\n' :: rest) = (body ++ [byte '\n']) :: lines rest := by
  induction body with
  | nil => rw [List.nil_append, lines, if_pos (beq_self_eq_true _)]; rfl
  | cons b more ih =>
      obtain ⟨hne, hmore⟩ := (List.ne_and_not_mem_of_not_mem_cons h)
      rw [List.cons_append, lines, if_neg (by simpa using Ne.symm hne), ih hmore]
      rfl

/-- The first line of a text that opens an item: blanks, and a word that no digit begins. A
label has a colon behind its word. -/
theorem Opening.exists_word {text : Bytes} (h : Opening text) :
    ∃ gaps first more behind, text = gaps ++ (first :: more ++ behind) ∧
      (∀ b ∈ gaps, isGap b = true) ∧ Byte.isNameStart first = true ∧
      (∀ b ∈ more, Byte.isNamePart b = true) ∧
      (∀ b ∈ behind.head?, Byte.isNamePart b = false) ∧
      (Keyword.ofText? (first :: more) ∈ [some .function, some .subroutine, some .definition] ∨
        ∃ others rest, behind = others ++ byte ':' :: rest ∧ ∀ b ∈ others, isGap b = true) := by
  have hempty : (⟨[], false⟩ : Head).opensItem = false := by decide
  have htext : content text ++ text.dropWhile (· != byte '\n') = text :=
    List.takeWhile_append_dropWhile
  have hgaps := List.takeWhile_append_dropWhile (p := isGap) (l := content text)
  have hword := List.takeWhile_append_dropWhile (p := Byte.isNamePart)
    (l := (content text).dropWhile isGap)
  simp only [Opening, readHead] at h
  generalize hline : (content text).dropWhile isGap = line at h hgaps hword
  cases hfirst : line.takeWhile Byte.isNamePart with
  | nil => simp [hfirst, hempty] at h
  | cons first more =>
      simp only [hfirst, List.head?_cons, Option.all_some] at h
      split at h
      · rw [hempty] at h
        cases h
      · rename_i hdigit
        have hpart : ∀ b ∈ first :: more, Byte.isNamePart b = true :=
          fun b hb => List.mem_takeWhile_imp (hfirst ▸ hb)
        refine ⟨(content text).takeWhile isGap, first, more,
          line.dropWhile Byte.isNamePart ++ text.dropWhile (· != byte '\n'), ?_,
          fun b hb => List.mem_takeWhile_imp hb, ?_,
          fun b hb => hpart b (List.mem_cons_of_mem _ hb), ?_, ?_⟩
        · rw [← List.append_assoc (first :: more), ← hfirst, hword, ← List.append_assoc,
            hgaps, htext]
        · have hstart := hpart first (List.mem_cons_self ..)
          simpa [Byte.isNamePart, hdigit] using hstart
        · intro b hb
          cases hrest : line.dropWhile Byte.isNamePart with
          | cons c rest =>
              have hnot := List.head?_dropWhile_not Byte.isNamePart line
              rw [hrest] at hb hnot
              obtain rfl : c = b := by simpa using hb
              simpa using hnot
          | nil =>
              rw [hrest, List.nil_append] at hb
              have hnot := List.head?_dropWhile_not (· != byte '\n') text
              rw [hb] at hnot
              obtain rfl : b = byte '\n' := by simpa using hnot
              decide
        · simp only [Head.opensItem, Head.keyword?, Bool.or_eq_true, List.contains_iff_mem] at h
          rcases h with hcolon | hkeyword
          · refine Or.inr ?_
            have hothers := List.takeWhile_append_dropWhile (p := isGap)
              (l := line.dropWhile Byte.isNamePart)
            cases hrest : (line.dropWhile Byte.isNamePart).dropWhile isGap with
            | nil => simp [hrest] at hcolon
            | cons c rest =>
                obtain rfl : c = byte ':' := by simpa [hrest] using hcolon
                refine ⟨(line.dropWhile Byte.isNamePart).takeWhile isGap,
                  rest ++ text.dropWhile (· != byte '\n'), ?_, fun b hb =>
                    List.mem_takeWhile_imp hb⟩
                rw [hrest] at hothers
                rw [← List.cons_append, ← List.append_assoc, hothers]
          · exact Or.inl hkeyword

/-- A segment that opens an item begins with a token that opens one, whatever stands before it. -/
theorem Opening.opens {text : Bytes} (h : Opening text) {trees : List SyntaxTree}
    (hitems : Parser.Items (Lexed.tokensOf text) trees) : Parser.Opens (Lexed.tokensOf text) := by
  obtain ⟨gaps, first, more, behind, rfl, hgaps, hfirst, hmore, hbehind, hopens⟩ := h.exists_word
  have htokens : Lexed.tokensOf (gaps ++ (first :: more ++ behind)) =
      ⟨Lexed.wordKind (first :: more), first :: more, .origin⟩ :: Lexed.tokensOf behind := by
    have hblanks : Lexed.EndsBlanks (first :: more ++ behind) := Lexed.endsBlanks_word hfirst _
    rw [(Lexed.tokensOf_gaps hgaps hblanks).1, (Lexed.tokensOf_word hfirst hmore hbehind).1]
  rw [htokens] at hitems ⊢
  rcases hopens with hkeyword | ⟨others, rest, rfl, hothers⟩
  · refine ⟨_, _, rfl, Or.inl ?_⟩
    simp only [List.mem_cons, List.not_mem_nil, or_false] at hkeyword
    rcases hkeyword with h | h | h <;> simp only [Lexed.wordKind, h] <;> rfl
  · have hcolon := (Lexed.tokensOf_gaps hothers (Lexed.endsBlanks_cons (b := byte ':') (by decide)
      (by decide) (by decide) rest)).1.trans (Lexed.tokensOf_colon rest).1
    rw [hcolon] at hitems ⊢
    refine hitems.opens ?_ rfl
    cases hword : Keyword.ofText? (first :: more) <;> simp [Lexed.wordKind, hword]

/-- The items of a text, without places. -/
def itemsOf (text : Bytes) : List SyntaxTree :=
  SyntaxTree.coreAll (ParsedSource.read text .origin).tree.children

/-- A text that is parsed without a complaint. -/
def Clean (text : Bytes) : Prop := (ParsedSource.read text .origin).diagnostics = []

instance (text : Bytes) : Decidable (Clean text) :=
  inferInstanceAs (Decidable ((ParsedSource.read text .origin).diagnostics = []))

theorem Clean.flawless {text : Bytes} (h : Clean text) : Lexed.Flawless 0 text :=
  ((ParsedSource.diagnostics_eq_nil_iff text .origin).mp h).1

theorem Clean.items {text : Bytes} (h : Clean text) :
    Parser.Items (Lexed.tokensOf text) (itemsOf text) := ParsedSource.items_of_diagnostics h

theorem opens_append {tokens : List Token} (h : Parser.Opens tokens) (more : List Token) :
    Parser.Opens (tokens ++ more) := by
  obtain ⟨token, rest, rfl, hword | ⟨hname, colon, behind, rfl, hcolon⟩⟩ := h
  · exact ⟨token, rest ++ more, rfl, Or.inl hword⟩
  · exact ⟨token, _, rfl, Or.inr ⟨hname, colon, behind ++ more, rfl, hcolon⟩⟩

theorem Cut.flawless {texts : List Bytes} (h : Cut texts)
    (hflaws : ∀ text ∈ texts, Lexed.Flawless 0 text) : Lexed.Flawless 0 texts.flatten := by
  induction texts with
  | nil => exact trivial
  | cons text rest ih =>
      have htext := hflaws text (List.mem_cons_self ..)
      obtain ⟨hfirst, hrest⟩ := List.isChain_cons.mp h
      cases rest with
      | nil => simpa using htext
      | cons second rest =>
          rw [List.flatten_cons]
          exact (Lexed.flawless_append (Or.inr (hfirst second rfl).1) htext _).mpr
            (ih hrest fun other hother => hflaws other (List.mem_cons_of_mem _ hother))

/-- The items of clean texts that are cut where items open, if the texts put together are clean. -/
theorem Cut.items {texts : List Bytes} (h : Cut texts) (hclean : ∀ text ∈ texts, Clean text)
    {trees : List SyntaxTree} (hwhole : Parser.Items (Lexed.tokensOf texts.flatten) trees) :
    trees = texts.flatMap itemsOf := by
  induction texts generalizing trees with
  | nil => exact hwhole.unique .nil nofun
  | cons text rest ih =>
      have htext := hclean text (List.mem_cons_self ..)
      have hothers : ∀ other ∈ rest, Clean other :=
        fun other hother => hclean other (List.mem_cons_of_mem _ hother)
      have hflaws := h.flawless fun other hother => (hclean other hother).flawless
      obtain ⟨hfirst, hrest⟩ := List.isChain_cons.mp h
      rw [List.flatten_cons] at hwhole hflaws
      cases rest with
      | nil =>
          rw [List.flatten_nil, List.append_nil] at hwhole
          rw [hwhole.unique htext.items (ParsedSource.tokensOf_proper htext.flawless)]
          simp
      | cons second rest =>
          obtain ⟨hend, hopening⟩ := hfirst second rfl
          have htokens :=
            Lexed.tokensOf_append (Or.inr hend) htext.flawless (second :: rest).flatten
          have hproper := ParsedSource.tokensOf_proper hflaws
          have hopens : Parser.Opens (Lexed.tokensOf (second :: rest).flatten) := by
            have hsecond := hothers second (List.mem_cons_self ..)
            have hopens := hopening.opens hsecond.items
            rw [List.flatten_cons]
            cases rest with
            | nil => simpa using hopens
            | cons third rest =>
                rw [Lexed.tokensOf_append
                  (Or.inr ((List.isChain_cons.mp hrest).1 third rfl).1) hsecond.flawless]
                exact opens_append hopens _
          rw [htokens] at hwhole hproper
          obtain ⟨others, rfl, hitems⟩ := htext.items.exists_append hopens hwhole hproper
          simp only [ih hrest hothers hitems, List.flatMap_cons]

/-- If a source and each of its segments are parsed without a complaint, the items of the source
are those of its segments. -/
theorem itemsOf_split {source : Bytes} (hclean : Clean source)
    (hsegments : ∀ segment ∈ split source, Clean segment.text) :
    itemsOf source = (split source).flatMap fun segment => itemsOf segment.text := by
  obtain ⟨hflatten, hcut⟩ := split_spec source
  have hwhole : Parser.Items (Lexed.tokensOf ((split source).map Segment.text).flatten)
      (itemsOf source) := by
    rw [hflatten]
    exact hclean.items
  have hitems := hcut.items (by simpa using hsegments) hwhole
  rw [hitems, List.flatMap_map]

end Segment

end NovelAsm
