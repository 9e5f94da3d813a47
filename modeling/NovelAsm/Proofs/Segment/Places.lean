import NovelAsm.Proofs.Segment.Cut
import NovelAsm.Proofs.Token.Places

/-!
Where segments begin. A segment begins on a line of code that continues no other and lies in no
body, and its origin counts the bytes and the line feeds in front of it (`Segment.split_begins`).
-/

namespace NovelAsm

open Lexeme (EndsLine)

theorem Location.behind_column_of_endsLine (place : Location) {text : Bytes} (h : EndsLine text) :
    (place.behind text).column = 1 := by
  have hnone : lastLine text = [] := by
    obtain ⟨front, rfl⟩ := List.getLast?_eq_some_iff.mp h
    simp [lastLine]
  simp [behind, h.exists_mem, hnone]

namespace Segment

/-- The lines in front of another one are those of the text in front of it. -/
theorem lines_flatten {source line : Bytes} {front behind : List Bytes}
    (h : lines source = front ++ line :: behind) : lines front.flatten = front := by
  induction source generalizing front line with
  | nil => simp [lines] at h
  | cons b rest ih =>
      cases front with
      | nil => rfl
      | cons first front =>
          rw [lines] at h
          split at h
          · rename_i hb
            obtain ⟨rfl, hrest⟩ := List.cons.inj h
            rw [List.flatten_cons, List.singleton_append, lines, if_pos hb, ih hrest]
          · rename_i hb
            cases hlines : lines rest with
            | nil => simp [hlines] at h
            | cons head more =>
                rw [hlines] at h
                obtain ⟨rfl, rfl⟩ := List.cons.inj h
                have hmore : lines (head ++ front.flatten) = head :: front :=
                  @ih line (head :: front) hlines
                rw [List.flatten_cons, List.cons_append, lines, if_neg hb, hmore]

namespace State

/-- The state behind some lines. -/
def after (state : State) (texts : List Bytes) : State := texts.foldl next state

theorem after_concat (state : State) (texts : List Bytes) (line : Bytes) :
    state.after (texts ++ [line]) = (state.after texts).next line := by
  rw [after, List.foldl_append, List.foldl_cons, List.foldl_nil, after]

/-- The word that closes the body behind a line. A line at an item opens a body if it is in none,
and closes the one it is in with its word. -/
theorem next_closer_iff {state : State} {line : Bytes} {word : Keyword} :
    (state.next line).closer = some word ↔
      (state.atItem = true ∧ state.closer = none ∧
          (readHead (content line)).closer? = some word) ∨
        (state.closer = some word ∧
          (state.atItem = true → (readHead (content line)).keyword? ≠ some word)) := by
  simp only [State.next]
  cases state.atItem with
  | false => simp
  | true =>
      cases state.closer with
      | none => simp
      | some other =>
          by_cases hword : (readHead (content line)).keyword? = some other
          · simp [hword]
          · simp only [Bool.not_true, Bool.false_eq_true, if_false, beq_iff_eq, hword,
              Option.some.injEq, reduceCtorEq, false_and, and_false, false_or, true_imp_iff]
            refine ⟨?_, And.left⟩
            rintro rfl
            exact ⟨rfl, hword⟩

/-- A line that opens an item begins in code, continues no other and is in no body. -/
theorem opens_spec {state : State} {line : Bytes} (h : state.opens line = true) :
    state.mode = .code ∧ state.continued = false ∧ state.closer = none := by
  simp only [opens, atItem, Bool.and_eq_true, beq_iff_eq, Bool.not_eq_true',
    Option.isNone_iff_eq_none] at h
  exact ⟨h.1.1.1, h.1.1.2, h.1.2⟩

end State

/-- Lines that end in the body that `word` closes. One of them, at an item and in no body, is its
header, and no later one at an item has that word. -/
def InBody (word : Keyword) (texts : List Bytes) : Prop :=
  ∃ front header body, texts = front ++ header :: body ∧
    (State.initial.after front).atItem = true ∧ (State.initial.after front).closer = none ∧
    (readHead (content header)).closer? = some word ∧
    ∀ inner line rest, body = inner ++ line :: rest →
      (State.initial.after (front ++ header :: inner)).atItem = true →
        (readHead (content line)).keyword? ≠ some word

theorem inBody_concat {word : Keyword} {texts : List Bytes} {line : Bytes} :
    InBody word (texts ++ [line]) ↔
      ((State.initial.after texts).atItem = true ∧ (State.initial.after texts).closer = none ∧
          (readHead (content line)).closer? = some word) ∨
        (InBody word texts ∧ ((State.initial.after texts).atItem = true →
          (readHead (content line)).keyword? ≠ some word)) := by
  constructor
  · rintro ⟨front, header, body, htexts, hitem, hnone, hword, hbody⟩
    rcases List.eq_nil_or_concat' body with rfl | ⟨inner, last, rfl⟩
    · obtain ⟨rfl, hline⟩ := List.append_inj' htexts rfl
      cases hline
      exact .inl ⟨hitem, hnone, hword⟩
    · rw [← List.cons_append, ← List.append_assoc] at htexts
      obtain ⟨rfl, hline⟩ := List.append_inj' htexts rfl
      cases hline
      refine .inr ⟨⟨front, header, inner, rfl, hitem, hnone, hword, ?_⟩, hbody inner line [] rfl⟩
      exact fun more other rest hmore => hbody more other (rest ++ [line]) (by simp [hmore])
  · rintro (⟨hitem, hnone, hword⟩ | ⟨⟨front, header, body, rfl, hitem, hnone, hword, hbody⟩, hline⟩)
    · exact ⟨texts, line, [], rfl, hitem, hnone, hword, by simp⟩
    · refine ⟨front, header, body ++ [line], by simp, hitem, hnone, hword, ?_⟩
      intro inner other rest hinner
      rcases List.eq_nil_or_concat' rest with rfl | ⟨rest, last, rfl⟩
      · obtain ⟨rfl, hlast⟩ := List.append_inj' hinner rfl
        cases hlast
        exact hline
      · rw [← List.cons_append, ← List.append_assoc] at hinner
        exact hbody inner other rest (List.append_inj' hinner rfl).1

/-- The scanner knows which body it is in. -/
theorem closer_after_iff {texts : List Bytes} {word : Keyword} :
    (State.initial.after texts).closer = some word ↔ InBody word texts := by
  induction texts using List.reverseRecOn with
  | nil => simp [InBody, State.after, State.initial]
  | append_singleton texts line ih =>
      rw [State.after_concat, State.next_closer_iff, inBody_concat, ih]

/-- A marked line opens an item behind the lines in front of it. -/
theorem opens_of_mark {state : State} {texts : List Bytes} {front rest : List (Bool × Bytes)}
    {line : Bytes} (h : mark state texts = front ++ (true, line) :: rest) :
    (state.after (front.map Prod.snd)).opens line = true := by
  induction texts generalizing state front with
  | nil => simp [mark] at h
  | cons first texts ih =>
      cases front with
      | nil =>
          obtain ⟨hopens, rfl⟩ := Prod.mk.inj (List.cons.inj h).1
          exact hopens
      | cons marked front =>
          obtain ⟨rfl, hrest⟩ := List.cons.inj h
          exact @ih (state.next first) front hrest

/-- Each segment begins with a marked line, at the place behind all in front of it. -/
theorem exists_marked {place : Location} {marked : List (Bool × Bytes)}
    {before behind : List Segment} {segment : Segment}
    (h : (gather place marked).2 = before ++ segment :: behind) :
    ∃ front line rest, marked = front ++ (true, line) :: rest ∧
      (gather place marked).1 ++ (before.map text).flatten = (front.map Prod.snd).flatten ∧
      segment.origin = place.advance (front.map Prod.snd).flatten ∧
      segment.text = line ++ (gather (segment.origin.advance line) rest).1 := by
  induction marked generalizing place before with
  | nil => simp [gather] at h
  | cons first marked ih =>
      obtain ⟨opens, line⟩ := first
      cases opens with
      | false =>
          obtain ⟨front, other, rest, rfl, hfront, horigin, htext⟩ := ih h
          refine ⟨(false, line) :: front, other, rest, rfl, ?_, ?_, htext⟩
          · change (line ++ _) ++ _ = line ++ _
            rw [List.append_assoc, hfront]
          · rw [horigin, Location.advance, Location.advance, ← List.foldl_append]
            rfl
      | true =>
          cases before with
          | nil =>
              obtain ⟨rfl, -⟩ := List.cons.inj h
              exact ⟨[], line, marked, rfl, rfl, rfl, rfl⟩
          | cons head before =>
              obtain ⟨rfl, hbehind⟩ := List.cons.inj h
              obtain ⟨front, other, rest, rfl, hfront, horigin, htext⟩ := ih hbehind
              refine ⟨(true, line) :: front, other, rest, rfl, ?_, ?_, htext⟩
              · change (line ++ _) ++ _ = line ++ _
                rw [List.append_assoc, hfront]
              · rw [horigin, Location.advance, Location.advance, ← List.foldl_append]
                rfl

/-- A segment of a source that is not empty begins with one of its lines, which opens an item
unless it is the first. -/
theorem exists_line {source : Bytes} {before behind : List Segment} {segment : Segment}
    (h : split source = before ++ segment :: behind) (hsource : source ≠ []) :
    ∃ line rest more, line ≠ [] ∧
      lines source = lines (before.map text).flatten ++ line :: rest ∧
      segment.origin = Location.origin.advance (before.map text).flatten ∧
      segment.text = line ++ more ∧
      (lines (before.map text).flatten = [] ∨
        (State.initial.after (lines (before.map text).flatten)).opens line = true) := by
  have hmap := map_snd_mark .initial (lines source)
  rw [split] at h
  split at h
  · rename_i hmark
    rw [hmark] at hmap
    exact absurd (by rw [← flatten_lines source, ← hmap]; rfl) hsource
  · rename_i opens head marked hmark
    obtain ⟨front, line, rest, hmarked, hfront, horigin, htext⟩ := exists_marked h
    have hlines : lines source = front.map Prod.snd ++ line :: rest.map Prod.snd := by
      rw [← hmap, hmark, List.map_cons]
      exact (congrArg (List.map Prod.snd) hmarked).trans (by simp)
    replace hfront : (before.map text).flatten = (front.map Prod.snd).flatten := hfront
    rw [hfront, lines_flatten hlines]
    have hline : line ∈ lines source := by simp [hlines]
    refine ⟨line, rest.map Prod.snd, _, ne_nil_of_mem_lines hline, hlines, horigin, htext, ?_⟩
    cases front with
    | nil => exact .inl rfl
    | cons first front =>
        obtain ⟨rfl, rfl⟩ := List.cons.inj hmarked
        exact .inr (@opens_of_mark .initial (lines source) ((opens, head) :: front) rest line hmark)

/-- What is known of a segment behind the bytes in front of it: its origin counts them, and behind
their lines there is code, no line to be continued and no body. -/
structure Begins (front : Bytes) (segment : Segment) : Prop where
  column : segment.origin.column = 1
  offset : segment.origin.offset.toNat = front.length
  line : segment.origin.line.toNat = 1 + front.count (byte '\n')
  code : (State.initial.after (lines front)).mode = .code
  fresh : (State.initial.after (lines front)).continued = false
  outside : ∀ word, ¬ InBody word (lines front)

variable {source : Bytes} {before behind : List Segment} {segment : Segment}

/-- What stands in front of a segment ends with a line feed. -/
theorem endsLine_of_split (h : split source = before ++ segment :: behind) (hne : before ≠ []) :
    EndsLine (before.map text).flatten := by
  obtain ⟨front, last, rfl⟩ := (List.eq_nil_or_concat' before).resolve_left hne
  have hcut := (split_spec source).2
  rw [h, List.map_append, List.map_cons, Cut, List.isChain_append] at hcut
  have hlast : EndsLine last.text := (hcut.2.2 last.text (by simp) segment.text rfl).1
  rw [List.map_append, List.flatten_append]
  simpa using endsLine_append (front.map text).flatten hlast

/-- Behind what stands in front of a segment, the scanner is where an item can begin. -/
theorem scanned_of_split (h : split source = before ++ segment :: behind) (hsource : source ≠ []) :
    (State.initial.after (lines (before.map text).flatten)).mode = .code ∧
      (State.initial.after (lines (before.map text).flatten)).continued = false ∧
      (State.initial.after (lines (before.map text).flatten)).closer = none := by
  obtain ⟨line, -, -, -, -, -, -, hfirst | hopens⟩ := exists_line h hsource
  · rw [hfirst]
    exact ⟨rfl, rfl, rfl⟩
  · exact State.opens_spec hopens

/-- A source without a byte is one segment without a byte. -/
theorem eq_of_split_nil (h : split [] = before ++ segment :: behind) :
    before = [] ∧ segment = ⟨[], .origin⟩ := by
  cases before with
  | nil => exact ⟨rfl, (List.cons.inj h).1.symm⟩
  | cons first before => simp [split, lines, mark] at h

/-- The origin of a segment is the place behind what stands in front of it. -/
theorem origin_of_split (h : split source = before ++ segment :: behind) :
    segment.origin = Location.origin.behind (before.map text).flatten := by
  by_cases hsource : source = []
  · subst hsource
    obtain ⟨rfl, rfl⟩ := eq_of_split_nil h
    rfl
  · obtain ⟨-, -, -, -, -, horigin, -⟩ := exists_line h hsource
    rw [horigin, Location.advance_eq_behind]

theorem column_of_split (h : split source = before ++ segment :: behind) :
    segment.origin.column = 1 := by
  rw [origin_of_split h]
  by_cases hne : before = []
  · rw [hne]
    rfl
  · exact Location.behind_column_of_endsLine .origin (endsLine_of_split h hne)

theorem begins_of_split (hsize : source.length < 2 ^ 32)
    (h : split source = before ++ segment :: behind) :
    segment.Begins (before.map text).flatten := by
  by_cases hsource : source = []
  · subst hsource
    obtain ⟨rfl, rfl⟩ := eq_of_split_nil h
    exact ⟨rfl, rfl, rfl, rfl, rfl, fun word hbody => nomatch closer_after_iff.mpr hbody⟩
  obtain ⟨line, rest, more, hline, hlines, -⟩ := exists_line h hsource
  obtain ⟨hcode, hfresh, hcloser⟩ := scanned_of_split h hsource
  have hcolumn := column_of_split h
  have horigin := origin_of_split h
  generalize (before.map text).flatten = front at *
  have hbehind : front.length < source.length := by
    have hlength := congrArg (fun lines => lines.flatten.length) hlines
    simp only [List.flatten_append, List.flatten_cons, flatten_lines, List.length_append] at hlength
    have hpos := List.length_pos_iff.mpr hline
    omega
  have hcount : front.count (byte '\n') ≤ front.length := List.count_le_length
  refine ⟨hcolumn, ?_, ?_, hcode, hfresh, fun word hbody => ?_⟩
  · rw [horigin, Location.behind, Location.origin, UInt32.zero_add]
    exact UInt32.toNat_ofNat_of_lt' (hbehind.trans hsize)
  · rw [horigin, Location.behind, Location.origin, UInt32.toNat_add]
    change (1 + front.count (byte '\n') % 2 ^ 32) % 2 ^ 32 = _
    omega
  · rw [closer_after_iff.mpr hbody] at hcloser
    cases hcloser

/-- The segments of a source are the source, cut behind line feeds. There is one, and none is empty
unless the source is. Each begins where an item can: its origin counts the bytes and the line feeds
in front of it, and it begins in no comment, on a line that continues no other, and in no body. -/
theorem split_begins (hsize : source.length < 2 ^ 32) :
    split source ≠ [] ∧ ((split source).map text).flatten = source ∧
      (∀ segment ∈ split source, segment.text = [] → source = []) ∧
      ∀ before segment behind, split source = before ++ segment :: behind →
        (before ≠ [] → EndsLine (before.map text).flatten) ∧
          segment.Begins (before.map text).flatten := by
  refine ⟨fun hnone => ?_, (split_spec source).1, fun segment hmem hempty => ?_,
    fun before segment behind h => ⟨endsLine_of_split h, begins_of_split hsize h⟩⟩
  · unfold split at hnone
    split at hnone
    · cases hnone
    · simp [gather] at hnone
  · by_contra hsource
    obtain ⟨before, behind, h⟩ := List.append_of_mem hmem
    obtain ⟨line, rest, more, hline, -, -, htext, -⟩ := exists_line h hsource
    rw [hempty] at htext
    exact hline (List.append_eq_nil_iff.mp htext.symm).1

/-- A label in a comment, one in a function, and one on a line of its own. -/
theorem split_begins_label :
    let source := ascii "/* a:\n*/\nfunction f\nb:\nendfun\r\nc: halt"
    let function : Segment := ⟨ascii "function f\nb:\nendfun\r\n", ⟨3, 1, 9⟩⟩
    let label : Segment := ⟨ascii "c: halt", ⟨6, 1, 31⟩⟩
    source.length < 2 ^ 32 ∧
      split source = [⟨ascii "/* a:\n*/\n", .origin⟩, function, label] ∧
      function.Begins (ascii "/* a:\n*/\n") ∧
      label.Begins (ascii "/* a:\n*/\nfunction f\nb:\nendfun\r\n") := by
  intro source function label
  have hsize : source.length < 2 ^ 32 := by decide
  have hsplit : split source = [⟨ascii "/* a:\n*/\n", .origin⟩, function, label] := by
    decide +kernel
  obtain ⟨-, -, -, hbegins⟩ := split_begins hsize
  exact ⟨hsize, hsplit, (hbegins [_] function [label] hsplit).2,
    (hbegins [_, function] label [] hsplit).2⟩

end Segment

end NovelAsm
