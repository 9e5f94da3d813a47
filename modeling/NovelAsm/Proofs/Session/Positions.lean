import NovelAsm.Proofs.Reports.Segments
import NovelAsm.Proofs.Segment.Places
import NovelAsm.Proofs.Session.Program

/-!
Where diagnostics point. A segment is read as if it stood alone, and begins a line of its file, so
moving a place of its text by its origin gives the place of the same byte in the file. Whatever is
said of a source therefore points between two of its bytes, the first not behind the second, and
counts the line feeds and the bytes in front of them; what is said is ordered by these places.
-/

namespace NovelAsm

namespace Location

open Lexeme (EndsLine)

/-- A place that counts the bytes of a source in front of it: their number, the line feeds among
them, and those behind the last line feed. Lines and columns are counted modulo `2 ^ 32`. -/
structure Marks (source : Bytes) (place : Location) : Prop where
  offset_le : place.offset.toNat ≤ source.length
  line_eq : place.line.toNat = (1 + (source.take place.offset.toNat).count (byte '\n')) % 2 ^ 32
  column_eq : place.column.toNat =
    (1 + (lastLine (source.take place.offset.toNat)).length) % 2 ^ 32

theorem lastLine_eq_self {text : Bytes} (h : byte '\n' ∉ text) : lastLine text = text.reverse := by
  rw [lastLine, List.takeWhile_eq_self_iff]
  intro b hb
  rw [List.mem_reverse] at hb
  simpa using fun hline : b = byte '\n' => h (hline ▸ hb)

theorem behind_origin_column (text : Bytes) :
    (origin.behind text).column = 1 + (lastLine text).length.toUInt32 := by
  by_cases h : byte '\n' ∈ text
  · simp [behind, h]
  · simp [behind, h, lastLine_eq_self h, origin]

section Short

variable {source : Bytes} (hshort : source.length < 2 ^ 32) {count : Nat}
  (hcount : count ≤ source.length)

include hshort hcount

theorem behind_offset : (origin.behind (source.take count)).offset.toNat = count := by
  have hlength : (source.take count).length = count := List.length_take_of_le hcount
  simp only [behind, origin, UInt32.zero_add, hlength]
  exact UInt32.toNat_ofNat_of_lt' (hcount.trans_lt hshort)

/-- The place behind the first bytes of a source. -/
theorem marks_behind : (origin.behind (source.take count)).Marks source := by
  have hoffset := behind_offset hshort hcount
  refine ⟨hoffset.symm ▸ hcount, ?_, ?_⟩
  · rw [hoffset]
    simp [behind, origin, UInt32.toNat_add]
  · rw [hoffset, behind_origin_column]
    simp [UInt32.toNat_add]

end Short

/-- Where a text begins a line, moving a place of the text gives the place of the same byte. -/
theorem rebase_behind {base : Location} (hbase : base.column = 1) (text : Bytes) :
    (origin.behind text).rebase base = base.behind text := by
  have hcolumn : (origin.behind text).column = (base.behind text).column := by
    simp only [behind, hbase, origin]
  rw [rebase, hbase, UInt32.add_sub_cancel, ite_self, hcolumn, behind_origin_line_add,
    behind_origin_offset_add]

end Location

namespace Span

/-- A span from behind some bytes of a source to behind as many or more. -/
def IsIn (source : Bytes) (span : Span) : Prop :=
  ∃ first last, first ≤ last ∧ last ≤ source.length ∧
    span = ⟨Location.origin.behind (source.take first), Location.origin.behind (source.take last)⟩

/-- Both ends of a span are places of a source, the first not behind the second. -/
structure Marks (source : Bytes) (span : Span) : Prop where
  ordered : span.start.offset.toNat ≤ span.stop.offset.toNat
  start : span.start.Marks source
  stop : span.stop.Marks source

theorem IsIn.marks {source : Bytes} {span : Span} (h : span.IsIn source)
    (hshort : source.length < 2 ^ 32) : span.Marks source := by
  obtain ⟨first, last, hordered, hlast, rfl⟩ := h
  have hfirst := hordered.trans hlast
  refine ⟨?_, Location.marks_behind hshort hfirst, Location.marks_behind hshort hlast⟩
  rw [Location.behind_offset hshort hfirst, Location.behind_offset hshort hlast]
  exact hordered

/-- A span of a text is one of every source that the text is a part of, once it is moved there. -/
theorem IsIn.rebase {front text back : Bytes} {span : Span} (h : span.IsIn text)
    (hcolumn : (Location.origin.behind front).column = 1) :
    (span.rebase (Location.origin.behind front)).IsIn (front ++ (text ++ back)) := by
  obtain ⟨first, last, hordered, hlast, rfl⟩ := h
  have hplace {count : Nat} (hcount : count ≤ text.length) :
      (Location.origin.behind (text.take count)).rebase (Location.origin.behind front) =
        Location.origin.behind ((front ++ (text ++ back)).take (front.length + count)) := by
    rw [Location.rebase_behind hcolumn, Location.behind_append, List.take_length_add_append,
      List.take_append_of_le_length hcount]
  refine ⟨front.length + first, front.length + last, by omega, ?_, ?_⟩
  · simp only [List.length_append]
    omega
  · rw [Span.rebase, hplace (hordered.trans hlast), hplace hlast]

end Span

namespace Lexed

open Location (origin)

/-- A flaw of a lexeme lies inside of it. -/
theorem walk_flaws_isIn {skip : Nat} {place : Location} {text : Bytes} (hskip : skip ≤ text.length)
    {diagnostic : Diagnostic} (h : diagnostic ∈ (walk skip place text).diagnostics) :
    ∃ first last, first ≤ last ∧ last ≤ (text.drop skip).length ∧ diagnostic.span =
      ⟨place.behind ((text.drop skip).take first), place.behind ((text.drop skip).take last)⟩ := by
  induction text generalizing skip place with
  | nil => cases h
  | cons b rest ih =>
      cases skip with
      | succ skip => exact ih (Nat.le_of_succ_le_succ hskip) h
      | zero =>
          obtain ⟨hmore, hflaws⟩ := Lexeme.scan_within b rest
          rw [walk_cons_zero] at h
          rcases List.mem_append.mp h with h | h
          · obtain ⟨flaw, hflaw, rfl⟩ := List.mem_map.mp h
            obtain ⟨hordered, hstop⟩ := hflaws flaw hflaw
            have hsize : (Lexeme.scan b rest).size ≤ (b :: rest).length :=
              Nat.succ_le_succ hmore
            have hcut {count : Nat} (hcount : count ≤ (Lexeme.scan b rest).size) :
                (b :: rest.take (Lexeme.scan b rest).more).take count =
                  (b :: rest).take count := by
              rw [← List.take_succ_cons, List.take_take,
                Nat.min_eq_left (show count ≤ (Lexeme.scan b rest).more + 1 from hcount)]
            refine ⟨flaw.start, flaw.stop, hordered, hstop.trans hsize, ?_⟩
            simp only [diagnose, Diagnostic.error, Location.advance_eq_behind, List.drop_zero,
              hcut hstop, hcut (hordered.trans hstop)]
          · obtain ⟨first, last, hordered, hlast, hspan⟩ := ih hmore h
            have hbehind (count : Nat) : (place.behind (b :: rest.take
                (Lexeme.scan b rest).more)).behind ((rest.drop (Lexeme.scan b rest).more).take
                  count) =
                place.behind ((b :: rest).take ((Lexeme.scan b rest).more + 1 + count)) := by
              rw [Location.behind_append, List.cons_append, Nat.add_right_comm, List.take_succ_cons,
                List.take_add]
            refine ⟨(Lexeme.scan b rest).more + 1 + first,
              (Lexeme.scan b rest).more + 1 + last, by omega, ?_, ?_⟩
            · rw [List.length_drop] at hlast
              simp only [List.drop_zero, List.length_cons]
              omega
            · rw [hspan]
              simp only [Span.covering, Location.advance_eq_behind, hbehind, List.drop_zero]

theorem flaws_isIn {text : Bytes} {diagnostic : Diagnostic}
    (h : diagnostic ∈ (read text origin).diagnostics) : diagnostic.span.IsIn text :=
  walk_flaws_isIn (Nat.zero_le _) h

/-- How many bytes are in front of a token of a text. -/
def startOf (text : Bytes) (index : Nat) : Nat :=
  (((read text origin).all.take index).flatMap Token.text).length

variable {text : Bytes}

/-- The tokens in front of one of a text, put together, are the first bytes of the text. -/
theorem flatMap_take_all (index : Nat) :
    ((read text origin).all.take index).flatMap Token.text = text.take (startOf text index) := by
  have htext := flatMap_text_read text origin
  rw [← List.take_append_drop index (read text origin).all, List.flatMap_append] at htext
  exact List.prefix_iff_eq_take.mp ⟨_, htext⟩

theorem startOf_mono {first last : Nat} (h : first ≤ last) :
    startOf text first ≤ startOf text last := by
  have hfront : (read text origin).all.take first <+: (read text origin).all.take last :=
    List.take_isPrefix_take.mpr (.inl h)
  exact (hfront.flatMap Token.text).length_le

theorem startOf_le (index : Nat) : startOf text index ≤ text.length := by
  have hfront := (List.take_prefix index (read text origin).all).flatMap Token.text
  rw [flatMap_text_read] at hfront
  exact hfront.length_le

/-- Each token of a text, the one at its end included, begins behind the tokens in front of it. -/
theorem span_getElem_all {index : Nat} (h : index < (read text origin).all.length) :
    (read text origin).all[index].span =
      ⟨origin.behind (text.take (startOf text index)),
        origin.behind (text.take (startOf text (index + 1)))⟩ := by
  have htext := flatMap_text_read text origin
  have hfinish := finish_read text origin
  rw [← flatMap_take_all, ← flatMap_take_all]
  by_cases hinside : index < (read text origin).tokens.length
  · have hsplit : (read text origin).tokens = (read text origin).tokens.take index ++
        (read text origin).tokens[index] :: (read text origin).tokens.drop (index + 1) := by
      rw [← List.drop_eq_getElem_cons hinside, List.take_append_drop]
    have hspan := span_of_split hsplit
    rw [List.take_append_getElem hinside] at hspan
    simp only [all, List.getElem_append_left hinside, hspan,
      List.take_append_of_le_length (Nat.le_of_lt hinside), List.take_append_of_le_length hinside]
  · obtain rfl : index = (read text origin).tokens.length := by
      simp only [all, List.length_append, List.length_singleton] at h
      omega
    have hall : (read text origin).all.take ((read text origin).tokens.length + 1) =
        (read text origin).all := List.take_of_length_le (by simp [all])
    have hsource : (read text origin).tokens.flatMap Token.text = text := by
      rw [all, List.flatMap_append, hfinish] at htext
      simpa [finishAt] using htext
    rw [hall, htext]
    simp only [all, List.getElem_concat_length, List.take_left', hsource, hfinish, finishAt]

/-- The tokens of a text cover it. -/
theorem all_covered (text : Bytes) : Covered (Span.IsIn text) (read text origin).all where
  nothing := ⟨0, 0, le_rfl, Nat.zero_le _, by simp [Span.origin, Location.behind_nil]⟩
  token token htoken := by
    obtain ⟨index, hindex, rfl⟩ := List.mem_iff_getElem.mp htoken
    exact ⟨_, _, startOf_mono (Nat.le_succ index), startOf_le _, span_getElem_all hindex⟩
  front token htoken := by
    obtain ⟨index, hindex, rfl⟩ := List.mem_iff_getElem.mp htoken
    refine ⟨0, _, Nat.zero_le _, startOf_le (index + 1), ?_⟩
    rw [span_getElem_all hindex]
    simp [Span.join, Span.origin, Location.behind_nil]
  join := by
    refine List.pairwise_iff_getElem.mpr fun first last hfirst hlast hless => ?_
    refine ⟨_, _, startOf_mono (hless.le.trans (Nat.le_succ last)), startOf_le _, ?_⟩
    rw [span_getElem_all hfirst, span_getElem_all hlast]
    rfl

end Lexed

namespace Segment

/-- Every segment begins a line of its source, behind the bytes in front of it. -/
theorem exists_place {source : Bytes} {segment : Segment} (h : segment ∈ split source) :
    segment.origin.column = 1 ∧ ∃ front back,
      source = front ++ (segment.text ++ back) ∧ segment.origin = Location.origin.behind front := by
  obtain ⟨before, behind, hsplit⟩ := List.append_of_mem h
  have hsource := (split_spec source).1
  rw [hsplit, List.map_append, List.map_cons, List.flatten_append, List.flatten_cons] at hsource
  have horigin := origin_of_split hsplit
  exact ⟨column_of_split hsplit, _, _, hsource.symm, horigin⟩

end Segment

namespace Session

open LinkedProgram (AllPlaced PlacedWithin)

variable {source : Bytes} {read : ReadSegment}

/-- The spans of a segment lie in its source, once they are moved to its place. -/
def Inside (source : Bytes) (read : ReadSegment) (span : Span) : Prop :=
  (span.rebase read.origin).IsIn source

theorem inside_of_isIn (h : read ∈ reads source) {span : Span} (hspan : span.IsIn read.kept.text) :
    Inside source read span := by
  obtain ⟨segment, hsegment, rfl⟩ := List.mem_map.mp h
  obtain ⟨hcolumn, front, back, htext, horigin⟩ := Segment.exists_place hsegment
  have hplace : (readAlone segment).origin = Location.origin.behind front := horigin
  rw [Inside, hplace, htext]
  exact Span.IsIn.rebase hspan (horigin ▸ hcolumn)

theorem covered_of_mem (h : read ∈ reads source) :
    Covered (Inside source read) (Lexed.read read.kept.text .origin).all := by
  have hcovered := Lexed.all_covered read.kept.text
  exact ⟨inside_of_isIn h hcovered.nothing,
    fun token htoken => inside_of_isIn h (hcovered.token token htoken),
    fun token htoken => inside_of_isIn h (hcovered.front token htoken),
    hcovered.join.imp fun hspan => inside_of_isIn h hspan⟩

/-- What is said of a segment, and the places that its code keeps. -/
theorem segment_early (h : read ∈ reads source) (scope : Scope) (signature : Fingerprint) :
    AllPlaced (Span.IsIn source)
        (segmentDiagnostics read (KeptCode.make scope signature read.kept)) ∧
      ∀ placed ∈ placedUnits read (KeptCode.make scope signature read.kept),
        PlacedWithin (Span.IsIn source) placed := by
  have hcovered := covered_of_mem h
  have hparsed : read.kept.parsed = ParsedSource.read read.kept.text .origin :=
    congrArg KeptTree.parsed (readAlone_of_mem h).2.1
  have hread := ParsedSource.read_early hcovered fun diagnostic hmem =>
    inside_of_isIn h (Lexed.flaws_isIn hmem)
  have htree := ParsedSource.read_within hcovered
  have hjoin := ParsedSource.children_join hcovered
  rw [← hparsed] at hread htree hjoin
  obtain ⟨hunits, hsaid⟩ := KeptCode.make_early scope signature htree hjoin
  constructor
  · exact fun diagnostic hmem => (hread.rebase.append hsaid.rebase diagnostic hmem).toPlaced
  · intro placed hplaced
    obtain ⟨unit, hunit, rfl⟩ := List.mem_map.mp hplaced
    exact ⟨hunits unit hunit, hcovered.nothing⟩

/-- What is said of the declarations of a source. -/
theorem declarations_early : (declarations source).2.AllEarly (Span.IsIn source) := by
  refine Declarations.collect_early fun placed hplaced => ?_
  obtain ⟨read, hread, rfl⟩ := List.mem_map.mp hplaced
  have hparsed : read.kept.parsed = ParsedSource.read read.kept.text .origin :=
    congrArg KeptTree.parsed (readAlone_of_mem hread).2.1
  have htree := ParsedSource.read_within (covered_of_mem hread)
  rw [← hparsed] at htree
  exact htree

theorem sortByPlace_pairwise (diagnostics : Diagnostics) :
    diagnostics.sortByPlace.Pairwise fun a b => a.span.start.offset ≤ b.span.start.offset := by
  have hsorted : diagnostics.sortByPlace.Pairwise fun a b =>
      decide (a.span.start.offset ≤ b.span.start.offset) = true := by
    refine List.pairwise_mergeSort (fun a b c hab hbc => ?_) (fun a b => ?_) diagnostics
    · rw [decide_eq_true_eq] at hab hbc ⊢
      exact UInt32.le_trans hab hbc
    · simpa using UInt32.le_total a.span.start.offset b.span.start.offset
  exact hsorted.imp of_decide_eq_true

/-- Every diagnostic of a source of less than `2 ^ 32` bytes points into it, as its notes do: both
ends of its span are places of the source, each with the line and the column of its offset, and
the diagnostics are in the order of the bytes at which they begin. The segments of the source
have to be told apart by their fingerprints, unless no two of them have one text. -/
theorem ofSource_positions (base : UInt32) (source : Bytes) (hshort : source.length < 2 ^ 32)
    (happart : ToldApart source ∨ (texts source).Nodup) :
    (∀ diagnostic ∈ (LinkedProgram.ofSource base source).diagnostics,
      diagnostic.Placed (Span.Marks source)) ∧
      (LinkedProgram.ofSource base source).diagnostics.Pairwise fun a b =>
        a.span.start.offset ≤ b.span.start.offset := by
  rw [ofSource_eq_program base source happart]
  refine ⟨fun diagnostic hmem => ?_, sortByPlace_pairwise _⟩
  suffices hplaced : diagnostic.Placed (Span.IsIn source) from
    ⟨hplaced.span.marks hshort, fun note hnote => (hplaced.notes note hnote).marks hshort⟩
  have hsegments (linked : ReadSegment × KeptCode) (hlinked : linked ∈ (reads source).map
      fun read => (read, KeptCode.make (scopeOf source) (signatureOf source) read.kept)) :
      AllPlaced (Span.IsIn source) (segmentDiagnostics linked.1 linked.2) ∧
        ∀ placed ∈ placedUnits linked.1 linked.2, PlacedWithin (Span.IsIn source) placed := by
    obtain ⟨read, hread, rfl⟩ := List.mem_map.mp hlinked
    exact segment_early hread (scopeOf source) (signatureOf source)
  rcases List.mem_append.mp (List.mem_mergeSort.mp hmem) with hmem | hmem
  · rcases List.mem_append.mp hmem with hmem | hmem
    · obtain ⟨linked, hlinked, hmem⟩ := List.mem_flatMap.mp hmem
      exact (hsegments linked hlinked).1 diagnostic hmem
    · exact (declarations_early diagnostic hmem).toPlaced
  · refine LinkedProgram.link_placed base [] (fun placed hplaced => ?_) diagnostic hmem
    obtain ⟨linked, hlinked, hplaced⟩ := List.mem_flatMap.mp hplaced
    exact (hsegments linked hlinked).2 placed hplaced

/-- What is said of a source by itself, before it is ordered. -/
def said (base : UInt32) (source : Bytes) : Diagnostics :=
  let kept := ((start base).readSegments (Segment.split source)).2
  let codes := (choices (start base) source).filterMap fun (read, chosen) =>
    ((kept.keep (signatureOf source) (choices (start base) source)).codeOf?
      (signatureOf source) read chosen).map fun code => (read, code)
  (codes.flatMap fun (read, code) => segmentDiagnostics read code)
    ++ (declarations source).2
    ++ (LinkedProgram.link base []
      (codes.flatMap fun (read, code) => placedUnits read code)).diagnostics

theorem mem_said {base : UInt32} {source : Bytes} {diagnostic : Diagnostic} :
    diagnostic ∈ (LinkedProgram.ofSource base source).diagnostics ↔
      diagnostic ∈ said base source := by
  obtain ⟨_, rfl, -, -, -, hrun⟩ := assemble_run (start base) source (start_treesValid base)
  rw [LinkedProgram.ofSource, hrun]
  exact List.mem_mergeSort

/-- A label is declared a second time behind an instruction that is not known. -/
def unknownBetweenDuplicates : Bytes := ascii "A:\n    foo\nA:\n"

theorem ofSource_positions_of_duplicates :
    unknownBetweenDuplicates.length < 2 ^ 32 ∧
      (ToldApart unknownBetweenDuplicates ∨ (texts unknownBetweenDuplicates).Nodup) ∧
      (said 0 unknownBetweenDuplicates).length = 2 ∧
      (∀ diagnostic ∈ (LinkedProgram.ofSource 0 unknownBetweenDuplicates).diagnostics,
        diagnostic.Placed (Span.Marks unknownBetweenDuplicates)) ∧
      (LinkedProgram.ofSource 0 unknownBetweenDuplicates).diagnostics.Pairwise fun a b =>
        a.span.start.offset ≤ b.span.start.offset := by
  have hshort : unknownBetweenDuplicates.length < 2 ^ 32 := by decide
  have happart : ToldApart unknownBetweenDuplicates := by decide +kernel
  exact ⟨hshort, .inl happart, by decide +kernel,
    ofSource_positions 0 unknownBetweenDuplicates hshort (.inl happart)⟩

/-- The first and the last label of this source are one text, and the segment between them has
the fingerprint of that text. -/
def collidingSegments : Bytes :=
  ascii "roowlaznngjlh:\nlfmsvlwuhjrxa:\n    foo\nroowlaznngjlh:\n"

/-- Where texts have one fingerprint, a segment that occurs twice is given the code of another one
with its diagnostics, and the last of these points behind the end of the file. -/
theorem ofSource_points_behind_end :
    collidingSegments.length < 2 ^ 32 ∧
      ∃ diagnostic ∈ (LinkedProgram.ofSource 0 collidingSegments).diagnostics,
        collidingSegments.length < diagnostic.span.stop.offset.toNat := by
  have hbehind : (said 0 collidingSegments).any (fun diagnostic =>
      decide (collidingSegments.length < diagnostic.span.stop.offset.toNat)) = true := by
    decide +kernel
  obtain ⟨diagnostic, hmem, hstop⟩ := List.any_eq_true.mp hbehind
  exact ⟨by decide, diagnostic, mem_said.mpr hmem, of_decide_eq_true hstop⟩

end Session

end NovelAsm
