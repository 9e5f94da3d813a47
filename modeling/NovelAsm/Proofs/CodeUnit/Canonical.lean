import NovelAsm.Proofs.Disassembly.DistinctInstructions
import NovelAsm.Proofs.Erasure.Code
import NovelAsm.Proofs.Resolve.Named
import NovelAsm.Proofs.Session.References

/-!
Canonical texts are faithful. The canonical text of a unit that was lowered from sources is read
from its beginning: the kind and the name of the unit, its labels, and its instructions one by one,
each with its operation in front of its text. So two units with one canonical text are the same
but for places, and have the same code (`CodeUnit.encode_of_canonicalText`).
-/

namespace NovelAsm

open Lexed Reporting

/-- A name of any length in front of what goes on behind words. -/
theorem name_told {name other rest others : Bytes} (hname : ∀ b ∈ name, isWordByte b = true)
    (hother : ∀ b ∈ other, isWordByte b = true) (hrest : Breaks rest) (hothers : Breaks others)
    (h : name ++ rest = other ++ others) : name = other ∧ rest = others := by
  have hsame : name = other := by
    rw [← takeWhile_word hname hrest, h, takeWhile_word hother hothers]
  exact ⟨hsame, List.append_cancel_left (hsame ▸ h)⟩

namespace LabelMark

/-- The line of a label in a canonical text. -/
def canonicalLine (label : LabelMark) : Bytes :=
  ascii "label " ++ label.name ++ ascii " @" ++ decimal label.index ++ ascii "\n"

theorem lines_told {labels others : List LabelMark} {rest behind : Bytes}
    (hlabels : ∀ label ∈ labels, ∀ b ∈ label.name, isWordByte b = true)
    (hothers : ∀ label ∈ others, ∀ b ∈ label.name, isWordByte b = true)
    (hrest : rest.head? ≠ some (byte 'l')) (hbehind : behind.head? ≠ some (byte 'l'))
    (h : labels.flatMap canonicalLine ++ rest = others.flatMap canonicalLine ++ behind) :
    labels.map bare = others.map bare ∧ rest = behind := by
  have hline {text : Bytes} (htext : text.head? ≠ some (byte 'l')) (label : LabelMark)
      (more : Bytes) : text ≠ label.canonicalLine ++ more := by
    rintro rfl
    exact htext rfl
  induction labels generalizing others with
  | nil =>
      cases others with
      | nil => exact ⟨rfl, h⟩
      | cons other others =>
          rw [List.flatMap_cons, List.append_assoc] at h
          exact absurd h (hline hrest other _)
  | cons label labels ih =>
      obtain ⟨hlabel, hlabels⟩ := List.forall_mem_cons.mp hlabels
      cases others with
      | nil =>
          rw [List.flatMap_cons, List.append_assoc] at h
          exact absurd h.symm (hline hbehind label _)
      | cons other others =>
          obtain ⟨hother, hothers⟩ := List.forall_mem_cons.mp hothers
          have hat (text : Bytes) : Breaks (ascii " @" ++ text) := breaks_cons (by decide) _
          have hend (text : Bytes) : Breaks (ascii "\n" ++ text) := breaks_cons (by decide) _
          simp only [List.flatMap_cons, canonicalLine, List.append_assoc] at h
          obtain ⟨hname, hindex⟩ := name_told hlabel hother (hat _) (hat _)
            (List.append_cancel_left h)
          obtain ⟨hindex, hlines⟩ := told_decimal.rest_eq trivial trivial (hend _) (hend _)
            (List.append_cancel_left hindex)
          obtain ⟨hall, hsame⟩ := ih hlabels hothers (List.append_cancel_left hlines)
          refine ⟨?_, hsame⟩
          rw [List.map_cons, List.map_cons, hall, bare, bare, hname, hindex]

end LabelMark

namespace CodeUnit

theorem canonicalLine_append (index : Nat) (instruction : Instruction) (rest : Bytes) :
    canonicalLine index instruction ++ rest =
      ascii "inst " ++ (decimal index ++ (ascii " " ++ (decimal instruction.opcode.code.toNat ++
        (ascii ":" ++ (decimal instruction.subtype.toNat ++ (ascii " " ++
          (instruction.text ++ byte '\n' :: rest))))))) := by
  simp only [canonicalLine, List.append_assoc]
  rfl

theorem canonicalText_eq (unit : CodeUnit) :
    unit.canonicalText = ascii "unit " ++ (decimal unit.kind.code ++ (ascii " " ++ (unit.name ++
      (ascii "\n" ++ (unit.labels.flatMap LabelMark.canonicalLine ++
        unit.instructions.zipIdx.flatMap fun entry => canonicalLine entry.2 entry.1))))) := by
  rw [canonicalText, List.append_assoc, List.append_assoc, List.append_assoc, List.append_assoc,
    List.append_assoc]
  rfl

theorem lines_told {index : Nat} {instructions others : List Instruction}
    (h : ∀ instruction ∈ instructions, ∃ form, instruction.Suits Slot.Fits form)
    (hothers : ∀ instruction ∈ others, ∃ form, instruction.Suits Slot.Fits form)
    (hsame : (instructions.zipIdx index).flatMap (fun entry => canonicalLine entry.2 entry.1) =
      (others.zipIdx index).flatMap fun entry => canonicalLine entry.2 entry.1) :
    instructions.map Instruction.bare = others.map Instruction.bare := by
  induction instructions generalizing others index with
  | nil =>
      cases others with
      | nil => rfl
      | cons other others => cases hsame
  | cons first rest ih =>
      obtain ⟨⟨form, hfirst⟩, hrest⟩ := List.forall_mem_cons.mp h
      cases others with
      | nil => cases hsame
      | cons other others =>
          obtain ⟨⟨twin, hother⟩, hothers⟩ := List.forall_mem_cons.mp hothers
          have hcolon (text : Bytes) : Breaks (ascii ":" ++ text) := breaks_cons (by decide) _
          have hblank (text : Bytes) : Breaks (ascii " " ++ text) := breaks_cons (by decide) _
          rw [List.zipIdx_cons, List.zipIdx_cons, List.flatMap_cons, List.flatMap_cons,
            canonicalLine_append, canonicalLine_append] at hsame
          replace hsame :=
            List.append_cancel_left (List.append_cancel_left (List.append_cancel_left hsame))
          obtain ⟨hcode, hsubtypes⟩ :=
            told_decimal.rest_eq trivial trivial (hcolon _) (hcolon _) hsame
          obtain ⟨hsubtype, htexts⟩ := told_decimal.rest_eq trivial trivial (hblank _) (hblank _)
            (List.append_cancel_left hsubtypes)
          have hopcode : first.opcode = other.opcode :=
            congrArg Opcode.mk (UInt16.toNat_inj.mp hcode)
          replace hsubtype : first.subtype = other.subtype := UInt8.toNat_inj.mp hsubtype
          obtain rfl : form = twin := by
            have hrow := hother.row
            rw [Form.ofInstruction?, ← hopcode, ← hsubtype, ← Form.ofInstruction?,
              hfirst.row] at hrow
            exact Option.some.inj hrow
          obtain ⟨hbare, hlines⟩ := Instruction.told hopcode hsubtype hfirst hother
            (List.append_cancel_left htexts)
          rw [List.map_cons, List.map_cons, hbare, ih hrest hothers hlines]

/-- A unit whose names are words, and whose instructions are as lowering leaves them. -/
structure IsSettled (unit : CodeUnit) : Prop where
  name : ∀ b ∈ unit.name, isWordByte b = true
  labels : ∀ label ∈ unit.labels, ∀ b ∈ label.name, isWordByte b = true
  instructions : ∀ instruction ∈ unit.instructions, ∃ form, instruction.Suits Slot.Fits form

theorem code_inj {kind other : RoutineKind} (h : kind.code = other.code) : kind = other := by
  cases kind <;> cases other <;> first | rfl | cases h

/-- Units are told apart by their canonical texts, but for places. -/
theorem bare_of_canonicalText {unit twin : CodeUnit} (hunit : unit.IsSettled)
    (htwin : twin.IsSettled) (h : unit.canonicalText = twin.canonicalText) :
    unit.bare = twin.bare := by
  have hblank (text : Bytes) : Breaks (ascii " " ++ text) := breaks_cons (by decide) _
  have hend (text : Bytes) : Breaks (ascii "\n" ++ text) := breaks_cons (by decide) _
  have hlines (instructions : List Instruction) :
      (instructions.zipIdx.flatMap fun entry => canonicalLine entry.2 entry.1).head? ≠
        some (byte 'l') := by
    cases instructions with
    | nil => exact fun h => by cases h
    | cons first rest => exact fun h => absurd (Option.some.inj h) (by decide)
  rw [canonicalText_eq, canonicalText_eq] at h
  obtain ⟨hkind, hnames⟩ := told_decimal.rest_eq trivial trivial (hblank _) (hblank _)
    (List.append_cancel_left h)
  obtain ⟨hname, hbody⟩ := name_told hunit.name htwin.name (hend _) (hend _)
    (List.append_cancel_left hnames)
  obtain ⟨hlabels, hbehind⟩ := LabelMark.lines_told hunit.labels htwin.labels
    (hlines unit.instructions) (hlines twin.instructions) (List.append_cancel_left hbody)
  have hinstructions := lines_told hunit.instructions htwin.instructions hbehind
  rw [bare, bare, code_inj hkind, hname, hlabels, hinstructions]

end CodeUnit

/-- The identifiers and registers of a text are names. -/
theorem ParsedSource.spelled (source : Bytes) (place : Location) :
    Declarations.Spelled (fun name => isName name = true) (read source place).tree := by
  intro leaf hleaf hkind
  have hspelt := spelt_of_mem hleaf
  rcases hkind with hkind | hkind
  · exact isName_of_isWord (hspelt.identifier hkind).1
  · obtain ⟨name, htext, hname⟩ := hspelt.register hkind
    rw [htext]
    exact List.all_eq_true.mpr hname

namespace Routine

theorem lowerStatements_name (routine : Routine) (code : CodeUnit) (ended : Bool)
    (statements : List Statement) :
    Ensures (routine.lowerStatements code ended statements) fun lowered =>
      lowered.1.name = code.name := by
  induction statements generalizing code ended with
  | nil => exact Ensures.pure rfl
  | cons first rest ih =>
      cases first with
      | label span name => exact ih (code.placeLabel name span) false
      | instruction span mnemonic arguments =>
          exact Ensures.behind fun lowered => ih (code.append lowered.1) lowered.2

theorem lower_name (routine : Routine) : routine.lower.1.name = routine.name := by
  have hname := routine.lowerStatements_name
    (((CodeUnit.empty routine.kind routine.name).placeLabel routine.name routine.span).append
      routine.prologue) false routine.statements []
  simp only [lower, StateT.run]
  generalize routine.lowerStatements _ false routine.statements [] = lowered at hname ⊢
  obtain ⟨⟨code, ended⟩, diagnostics⟩ := lowered
  cases ended <;> exact hname

end Routine

namespace CodeUnit

/-- A unit that was lowered from a text in the scope of some texts. -/
def IsLowered (unit : CodeUnit) : Prop :=
  ∃ trees : List PlacedTree,
    (∀ placed ∈ trees, ∃ source place, placed.tree = (ParsedSource.read source place).tree) ∧
      ∃ source place, ∃ routine ∈ (Routine.resolve (Declarations.collect trees).1
        (ParsedSource.read source place).tree).1, unit = routine.lower.1

theorem IsLowered.isSettled {unit : CodeUnit} (h : unit.IsLowered) : unit.IsSettled := by
  obtain ⟨trees, htrees, source, place, routine, hroutine, rfl⟩ := h
  have hspelled : Declarations.Spelled (fun name => ∀ b ∈ name, isWordByte b = true)
      (ParsedSource.read source place).tree := fun leaf hleaf hkind => by
    obtain ⟨-, -, -, -, hword⟩ :=
      exists_of_isName (ParsedSource.spelled source place leaf hleaf hkind)
    exact hword
  have hwords := Routine.resolve_labels_spelled (List.forall_mem_nil _) hspelled hroutine
  have hnamed : ∀ placed ∈ trees,
      Declarations.Spelled (fun name => isName name = true) placed.tree := by
    intro placed hplaced
    obtain ⟨text, start, htree⟩ := htrees placed hplaced
    rw [htree]
    exact ParsedSource.spelled text start
  obtain ⟨definitions, diagnostics, hscope⟩ := Declarations.collect_named hnamed
  have hgiven : ∀ name kind count, (Declarations.collect trees).1.Gives name kind count →
      isName name = true := by
    rintro name kind count ⟨symbol, hsymbol, -, -⟩
    have hname : symbol.name = name := by simpa using List.find?_some hsymbol
    exact hname ▸ hscope.symbols symbol (List.mem_of_find?_eq_some hsymbol)
  have hplaces := Routine.lower_refers (Routine.Refers.mono hgiven
    (Routine.resolve_refers (Declarations.collect trees).1 _ routine hroutine))
  refine ⟨?_, ?_, ?_⟩
  · rw [Routine.lower_name]
    exact hwords _ (List.mem_cons_self ..)
  · intro label hlabel
    have hname := List.mem_map_of_mem (f := LabelMark.name) hlabel
    rw [Routine.lower_labels] at hname
    obtain ⟨given, hgiven, hsame⟩ := List.mem_map.mp hname
    rw [← hsame]
    exact hwords given hgiven
  · intro instruction hinstruction
    obtain ⟨form, hsuits⟩ := Routine.lower_suits
      (Slot.established_holds.and Slot.established_settles) routine instruction hinstruction
    refine ⟨form, hsuits.row, hsuits.subtype, ?_⟩
    have hspelled : ∀ operand ∈ instruction.operands, ∀ destination ∈ operand.value.targets,
        destination.place.IsSpelled := by
      intro operand hoperand destination hdestination name hname
      obtain ⟨kind, count, hisName⟩ := hplaces instruction hinstruction destination
        (List.mem_flatMap.mpr ⟨operand, hoperand, hdestination⟩) name hname
      exact hisName
    have hall := (List.forall₂_and_left _ _).mpr ⟨hspelled, hsuits.operands.flip⟩
    exact hall.flip.imp fun _ _ h => ⟨h.2.1, h.2.2, h.1⟩

/-- The canonical form is faithful. Two units that were lowered, each from any source in the scope
of any sources, have the same code if their canonical texts are the same: the same bytes, and but
for places the same relocations and labels, at the same offsets. -/
theorem encode_of_canonicalText {unit twin : CodeUnit} (hunit : unit.IsLowered)
    (htwin : twin.IsLowered) (h : unit.canonicalText = twin.canonicalText) :
    unit.encode.bytes = twin.encode.bytes ∧
      unit.encode.relocations.map Relocation.bare = twin.encode.relocations.map Relocation.bare ∧
      unit.encode.labels.map EncodedLabel.bare = twin.encode.labels.map EncodedLabel.bare ∧
      unit.encode.instructionOffsets = twin.encode.instructionOffsets := by
  have hbare := bare_of_canonicalText hunit.isSettled htwin.isSettled h
  have hencoded : unit.encode.bare = twin.encode.bare := by
    rw [← encode_bare, ← encode_bare, hbare]
  have hbytes := congrArg EncodedUnit.bytes hencoded
  have hrelocations := congrArg EncodedUnit.relocations hencoded
  have hlabels := congrArg EncodedUnit.labels hencoded
  have hoffsets := congrArg EncodedUnit.instructionOffsets hencoded
  exact ⟨hbytes, hrelocations, hlabels, hoffsets⟩

end CodeUnit

namespace Listing

/-- The units of a source by itself are lowered in the scope of that source. -/
theorem isLowered_of_mem {source : Bytes} {unit : CodeUnit} (h : unit ∈ (ofSource source).units) :
    unit.IsLowered := by
  obtain ⟨lowered, hlowered, rfl⟩ := List.mem_map.mp h
  obtain ⟨routine, hroutine, rfl⟩ := List.mem_map.mp hlowered
  exact ⟨[⟨(ParsedSource.read source .origin).tree, .origin⟩],
    List.forall_mem_singleton.mpr ⟨source, .origin, rfl⟩, source, .origin, routine, hroutine, rfl⟩

/-- A step that names its register and its width, and one that does not. -/
theorem encode_of_canonicalText_step :
    let source := ascii "def $i = $v3\ndef W = 2\nA:\n    exp $i, ($i + W * 2)\n    j A\n"
    let other := ascii "A: // again\n exp $v3, $v3 + 4\n j A\nB:\n return\n"
    (ofSource source).diagnostics = [] ∧ (ofSource other).diagnostics = [] ∧
      ∃ unit ∈ (ofSource source).units, ∃ twin ∈ (ofSource other).units,
        unit ≠ twin ∧ unit.canonicalText = twin.canonicalText ∧
          unit.encode.bytes = twin.encode.bytes ∧ unit.encode.bytes.length = 14 := by
  intro source other
  have hclean : (ofSource source).diagnostics = [] ∧ (ofSource other).diagnostics = [] := by
    decide +kernel
  have hfirst : (ofSource source).units.head?.isSome ∧ (ofSource other).units.head?.isSome ∧
      (ofSource source).units.head? ≠ (ofSource other).units.head? := by
    decide +kernel
  have htexts : (ofSource source).units.head?.map CodeUnit.canonicalText =
      (ofSource other).units.head?.map CodeUnit.canonicalText := by
    decide +kernel
  have hlength : (ofSource source).units.head?.map (·.encode.bytes.length) = some 14 := by
    decide +kernel
  obtain ⟨hunit, htwin, hne⟩ := hfirst
  obtain ⟨unit, hunit⟩ := Option.isSome_iff_exists.mp hunit
  obtain ⟨twin, htwin⟩ := Option.isSome_iff_exists.mp htwin
  rw [hunit, htwin] at hne htexts
  rw [hunit] at hlength
  have hmem := List.mem_of_head? hunit
  have hother := List.mem_of_head? htwin
  have hsame := Option.some.inj htexts
  exact ⟨hclean.1, hclean.2, unit, hmem, twin, hother, fun h => hne (congrArg some h), hsame,
    (CodeUnit.encode_of_canonicalText (isLowered_of_mem hmem) (isLowered_of_mem hother) hsame).1,
    Option.some.inj hlength⟩

end Listing

end NovelAsm
