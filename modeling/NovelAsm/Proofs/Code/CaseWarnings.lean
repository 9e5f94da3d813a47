import NovelAsm.Proofs.Code.Placement

/-!
What is said of the cases of a table jump that are not reached. The encoder walks through the
cases with the keys it has seen and warns of each whose key is among them; so the warnings of a
program are those for the cases with a case of the same key in front of them, in the order of
the program (`LinkedProgram.ofUnits_caseWarnings`).
-/

namespace NovelAsm

/-- Whether a diagnostic is the warning that a case is already handled. -/
def Diagnostic.isRepeatedCase (diagnostic : Diagnostic) : Bool :=
  diagnostic.code == ascii "SASM-W4003"

/-- The warnings for the cases of a table whose key one of those in front of them has. -/
def caseWarnings (cases : List (Int32 × CodeTarget)) : Diagnostics :=
  (cases.zipIdx.filter fun item =>
    (cases.take item.2).any fun earlier => earlier.1 == item.1.1).map fun item =>
      (EncodingProblem.caseRepeated item.1.1).diagnose item.1.2.span

def OperandValue.caseWarnings : OperandValue → Diagnostics
  | .targetTable keys targets => NovelAsm.caseWarnings (keys.zip targets)
  | _ => []

/-- The warnings for the tables of an instruction, if the machine knows it. -/
def Instruction.caseWarnings (instruction : Instruction) : Diagnostics :=
  if (Form.ofInstruction? instruction).isNone || instruction.opcode == .select then []
  else instruction.operands.flatMap (·.value.caseWarnings)

def CodeUnit.caseWarnings (unit : CodeUnit) : Diagnostics :=
  unit.instructions.flatMap Instruction.caseWarnings

namespace Piece

/-- The encoder knows the keys that it has seen, which are those of the cases in front. -/
theorem repeatedCases_behind {front rest : List (Int32 × CodeTarget)} {seen : List Int32}
    (h : ∀ key, seen.contains key = front.any fun earlier => earlier.1 == key) :
    repeatedCases seen rest = ((rest.zipIdx front.length).filter fun item =>
      ((front ++ rest).take item.2).any fun earlier => earlier.1 == item.1.1).map fun item =>
        (EncodingProblem.caseRepeated item.1.1).diagnose item.1.2.span := by
  induction rest generalizing front seen with
  | nil => rfl
  | cons first rest ih =>
      obtain ⟨key, destination⟩ := first
      have hfront : (front ++ (key, destination) :: rest).take front.length = front :=
        List.take_left
      have hnext : front ++ (key, destination) :: rest =
          (front ++ [(key, destination)]) ++ rest := by
        simp
      have hlength : (front ++ [(key, destination)]).length = front.length + 1 := by simp
      simp only [repeatedCases, List.zipIdx_cons, List.filter_cons, hfront, h key]
      rw [hnext, ← hlength]
      split
      · rename_i hseen
        rw [List.map_cons, ih]
        intro other
        rw [h, List.any_append]
        by_cases hsame : other = key
        · rw [hsame, hseen, Bool.true_or]
        · simp [Ne.symm hsame]
      · apply ih
        intro other
        rw [List.contains_cons, h, List.any_append, List.any_cons, List.any_nil, Bool.or_false,
          Bool.or_comm, BEq.comm]

theorem repeatedCases_eq (cases : List (Int32 × CodeTarget)) :
    repeatedCases [] cases = caseWarnings cases :=
  @repeatedCases_behind [] cases [] fun _ => rfl

/-- What a piece says of its cases. It says nothing of the address space. -/
structure Warns (piece : Piece) (warnings : Diagnostics) : Prop where
  repeated : piece.diagnostics.filter Diagnostic.isRepeatedCase = warnings
  fits : ∀ diagnostic ∈ piece.diagnostics, diagnostic.code ≠ ascii "SASM-E4007"

theorem warns_of_nil {piece : Piece} (h : piece.diagnostics = []) : Warns piece [] := by
  constructor
  · rw [h, List.filter_nil]
  · rw [h]
    exact List.forall_mem_nil _

theorem Warns.append {a b : Piece} {first second : Diagnostics} (ha : Warns a first)
    (hb : Warns b second) : Warns (a ++ b) (first ++ second) := by
  constructor
  · rw [diagnostics_append, List.filter_append, ha.repeated, hb.repeated]
  · exact List.forall_mem_append.mpr ⟨ha.fits, hb.fits⟩

theorem warns_concat {α : Type} {items : List α} {piece : α → Piece}
    (h : ∀ item ∈ items, Warns (piece item) []) : Warns (concat (items.map piece)) [] := by
  induction items with
  | nil => exact warns_of_nil rfl
  | cons first rest ih =>
      obtain ⟨hfirst, hrest⟩ := List.forall_mem_cons.mp h
      rw [List.map_cons, ← List.singleton_append, concat_append, concat_singleton]
      exact hfirst.append (ih hrest)

theorem warns_diagnose {bytes : Bytes} {problem : EncodingProblem} (span : Span)
    (h : (problem.diagnose span).isRepeatedCase = false) :
    Warns ⟨bytes, [], [problem.diagnose span]⟩ [] := by
  cases problem
  case caseRepeated key => cases h
  all_goals
    constructor
    · rfl
    · intro diagnostic hmem
      obtain rfl := List.mem_singleton.mp hmem
      simp only [EncodingProblem.diagnose, Diagnostic.error]
      decide

theorem warns_number (span : Span) (value : Number) : Warns (number span value) [] := by
  simp only [number]
  split
  · exact warns_of_nil rfl
  · apply warns_diagnose
    cases value <;> rfl

theorem warns_numbers (span : Span) (values : List Number) :
    Warns (concat (values.map (number span))) [] :=
  warns_concat fun value _ => warns_number span value

theorem warns_operand (offset : Nat) (operand : Operand) :
    Warns (Piece.operand offset operand) operand.value.caseWarnings := by
  obtain ⟨value, span⟩ := operand
  have hplain {head tail : Piece} (hhead : head.diagnostics = []) (htail : Warns tail []) :
      Warns (head ++ tail) [] := (warns_of_nil hhead).append htail
  cases value with
  | number value => exact warns_number span value
  | string text =>
      simp only [operand, string]
      split
      · exact warns_diagnose span rfl
      · exact warns_of_nil rfl
  | numberList values => exact hplain rfl (warns_numbers span values)
  | bitmask slots => exact hplain rfl (warns_numbers span _)
  | target destinations => exact warns_of_nil (diagnostics_targets _ _)
  | targetTable keys destinations =>
      have hdiagnostics : (targetTable offset span (keys.zip destinations)).diagnostics =
          caseWarnings (keys.zip destinations) := repeatedCases_eq _
      constructor
      · rw [operand, hdiagnostics, List.filter_eq_self.mpr]
        · rfl
        · intro diagnostic hmem
          obtain ⟨item, -, rfl⟩ := List.mem_map.mp hmem
          rfl
      · rw [operand, hdiagnostics]
        intro diagnostic hmem
        obtain ⟨item, -, rfl⟩ := List.mem_map.mp hmem
        simp only [EncodingProblem.diagnose, Diagnostic.warning]
        decide
  | paddedTable values =>
      exact hplain rfl (warns_concat fun value _ => (warns_number span value).append
        (warns_of_nil rfl))
  | expression terms =>
      refine (warns_concat fun value _ => ?_).append (warns_of_nil rfl)
      cases value with
      | push value => exact hplain rfl (warns_number span value)
      | apply operator => exact warns_of_nil rfl
  | register | byte | flag | messageId | registerList | byteList => exact warns_of_nil rfl

theorem warns_operands (offset : Nat) (operands : List Operand) :
    Warns (Piece.operands offset operands) (operands.flatMap (·.value.caseWarnings)) := by
  induction operands generalizing offset with
  | nil => exact warns_of_nil rfl
  | cons first rest ih => exact (warns_operand offset first).append (ih _)

theorem warns_instruction (offset : Nat) (instruction : Instruction) :
    Warns (Piece.instruction offset instruction) instruction.caseWarnings := by
  rw [Piece.instruction, Instruction.caseWarnings]
  cases Form.ofInstruction? instruction with
  | none => exact warns_diagnose _ rfl
  | some form =>
      cases hselect : instruction.opcode == .select with
      | true => exact warns_diagnose _ rfl
      | false =>
          refine (warns_of_nil ?_).append (warns_operands _ instruction.operands)
          simp only [head]
          split <;> split <;> rfl

theorem warns_instructions (offset : Nat) (instructions : List Instruction) :
    Warns (concat ((Piece.instructions offset instructions).map Prod.snd))
      (instructions.flatMap Instruction.caseWarnings) := by
  induction instructions generalizing offset with
  | nil => exact warns_of_nil rfl
  | cons first rest ih =>
      rw [Piece.instructions, List.map_cons, ← List.singleton_append, concat_append,
        concat_singleton]
      exact (warns_instruction offset first).append (ih _)

end Piece

theorem Location.rebase_base_origin (place : Location) : place.rebase .origin = place := by
  have hback (value : UInt32) : value + 1 - 1 = value := by grind
  obtain ⟨line, column, offset⟩ := place
  simp only [Location.rebase, Location.origin, hback, ite_self, UInt32.add_zero]

theorem Diagnostics.rebase_base_origin (diagnostics : Diagnostics) :
    diagnostics.rebase .origin = diagnostics := by
  have hspan (span : Span) : span.rebase .origin = span := by
    rw [Span.rebase, Location.rebase_base_origin, Location.rebase_base_origin]
  have hsame (diagnostic : Diagnostic) : diagnostic.rebase .origin = diagnostic := by
    simp only [Diagnostic.rebase, hspan, List.map_id']
  simp only [rebase, hsame, List.map_id']

namespace LinkedProgram

theorem code_patchField {symbols : NameMap UInt32} {base start : Nat} {unit : Bytes}
    {code : Array UInt8} {relocation : Relocation} {problem : LinkProblem}
    (h : patchField symbols base start unit code relocation = .error problem) :
    problem.code = "SASM-E4006" := by
  simp only [patchField, bind, Except.bind] at h
  cases haddress : addressOf? symbols start relocation.referent with
  | error other =>
      rw [haddress] at h
      obtain rfl := Except.error.inj h
      cases hreferent : relocation.referent with
      | symbol name =>
          rw [hreferent, addressOf?] at haddress
          split at haddress
          · cases haddress
          · obtain rfl := Except.error.inj haddress
            rfl
      | unitOffset offset =>
          rw [hreferent, addressOf?] at haddress
          cases haddress
  | ok address =>
      rw [haddress] at h
      simp only at h
      split at h
      · cases h
      · obtain rfl := Except.error.inj h
        rfl

section Reported

variable {keep : Diagnostic → Bool} (symbols : NameMap UInt32) (base : Nat)
  (hkeep : ∀ diagnostic : Diagnostic, diagnostic.code = ascii "SASM-E4006" →
    keep diagnostic = false)

include hkeep

theorem filter_patchUnit (start : Nat) (placed : PlacedUnit) (code : Array UInt8)
    (diagnostics : Diagnostics) (relocations : List Relocation) :
    (patchUnit symbols base start placed code diagnostics relocations).2.filter keep =
      diagnostics.filter keep := by
  induction relocations generalizing code diagnostics with
  | nil => rfl
  | cons relocation rest ih =>
      simp only [patchUnit]
      split
      · exact ih _ _
      · rename_i problem hproblem
        have hcode : (problem.diagnose (relocation.span.rebase placed.origin)).code =
            ascii "SASM-E4006" := by
          rw [LinkProblem.diagnose, code_patchField hproblem]
          rfl
        rw [ih, List.filter_append, List.filter_cons, hkeep _ hcode]
        exact List.append_nil _

theorem filter_patchAll (code : Array UInt8) (diagnostics : Diagnostics)
    (units : List (Nat × PlacedUnit)) :
    (patchAll symbols base code diagnostics units).2.filter keep = diagnostics.filter keep := by
  induction units generalizing code diagnostics with
  | nil => rfl
  | cons first rest ih =>
      obtain ⟨start, placed⟩ := first
      rw [patchAll, ih, filter_patchUnit symbols base hkeep]

end Reported

variable {base : UInt32} {units : List CodeUnit}

/-- Units that fit are linked with what the encoder said of them, and with reports of fields
that cannot be written. -/
theorem filter_ofUnits {keep : Diagnostic → Bool}
    (hkeep : ∀ diagnostic : Diagnostic, diagnostic.code = ascii "SASM-E4006" →
      keep diagnostic = false)
    (hfits : base.toNat + (unlinkedCode units).length ≤ addressLimit) :
    (ofUnits base units).diagnostics.filter keep =
      units.flatMap fun unit => unit.encode.diagnostics.filter keep := by
  rw [length_unlinkedCode] at hfits
  have hplace : ((Layout.empty base).place (units.map unplaced)).2 = true :=
    place_fits unplaced hfits
  have hbase : (Layout.empty base).cursor ≤ addressLimit := by
    simp only [Layout.empty]
    omega
  obtain ⟨hlayout, -⟩ := place_eq unplaced hbase hplace
  have hprogram : ofUnits base units = link base [] (units.map unplaced) := rfl
  generalize hrun : (Layout.empty base).place (units.map unplaced) = run at hplace hlayout
  obtain ⟨layout, fits⟩ := run
  obtain rfl : fits = true := hplace
  simp only [Layout.empty, List.nil_append] at hlayout
  subst hlayout
  rw [hprogram, link, hrun]
  simp only [filter_patchAll _ _ hkeep, List.filter_flatMap]
  simp only [unplaced, Diagnostics.rebase_base_origin]

/-- Units that fit are placed exactly. -/
theorem placed_of_fits (hfits : base.toNat + (unlinkedCode units).length ≤ addressLimit) :
    Placed base units (ofUnits base units) := by
  rw [length_unlinkedCode] at hfits
  exact placed_of_place (place_fits unplaced hfits)

/-- The warnings of a program for cases that are not reached. -/
theorem ofUnits_caseWarnings (hfits : base.toNat + (unlinkedCode units).length ≤ addressLimit) :
    (ofUnits base units).diagnostics.filter Diagnostic.isRepeatedCase =
      units.flatMap CodeUnit.caseWarnings := by
  have hkeep (diagnostic : Diagnostic) (h : diagnostic.code = ascii "SASM-E4006") :
      diagnostic.isRepeatedCase = false := by
    rw [Diagnostic.isRepeatedCase, h]
    decide
  rw [filter_ofUnits hkeep hfits]
  congr 1
  funext unit
  exact (Piece.warns_instructions 0 unit.instructions).repeated

end LinkedProgram

end NovelAsm
