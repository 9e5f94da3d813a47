import NovelAsm.Proofs.Disassembly.DistinctFormulas
import NovelAsm.Proofs.Disassembly.Lowering
import NovelAsm.Proofs.Erasure.Lowering

/-!
Printed instructions are told apart. Of two instructions of one row with the same text, each
operand has the same value: a flag is written unless it has its normal value, the zeros at the end
of a bitmask are filled up again, and a list takes all that is left of its line.
-/

namespace NovelAsm

open Lexed Reporting

namespace Slot

/-- What lowering makes of flags and expressions: a flag has one of its two values, and no
constant is negated on the machine. -/
def Settles : Slot → OperandValue → Prop
  | .flag _ normal, .flag value => ∃ isWritten, value = (flagValue normal isWritten).toUInt32
  | .expression, .expression terms => ∃ formula : Formula, formula.terms = terms ∧ formula.IsReduced
  | _, _ => True

theorem established_settles : Established Settles where
  number _ := trivial
  numberList _ := trivial
  registerList _ := trivial
  flag _ _ isWritten := ⟨isWritten, rfl⟩
  single place argument := by
    cases place with
    | expression => exact argument.read_finds Expr.toTerms_reduced fun _ h => h
    | flag => exact finds_none
    | _ => exact (finds_true _).mono fun _ _ _ _ => trivial
  list place hlist arguments span := by
    cases place with
    | numberList | registerList | byteList => exact (finds_true _).mono fun _ _ _ _ => trivial
    | _ => cases hlist

/-- An operand as lowering leaves it: one for its slot, whose names are words. -/
structure Fits (place : Slot) (value : OperandValue) : Prop where
  holds : place.Holds value
  settles : place.Settles value
  spelled : ∀ destination ∈ value.targets, destination.place.IsSpelled

end Slot

theorem bracketed_append (text rest : Bytes) :
    bracketed text ++ rest = byte '[' :: (text ++ byte ']' :: rest) := by
  simp [bracketed, ascii]

/-- Numbers between brackets. -/
theorem bracketed_told {values others : List Number} {rest behind : Bytes}
    (h : bracketed (joinNumbers values) ++ rest = bracketed (joinNumbers others) ++ behind) :
    values = others ∧ rest = behind := by
  have hcloses (text : Bytes) : Closes (byte ']' :: text) := closes_cons (by decide) text
  rw [bracketed_append, bracketed_append] at h
  obtain ⟨rfl, hbehind⟩ := told_number.commaJoin (fun _ _ => trivial) (fun _ _ => trivial)
    (hcloses _) (hcloses _) (List.cons.inj h).2
  exact ⟨rfl, (List.cons.inj hbehind).2⟩

theorem usedSlots_inj {slots others : List Number} (h : slots.length = Instruction.bitmaskSlots)
    (hothers : others.length = Instruction.bitmaskSlots)
    (hused : OperandValue.usedSlots slots = OperandValue.usedSlots others) : slots = others := by
  rw [← Argument.usedSlots_append h, hused, Argument.usedSlots_append hothers]

namespace PrintedOperand

/-- The cases of a table between braces. -/
theorem table_told {cases others : List (Int × Place)} {rest behind : Bytes}
    (hcases : ∀ entry ∈ cases, entry.2.IsSpelled) (hothers : ∀ entry ∈ others, entry.2.IsSpelled)
    (h : (table cases).shown ++ rest = (table others).shown ++ behind) :
    cases = others ∧ rest = behind := by
  have hcloses (text : Bytes) : Closes (ascii " \x7d" ++ text) := closes_cons (by decide) _
  have hbraces (texts more : Bytes) :
      ascii "\x7b\x7d" ++ texts ≠ ascii "\x7b " ++ more := by
    intro hsame
    have hsecond := (List.cons.inj (List.cons.inj hsame).2).1
    revert hsecond
    decide
  cases cases with
  | nil =>
      cases others with
      | nil => exact ⟨rfl, List.append_cancel_left h⟩
      | cons other others =>
          rw [shown, shown, List.append_assoc, List.append_assoc] at h
          · exact absurd h (hbraces _ _)
          · exact fun h => by cases h
  | cons entry cases =>
      have hshown : (table (entry :: cases)).shown = ascii "\x7b " ++
          commaJoin ((entry :: cases).map caseText) ++ ascii " \x7d" := rfl
      rw [hshown, List.append_assoc, List.append_assoc] at h
      cases others with
      | nil => exact absurd h.symm (hbraces _ _)
      | cons other others =>
          have hother : (table (other :: others)).shown = ascii "\x7b " ++
              commaJoin ((other :: others).map caseText) ++ ascii " \x7d" := rfl
          rw [hother, List.append_assoc, List.append_assoc] at h
          obtain ⟨hsame, hbehind⟩ := told_case.commaJoin hcases hothers (hcloses _) (hcloses _)
            (List.append_cancel_left h)
          exact ⟨hsame, List.append_cancel_left hbehind⟩

end PrintedOperand

theorem tableCases_inj {keys otherKeys : List Int32} {destinations others : List CodeTarget}
    (h : keys.length = destinations.length) (hothers : otherKeys.length = others.length)
    (hsame : OperandValue.tableCases keys destinations = OperandValue.tableCases otherKeys others) :
    keys = otherKeys ∧ destinations.map CodeTarget.bare = others.map CodeTarget.bare := by
  rw [Argument.tableCases_eq h, Argument.tableCases_eq hothers] at hsame
  have hkeys := congrArg (List.map Prod.fst) hsame
  have hplaces := congrArg (List.map fun entry => CodeTarget.mk entry.2 .origin) hsame
  simp only [List.map_map] at hkeys hplaces
  constructor
  · have hmapped : keys.map Int32.toInt = otherKeys.map Int32.toInt := by
      rw [← List.map_fst_zip (Nat.le_of_eq h), ← List.map_fst_zip (Nat.le_of_eq hothers),
        List.map_map, List.map_map]
      exact hkeys
    exact List.map_injective_iff.mpr (fun _ _ => Int32.toInt_inj.mp) hmapped
  · rw [← List.map_snd_zip (Nat.le_of_eq h.symm), ← List.map_snd_zip (Nat.le_of_eq hothers.symm),
      List.map_map, List.map_map]
    exact hplaces

namespace OperandValue

/-- What is written for an operand behind others. -/
def behind (value : OperandValue) : Bytes :=
  behindCommas (Instruction.positionalText? value).toList

theorem behindCommas_singleton (text : Bytes) : behindCommas [text] = ascii ", " ++ text := by
  simp [behindCommas]

variable {place : Slot} {value other : OperandValue} {rest others : Bytes}

/-- Operands that stand alone. -/
theorem single_told (hsingle : place.isList = false) (hflag : place.isFlag = false)
    (hvalue : place.Fits value) (hother : place.Fits other) (hrest : Ends rest)
    (hothers : Ends others) (h : value.text ++ rest = other.text ++ others) :
    value.mapTargets CodeTarget.bare = other.mapTargets CodeTarget.bare ∧ rest = others := by
  cases place with
  | flag => cases hflag
  | numberList | registerList | byteList => cases hsingle
  | number =>
      cases value <;> first | exact hvalue.holds.elim | skip
      cases other <;> first | exact hother.holds.elim | skip
      obtain ⟨rfl, rfl⟩ := told_number.rest_eq trivial trivial hrest.breaks hothers.breaks h
      exact ⟨rfl, rfl⟩
  | register =>
      cases value <;> first | exact hvalue.holds.elim | skip
      cases other <;> first | exact hother.holds.elim | skip
      obtain ⟨rfl, rfl⟩ := told_register.rest_eq trivial trivial hrest.breaks hothers.breaks h
      exact ⟨rfl, rfl⟩
  | byte | messageId =>
      cases value <;> first | exact hvalue.holds.elim | skip
      cases other <;> first | exact hother.holds.elim | skip
      obtain ⟨hnumber, rfl⟩ :=
        told_decimal.rest_eq trivial trivial hrest.breaks hothers.breaks h
      rw [UInt32.toNat_inj.mp hnumber]
      exact ⟨rfl, rfl⟩
  | string =>
      cases value <;> first | exact hvalue.holds.elim | skip
      cases other <;> first | exact hother.holds.elim | skip
      obtain rfl := quote_told h
      exact ⟨rfl, List.append_cancel_left h⟩
  | bitmask =>
      cases value <;> first | exact hvalue.holds.elim | skip
      cases other <;> first | exact hother.holds.elim | skip
      obtain ⟨hused, rfl⟩ := bracketed_told h
      rw [usedSlots_inj hvalue.holds hother.holds hused]
      exact ⟨rfl, rfl⟩
  | paddedTable =>
      cases value <;> first | exact hvalue.holds.elim | skip
      cases other <;> first | exact hother.holds.elim | skip
      obtain ⟨rfl, rfl⟩ := bracketed_told h
      exact ⟨rfl, rfl⟩
  | target =>
      obtain ⟨destination, rfl⟩ := Instruction.exists_of_holds_target hvalue.holds
      obtain ⟨twin, rfl⟩ := Instruction.exists_of_holds_target hother.holds
      obtain ⟨hplace, rfl⟩ := told_place.rest_eq (hvalue.spelled destination (by simp [targets]))
        (hother.spelled twin (by simp [targets])) hrest.breaks hothers.breaks h
      refine ⟨?_, rfl⟩
      simp [mapTargets, CodeTarget.bare, hplace]
  | targetTable =>
      cases value <;> first | exact hvalue.holds.elim | skip
      cases other <;> first | exact hother.holds.elim | skip
      rename_i keys destinations otherKeys twins
      have hspelled {keys : List Int32} {destinations : List CodeTarget}
          (hfits : Slot.targetTable.Fits (.targetTable keys destinations)) :
          ∀ entry ∈ tableCases keys destinations, entry.2.IsSpelled := by
        intro entry hentry
        obtain ⟨⟨destination, index⟩, hmem, rfl⟩ := List.mem_map.mp hentry
        exact hfits.spelled destination (List.fst_mem_of_mem_zipIdx hmem)
      rw [text_targetTable, text_targetTable] at h
      obtain ⟨hcases, rfl⟩ := PrintedOperand.table_told (hspelled hvalue) (hspelled hother) h
      obtain ⟨hkeys, hdestinations⟩ := tableCases_inj hvalue.holds.1 hother.holds.1 hcases
      refine ⟨?_, rfl⟩
      rw [mapTargets, mapTargets, hkeys, hdestinations]
  | expression =>
      cases value <;> first | exact hvalue.holds.elim | skip
      cases other <;> first | exact hother.holds.elim | skip
      obtain ⟨formula, rfl, hformula⟩ := hvalue.settles
      obtain ⟨twin, rfl, htwin⟩ := hother.settles
      simp only [text, Formula.expression?_terms, Option.getD_some] at h
      obtain ⟨rfl, rfl⟩ := Formula.told hformula htwin hrest hothers h
      exact ⟨rfl, rfl⟩

/-- A list behind other operands is written like its elements behind them. -/
theorem group_behind {α : Type} (shown : α → Bytes) (values : List α) :
    behindCommas (if values.isEmpty then none else some (commaJoin (values.map shown))).toList =
      behindCommas (values.map shown) := by
  cases values with
  | nil => rfl
  | cons first rest =>
      rw [List.isEmpty_cons, if_neg Bool.false_ne_true, Option.toList_some,
        behindCommas_singleton, List.map_cons, commaJoin_eq, ← List.append_assoc]
      rfl

/-- Lists, which end their line. -/
theorem list_told (hlist : place.isList = true) (hvalue : place.Fits value)
    (hother : place.Fits other) (hrest : Closes rest) (hothers : Closes others)
    (h : value.behind ++ rest = other.behind ++ others) : value = other ∧ rest = others := by
  cases place with
  | numberList =>
      cases value <;> first | exact hvalue.holds.elim | skip
      cases other <;> first | exact hother.holds.elim | skip
      have hbehind (values : List Number) :
          (numberList values).behind = behindCommas (values.map Number.text) := by
        rw [← group_behind Number.text values]
        rfl
      rw [hbehind, hbehind] at h
      obtain ⟨rfl, rfl⟩ := told_number.behindCommas (fun _ _ => trivial) (fun _ _ => trivial)
        hrest hothers h
      exact ⟨rfl, rfl⟩
  | registerList =>
      cases value <;> first | exact hvalue.holds.elim | skip
      cases other <;> first | exact hother.holds.elim | skip
      have hbehind (values : List Register) :
          (registerList values).behind = behindCommas (values.map Register.name) := by
        rw [← group_behind Register.name values]
        rfl
      rw [hbehind, hbehind] at h
      obtain ⟨rfl, rfl⟩ := told_register.behindCommas (fun _ _ => trivial) (fun _ _ => trivial)
        hrest hothers h
      exact ⟨rfl, rfl⟩
  | byteList =>
      cases value <;> first | exact hvalue.holds.elim | skip
      cases other <;> first | exact hother.holds.elim | skip
      simp only [behind, Instruction.positionalText?, isEmptyList, text, Bool.false_eq_true,
        if_false, Option.toList_some, behindCommas_singleton, List.append_assoc] at h
      obtain ⟨rfl, rfl⟩ := told_hexByte.commaJoin (fun _ _ => trivial) (fun _ _ => trivial)
        hrest hothers (List.append_cancel_left h)
      exact ⟨rfl, rfl⟩
  | _ => cases hlist

end OperandValue

namespace Slot

/-- Whether slots stand as in a row: a list is the last of them, and there is no flag but the one
that is looked for. -/
def inRow (flag? : Option Slot) : List Slot → Bool
  | [] => true
  | place :: rest =>
      (!place.isList || rest.isEmpty) &&
        (!place.isFlag || (flag? == some place && !rest.any isFlag)) && inRow flag? rest

theorem flagText?_of_holds {place : Slot} {value : OperandValue} (h : place.Holds value)
    (hflag : place.isFlag = false) (form : Form) : Instruction.flagText? form value = none := by
  cases value with
  | flag value => cases place <;> first | exact h.elim | cases hflag
  | _ => rfl

theorem positionalText?_of_single {place : Slot} {value : OperandValue} (h : place.Holds value)
    (hflag : place.isFlag = false) (hsingle : place.isList = false) :
    Instruction.positionalText? value = some value.text := by
  cases value with
  | flag value => cases place <;> first | exact h.elim | cases hflag
  | numberList values | registerList values =>
      cases place <;> first | exact h.elim | cases hsingle
  | _ => rfl

theorem behind_of_flag {name : Flag} {normal : UInt8} {value : OperandValue}
    (h : (Slot.flag name normal).Holds value) : value.behind = [] := by
  cases value <;> first | exact h.elim | rfl

theorem filterMap_cons_toList {α β : Type} (step : α → Option β) (first : α) (rest : List α) :
    (first :: rest).filterMap step = (step first).toList ++ rest.filterMap step := by
  rw [List.filterMap_cons]
  cases step first <;> rfl

theorem flagTexts_eq_nil {slots : List Slot} {values : List OperandValue}
    (h : List.Forall₂ Fits slots values) (hflags : slots.any isFlag = false) (form : Form) :
    values.filterMap (Instruction.flagText? form) = [] := by
  induction h with
  | nil => rfl
  | cons hfirst hrest ih =>
      simp only [List.any_cons, Bool.or_eq_false_iff] at hflags
      rw [List.filterMap_cons, flagText?_of_holds hfirst.holds hflags.1, ih hflags.2]

/-- The two values of a flag are different. -/
theorem flagValue_ne (normal : UInt8) :
    (flagValue normal true).toUInt32 ≠ normal.toUInt32 := by
  intro h
  have hnumber := congrArg UInt32.toNat h
  rw [UInt8.toNat_toUInt32, UInt8.toNat_toUInt32] at hnumber
  simp only [flagValue, Bool.not_true, Bool.false_eq_true, if_false] at hnumber
  split at hnumber
  · rename_i hzero
    rw [eq_of_beq hzero] at hnumber
    cases hnumber
  · rename_i hzero
    exact hzero (beq_iff_eq.mpr (UInt8.toNat_inj.mp hnumber.symm))

theorem flagText?_flag {form : Form} {name : Flag} {normal : UInt8}
    (hflag : form.slots.reverse.find? isFlag = some (.flag name normal)) (isWritten : Bool) :
    Instruction.flagText? form (.flag (flagValue normal isWritten).toUInt32) =
      if isWritten then some (ascii name.text) else none := by
  simp only [Instruction.flagText?, hflag]
  cases isWritten with
  | false => rw [if_pos (by simp [flagValue]), if_neg Bool.false_ne_true]
  | true => rw [if_neg (by simpa using flagValue_ne normal), if_pos rfl]

/-- A flag is told by its name, or by the end of the line. -/
theorem flag_told {form : Form} {name : Flag} {normal : UInt8} {value other : OperandValue}
    {rest others : Bytes} (hflag : form.slots.reverse.find? isFlag = some (.flag name normal))
    (hvalue : (Slot.flag name normal).Fits value) (hother : (Slot.flag name normal).Fits other)
    (h : behindCommas (Instruction.flagText? form value).toList ++ NovelAsm.byte '\n' :: rest =
      behindCommas (Instruction.flagText? form other).toList ++ NovelAsm.byte '\n' :: others) :
    value = other ∧ rest = others := by
  have hcomma (text : Bytes) (tail more : Bytes) :
      NovelAsm.byte '\n' :: tail ≠ behindCommas [text] ++ more := by
    intro hsame
    have hfirst := (List.cons.inj hsame).1
    revert hfirst
    decide
  cases value <;> first | exact hvalue.holds.elim | skip
  cases other <;> first | exact hother.holds.elim | skip
  obtain ⟨isWritten, rfl⟩ := hvalue.settles
  obtain ⟨otherWritten, rfl⟩ := hother.settles
  rw [flagText?_flag hflag, flagText?_flag hflag] at h
  cases isWritten <;> cases otherWritten
  · exact ⟨rfl, (List.cons.inj h).2⟩
  · exact absurd h (hcomma _ _ _)
  · exact absurd h.symm (hcomma _ _ _)
  · exact ⟨rfl, (List.cons.inj (List.append_cancel_left h)).2⟩

end Slot

namespace OperandValue

theorem behind_of_holds {place : Slot} {value : OperandValue} (h : place.Holds value)
    (hflag : place.isFlag = false) (hsingle : place.isList = false) :
    value.behind = ascii ", " ++ value.text := by
  rw [behind, Slot.positionalText?_of_single h hflag hsingle, Option.toList_some,
    behindCommas_singleton]

/-- Operands that are no flags. -/
theorem told {place : Slot} {value other : OperandValue} {rest others : Bytes}
    (hflag : place.isFlag = false) (hvalue : place.Fits value) (hother : place.Fits other)
    (hrest : Ends rest) (hothers : Ends others)
    (hlist : place.isList = true → Closes rest ∧ Closes others)
    (h : value.behind ++ rest = other.behind ++ others) :
    value.mapTargets CodeTarget.bare = other.mapTargets CodeTarget.bare ∧ rest = others := by
  cases hplace : place.isList with
  | true =>
      obtain ⟨hcloses, hotherCloses⟩ := hlist hplace
      obtain ⟨rfl, hbehind⟩ := list_told hplace hvalue hother hcloses hotherCloses h
      exact ⟨rfl, hbehind⟩
  | false =>
      rw [behind_of_holds hvalue.holds hflag hplace, behind_of_holds hother.holds hflag hplace,
        List.append_assoc, List.append_assoc] at h
      exact single_told hplace hflag hvalue hother hrest hothers (List.append_cancel_left h)

theorem behindCommas_texts (values : List OperandValue) :
    behindCommas (values.filterMap Instruction.positionalText?) = values.flatMap behind := by
  induction values with
  | nil => rfl
  | cons value values ih =>
      rw [Slot.filterMap_cons_toList, behindCommas_append, ih, List.flatMap_cons, behind]

theorem ends_behind (values : List OperandValue) {text : Bytes} (h : Ends text) :
    Ends (values.flatMap behind ++ text) :=
  behindCommas_texts values ▸ behindCommas_heads (by decide) _ h

/-- The operands of a row are told apart, and the flag of the row by what stands behind them. -/
theorem row_told {form : Form} {slots : List Slot} {values twins : List OperandValue}
    {rest others : Bytes}
    (hslots : Slot.inRow (form.slots.reverse.find? Slot.isFlag) slots = true)
    (hvalues : List.Forall₂ Slot.Fits slots values) (htwins : List.Forall₂ Slot.Fits slots twins)
    (hrest : Ends rest) (hothers : Ends others)
    (hlist : slots.any Slot.isList = true → Closes rest ∧ Closes others)
    (h : values.flatMap behind ++ rest = twins.flatMap behind ++ others) :
    rest = others ∧ ∀ tail more,
      behindCommas (values.filterMap (Instruction.flagText? form)) ++ NovelAsm.byte '\n' :: tail =
        behindCommas (twins.filterMap (Instruction.flagText? form)) ++
          NovelAsm.byte '\n' :: more →
      values.map (mapTargets CodeTarget.bare) = twins.map (mapTargets CodeTarget.bare) ∧
        tail = more := by
  induction hvalues generalizing twins with
  | nil =>
      cases htwins
      exact ⟨h, fun tail more htail => ⟨rfl, (List.cons.inj htail).2⟩⟩
  | @cons place value slots values hvalue hvalues ih =>
      obtain _ | @⟨_, twin, _, twins, htwin, htwins⟩ := htwins
      simp only [Slot.inRow, Bool.and_eq_true] at hslots
      obtain ⟨⟨hlast, honly⟩, hslots⟩ := hslots
      have hbehind := fun hsame => ih hslots htwins
        (fun hany => hlist (by rw [List.any_cons, hany, Bool.or_true])) hsame
      rw [List.flatMap_cons, List.flatMap_cons, List.append_assoc, List.append_assoc] at h
      cases hflag : place.isFlag with
      | true =>
          -- the flag is not among these texts, and no other one is among those behind
          obtain ⟨name, normal, rfl⟩ : ∃ name normal, place = .flag name normal := by
            cases place <;> first | exact ⟨_, _, rfl⟩ | cases hflag
          simp only [hflag, Bool.not_true, Bool.false_or, Bool.and_eq_true, beq_iff_eq,
            Bool.not_eq_true'] at honly
          obtain ⟨hnamed, hnone⟩ := honly
          rw [Slot.behind_of_flag hvalue.holds, Slot.behind_of_flag htwin.holds] at h
          obtain ⟨hrests, hflags⟩ := hbehind h
          refine ⟨hrests, fun tail more htail => ?_⟩
          have hnil := Slot.flagTexts_eq_nil hvalues hnone form
          have htwinNil := Slot.flagTexts_eq_nil htwins hnone form
          rw [Slot.filterMap_cons_toList, Slot.filterMap_cons_toList, hnil, htwinNil,
            List.append_nil, List.append_nil] at htail
          obtain ⟨rfl, rfl⟩ := Slot.flag_told hnamed hvalue htwin htail
          obtain ⟨hsame, -⟩ := hflags tail tail (by rw [hnil, htwinNil])
          exact ⟨by rw [List.map_cons, List.map_cons, hsame], rfl⟩
      | false =>
          have hcloses : place.isList = true →
              Closes (values.flatMap behind ++ rest) ∧ Closes (twins.flatMap behind ++ others) := by
            intro hplace
            rw [hplace, Bool.not_true, Bool.false_or, List.isEmpty_iff] at hlast
            subst hlast
            cases hvalues
            cases htwins
            exact hlist (by rw [List.any_cons, hplace, Bool.true_or])
          obtain ⟨hfirst, hsame⟩ := told hflag hvalue htwin (ends_behind _ hrest)
            (ends_behind _ hothers) hcloses h
          obtain ⟨hrests, hflags⟩ := hbehind hsame
          refine ⟨hrests, fun tail more htail => ?_⟩
          rw [List.filterMap_cons_none (Slot.flagText?_of_holds hvalue.holds hflag form),
            List.filterMap_cons_none (Slot.flagText?_of_holds htwin.holds hflag form)] at htail
          obtain ⟨hvalues, htails⟩ := hflags tail more htail
          exact ⟨by rw [List.map_cons, List.map_cons, hfirst, hvalues], htails⟩

end OperandValue

namespace Condition

variable {condition : Condition} {left right first second : Number}

theorem formula_reduced (condition : Condition) (negated : Bool) (left right : Number) :
    (condition.formula negated left right).IsReduced := by
  have hoperand : (condition.operand right).IsReduced := by
    rw [operand]
    split
    · exact ⟨trivial, trivial⟩
    · trivial
  cases negated with
  | false => exact ⟨trivial, hoperand⟩
  | true => exact ⟨⟨trivial, hoperand⟩, fun h => by cases h⟩

theorem formula_inj {negated : Bool}
    (h : condition.formula negated left right = condition.formula negated first second) :
    left = first ∧ right = second := by
  have hoperand : condition.operand right = condition.operand second → right = second := by
    intro hsame
    simp only [operand] at hsame
    split at hsame
    · injection hsame with _ _ hright
      exact Formula.number.inj hright
    · exact Formula.number.inj hsame
  cases negated with
  | false =>
      injection h with _ hleft hright
      exact ⟨Formula.number.inj hleft, hoperand hright⟩
  | true =>
      injection h with _ hcomparison
      injection hcomparison with _ hleft hright
      exact ⟨Formula.number.inj hleft, hoperand hright⟩

end Condition

namespace Form

/-- In every row of the table, with and without its optional operand, slots stand in order. -/
theorem slotsFor_inRow {form : Form} (h : form ∈ table) (subtype : UInt8) :
    Slot.inRow (form.slots.reverse.find? Slot.isFlag) (form.slotsFor subtype) = true ∧
      ((form.slotsFor subtype).any Slot.isList = true →
        (form.slotsFor subtype).any Slot.isFlag = false) := by
  have htable : ∀ form ∈ table, ∀ slots ∈ [form.slots.eraseIdx 1, form.slots],
      form.layout = .typedOptional ∨ slots = form.slots →
      Slot.inRow (form.slots.reverse.find? Slot.isFlag) slots = true ∧
        (slots.any Slot.isList = true → slots.any Slot.isFlag = false) := by
    decide +kernel
  simp only [slotsFor]
  split
  · rename_i hshort
    rw [Bool.and_eq_true, beq_iff_eq] at hshort
    exact htable form h _ (List.mem_cons_self ..) (.inl hshort.1)
  · exact htable form h _ (List.mem_cons_of_mem _ (List.mem_cons_self ..)) (.inr rfl)

end Form

theorem lineText_cons (mnemonic first : Bytes) (texts : List Bytes) :
    lineText mnemonic (first :: texts) =
      mnemonic ++ (ascii " " ++ (first ++ behindCommas texts)) := by
  rw [lineText, List.isEmpty_cons, if_neg Bool.false_ne_true, commaJoin_eq, List.append_assoc]

/-- A line is told by what stands behind its mnemonic. -/
theorem lineText_told {mnemonic : Bytes} {texts others : List Bytes} {rest more : Bytes}
    (h : lineText mnemonic texts ++ byte '\n' :: rest =
      lineText mnemonic others ++ byte '\n' :: more) :
    behindCommas texts ++ byte '\n' :: rest = behindCommas others ++ byte '\n' :: more := by
  have hblank (tail text : Bytes) : byte '\n' :: tail ≠ ascii " " ++ text := by
    intro hsame
    have hfirst := (List.cons.inj hsame).1
    revert hfirst
    decide
  have hnil : lineText mnemonic [] = mnemonic := rfl
  cases texts with
  | nil =>
      rw [hnil] at h
      cases others with
      | nil => exact List.append_cancel_left h
      | cons other others =>
          rw [lineText_cons, List.append_assoc, List.append_assoc] at h
          exact absurd (List.append_cancel_left h) (hblank _ _)
  | cons text texts =>
      rw [lineText_cons, List.append_assoc, List.append_assoc, List.append_assoc] at h
      cases others with
      | nil => exact absurd (List.append_cancel_left h).symm (hblank _ _)
      | cons other others =>
          rw [lineText_cons, List.append_assoc, List.append_assoc, List.append_assoc] at h
          have hjoined := List.append_cancel_left (List.append_cancel_left h)
          simp only [behindCommas, List.flatMap_cons, List.append_assoc] at hjoined ⊢
          rw [hjoined]

namespace Instruction

variable {form : Form} {first second : Instruction} {rest others : Bytes}

theorem exists_condition_text (hform : first.OfForm form) (hlayout : form.layout = .conditional) :
    ∃ condition left right destination,
      Condition.ofCode? (first.subtype &&& ~~~negatedBit) = some condition ∧
        first.operands.map Operand.value = [.number left, .number right, .target [destination]] ∧
        first.text = lineText (ascii form.mnemonic)
          [(condition.formula (first.subtype &&& negatedBit != 0) left right).fragment.text,
            destination.place.text] := by
  obtain ⟨condition, left, right, destination, hcondition, hoperands⟩ :=
    hform.exists_condition hlayout
  exact ⟨condition, left, right, destination, hcondition, hoperands,
    (PrintsAs.conditional hlayout hcondition hoperands).text_eq hform.row⟩

theorem bare_eq_of_values (hopcode : first.opcode = second.opcode)
    (hsubtype : first.subtype = second.subtype)
    (hvalues : (first.operands.map Operand.value).map (OperandValue.mapTargets CodeTarget.bare) =
      (second.operands.map Operand.value).map (OperandValue.mapTargets CodeTarget.bare)) :
    first.bare = second.bare := by
  have hoperands := congrArg (List.map fun value => Operand.mk value .origin) hvalues
  simp only [List.map_map] at hoperands
  simp only [bare, hopcode, hsubtype]
  exact congrArg (fun operands => Instruction.mk second.opcode second.subtype operands .origin)
    hoperands

theorem Suits.formed (h : first.Suits Slot.Fits form) : first.OfForm form :=
  ⟨h.row, h.subtype, h.operands.imp fun _ _ hfits => hfits.holds⟩

theorem Suits.spelled (h : first.Suits Slot.Fits form) {values : List OperandValue}
    (hvalues : first.operands.map Operand.value = values) :
    ∀ value ∈ values, ∀ destination ∈ value.targets, destination.place.IsSpelled := by
  rw [← hvalues]
  have hall : List.Forall₂ Slot.Fits (form.slotsFor first.subtype)
      (first.operands.map Operand.value) := List.forall₂_map_right_iff.mpr h.operands
  revert hall
  generalize form.slotsFor first.subtype = slots
  generalize first.operands.map Operand.value = values
  intro hall
  induction hall with
  | nil => exact List.forall_mem_nil _
  | cons hfits _ ih => exact List.forall_mem_cons.mpr ⟨hfits.spelled, ih⟩

/-- Two conditional jumps. -/
theorem conditional_told (hlayout : form.layout = .conditional)
    (hopcode : first.opcode = second.opcode) (hsubtype : first.subtype = second.subtype)
    (hfirst : first.Suits Slot.Fits form) (hsecond : second.Suits Slot.Fits form)
    (h : first.text ++ byte '\n' :: rest = second.text ++ byte '\n' :: others) :
    first.bare = second.bare ∧ rest = others := by
  obtain ⟨condition, left, right, destination, hcondition, hoperands, htext⟩ :=
    exists_condition_text hfirst.formed hlayout
  obtain ⟨twinCondition, twinLeft, twinRight, twin, htwinCondition, htwinOperands, htwinText⟩ :=
    exists_condition_text hsecond.formed hlayout
  rw [← hsubtype, hcondition] at htwinCondition
  obtain rfl := Option.some.inj htwinCondition
  rw [htext, htwinText, ← hsubtype] at h
  have hbehind := lineText_told h
  simp only [behindCommas, List.flatMap_cons, List.flatMap_nil, List.append_nil,
    List.append_assoc] at hbehind
  obtain ⟨hformula, hplaces⟩ := Formula.told (condition.formula_reduced _ _ _)
    (condition.formula_reduced _ _ _) (ends_comma _) (ends_comma _)
    (List.append_cancel_left hbehind)
  obtain ⟨rfl, rfl⟩ := Condition.formula_inj hformula
  have hspelled := hfirst.spelled hoperands (.target [destination]) (by simp) destination
    (List.mem_singleton_self _)
  have htwinSpelled := hsecond.spelled htwinOperands (.target [twin]) (by simp) twin
    (List.mem_singleton_self _)
  obtain ⟨hplace, hrest⟩ := told_place.rest_eq hspelled htwinSpelled (ends_line _).breaks
    (ends_line _).breaks (List.append_cancel_left hplaces)
  refine ⟨bare_eq_of_values hopcode hsubtype ?_, (List.cons.inj hrest).2⟩
  rw [hoperands, htwinOperands]
  simp [OperandValue.mapTargets, CodeTarget.bare, hplace]

/-- Two instructions whose operands are written one by one. -/
theorem positional_told (hlayout : form.layout ≠ .conditional)
    (hopcode : first.opcode = second.opcode) (hsubtype : first.subtype = second.subtype)
    (hfirst : first.Suits Slot.Fits form) (hsecond : second.Suits Slot.Fits form)
    (h : first.text ++ byte '\n' :: rest = second.text ++ byte '\n' :: others) :
    first.bare = second.bare ∧ rest = others := by
  have hvalues : List.Forall₂ Slot.Fits (form.slotsFor first.subtype)
      (first.operands.map Operand.value) := List.forall₂_map_right_iff.mpr hfirst.operands
  have htwins : List.Forall₂ Slot.Fits (form.slotsFor first.subtype)
      (second.operands.map Operand.value) :=
    hsubtype ▸ List.forall₂_map_right_iff.mpr hsecond.operands
  obtain ⟨hrow, hflags⟩ := Form.slotsFor_inRow (Form.of_ofOpcode? hfirst.row).1 first.subtype
  rw [text_of_positional hfirst.row hlayout, text_of_positional hsecond.row hlayout] at h
  have hbehind := lineText_told h
  rw [operandTexts, operandTexts, behindCommas_append, behindCommas_append,
    OperandValue.behindCommas_texts, OperandValue.behindCommas_texts, List.append_assoc,
    List.append_assoc] at hbehind
  have hends (texts : List Bytes) (text : Bytes) :
      Ends (behindCommas texts ++ byte '\n' :: text) :=
    behindCommas_heads (by decide) texts (ends_line text)
  have hcloses {values : List OperandValue} (text : Bytes)
      (hfits : List.Forall₂ Slot.Fits (form.slotsFor first.subtype) values)
      (hany : (form.slotsFor first.subtype).any Slot.isList = true) :
      Closes (behindCommas (values.filterMap (flagText? form)) ++ byte '\n' :: text) := by
    rw [Slot.flagTexts_eq_nil hfits (hflags hany)]
    exact closes_cons (by decide) _
  obtain ⟨htails, hsame⟩ := OperandValue.row_told hrow hvalues htwins (hends _ _) (hends _ _)
    (fun hany => ⟨hcloses _ hvalues hany, hcloses _ htwins hany⟩) hbehind
  obtain ⟨hoperands, hrest⟩ := hsame _ _ htails
  exact ⟨bare_eq_of_values hopcode hsubtype hoperands, hrest⟩

/-- Instructions of one operation are told apart by their texts at the ends of lines. -/
theorem told (hopcode : first.opcode = second.opcode) (hsubtype : first.subtype = second.subtype)
    (hfirst : first.Suits Slot.Fits form) (hsecond : second.Suits Slot.Fits form)
    (h : first.text ++ byte '\n' :: rest = second.text ++ byte '\n' :: others) :
    first.bare = second.bare ∧ rest = others := by
  by_cases hlayout : form.layout = .conditional
  · exact conditional_told hlayout hopcode hsubtype hfirst hsecond h
  · exact positional_told hlayout hopcode hsubtype hfirst hsecond h

end Instruction

end NovelAsm
