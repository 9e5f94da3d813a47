import NovelAsm.Proofs.Expr.Heights
import NovelAsm.Term.Expression

/-!
One discipline of the stack. Whatever an expression comes to, its terms never take more values than
were pushed and leave exactly one; the printer has a text for exactly these lists of terms, and the
reader of code accepts exactly these (`Term.isBalanced_everywhere`).

The three count in their own ways: the lowering by the operands that it puts one behind another, the
printer by the texts on its stack, the reader by a depth.
-/

namespace NovelAsm

namespace CodeReader

variable {α β : Type}

/-- A reader fails on some bytes, whatever follows them and wherever they stand. -/
def Refuses (reader : CodeReader α) (bytes : Bytes) : Prop :=
  ∀ position tail, ∃ failure, reader ⟨bytes ++ tail, position⟩ = .error failure

theorem refuses_fail (problem : DecodeProblem) (offset : Nat) (bytes : Bytes) :
    Refuses (fail problem offset : CodeReader α) bytes := fun _ _ => ⟨_, rfl⟩

/-- A reader that gets as far as a step that fails. -/
theorem Reads.refuses {reader : CodeReader α} {next : α → CodeReader β} {bytes more : Bytes}
    {value : α} (h : Reads reader bytes value) (hnext : Refuses (next value) more) :
    Refuses (reader >>= next) (bytes ++ more) := by
  intro position tail
  obtain ⟨failure, hfailure⟩ := hnext (position + bytes.length) tail
  refine ⟨failure, ?_⟩
  change (reader ⟨bytes ++ more ++ tail, position⟩ >>= fun (a, state) => next a state) = _
  rw [List.append_assoc, h position (more ++ tail)]
  exact hfailure

theorem Refuses.position {next : Nat → CodeReader α} {bytes : Bytes}
    (h : ∀ start, Refuses (next start) bytes) : Refuses (CodeReader.position >>= next) bytes :=
  fun start tail => h start start tail

theorem Refuses.map {reader : CodeReader α} {bytes : Bytes} (change : α → β)
    (h : Refuses reader bytes) : Refuses (do return change (← reader)) bytes := by
  intro position tail
  obtain ⟨failure, hfailure⟩ := h position tail
  refine ⟨failure, ?_⟩
  change (reader ⟨bytes ++ tail, position⟩ >>= fun (a, state) => (pure (change a) :
    CodeReader β) state) = _
  rw [hfailure]
  rfl

end CodeReader

namespace Term

/-- Terms that never take more values than were pushed, and leave exactly one. -/
def IsBalanced (terms : List Term) : Prop := heightAfter? 0 terms = some 1

instance (terms : List Term) : Decidable (IsBalanced terms) :=
  inferInstanceAs (Decidable (heightAfter? 0 terms = some 1))

/-- The texts on the printer's stack are counted by the heights of the stack. -/
theorem map_length_render? (stack : List Fragment) (terms : List Term) :
    (render? stack terms).map List.length = heightAfter? stack.length terms := by
  induction terms generalizing stack with
  | nil => rfl
  | cons first rest ih =>
      cases first with
      | push number => exact ih _
      | apply operator =>
          simp only [render?, heightAfter?]
          split
          · rfl
          · rw [ih, List.length_cons, List.length_drop]

/-- The terms that have a text are those that are balanced. -/
theorem isSome_expression?_iff (terms : List Term) :
    (expression? terms).isSome = true ↔ IsBalanced terms := by
  have hlength := map_length_render? [] terms
  rw [List.length_nil] at hlength
  rw [IsBalanced, ← hlength, expression?]
  cases render? [] terms with
  | none => simp
  | some stack =>
      match stack with
      | [] => simp
      | [fragment] => simp
      | _ :: _ :: _ => simp

end Term

namespace CodeReader

/-- Terms are not read if they take more values than there are, or do not leave exactly one. -/
theorem termsFrom_refuses {span : Span} (start bound height : Nat) (taken terms : List Term)
    (hbound : terms.length < bound) (hheight : Term.heightAfter? height terms ≠ some 1)
    (h : (Piece.concat (terms.map (Piece.term span))).diagnostics.hasErrors = false) :
    Refuses (termsFrom start bound height taken)
      ((Piece.concat (terms.map (Piece.term span))).bytes ++ [Term.terminator]) := by
  induction terms generalizing bound height taken with
  | nil =>
      obtain ⟨bound, rfl⟩ : ∃ n, bound = n + 1 := ⟨bound - 1, by simp at hbound; omega⟩
      have hmany : (height == 1) = false := by simpa [Term.heightAfter?] using hheight
      refine Refuses.position fun offset => ?_
      refine (reads_u8 Term.terminator).refuses ?_
      simp only [beq_self_eq_true, if_true, hmany]
      exact refuses_fail _ _ []
  | cons first rest ih =>
      obtain ⟨bound, rfl⟩ : ∃ n, bound = n + 1 := ⟨bound - 1, by simp at hbound; omega⟩
      have hrest : rest.length < bound := by simpa using hbound
      simp only [List.map_cons, Piece.concat, List.flatMap_cons, Diagnostics.hasErrors_append,
        Bool.or_eq_false_iff] at h
      refine Refuses.position fun offset => ?_
      cases first with
      | push number =>
          have hnumber := h.1
          simp only [Piece.term, Piece.diagnostics_append, Diagnostics.hasErrors_append,
            Bool.or_eq_false_iff] at hnumber
          have hmore := ih bound (height + 1) (.push number :: taken) hrest hheight h.2
          simp only [List.map_cons, Piece.concat, List.flatMap_cons, Piece.term,
            Piece.bytes_append, List.append_assoc, (Number.piece_of_no_errors hnumber.2).2]
          refine (reads_u8 _).refuses ?_
          have hcode : Term.pushCode.toNat.toUInt8 = Term.pushCode := rfl
          have hends : (Term.pushCode == Term.terminator) = false := rfl
          rw [hcode]
          simp only [hends, beq_self_eq_true, if_true]
          exact (Number.reads_form hnumber.2).refuses hmore
      | apply operator =>
          have hcode : operator.code.toNat.toUInt8 = operator.code := by simp
          have hends : (operator.code == Term.terminator) = false := by
            simpa using (code_ne operator).1
          have hpush : (operator.code == Term.pushCode) = false := by
            simpa using (code_ne operator).2
          simp only [List.map_cons, Piece.concat, List.flatMap_cons, Piece.term, List.append_assoc]
          refine (reads_u8 _).refuses ?_
          rw [hcode]
          simp only [hends, hpush, ofCode?_code]
          by_cases henough : height < operator.arity
          · simp only [if_pos henough]
            exact refuses_fail _ _ _
          · simp only [if_neg henough]
            simp only [Term.heightAfter?, if_neg henough] at hheight
            exact ih bound _ (.apply operator :: taken) hrest hheight h.2

/-- An expression in code is accepted if and only if its terms are balanced, and is read back
then. -/
theorem expression_cases {span : Span} {terms : List Term} (offset : Nat)
    (h : (Piece.concat (terms.map (Piece.term span))).diagnostics.hasErrors = false) :
    if Term.IsBalanced terms then
      Reads (slot .expression) (Piece.operand offset ⟨.expression terms, span⟩).bytes
        (.expression terms)
    else Refuses (slot .expression) (Piece.operand offset ⟨.expression terms, span⟩).bytes := by
  split
  · rename_i hbalanced
    exact reads_expression hbalanced h
  · rename_i hbalanced
    refine Refuses.map OperandValue.expression fun position tail => ?_
    have hlength := length_le_terms span terms
    exact termsFrom_refuses position _ 0 [] terms
      (by simp only [Piece.operand, Piece.bytes_append, List.length_append]; omega) hbalanced h
      position tail

end CodeReader

namespace Term

/-- Terms whose numbers have a form are encoded without errors. -/
theorem no_errors_of_forms {terms : List Term}
    (h : ∀ number, .push number ∈ terms → number.encode?.isSome = true) (span : Span) :
    (Piece.concat (terms.map (Piece.term span))).diagnostics.hasErrors = false := by
  induction terms with
  | nil => rfl
  | cons first rest ih =>
      have hrest := ih fun number hnumber => h number (List.mem_cons_of_mem _ hnumber)
      simp only [Piece.concat] at hrest
      simp only [List.map_cons, Piece.concat, List.flatMap_cons, Diagnostics.hasErrors_append,
        hrest, Bool.or_false]
      cases first with
      | apply operator => rfl
      | push number =>
          obtain ⟨bytes, hbytes⟩ := Option.isSome_iff_exists.mp (h number (List.mem_cons_self ..))
          simp only [Piece.term, Piece.diagnostics_append, Diagnostics.hasErrors_append,
            Piece.number, hbytes]
          rfl

/-- The terms of an expression that has a value are balanced. Among the lists of terms whose
numbers have a form, those that are printed as an expression are the balanced ones, and so are
those that are accepted as an expression in code. -/
theorem isBalanced_everywhere :
    (∀ (expr : Expr) (diagnostics : Diagnostics),
      (expr.compute diagnostics).1.isValid = true →
        (expr.compute diagnostics).1.toTerms ≠ [] ∧
          IsBalanced (expr.compute diagnostics).1.toTerms) ∧
    ∀ terms : List Term, (∀ number, .push number ∈ terms → number.encode?.isSome = true) →
      ((expression? terms).isSome = true ↔ IsBalanced terms) ∧
        ∀ (span : Span) (offset position : Nat) (tail : Bytes),
          (∃ found, CodeReader.slot .expression
            ⟨(Piece.operand offset ⟨.expression terms, span⟩).bytes ++ tail, position⟩ =
              .ok found) ↔ IsBalanced terms := by
  constructor
  · intro expr diagnostics hvalid
    have hleaves := Computation.leaves_toTerms (expr.compute_sound diagnostics) hvalid
    refine ⟨fun hnone => ?_, hleaves 0⟩
    have hheight := hleaves 0
    rw [hnone] at hheight
    cases hheight
  · intro terms hforms
    refine ⟨isSome_expression?_iff terms, fun span offset position tail => ?_⟩
    have hcases := CodeReader.expression_cases offset (no_errors_of_forms hforms span)
    split at hcases
    · rename_i hbalanced
      exact iff_of_true ⟨_, hcases position tail⟩ hbalanced
    · rename_i hbalanced
      obtain ⟨failure, hfailure⟩ := hcases position tail
      refine iff_of_false ?_ hbalanced
      rintro ⟨found, hfound⟩
      rw [hfailure] at hfound
      cases hfound

/-- A real times an integer that is held by a register, and terms that take too much. -/
theorem isBalanced_everywhere_promoted :
    let expr : Expr := .binary .origin .multiply (.literal .origin ⟨1500, .real⟩)
      (.register .origin (.value 3) (ascii "$v3"))
    let greedy : List Term := [.push (.constant 1), .apply .add]
    (expr.compute []).1.toTerms = [.push (.constant 1500), .push (.register (.value 3)),
        .push (.constant 1000), .apply .multiply, .apply .multiplyReal] ∧
      IsBalanced (expr.compute []).1.toTerms ∧
      ((expression? greedy).isSome = true ↔ IsBalanced greedy) ∧ ¬ IsBalanced greedy := by
  intro expr greedy
  have hvalue : (expr.compute []).1.isValid = true := by decide
  have hforms : ∀ number, .push number ∈ greedy → number.encode?.isSome = true := by
    intro number hnumber
    obtain rfl : number = .constant 1 := by simpa [greedy] using hnumber
    decide
  exact ⟨by decide, (isBalanced_everywhere.1 expr [] hvalue).2,
    (isBalanced_everywhere.2 greedy hforms).1, by decide⟩

end Term

end NovelAsm
