import NovelAsm.Proofs.SyntaxTree.Runs
import NovelAsm.Proofs.SyntaxTree.Shape

/-!
Steps, loops and lines that are given up. What parsers are put together from reads what its parts
read: a loop ends because each round but the last takes something, and tokens run out. Whatever is
wrong with a line, an error node takes the rest of it.
-/

namespace NovelAsm

namespace Parser

open SyntaxTree

variable {α β σ : Type} {allowed : Allowed} {clean : Bool} {cursor : Cursor}

theorem Allowed.Le.refl (allowed : Allowed) : allowed.Le allowed := ⟨fun _ => id, fun _ => id⟩

/-! ## Steps -/

namespace Reads

section Steps

variable {post : Outcome β → Prop}

theorem imp {P Q : Outcome α → Prop} {parser other : Parser α}
    (h : Reads allowed clean cursor P parser other)
    (hpost : ∀ outcome, P outcome → Reached allowed clean cursor outcome → Q outcome) :
    Reads allowed clean cursor Q parser other :=
  h.widen (.refl allowed) hpost

/-- What stands behind a step of which the outcome is known. -/
theorem bind_eq {o : Outcome α} {parser other : Parser α} {next nextOther : α → Parser β}
    (h : Reads allowed clean cursor (· = o) parser other)
    (hnext : Reads allowed o.clean o.cursor (fun result => post (result.behind o.trees))
      (next o.answer) (nextOther o.answer)) :
    Reads allowed clean cursor post (parser >>= next) (other >>= nextOther) :=
  .bind h fun _ heq _ => by
    subst heq
    exact hnext

/-- What stands behind a step of which the outcome depends on the kind of the next token. -/
theorem bind_cases {kind : TokenKind} {yes no : Outcome α} {parser other : Parser α}
    {next nextOther : α → Parser β}
    (h : Reads allowed clean cursor (fun outcome => cursor.peek.kind = kind ∧ outcome = yes ∨
      cursor.peek.kind ≠ kind ∧ outcome = no) parser other)
    (hyes : cursor.peek.kind = kind → Reads allowed yes.clean yes.cursor
      (fun result => post (result.behind yes.trees)) (next yes.answer) (nextOther yes.answer))
    (hno : cursor.peek.kind ≠ kind → Reads allowed no.clean no.cursor
      (fun result => post (result.behind no.trees)) (next no.answer) (nextOther no.answer)) :
    Reads allowed clean cursor post (parser >>= next) (other >>= nextOther) :=
  .bind h fun _ houtcome _ => by
    rcases houtcome with ⟨hpeek, rfl⟩ | ⟨hpeek, rfl⟩
    · exact hyes hpeek
    · exact hno hpeek

theorem peekKind_bind {next nextOther : TokenKind → Parser β}
    (h : Reads allowed clean cursor post (next cursor.peek.kind) (nextOther cursor.peek.kind)) :
    Reads allowed clean cursor post (Parser.peekKind >>= next) (Parser.peekKind >>= nextOther) :=
  bind_eq (.peekKind rfl) h

theorem at?_bind {kind : TokenKind} {next nextOther : Bool → Parser β}
    (h : Reads allowed clean cursor post (next (cursor.peek.kind == kind))
      (nextOther (cursor.peek.kind == kind))) :
    Reads allowed clean cursor post (at? kind >>= next) (at? kind >>= nextOther) :=
  bind_eq (o := ⟨_, [], clean, cursor⟩) (peekKind_bind (.pure rfl)) h

theorem bump_bind {next nextOther : PUnit → Parser β} (hpeek : cursor.peek.kind ≠ .endOfFile)
    (hflat : clean = true → cursor.peek.kind.IsFlat)
    (hallowed : clean = true → allowed.takes cursor.peek.kind = true)
    (h : Reads allowed clean cursor.behind
      (fun result => post (result.behind (cursor.nextTokens.map .token))) (next ())
        (nextOther ())) :
    Reads allowed clean cursor post (Parser.bump >>= next) (Parser.bump >>= nextOther) :=
  bind_eq (.bump hpeek hflat hallowed rfl) h

theorem report_bind {problem : SyntaxProblem} {next nextOther : PUnit → Parser β}
    (h : Reads allowed false cursor post (next ()) (nextOther ())) :
    Reads allowed clean cursor post (Parser.report problem >>= next)
      (Parser.report problem >>= nextOther) :=
  bind_eq (.report rfl) h

theorem when {post : Outcome PUnit → Prop} {condition : Bool} {step other : Parser PUnit}
    (hstep : condition = true → Reads allowed clean cursor post step other)
    (hnone : condition = false → post ⟨(), [], clean, cursor⟩) :
    Reads allowed clean cursor post (Parser.when condition step) (Parser.when condition other) := by
  cases condition with
  | true => exact hstep rfl
  | false => exact .pure (hnone rfl)

theorem accept {post : Outcome Bool → Prop} {kind : TokenKind} (hkind : kind ≠ .endOfFile)
    (hflat : kind.IsFlat) (hallowed : allowed.takes kind = true)
    (hyes : cursor.peek.kind = kind →
      post ⟨true, cursor.nextTokens.map .token, clean, cursor.behind⟩)
    (hno : cursor.peek.kind ≠ kind → post ⟨false, [], clean, cursor⟩) :
    Reads allowed clean cursor post (Parser.accept kind) (Parser.accept kind) := by
  refine at?_bind ?_
  by_cases hpeek : cursor.peek.kind = kind
  · rw [hpeek, beq_self_eq_true]
    refine bump_bind (hpeek ▸ hkind) (fun _ => hpeek ▸ hflat) (fun _ => hpeek ▸ hallowed) (.pure ?_)
    simpa [Outcome.behind] using hyes hpeek
  · rw [beq_eq_false_iff_ne.mpr hpeek]
    exact .pure (hno hpeek)

/-- What stands behind a token that may be there. -/
theorem accept_bind {kind : TokenKind} {next nextOther : Bool → Parser β}
    (hkind : kind ≠ .endOfFile) (hflat : kind.IsFlat) (hallowed : allowed.takes kind = true)
    (hyes : cursor.peek.kind = kind → Reads allowed clean cursor.behind
      (fun result => post (result.behind (cursor.nextTokens.map .token))) (next true)
      (nextOther true))
    (hno : cursor.peek.kind ≠ kind →
      Reads allowed clean cursor post (next false) (nextOther false)) :
    Reads allowed clean cursor post (Parser.accept kind >>= next)
      (Parser.accept kind >>= nextOther) :=
  bind_cases (accept hkind hflat hallowed (fun hpeek => .inl ⟨hpeek, rfl⟩)
    fun hpeek => .inr ⟨hpeek, rfl⟩) hyes hno

/-- What stands behind a token that has to be there. -/
theorem expect_bind {kind : TokenKind} {problem : SyntaxProblem} {next nextOther : Bool → Parser β}
    (hkind : kind ≠ .endOfFile) (hflat : kind.IsFlat) (hallowed : allowed.takes kind = true)
    (hyes : cursor.peek.kind = kind → Reads allowed clean cursor.behind
      (fun result => post (result.behind (cursor.nextTokens.map .token))) (next true)
      (nextOther true))
    (hno : cursor.peek.kind ≠ kind →
      Reads allowed false cursor post (next false) (nextOther false)) :
    Reads allowed clean cursor post (Parser.expect kind problem >>= next)
      (Parser.expect kind problem >>= nextOther) := by
  have hexpect : Reads allowed clean cursor (fun outcome => cursor.peek.kind = kind ∧
        outcome = ⟨true, cursor.nextTokens.map .token, clean, cursor.behind⟩ ∨
      cursor.peek.kind ≠ kind ∧ outcome = ⟨false, [], false, cursor⟩)
      (Parser.expect kind problem) (Parser.expect kind problem) :=
    accept_bind hkind hflat hallowed
      (fun hpeek => .pure (.inl ⟨hpeek, by simp [Outcome.behind]⟩))
      fun hpeek => report_bind (.pure (.inr ⟨hpeek, rfl⟩))
  exact bind_cases hexpect hyes hno

theorem require {post : Outcome PUnit → Prop} {kind : TokenKind} {problem : SyntaxProblem}
    (hkind : kind ≠ .endOfFile) (hflat : kind.IsFlat) (hallowed : allowed.takes kind = true)
    (hyes : cursor.peek.kind = kind → post (taking clean cursor))
    (hno : cursor.peek.kind ≠ kind → post ⟨(), [], false, cursor⟩) :
    Reads allowed clean cursor post (Parser.require kind problem)
      (Parser.require kind problem) := by
  refine expect_bind hkind hflat hallowed (fun hpeek => .pure ?_) fun hpeek => .pure (hno hpeek)
  simpa [Outcome.behind, taking] using hyes hpeek

theorem require_bind {kind : TokenKind} {problem : SyntaxProblem}
    {next nextOther : PUnit → Parser β} (hkind : kind ≠ .endOfFile) (hflat : kind.IsFlat)
    (hallowed : allowed.takes kind = true)
    (hyes : cursor.peek.kind = kind → Reads allowed clean cursor.behind
      (fun result => post (result.behind (cursor.nextTokens.map .token))) (next ()) (nextOther ()))
    (hno : cursor.peek.kind ≠ kind → Reads allowed false cursor post (next ()) (nextOther ())) :
    Reads allowed clean cursor post (Parser.require kind problem >>= next)
      (Parser.require kind problem >>= nextOther) :=
  bind_cases (require hkind hflat hallowed (fun hpeek => .inl ⟨hpeek, rfl⟩)
    fun hpeek => .inr ⟨hpeek, rfl⟩) hyes hno

theorem again {post : Outcome Bool → Prop} {step other : Parser PUnit}
    (h : Reads allowed clean cursor
      (fun outcome => post ⟨true, outcome.trees, outcome.clean, outcome.cursor⟩) step other) :
    Reads allowed clean cursor post (Parser.again step) (Parser.again other) := by
  refine .bind h fun outcome houtcome _ => .pure ?_
  simpa [Outcome.behind] using houtcome

end Steps

end Reads

/-! ## Loops -/

/-- A cursor further on in the same brackets. -/
structure Further (clean : Bool) (cursor : Cursor) (less : Bool) (behind : Cursor) : Prop where
  stands : Stands less behind
  clean_of : less = true → clean = true
  nesting_eq : behind.nesting = cursor.nesting
  length_le : behind.rest.length ≤ cursor.rest.length

theorem Further.refl (h : Stands clean cursor) : Further clean cursor clean cursor :=
  ⟨h, id, rfl, Nat.le_refl _⟩

theorem Further.trans {less : Bool} {behind : Cursor} {outcome : Outcome α}
    (h : Further clean cursor less behind) (hreached : Reached allowed less behind outcome) :
    Further clean cursor outcome.clean outcome.cursor where
  stands := hreached.stands h.stands
  clean_of hclean := h.clean_of (hreached.clean_of hclean)
  nesting_eq := hreached.nesting_eq.trans h.nesting_eq
  length_le := hreached.length_le.trans h.length_le

/-- A round takes something if it asks for another one. -/
structure Goes (last : Cursor → Prop) (asks : α → Bool) (result : Outcome α) : Prop where
  taken : asks result.answer = true → leavesOf result.trees ≠ []
  ends : asks result.answer = false → last result.cursor

namespace Reads

/-- A loop each round of which takes something, unless it is the last. -/
theorem loop (last : Cursor → Prop) {round roundOther : σ → Parser (Option σ)}
    (hround : ∀ given {less : Bool} {behind : Cursor}, Further clean cursor less behind →
      Reads allowed less behind (Goes last Option.isSome) (round given) (roundOther given))
    (count twin : Nat) {given : σ} {less : Bool} {behind : Cursor}
    (hbehind : Further clean cursor less behind) (hcount : behind.rest.length < count) :
    Reads allowed less behind (fun outcome => last outcome.cursor)
      (Parser.loop round count given) (Parser.loop roundOther twin given) := by
  induction count generalizing twin given less behind with
  | zero => omega
  | succ count ih =>
      have hstep (twin : Nat) : Reads allowed less behind (fun outcome => last outcome.cursor)
          (Parser.loop round (count + 1) given) (Parser.loop roundOther (twin + 1) given) := by
        refine .bind (hround given hbehind) fun outcome hgoes hreached => ?_
        obtain ⟨answer, trees, farClean, far⟩ := outcome
        cases answer with
        | none => exact .pure (hgoes.ends rfl)
        | some next =>
            have hless := hreached.length_lt (hgoes.taken rfl)
            exact ih twin (hbehind.trans hreached) (by
              change far.rest.length < count
              change far.rest.length < _ at hless
              omega)
      cases twin with
      | zero => exact .spent (hstep 0)
      | succ twin => exact hstep twin

/-- The rounds of a loop that hands nothing on. -/
theorem repeated (last : Cursor → Prop) {round roundOther : Parser Bool}
    (hround : ∀ {less : Bool} {behind : Cursor}, Further clean cursor less behind →
      Reads allowed less behind (Goes last id) round roundOther)
    (count twin : Nat) {less : Bool} {behind : Cursor} (hbehind : Further clean cursor less behind)
    (hcount : behind.rest.length < count) :
    Reads allowed less behind (fun outcome => last outcome.cursor)
      (Parser.loop (Parser.repeated round) count ())
        (Parser.loop (Parser.repeated roundOther) twin ()) := by
  refine loop last (fun _ _ _ hbehind => ?_) count twin hbehind hcount
  refine .bind (hround hbehind) fun outcome hgoes _ => .pure ?_
  obtain ⟨answer, trees, farClean, far⟩ := outcome
  cases answer with
  | true => exact ⟨fun _ => by simpa [Outcome.behind] using hgoes.taken rfl, fun h => by cases h⟩
  | false => exact ⟨(absurd · Bool.false_ne_true), fun _ => hgoes.ends rfl⟩

theorem many (last : Cursor → Prop) {round roundOther : Parser Bool}
    (hstands : Stands clean cursor)
    (hround : ∀ {less : Bool} {behind : Cursor}, Further clean cursor less behind →
      Reads allowed less behind (Goes last id) round roundOther) :
    Reads allowed clean cursor (fun outcome => last outcome.cursor) (Parser.many round)
      (Parser.many roundOther) :=
  .rounds fun count twin hcount => repeated last hround count twin (.refl hstands) hcount

end Reads

/-! ## Lines that are given up -/

theorem Stands.unclean (h : Stands clean cursor) : Stands false cursor := ⟨h.ended, nofun⟩

theorem Stands.enter (h : Stands clean cursor) : Stands clean cursor.enter :=
  ⟨h.ended, fun hclean => (h.fit hclean).enter⟩

theorem Stands.restart (h : Stands clean cursor) : Stands clean (cursor.mark false) :=
  ⟨h.ended, fun hclean => (h.fit hclean).restart⟩

/-- What begins with something wrong stays so. -/
theorem Reached.not_clean {outcome : Outcome α} (h : Reached allowed false cursor outcome) :
    outcome.clean = false :=
  Bool.eq_false_iff.mpr fun hclean => Bool.false_ne_true (h.clean_of hclean)

theorem Stands.nextTokens_ne (h : Stands clean cursor) (hpeek : cursor.peek.kind ≠ .endOfFile) :
    leavesOf (cursor.nextTokens.map .token) ≠ [] := by
  obtain ⟨skipped, hnext, -⟩ := Cursor.exists_nextTokens_eq h.ended hpeek
  rw [leavesOf_tokens, hnext]
  simp

/-- An error node, which takes something. -/
def GivesUp (outcome : Outcome PUnit) : Prop :=
  outcome.clean = false ∧ leavesOf outcome.trees ≠ [] ∧
    ∃ children, outcome.trees = [.node .error children]

theorem restOfLine_reads (hstands : Stands false cursor) (hpeek : cursor.peek.kind ≠ .endOfFile) :
    Reads allowed false cursor GivesUp restOfLine restOfLine := by
  refine .node (P := fun outcome => leavesOf outcome.trees ≠ []) rfl ?_
    fun outcome htaken hreached => ?_
  · refine Reads.bump_bind hpeek nofun nofun ?_
    refine (Reads.many (fun _ => True) hstands.behind fun {less behind} hbehind =>
      Reads.peekKind_bind ?_).imp fun outcome _ _ => ?_
    · split
      · exact .pure ⟨nofun, fun _ => trivial⟩
      · rename_i hkind
        have hinside : behind.peek.kind ≠ .endOfFile := fun hend => hkind (by rw [hend]; rfl)
        exact Reads.again (.bump hinside (fun h => nomatch hbehind.clean_of h)
          (fun h => nomatch hbehind.clean_of h)
          ⟨fun _ => hbehind.stands.nextTokens_ne hinside, nofun⟩)
    · rw [Outcome.behind, leavesOf_append]
      exact List.append_ne_nil_of_left_ne_nil (hstands.nextTokens_ne hpeek) _
  · have hclean := hreached.not_clean
    refine ⟨fun h => absurd h (by rw [hclean]; decide), grown_plain rfl fun h => ?_, hclean, ?_,
      _, rfl⟩
    · rw [hclean] at h
      cases h
    · rwa [Outcome.node, leavesOf_node]

theorem recover_reads (hstands : Stands clean cursor) (hpeek : cursor.peek.kind ≠ .endOfFile)
    (problem : SyntaxProblem) :
    Reads allowed clean cursor GivesUp (recover problem) (recover problem) := by
  refine Reads.at?_bind (Reads.bind_eq (o := ⟨(), [], false, cursor⟩) ?_ ?_)
  · refine Reads.when (fun _ => .report rfl) fun hinvalid => ?_
    have hclean : clean = false := by
      refine Bool.eq_false_iff.mpr fun hclean => ?_
      exact (hstands.fit hclean).sound.kind_peek_ne (by simpa using hinvalid)
    rw [hclean]
  · exact restOfLine_reads hstands.unclean hpeek

/-- The end of a line that nothing is wrong with is left in place. -/
def EndsLine (outcome : Outcome PUnit) : Prop :=
  GivesUp outcome ∨ outcome.trees = [] ∧ isLineEnd outcome.cursor.peek.kind = true

theorem EndsLine.of_clean {outcome : Outcome PUnit} (h : EndsLine outcome)
    (hclean : outcome.clean = true) :
    outcome.trees = [] ∧ isLineEnd outcome.cursor.peek.kind = true :=
  h.resolve_left fun hgiven => by
    rw [hgiven.1] at hclean
    cases hclean

theorem lineEnd_reads (hstands : Stands clean cursor) :
    Reads allowed clean cursor EndsLine lineEnd lineEnd := by
  refine Reads.bind_eq (.takeFailed rfl) ?_
  refine Reads.bind_eq (o := ⟨isLineEnd cursor.peek.kind, [], clean, cursor.mark false⟩)
    (Reads.peekKind_bind (.pure rfl)) ?_
  have hinside (h : ¬ isLineEnd cursor.peek.kind = true) :
      (cursor.mark false).peek.kind ≠ .endOfFile := fun hend => h (by
    change cursor.peek.kind = _ at hend
    rw [hend]
    rfl)
  split
  · rename_i hline
    exact .pure (.inr ⟨rfl, hline⟩)
  · rename_i hline
    split
    · rename_i hfailed
      have hclean : clean = false := Bool.eq_false_iff.mpr fun hclean => by
        rw [(hstands.fit hclean).sound.notFailed] at hfailed
        cases hfailed
      subst hclean
      exact (restOfLine_reads hstands.restart (hinside hline)).imp fun _ hgiven _ => .inl hgiven
    · exact (recover_reads hstands.restart (hinside hline) _).imp fun _ hgiven _ => .inl hgiven

end Parser

end NovelAsm
