import NovelAsm.Proofs.Code.Reads

/-!
Readers are local. What a reader answers is decided by the bytes that it has taken, and by all
of them: it answers the same whatever follows these bytes, and where they are cut short it stops
at the cut (`CodeReader.Delimits`). The relation is closed under the steps that readers are
built from, so it holds of an instruction at any place of any block
(`DecodedInstruction.readAt_local`).
-/

namespace NovelAsm

namespace CodeReader

variable {α β : Type}

/-- A reader takes exactly some bytes for a value, whatever follows them. If they are cut short
anywhere, it stops there. -/
structure Delimits (reader : CodeReader α) (position : Nat) (bytes : Bytes) (value : α) : Prop where
  reads : ReadsAt reader position bytes value
  stops : ∀ cut < bytes.length, reader ⟨bytes.take cut, position⟩ =
    .error ⟨.truncated, position + cut, position + cut⟩

/-- A reader delimits whatever it takes for an answer. -/
def Local (reader : CodeReader α) : Prop :=
  ∀ state value after, reader state = .ok (value, after) →
    ∃ taken, state.rest = taken ++ after.rest ∧ after.position = state.position + taken.length ∧
      Delimits reader state.position taken value

theorem run_bind (reader : CodeReader α) (next : α → CodeReader β) (state : ReadState) :
    (reader >>= next) state = reader state >>= fun answer => next answer.1 answer.2 := rfl

theorem Delimits.pure (position : Nat) (value : α) :
    Delimits (Pure.pure value) position [] value :=
  ⟨Reads.pure value position, nofun⟩

theorem Delimits.bind {reader : CodeReader α} {next : α → CodeReader β} {position : Nat}
    {bytes more : Bytes} {value : α} {result : β} (h : Delimits reader position bytes value)
    (hnext : Delimits (next value) (position + bytes.length) more result) :
    Delimits (reader >>= next) position (bytes ++ more) result := by
  refine ⟨h.reads.bind hnext.reads, fun cut hcut => ?_⟩
  rw [List.length_append] at hcut
  rw [List.take_append, run_bind]
  rcases Nat.lt_or_ge cut bytes.length with hshort | hlong
  · rw [Nat.sub_eq_zero_of_le hshort.le, List.take_zero, List.append_nil, h.stops cut hshort]
    rfl
  · have hstop := hnext.stops (cut - bytes.length) (by omega)
    rw [Nat.add_assoc, Nat.add_sub_cancel' hlong] at hstop
    rw [List.take_of_length_le hlong, h.reads]
    exact hstop

theorem Local.pure (value : α) : Local (Pure.pure value) := by
  rintro state _ _ ⟨⟩
  exact ⟨[], rfl, rfl, .pure _ value⟩

theorem Local.fail (problem : DecodeProblem) (offset : Nat) :
    Local (fail problem offset : CodeReader α) := nofun

theorem Local.bind {reader : CodeReader α} {next : α → CodeReader β} (h : Local reader)
    (hnext : ∀ value, Local (next value)) : Local (reader >>= next) := by
  intro state result after hrun
  rw [run_bind] at hrun
  cases hfirst : reader state with
  | error failure =>
      rw [hfirst] at hrun
      cases hrun
  | ok answer =>
      obtain ⟨value, middle⟩ := answer
      rw [hfirst] at hrun
      obtain ⟨taken, hrest, hposition, hdelimits⟩ := h _ _ _ hfirst
      obtain ⟨more, hmore, hafter, hothers⟩ := hnext value middle result after hrun
      refine ⟨taken ++ more, ?_, ?_, hdelimits.bind (hposition ▸ hothers)⟩
      · rw [hrest, hmore, List.append_assoc]
      · rw [hafter, hposition, List.length_append, Nat.add_assoc]

theorem Local.map {reader : CodeReader α} (h : Local reader) (change : α → β) :
    Local (do return change (← reader)) := h.bind fun value => .pure (change value)

theorem delimits_u8 (b : UInt8) (position : Nat) : Delimits u8 position [b] b := by
  refine ⟨reads_u8 b position, fun cut hcut => ?_⟩
  obtain rfl := Nat.lt_one_iff.mp hcut
  rfl

theorem local_u8 : Local u8 := by
  rintro ⟨rest, position⟩ value after hrun
  cases rest with
  | nil => cases hrun
  | cons b rest =>
      cases hrun
      exact ⟨[value], rfl, rfl, delimits_u8 value position⟩

theorem local_position : Local position := by
  rintro state _ _ ⟨⟩
  exact ⟨[], rfl, rfl, readsAt_position _, nofun⟩

theorem local_collect {item : CodeReader α} (h : Local item) (count : Nat) (taken : List α) :
    Local (collect item count taken) := by
  induction count generalizing taken with
  | zero => exact .pure _
  | succ count ih => exact h.bind fun value => ih (value :: taken)

theorem local_many {item : CodeReader α} (h : Local item) (count : Nat) :
    Local (many item count) := local_collect h count []

theorem local_littleEndian (width : Nat) : Local (littleEndian width) :=
  (local_many local_u8 width).map _

theorem local_bigEndian (width : Nat) : Local (bigEndian width) :=
  (local_many local_u8 width).map _

theorem local_register : Local register := by
  refine local_position.bind fun start => (local_littleEndian 2).bind fun raw => ?_
  split
  · exact .pure _
  · exact .fail _ _

theorem local_readTail (high more : Nat) : Local (Number.readTail high more) :=
  (local_bigEndian more).map _

theorem local_number : Local Number.read := by
  refine local_position.bind fun start => local_u8.bind fun first => ?_
  dsimp only
  split
  · exact (local_readTail _ _).map _
  · exact (local_readTail _ _).map _
  · exact (local_readTail _ _).map _
  · exact .pure _
  · exact (local_readTail _ _).map fun raw => Number.ofRegister (Register.value? raw)
  · exact .pure _
  · split
    · exact .pure _
    · exact .fail _ _

theorem local_paddedNumber : Local paddedNumber :=
  local_position.bind fun _ => local_number.bind fun _ => local_position.bind fun _ =>
    (local_many local_u8 _).bind fun _ => .pure _

theorem local_mapM {items : List α} {step : α → CodeReader β} (h : ∀ item, Local (step item)) :
    Local (items.mapM step) := by
  induction items with
  | nil => exact .pure _
  | cons item rest ih =>
      rw [List.mapM_cons]
      exact (h item).bind fun value => ih.bind fun values => .pure _

theorem local_bitmaskSlot (mask : UInt8) (slot : Nat) : Local (bitmaskSlot mask slot) := by
  simp only [bitmaskSlot]
  split
  · exact local_number
  · exact .pure _

theorem local_target : Local target := (local_littleEndian 4).map _

/-- What is left behind an answer is no more than what was left before it. -/
theorem Local.length_le {reader : CodeReader α} (h : Local reader) {state after : ReadState}
    {value : α} (hrun : reader state = .ok (value, after)) :
    after.rest.length ≤ state.rest.length := by
  obtain ⟨taken, hrest, -, -⟩ := h _ _ _ hrun
  rw [hrest, List.length_append]
  exact Nat.le_add_left _ _

/-- What follows the code of a term, with `more` for the terms behind it. -/
def termBehind (start depth : Nat) (taken : List Term)
    (more : Nat → List Term → CodeReader (List Term)) (offset : Nat) (code : UInt8) :
    CodeReader (List Term) :=
  if code == Term.terminator then
    if depth == 1 then Pure.pure taken.reverse else fail .notOneValue start
  else if code == Term.pushCode then
    Number.read >>= fun number => more (depth + 1) (.push number :: taken)
  else
    match Operator.ofCode? code with
    | none => fail (.unknownTerm code) offset
    | some operator =>
        if depth < operator.arity then fail .stackUnderflow start
        else more (depth - operator.arity + 1) (.apply operator :: taken)

/-- A term ends the list, is wrong, or is followed by others, which a number may precede. -/
theorem termBehind_cases (start depth : Nat) (taken : List Term) (offset : Nat) (code : UInt8) :
    (∀ more, termBehind start depth taken more offset code = Pure.pure taken.reverse) ∨
      (∃ problem place, ∀ more, termBehind start depth taken more offset code =
        fail problem place) ∨
      (∀ more, termBehind start depth taken more offset code =
        Number.read >>= fun number => more (depth + 1) (.push number :: taken)) ∨
      ∃ depth' taken', ∀ more, termBehind start depth taken more offset code =
        more depth' taken' := by
  simp only [termBehind]
  split
  · split
    · exact .inl fun _ => rfl
    · exact .inr (.inl ⟨_, _, fun _ => rfl⟩)
  · split
    · exact .inr (.inr (.inl fun _ => rfl))
    · split
      · exact .inr (.inl ⟨_, _, fun _ => rfl⟩)
      · split
        · exact .inr (.inl ⟨_, _, fun _ => rfl⟩)
        · exact .inr (.inr (.inr ⟨_, _, fun _ => rfl⟩))

theorem termsFrom_cons (start bound depth : Nat) (taken : List Term) (code : UInt8) (rest : Bytes)
    (position : Nat) : termsFrom start (bound + 1) depth taken ⟨code :: rest, position⟩ =
      termBehind start depth taken (termsFrom start bound) position code ⟨rest, position + 1⟩ := rfl

/-- The bound on the number of terms plays no role, as long as it exceeds the bytes left. -/
theorem termsFrom_bound (start depth : Nat) (taken : List Term) {bound other : Nat}
    {state : ReadState} (h : state.rest.length < bound) (hother : state.rest.length < other) :
    termsFrom start bound depth taken state = termsFrom start other depth taken state := by
  induction bound generalizing other depth taken state with
  | zero => cases h
  | succ bound ih =>
      obtain ⟨other, rfl⟩ := Nat.exists_eq_add_one_of_ne_zero (Nat.ne_zero_of_lt hother)
      obtain ⟨rest, position⟩ := state
      cases rest with
      | nil => rfl
      | cons code rest =>
          have hless : rest.length < bound := Nat.lt_of_succ_lt_succ h
          have hmore : rest.length < other := Nat.lt_of_succ_lt_succ hother
          rw [termsFrom_cons, termsFrom_cons]
          obtain hcode | ⟨_, _, hcode⟩ | hcode | ⟨_, _, hcode⟩ :=
            termBehind_cases start depth taken position code
          · rw [hcode, hcode]
          · rw [hcode, hcode]
          · rw [hcode, hcode, run_bind, run_bind]
            cases hnumber : Number.read ⟨rest, position + 1⟩ with
            | error failure => rfl
            | ok answer =>
                have hle := local_number.length_le hnumber
                exact ih _ _ (Nat.lt_of_le_of_lt hle hless) (Nat.lt_of_le_of_lt hle hmore)
          · rw [hcode, hcode]
            exact ih _ _ hless hmore

/-- A byte in front of what is read behind it. -/
theorem Delimits.behindByte {next : Nat → UInt8 → CodeReader α} {start : Nat} {code : UInt8}
    {more : Bytes} {value : α} (h : Delimits (next start code) (start + 1) more value) :
    Delimits (position >>= fun offset => u8 >>= next offset) start (code :: more) value :=
  Delimits.bind ⟨readsAt_position start, nofun⟩ (Delimits.bind (delimits_u8 code _) h)

/-- Terms are delimited by their terminator, whatever the bound, if it is large enough. -/
theorem termsFrom_delimits (start bound depth : Nat) (taken : List Term) {state after : ReadState}
    {terms : List Term} (h : termsFrom start bound depth taken state = .ok (terms, after)) :
    ∃ bytes, state.rest = bytes ++ after.rest ∧ after.position = state.position + bytes.length ∧
      ∀ enough ≥ bytes.length, Delimits (termsFrom start enough depth taken) state.position bytes
        terms := by
  induction bound generalizing depth taken state with
  | zero => cases h
  | succ bound ih =>
  obtain ⟨rest, position⟩ := state
  cases rest with
  | nil => cases h
  | cons code rest =>
  rw [termsFrom_cons] at h
  -- What is read behind the code suffices: the code is one byte more, and one less of the bound.
  suffices hbehind : ∃ bytes, rest = bytes ++ after.rest ∧
      after.position = position + 1 + bytes.length ∧ ∀ enough ≥ bytes.length,
        Delimits (termBehind start depth taken (termsFrom start enough) position code)
          (position + 1) bytes terms by
    obtain ⟨bytes, hrest, hafter, hdelimits⟩ := hbehind
    refine ⟨code :: bytes, congrArg (code :: ·) hrest, ?_, fun enough henough => ?_⟩
    · rw [hafter, List.length_cons, Nat.add_right_comm, Nat.add_assoc]
    · obtain ⟨enough, rfl⟩ := Nat.exists_eq_add_one_of_ne_zero (Nat.ne_zero_of_lt henough)
      exact Delimits.behindByte (hdelimits enough (Nat.le_of_succ_le_succ henough))
  obtain hcode | ⟨_, _, hcode⟩ | hcode | ⟨_, _, hcode⟩ :=
    termBehind_cases start depth taken position code
  · rw [hcode] at h
    cases h
    exact ⟨[], rfl, rfl, fun _ _ => hcode _ ▸ .pure _ _⟩
  · rw [hcode] at h
    cases h
  · rw [hcode, run_bind] at h
    cases hnumber : Number.read ⟨rest, position + 1⟩ with
    | error failure =>
        rw [hnumber] at h
        cases h
    | ok answer =>
        obtain ⟨number, middle⟩ := answer
        rw [hnumber] at h
        obtain ⟨front, hfront, hmiddle, hdelimits⟩ := local_number _ _ _ hnumber
        obtain ⟨back, hback, hafter, hothers⟩ := ih _ _ h
        refine ⟨front ++ back, ?_, ?_, fun enough henough => ?_⟩
        · rw [List.append_assoc, ← hback, ← hfront]
        · rw [hafter, hmiddle, List.length_append, Nat.add_assoc]
        · rw [hcode]
          refine hdelimits.bind (hmiddle ▸ hothers enough ?_)
          exact Nat.le_trans (List.length_append ▸ Nat.le_add_left _ _) henough
  · rw [hcode] at h
    obtain ⟨back, hback, hafter, hothers⟩ := ih _ _ h
    exact ⟨back, hback, hafter, fun enough henough => hcode _ ▸ hothers enough henough⟩

theorem terms_eq (state : ReadState) :
    terms state = termsFrom state.position (state.rest.length + 1) 0 [] state := rfl

theorem local_terms : Local terms := by
  intro state value after hrun
  obtain ⟨bytes, hrest, hposition, hdelimits⟩ := termsFrom_delimits _ _ _ _ hrun
  refine ⟨bytes, hrest, hposition, fun tail => ?_, fun cut hcut => ?_⟩
  · exact (hdelimits ((bytes ++ tail).length + 1) (by rw [List.length_append]; omega)).reads tail
  · rw [terms_eq, ← (hdelimits bytes.length le_rfl).stops cut hcut]
    have hlength : (bytes.take cut).length = cut := by
      rw [List.length_take, Nat.min_eq_left hcut.le]
    exact termsFrom_bound _ _ _ (Nat.lt_succ_self _)
      (show (bytes.take cut).length < _ by rwa [hlength])

theorem local_slot (place : Slot) : Local (slot place) := by
  cases place with
  | number => exact local_number.map _
  | register => exact local_register.map _
  | byte | flag => exact local_u8.bind fun _ => .pure _
  | messageId => exact (local_littleEndian 3).bind fun _ => .pure _
  | string =>
      exact (local_littleEndian 2).bind fun length => (local_many local_u8 length).bind fun _ =>
        .pure _
  | numberList =>
      exact local_u8.bind fun count => (local_many local_number count.toNat).bind fun _ => .pure _
  | registerList =>
      exact local_u8.bind fun count => (local_many local_register count.toNat).bind fun _ => .pure _
  | bitmask =>
      exact local_u8.bind fun mask => (local_mapM fun place => local_bitmaskSlot mask place).bind
        fun _ => .pure _
  | target => exact local_target.bind fun _ => .pure _
  | targetTable =>
      exact (local_littleEndian 2).bind fun count => (local_many local_target count).bind
        fun _ => .pure _
  | paddedTable =>
      exact (local_littleEndian 2).bind fun count => (local_many local_paddedNumber count).bind
        fun _ => .pure _
  | expression => exact local_terms.bind fun _ => .pure _
  | byteList => exact .pure _

theorem local_operands (slots : List Slot) : Local (operands slots) :=
  local_mapM fun place => (local_slot place).bind fun _ => .pure _

theorem local_typedSlots (opcode : UInt8) : Local (typedSlots opcode) := by
  refine local_u8.bind fun subtype => ?_
  split
  · exact .fail _ _
  · split <;> exact .pure _

theorem local_condition : Local condition := by
  refine local_u8.bind fun subtype => ?_
  split
  · exact .pure _
  · exact .fail _ _

theorem local_typeByte (opcode : UInt8) (form : Form) : Local (typeByte opcode form) := by
  simp only [typeByte]
  split
  · exact .pure _
  · exact local_typedSlots opcode
  · exact local_condition.bind fun _ => .pure _

theorem local_instruction : Local instruction := by
  refine local_u8.bind fun opcode => ?_
  split
  · exact .fail _ _
  · split
    · exact .fail _ _
    · exact (local_typeByte _ _).bind fun _ => (local_operands _).bind fun _ => .pure _

end CodeReader

namespace DecodedInstruction

variable {code : Bytes} {decoded : DecodedInstruction}

/-- What is decoded stands in the first bytes of the block, and these delimit it. -/
theorem delimits_of_read (h : read code = .ok decoded) :
    decoded.size ≤ code.length ∧
      CodeReader.instruction.Delimits 0 (code.take decoded.size) decoded.instruction := by
  simp only [read] at h
  cases hread : CodeReader.instruction.run ⟨code, 0⟩ with
  | error failure =>
      rw [hread] at h
      cases h
  | ok found =>
      obtain ⟨instruction, state⟩ := found
      rw [hread] at h
      cases h
      obtain ⟨taken, hrest, hposition, hdelimits⟩ := CodeReader.local_instruction _ _ _ hread
      have hcode : code = taken ++ state.rest := hrest
      have hsize : state.position = taken.length := hposition.trans (Nat.zero_add _)
      rw [hsize, hcode, List.take_left, List.length_append]
      exact ⟨Nat.le_add_right _ _, hdelimits⟩

/-- What is decoded is a piece of the block, and is not empty. -/
theorem size_of_read (h : read code = .ok decoded) :
    1 ≤ decoded.size ∧ decoded.size ≤ code.length := by
  obtain ⟨hsize, hdelimits⟩ := delimits_of_read h
  refine ⟨Nat.one_le_iff_ne_zero.mpr fun hzero => ?_, hsize⟩
  rw [hzero, List.take_zero] at hdelimits
  cases hdelimits.reads []

theorem read_append_of_delimits {bytes : Bytes} {instruction : Instruction}
    (h : CodeReader.instruction.Delimits 0 bytes instruction) (tail : Bytes) :
    read (bytes ++ tail) = .ok ⟨instruction, bytes.length⟩ := by
  have hread := h.reads tail
  rw [Nat.zero_add] at hread
  rw [read, StateT.run, hread]

theorem read_take_of_delimits {bytes : Bytes} {instruction : Instruction} {cut : Nat}
    (h : CodeReader.instruction.Delimits 0 bytes instruction) (hcut : cut < bytes.length) :
    read (bytes.take cut) = .error ⟨.truncated, cut, cut⟩ := by
  have hstop := h.stops cut hcut
  rw [Nat.zero_add] at hstop
  rw [read, StateT.run, hstop]

/-- Decoding is local and free of prefixes. An instruction is decoded from the bytes it takes,
which are one at least: whatever surrounds them, it is decoded again, and where they are cut
short, decoding fails at the cut. -/
theorem readAt_local {offset : Nat} (h : readAt code offset = .ok decoded) :
    1 ≤ decoded.size ∧ offset + decoded.size ≤ code.length ∧
      (∀ front back, readAt (front ++ (code.drop offset).take decoded.size ++ back) front.length =
        .ok decoded) ∧
      ∀ front, ∀ cut < decoded.size, ∃ failure,
        readAt (front ++ ((code.drop offset).take decoded.size).take cut) front.length =
            .error failure ∧
          failure.problem.code = "SASM-W5001" ∧ failure.offset = front.length + cut := by
  have hread : read (code.drop offset) = .ok decoded := by
    rw [readAt] at h
    split at h
    · rename_i hread
      exact hread.trans h
    · cases h
  obtain ⟨hleast, hmost⟩ := size_of_read hread
  obtain ⟨-, hdelimits⟩ := delimits_of_read hread
  have hlength : ((code.drop offset).take decoded.size).length = decoded.size :=
    List.length_take_of_le hmost
  refine ⟨hleast, ?_, fun front back => ?_, fun front cut hcut => ?_⟩
  · rw [List.length_drop] at hmost
    omega
  · rw [readAt, List.append_assoc, List.drop_left, read_append_of_delimits hdelimits, hlength]
  · have hcutRead := read_take_of_delimits hdelimits (hlength.symm ▸ hcut)
    refine ⟨⟨.truncated, front.length + cut, cut⟩, ?_, rfl, rfl⟩
    rw [readAt, List.drop_left, hcutRead]

/-- An instruction with terms up to a terminator, between bytes that it does not take. -/
theorem readAt_local_expression :
    let code : Bytes := [0x7f, 0x42, 0, 0, 0, 0xb0, 0, 0x81, 0x2c, 0x01, 0xff, 0xff]
    let decoded : DecodedInstruction :=
      ⟨⟨⟨0x42⟩, 0, [⟨.register (.value 0), .origin⟩, ⟨.expression [.push (.register (.value 0)),
        .push (.constant 300), .apply .add], .origin⟩], .origin⟩, 10⟩
    let taken : Bytes := [0x42, 0, 0, 0, 0xb0, 0, 0x81, 0x2c, 0x01, 0xff]
    readAt code 1 = .ok decoded ∧
      (∀ front back, readAt (front ++ taken ++ back) front.length = .ok decoded) ∧
      ∀ front, ∀ cut < 10, ∃ failure,
        readAt (front ++ taken.take cut) front.length = .error failure ∧
          failure.problem.code = "SASM-W5001" ∧ failure.offset = front.length + cut := by
  intro code decoded taken
  have hread : readAt code 1 = .ok decoded := by decide +kernel
  obtain ⟨-, -, hwhole, hcut⟩ := readAt_local hread
  exact ⟨hread, hwhole, hcut⟩

end DecodedInstruction

end NovelAsm
