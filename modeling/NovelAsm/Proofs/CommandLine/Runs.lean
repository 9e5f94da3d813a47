import NovelAsm.CommandLine
import NovelAsm.Proofs.CommandLine.Files
import NovelAsm.Proofs.Session.Incremental
import NovelAsm.Proofs.Steps

/-!
What a run that assembles several inputs leaves in the files. Its inputs are taken in turn,
in one session and on files that change under it: the output of an input can be the output
of another one, or an input that is still to be read. No such clash is looked for.

A `Job` is an input as it is at the beginning of a run, with the program that the session of
the run answers for it. One input changes the files as `Job.deliver` says, and by induction
on the inputs a run whose jobs are `Separate` leaves the code of each job that succeeds in
its output and all other files as they were. The converse needs no run: two files that are
read at one place have one content.
-/

namespace NovelAsm

namespace Desk

@[simp] theorem read_run (path : Bytes) (desk : Desk) :
    surroundings.read path desk = (desk.nest.read? path, desk) := rfl

@[simp] theorem print_run (text : Bytes) (desk : Desk) :
    surroundings.print text desk = ((), { desk with printed := desk.printed ++ text }) := rfl

@[simp] theorem complain_run (text : Bytes) (desk : Desk) :
    surroundings.complain text desk =
      ((), { desk with complaints := desk.complaints ++ text }) := rfl

theorem write_run {path content : Bytes} {desk : Desk} {written : Nest}
    (h : desk.nest.write? path content = some written) :
    surroundings.write path content desk = (true, { desk with nest := written }) := by
  have hget : (get : StateM Desk Desk) desk = (desk, desk) := rfl
  change write path content desk = _
  rw [write, bind_run hget, h]
  rfl

end Desk

namespace CommandLine

/-- An input of a run, with the program that the session of the run answers for it. -/
structure Job where
  path : Bytes
  content : Bytes
  program : LinkedProgram
deriving DecidableEq, Repr

namespace Job

/-- The output that is made from the path of the input. -/
def output (job : Job) : Bytes := Path.withExtension job.path (ascii ".bin")

/-- The program that the content gives in a session of its own. -/
def alone (base : UInt32) (job : Job) : LinkedProgram := LinkedProgram.ofSource base job.content

/-- The output can be written. -/
def IsWritable (nest : Nest) (job : Job) : Prop :=
  (nest.write? job.output job.program.code).isSome

instance (nest : Nest) (job : Job) : Decidable (job.IsWritable nest) :=
  inferInstanceAs (Decidable (_ = true))

/-- The files behind a job. -/
def deliver (job : Job) (nest : Nest) : Nest :=
  if job.program.succeeded then (nest.write? job.output job.program.code).getD nest else nest

end Job

/-- The jobs of a run: its session answers for one input behind the other. -/
def jobs (session : Session) : List (Bytes × Bytes) → List Job
  | [] => []
  | (path, content) :: rest =>
      ⟨path, content, (session.assemble content).1⟩ :: jobs (session.assemble content).2 rest

/-- No output takes the place of another output that has other code, or of an input that has
another content. -/
structure Separate (jobs : List Job) : Prop where
  outputs : ∀ job ∈ jobs, job.program.succeeded → ∀ other ∈ jobs, other.program.succeeded →
    Path.follow job.output = Path.follow other.output → job.program.code = other.program.code
  inputs : ∀ job ∈ jobs, job.program.succeeded → ∀ other ∈ jobs,
    Path.follow other.path = Path.follow job.output → job.program.code = other.content

/-- Every job that succeeds has the code that its content gives in a session of its own. -/
def Unmixed (base : UInt32) (jobs : List Job) : Prop :=
  ∀ job ∈ jobs, job.program.succeeded → job.program.code = (job.alone base).code

instance (base : UInt32) (jobs : List Job) : Decidable (Unmixed base jobs) :=
  inferInstanceAs (Decidable (∀ job ∈ jobs, job.program.succeeded →
    job.program.code = (job.alone base).code))

instance (jobs : List Job) : Decidable (Separate jobs) :=
  decidable_of_iff
    ((∀ job ∈ jobs, job.program.succeeded → ∀ other ∈ jobs, other.program.succeeded →
        Path.follow job.output = Path.follow other.output →
          job.program.code = other.program.code) ∧
      ∀ job ∈ jobs, job.program.succeeded → ∀ other ∈ jobs,
        Path.follow other.path = Path.follow job.output → job.program.code = other.content)
    ⟨fun h => ⟨h.1, h.2⟩, fun h => ⟨h.outputs, h.inputs⟩⟩

/-- Nothing is lost by a run: every job that succeeds has its code in its output, every input
has its content, no other file is changed, and the exit code tells whether all succeeded. -/
structure LosesNothing (before : Nest) (jobs : List Job) (code : Job → Bytes)
    (result : Bool × Desk) : Prop where
  outputs : ∀ job ∈ jobs, job.program.succeeded → result.2.nest.read? job.output = some (code job)
  inputs : ∀ job ∈ jobs, result.2.nest.read? job.path = some job.content
  others : ∀ path,
    (∀ job ∈ jobs, job.program.succeeded → Path.follow path ≠ Path.follow job.output) →
      result.2.nest.read? path = before.read? path
  exit : exitCode result.1 = 0 ↔ ∀ job ∈ jobs, job.program.succeeded

theorem writeThen_run {path content : Bytes} {desk : Desk} {written : Nest}
    (h : desk.nest.write? path content = some written) (next : StateM Desk PUnit) :
    writeThen Desk.surroundings path content next desk =
      (true, (next { desk with nest := written }).2) := by
  rw [writeThen, bind_run (Desk.write_run h)]
  rfl

/-- What one input does: the files are those behind its job, and the answer tells whether it
succeeded. -/
theorem assemble_run {options : Options} (houtput : options.output = none) (session : Session)
    (path content : Bytes) (desk : Desk)
    (hwrite : (session.assemble content).1.succeeded →
      Job.IsWritable desk.nest ⟨path, content, (session.assemble content).1⟩) :
    ∃ after, assemble Desk.surroundings options session path content desk =
        (((session.assemble content).1.succeeded, (session.assemble content).2), after) ∧
      after.nest = Job.deliver ⟨path, content, (session.assemble content).1⟩ desk.nest := by
  have hpath : outputOf options path = Path.withExtension path (ascii ".bin") := by
    rw [outputOf, houtput, Option.getD_none]
  rw [assemble, hpath]
  generalize session.assemble content = answer at hwrite ⊢
  obtain ⟨program, session⟩ := answer
  simp only [bind_run (Desk.complain_run _ desk)]
  cases hsucceeded : program.succeeded with
  | false => exact ⟨_, rfl, by simp [Job.deliver, hsucceeded]⟩
  | true =>
      obtain ⟨written, hwritten⟩ := Option.isSome_iff_exists.mp (hwrite hsucceeded)
      simp only [if_true]
      refine ⟨_, bind_run (writeThen_run (by exact hwritten) _), ?_⟩
      have hdeliver : Job.deliver ⟨path, content, program⟩ desk.nest = written := by
        rw [Job.deliver, if_pos hsucceeded, hwritten, Option.getD_some]
      rw [hdeliver]
      cases options.verbose <;> rfl

theorem Job.isWritable_iff (job : Job) (nest other : Nest) :
    job.IsWritable nest ↔ job.IsWritable other := by
  rw [IsWritable, IsWritable, Nest.isSome_write?, Nest.isSome_write?]

/-- A job changes one file at most. -/
theorem Job.read?_deliver {job : Job} {nest : Nest}
    (hwrite : job.program.succeeded → job.IsWritable nest) (path : Bytes) :
    (job.deliver nest).read? path =
      if job.program.succeeded ∧ Path.follow path = Path.follow job.output then
        some job.program.code
      else nest.read? path := by
  by_cases hsucceeded : job.program.succeeded
  · obtain ⟨written, hwritten⟩ := Option.isSome_iff_exists.mp (hwrite hsucceeded)
    rw [deliver, if_pos hsucceeded, hwritten, Option.getD_some, Nest.read?_write? hwritten]
    simp [hsucceeded]
  · simp [deliver, hsucceeded]

/-- A file keeps its content behind a job whose output is elsewhere or the same. -/
theorem Job.read?_deliver_of_eq {job : Job} {nest : Nest} {path content : Bytes}
    (hwrite : job.program.succeeded → job.IsWritable nest) (hread : nest.read? path = some content)
    (hsame : job.program.succeeded → Path.follow path = Path.follow job.output →
      job.program.code = content) :
    (job.deliver nest).read? path = some content := by
  rw [read?_deliver hwrite]
  split
  · rename_i h
    rw [hsame h.1 h.2]
  · exact hread

theorem exitCode_eq_zero (succeeded : Bool) : exitCode succeeded = 0 ↔ succeeded = true := by
  cases succeeded <;> decide

theorem Separate.tail {job : Job} {rest : List Job} (h : Separate (job :: rest)) :
    Separate rest where
  outputs first hfirst hcode other hother := h.outputs first (List.mem_cons_of_mem _ hfirst) hcode
    other (List.mem_cons_of_mem _ hother)
  inputs first hfirst hcode other hother := h.inputs first (List.mem_cons_of_mem _ hfirst) hcode
    other (List.mem_cons_of_mem _ hother)

namespace LosesNothing

variable {before : Nest} {code : Job → Bytes} {result : Bool × Desk}

/-- A place has its content behind a run if it has it before, and every job that succeeds has
it for its code if its output is that place. -/
theorem read?_eq {jobs : List Job} {path content : Bytes}
    (h : LosesNothing before jobs code result) (hread : before.read? path = some content)
    (hsame : ∀ job ∈ jobs, job.program.succeeded → Path.follow path = Path.follow job.output →
      code job = content) :
    result.2.nest.read? path = some content := by
  by_cases hwritten : ∃ job ∈ jobs, job.program.succeeded ∧
      Path.follow path = Path.follow job.output
  · obtain ⟨job, hjob, hsucceeded, hplace⟩ := hwritten
    rw [Nest.read?_congr _ hplace, h.outputs job hjob hsucceeded, hsame job hjob hsucceeded hplace]
  · rw [h.others path fun job hjob hsucceeded hplace =>
      hwritten ⟨job, hjob, hsucceeded, hplace⟩, hread]

/-- One more job in front of those behind which nothing is lost. -/
theorem cons {job : Job} {rest : List Job} (hseparate : Separate (job :: rest))
    (hwrite : job.program.succeeded → job.IsWritable before)
    (hread : before.read? job.path = some job.content)
    (h : LosesNothing (job.deliver before) rest (·.program.code) result) :
    LosesNothing before (job :: rest) (·.program.code)
      (job.program.succeeded && result.1, result.2) where
  outputs := by
    refine List.forall_mem_cons.mpr ⟨fun hsucceeded => ?_, h.outputs⟩
    refine h.read?_eq ?_ fun other hother hothers hplace => ?_
    · rw [Job.read?_deliver hwrite, if_pos ⟨hsucceeded, rfl⟩]
    · exact (hseparate.outputs job List.mem_cons_self hsucceeded other
        (List.mem_cons_of_mem _ hother) hothers hplace).symm
  inputs := by
    refine List.forall_mem_cons.mpr ⟨?_, h.inputs⟩
    refine h.read?_eq ?_ fun other hother hothers hplace => ?_
    · exact Job.read?_deliver_of_eq hwrite hread fun hsucceeded hplace =>
        hseparate.inputs job List.mem_cons_self hsucceeded job List.mem_cons_self hplace
    · exact hseparate.inputs other (List.mem_cons_of_mem _ hother) hothers job
        List.mem_cons_self hplace
  others path hpath := by
    obtain ⟨hjob, hrest⟩ := List.forall_mem_cons.mp hpath
    rw [h.others path hrest, Job.read?_deliver hwrite, if_neg fun hboth => hjob hboth.1 hboth.2]
  exit := by
    have hrest := h.exit
    rw [exitCode_eq_zero] at hrest ⊢
    rw [Bool.and_eq_true, hrest, List.forall_mem_cons]

/-- Where nothing is lost, two codes or contents at one place are the same. -/
theorem separate {jobs : List Job} (h : LosesNothing before jobs code result)
    (hcode : ∀ job ∈ jobs, job.program.succeeded → job.program.code = code job) :
    Separate jobs where
  outputs job hjob hsucceeded other hother hothers hplace := by
    rw [hcode job hjob hsucceeded, hcode other hother hothers]
    have hread := h.outputs job hjob hsucceeded
    rw [Nest.read?_congr _ hplace, h.outputs other hother hothers] at hread
    exact (Option.some.inj hread).symm
  inputs job hjob hsucceeded other hother hplace := by
    rw [hcode job hjob hsucceeded]
    have hread := h.outputs job hjob hsucceeded
    rw [← Nest.read?_congr _ hplace, h.inputs other hother] at hread
    exact (Option.some.inj hread).symm

/-- Nothing is lost of other codes either exactly if they are the same ones. -/
theorem iff_code {jobs : List Job} (h : LosesNothing before jobs code result)
    (other : Job → Bytes) :
    LosesNothing before jobs other result ↔
      ∀ job ∈ jobs, job.program.succeeded → code job = other job := by
  constructor
  · intro hother job hjob hsucceeded
    have hread := h.outputs job hjob hsucceeded
    rw [hother.outputs job hjob hsucceeded] at hread
    exact (Option.some.inj hread).symm
  · intro hsame
    refine ⟨fun job hjob hsucceeded => ?_, h.inputs, h.others, h.exit⟩
    rw [h.outputs job hjob hsucceeded, hsame job hjob hsucceeded]

end LosesNothing

theorem map_jobs (session : Session) (inputs : List (Bytes × Bytes)) :
    (jobs session inputs).map (fun job => (job.path, job.content)) = inputs := by
  induction inputs generalizing session with
  | nil => rfl
  | cons input rest ih => rw [jobs, List.map_cons, ih]

/-- One input in front of others, which go on from the session and the files behind it. -/
theorem performAll_cons {options : Options} (htask : options.task = .assemble)
    {session behind : Session} {path content : Bytes} {desk after : Desk} {succeeded : Bool}
    (hread : desk.nest.read? path = some content)
    (hstep : assemble Desk.surroundings options session path content desk =
      ((succeeded, behind), after)) (rest : List Bytes) :
    performAll Desk.surroundings options session (path :: rest) desk =
      (succeeded && (performAll Desk.surroundings options behind rest after).1,
        (performAll Desk.surroundings options behind rest after).2) := by
  rw [performAll, bind_run (Desk.read_run path desk), hread]
  simp only [perform, htask]
  rw [bind_run hstep]
  rfl

/-- A run of separate jobs loses nothing of what its session answers. The induction is on the
inputs; the session and the files behind the first one are those that the rest begins with. -/
theorem performAll_losesNothing {options : Options} (htask : options.task = .assemble)
    (houtput : options.output = none) (inputs : List (Bytes × Bytes)) (session : Session)
    (desk : Desk)
    (hread : ∀ job ∈ jobs session inputs, desk.nest.read? job.path = some job.content)
    (hwrite : ∀ job ∈ jobs session inputs, job.program.succeeded → job.IsWritable desk.nest)
    (hseparate : Separate (jobs session inputs)) :
    LosesNothing desk.nest (jobs session inputs) (·.program.code)
      (performAll Desk.surroundings options session (inputs.map Prod.fst) desk) := by
  induction inputs generalizing session desk with
  | nil => exact ⟨nofun, nofun, fun _ _ => rfl, by simp [jobs, exitCode_eq_zero]; rfl⟩
  | cons input rest ih =>
      obtain ⟨path, content⟩ := input
      rw [jobs] at hread hwrite hseparate ⊢
      obtain ⟨hreadfirst, hreadrest⟩ := List.forall_mem_cons.mp hread
      obtain ⟨hwritefirst, hwriterest⟩ := List.forall_mem_cons.mp hwrite
      obtain ⟨after, hstep, hafter⟩ := assemble_run houtput session path content desk hwritefirst
      have hreadbehind : ∀ other ∈ jobs (session.assemble content).2 rest,
          after.nest.read? other.path = some other.content := by
        intro other hother
        rw [hafter]
        refine Job.read?_deliver_of_eq hwritefirst (hreadrest other hother) ?_
        intro hsucceeded hplace
        exact hseparate.inputs _ List.mem_cons_self hsucceeded other
          (List.mem_cons_of_mem _ hother) hplace
      have hwritebehind : ∀ other ∈ jobs (session.assemble content).2 rest,
          other.program.succeeded → other.IsWritable after.nest := by
        intro other hother hsucceeded
        exact (other.isWritable_iff _ _).mp (hwriterest other hother hsucceeded)
      have hrest := ih _ after hreadbehind hwritebehind hseparate.tail
      rw [hafter] at hrest
      rw [List.map_cons, performAll_cons htask hreadfirst hstep]
      exact hrest.cons hseparate hwritefirst hreadfirst

/-- What a run says in front of its work leaves the files as they are. -/
theorem runOptions_run (options : Options) (desk : Desk) :
    ∃ opened : Desk, opened.nest = desk.nest ∧
      runOptions Desk.surroundings options desk =
        performAll Desk.surroundings options (Session.start options.base) options.inputs
          opened := by
  rw [runOptions]
  cases options.verbose with
  | false => exact ⟨desk, rfl, rfl⟩
  | true =>
      refine ⟨_, ?_, bind_run (Desk.print_run (opening options) desk)⟩
      rfl

/-- A session answers for every input what a new one does, if fingerprints tell the segment
texts of each input apart and inputs of one signature have scopes that look the same. -/
theorem jobs_alone {base : UInt32} (inputs : List (Bytes × Bytes)) {past : List Bytes}
    {session : Session} (hsession : Session.Follows base past session)
    (happart : ∀ input ∈ inputs, Session.ToldApart input.2)
    (hviews : ∀ input ∈ inputs, ∀ earlier ∈ past ++ inputs.map Prod.snd,
      Session.signatureOf earlier = Session.signatureOf input.2 →
        (Session.scopeOf earlier).view = (Session.scopeOf input.2).view) :
    ∀ job ∈ jobs session inputs, job.program = job.alone base := by
  induction inputs generalizing past session with
  | nil => exact nofun
  | cons input rest ih =>
      obtain ⟨path, content⟩ := input
      obtain ⟨happartfirst, happartrest⟩ := List.forall_mem_cons.mp happart
      obtain ⟨hviewsfirst, hviewsrest⟩ := List.forall_mem_cons.mp hviews
      obtain ⟨hprogram, hfollows⟩ := Session.assemble_follows hsession happartfirst
      refine List.forall_mem_cons.mpr ⟨?_, ih hfollows happartrest ?_⟩
      · rw [Job.alone, Session.ofSource_eq_program base content (Or.inl happartfirst), hprogram]
        exact Session.program_congr base content fun text _ =>
          Session.view_birthScope text content past fun earlier hearlier =>
            hviewsfirst earlier (List.mem_append_left _ hearlier)
      · intro input hinput earlier hearlier
        apply hviewsrest input hinput earlier
        simpa [or_left_comm] using hearlier

/-- What a run without `-o` leaves that assembles inputs it can read into outputs it can write.
If no input changes the code of another one through the session, nothing is lost exactly if the
outputs are separate; and if they are separate, exactly if no input changes the code of another
one. None does whenever fingerprints tell the segment texts of each input apart and inputs of
one signature have scopes that look the same. -/
theorem runOptions_losesNothing {options : Options} (htask : options.task = .assemble)
    (houtput : options.output = none) {inputs : List (Bytes × Bytes)}
    (hpaths : options.inputs = inputs.map Prod.fst) (desk : Desk)
    (hread : ∀ input ∈ inputs, desk.nest.read? input.1 = some input.2)
    (hwrite : ∀ job ∈ jobs (Session.start options.base) inputs, job.program.succeeded →
      job.IsWritable desk.nest) :
    let made := jobs (Session.start options.base) inputs
    let kept := LosesNothing desk.nest made (fun job => (job.alone options.base).code)
      (runOptions Desk.surroundings options desk)
    (Unmixed options.base made → (kept ↔ Separate made)) ∧
      (Separate made → (kept ↔ Unmixed options.base made)) ∧
      ((∀ input ∈ inputs, Session.ToldApart input.2) →
        (∀ input ∈ inputs, ∀ other ∈ inputs,
          Session.signatureOf other.2 = Session.signatureOf input.2 →
            (Session.scopeOf other.2).view = (Session.scopeOf input.2).view) →
        ∀ job ∈ made, job.program = job.alone options.base) := by
  intro made kept
  have hkeeps : Separate made → LosesNothing desk.nest made (·.program.code)
      (runOptions Desk.surroundings options desk) := by
    intro hseparate
    obtain ⟨opened, hnest, hrun⟩ := runOptions_run options desk
    have hjobs : ∀ job ∈ made, opened.nest.read? job.path = some job.content := by
      intro job hjob
      have hinput : (job.path, job.content) ∈ made.map fun job => (job.path, job.content) :=
        List.mem_map_of_mem hjob
      rw [map_jobs] at hinput
      rw [hnest]
      exact hread _ hinput
    have hrest := performAll_losesNothing htask houtput inputs (Session.start options.base) opened
      hjobs (hnest ▸ hwrite) hseparate
    rwa [← hpaths, ← hrun, hnest] at hrest
  refine ⟨fun hcode => ⟨fun h => h.separate hcode, fun hseparate => ?_⟩, fun hseparate => ?_,
    fun happart hviews => ?_⟩
  · exact ((hkeeps hseparate).iff_code _).mpr hcode
  · exact (hkeeps hseparate).iff_code _
  · refine jobs_alone inputs (Session.start_follows options.base) happart ?_
    intro input hinput earlier hearlier
    obtain ⟨other, hother, rfl⟩ := List.mem_map.mp hearlier
    exact hviews input hinput other hother

/-- Two inputs that have a segment in common and one that has an error: the two outputs are
there, and the exit code is not 0. -/
theorem runOptions_losesNothing_of_three :
    let inputs := [(ascii "a.s", ascii "A:\n    return\n"),
      (ascii "b.s", ascii "A:\n    return\nB:\n    j A\n"), (ascii "c.s", ascii "return\n")]
    let options := { Options.initial with inputs := inputs.map Prod.fst }
    let desk := Desk.ofFolder (.ofFiles inputs)
    let made := jobs (Session.start options.base) inputs
    (∀ input ∈ inputs, desk.nest.read? input.1 = some input.2) ∧
      (∀ job ∈ made, job.program.succeeded → job.IsWritable desk.nest) ∧
      Unmixed options.base made ∧ Separate made ∧
      made.map (·.program.succeeded) = [true, true, false] ∧
      LosesNothing desk.nest made (fun job => (job.alone options.base).code)
        (runOptions Desk.surroundings options desk) := by
  intro inputs options desk made
  have hfacts : (∀ input ∈ inputs, desk.nest.read? input.1 = some input.2) ∧
      (∀ job ∈ made, job.program.succeeded → job.IsWritable desk.nest) ∧
      Unmixed options.base made ∧ Separate made ∧
      made.map (·.program.succeeded) = [true, true, false] := by
    decide +kernel
  obtain ⟨hread, hwrite, hunmixed, hseparate, hsucceeded⟩ := hfacts
  exact ⟨hread, hwrite, hunmixed, hseparate, hsucceeded,
    (runOptions_losesNothing rfl rfl rfl desk hread hwrite).2.1 hseparate |>.mpr hunmixed⟩

/-- The outputs of two inputs that differ in their extension only are one file. The run
succeeds, and the code of the first input is lost. -/
theorem runOptions_loses_output :
    let inputs := [(ascii "a.s", ascii "A:\n    return\n"), (ascii "a.t", ascii "A:\n    j A\n")]
    let options := { Options.initial with inputs := inputs.map Prod.fst }
    let desk := Desk.ofFolder (.ofFiles inputs)
    let result := runOptions Desk.surroundings options desk
    let program := LinkedProgram.ofSource 0 (ascii "A:\n    return\n")
    (∀ input ∈ inputs, desk.nest.read? input.1 = some input.2) ∧
      exitCode result.1 = 0 ∧ program.succeeded = true ∧
      result.2.nest.read? (Path.withExtension (ascii "a.s") (ascii ".bin")) ≠
        some program.code := by
  decide +kernel

end CommandLine

end NovelAsm
