import NovelAsm.CommandLine.Surroundings

/-!
What a written file changes: the one file that its path leads to. Everything else is read
as before. Paths may be spelled in many ways, so "the same file" means that `Path.follow`
ends at the same place.
-/

namespace NovelAsm

theorem Folder.find?_put (folder : Folder) (name content other : Bytes) :
    (folder.put name content).find? other =
      if name = other then some content else folder.find? other := by
  obtain ⟨files⟩ := folder
  simp only [put, find?]
  induction files with
  | nil => by_cases h : name = other <;> simp [putInto, h]
  | cons file rest ih =>
      rw [putInto]
      split
      · -- the file of this name is replaced
        rename_i hname
        have hname : file.1 = name := by simpa using hname
        by_cases h : name = other <;> simp [hname, h]
      · rename_i hname
        split
        · by_cases h : name = other <;> simp [h]
        · by_cases h : file.1 = other
          · have hother : name ≠ other := fun hsame => hname (by simp [h, hsame])
            simp [h, hother]
          · simpa [h] using ih

namespace Nest

theorem getD_putInto (name content : Bytes) (level other : Nat) (folders : List Folder) :
    (putInto name content level folders).getD other .empty =
      if level = other then (folders.getD other .empty).put name content
      else folders.getD other .empty := by
  induction level generalizing other folders with
  | zero => cases folders <;> cases other <;> simp [putInto]
  | succ level ih =>
      cases other with
      | zero => cases folders <;> simp [putInto]
      | succ other =>
          cases folders with
          | nil => simp only [putInto, List.getD_cons_succ, ih other []]; simp
          | cons folder rest => simp only [putInto, List.getD_cons_succ, ih other rest]; simp

theorem folderAt_put (nest : Nest) (level other : Nat) (name content : Bytes) :
    (nest.put level name content).folderAt other =
      if level = other then (nest.folderAt other).put name content else nest.folderAt other :=
  getD_putInto name content level other nest.folders

/-- Of two paths to one place the same is read. -/
theorem read?_congr (nest : Nest) {path other : Bytes} (h : Path.follow path = Path.follow other) :
    nest.read? path = nest.read? other := by
  rw [read?, read?, h]

/-- A file can be written exactly where a path leads to one, whatever is there already. -/
theorem isSome_write? (nest : Nest) (path content : Bytes) :
    (nest.write? path content).isSome ↔ ∃ level name, Path.follow path = .file level name := by
  rw [write?]
  cases Path.follow path <;> simp

/-- What is read behind a written file: its content wherever a path leads to it, and what was
there before at all other paths. -/
theorem read?_write? {nest written : Nest} {path content : Bytes}
    (h : nest.write? path content = some written) (other : Bytes) :
    written.read? other =
      if Path.follow other = Path.follow path then some content else nest.read? other := by
  obtain ⟨level, name, hpath⟩ := (isSome_write? nest path content).mp (by simp [h])
  simp only [write?, hpath, Option.some.injEq] at h
  subst h
  rw [read?, read?, hpath]
  cases hother : Path.follow other with
  | folder => simp
  | nowhere => simp
  | file level' name' =>
      simp only [folderAt_put, Path.Destination.file.injEq]
      by_cases hlevel : level = level'
      · by_cases hname : name = name' <;> simp [hlevel, hname, Folder.find?_put, eq_comm]
      · simp [hlevel, Ne.symm hlevel]

end Nest

end NovelAsm
