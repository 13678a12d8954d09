import Mathlib.Data.List.Basic
import TCBackup.Bnet

/-!
# Deleting a job (`server/database/mysql_delete.c`)

`db_delete_job` sends five statements, one after the other. Each is executed and committed, or fails
as a whole. The id of the job is a 64-bit number and is printed with `%d`.

## Main definitions

- `Database` — the four tables, with the columns that the statements look at
- `dbDeleteJob` — the statements, some of which may fail
- `deleted` — the tables without the job
- `AllOrNothing` — the job is deleted, or nothing is changed
- `Harmless` — the failing statement is the first that would have changed anything

## Main results

- `all_or_nothing_iff` — exactly when the deletion is all or nothing
-/

namespace TCBackup.Server.DeleteJob

/-- A row of `File`; `columns` are those that no statement looks at. -/
structure FileRecord (ρ : Type*) where
  FileId : ℕ
  VersionCount : ℕ
  columns : ρ

structure VersionFileRecord (ρ : Type*) where
  FileId : ℕ
  JobId : ℕ
  columns : ρ

structure JobRecord (ρ : Type*) where
  JobId : ℕ
  ObjectId : ℕ
  columns : ρ

structure ObjectRecord (ρ : Type*) where
  ObjectId : ℕ
  columns : ρ

structure Database (ρ : Type*) where
  File : List (FileRecord ρ)
  VersionFile : List (VersionFileRecord ρ)
  Job : List (JobRecord ρ)
  Object : List (ObjectRecord ρ)

variable {ρ : Type*}

/-- `FileId in (select FileId from VersionFile where JobId=%d)` -/
def Database.Refers (d : Database ρ) (id : ℤ) (f : FileRecord ρ) : Prop :=
  ∃ v ∈ d.VersionFile, (v.JobId : ℤ) = id ∧ v.FileId = f.FileId

instance (d : Database ρ) (id : ℤ) (f : FileRecord ρ) : Decidable (d.Refers id f) :=
  inferInstanceAs (Decidable (∃ v ∈ d.VersionFile, _))

/-- `delete from File where VersionCount=1 and FileId in ...` -/
def deleteFile (id : ℤ) (d : Database ρ) : Database ρ :=
  { d with File := d.File.filter fun f => ¬ (f.VersionCount = 1 ∧ d.Refers id f) }

/-- `update File set VersionCount=VersionCount-1 where VersionCount>1 and FileId in ...` -/
def updateFile (id : ℤ) (d : Database ρ) : Database ρ :=
  { d with File := d.File.map fun f =>
      if 1 < f.VersionCount ∧ d.Refers id f then { f with VersionCount := f.VersionCount - 1 } else f }

/-- `delete from VersionFile where JobId=%d` -/
def deleteVersionFile (id : ℤ) (d : Database ρ) : Database ρ :=
  { d with VersionFile := d.VersionFile.filter fun v => (v.JobId : ℤ) ≠ id }

/-- `delete from Job where JobId=%d` -/
def deleteJobRow (id : ℤ) (d : Database ρ) : Database ρ :=
  { d with Job := d.Job.filter fun job => (job.JobId : ℤ) ≠ id }

/-- `delete from Object where ObjectId not in (select ObjectId from Job)` -/
def deleteObject (d : Database ρ) : Database ρ :=
  { d with Object := d.Object.filter fun o => ∃ job ∈ d.Job, job.ObjectId = o.ObjectId }

/-- `mysql_query` for one statement after the other; `fails i` tells whether the one with number `i`
fails. -/
def queries (fails : ℕ → Bool) : ℕ → List (Database ρ → Database ρ) → Database ρ → Bool × Database ρ
  | _, [], d => (true, d)
  | i, q :: qs, d => if fails i then (false, d) else queries fails (i + 1) qs (q d)

/-- `db_delete_job` -/
def dbDeleteJob (fails : ℕ → Bool) (job_id : ℤ) (d : Database ρ) : Bool × Database ρ :=
  queries fails 0 [deleteFile (int32 job_id), updateFile (int32 job_id),
    deleteVersionFile (int32 job_id), deleteJobRow (int32 job_id), deleteObject] d

/-- The tables without the job: its files with one version are gone and the others have one version
less, its rows are gone, and so are the objects that no other job has. -/
def deleted (job_id : ℤ) (d : Database ρ) : Database ρ where
  File := (d.File.filter fun f => ¬ (f.VersionCount = 1 ∧ d.Refers job_id f)).map fun f =>
    if 1 < f.VersionCount ∧ d.Refers job_id f then { f with VersionCount := f.VersionCount - 1 } else f
  VersionFile := d.VersionFile.filter fun v => (v.JobId : ℤ) ≠ job_id
  Job := d.Job.filter fun job => (job.JobId : ℤ) ≠ job_id
  Object := d.Object.filter fun o =>
    ∃ job ∈ d.Job, (job.JobId : ℤ) ≠ job_id ∧ job.ObjectId = o.ObjectId

/-- The job is deleted when `true` is returned, and nothing is changed otherwise. -/
def AllOrNothing (fails : ℕ → Bool) (job_id : ℤ) (d : Database ρ) : Prop :=
  (dbDeleteJob fails job_id d).2 =
    if (dbDeleteJob fails job_id d).1 then deleted job_id d else d

/-- The job has no rows. -/
def NoRows (id : ℤ) (d : Database ρ) : Prop :=
  (∀ v ∈ d.VersionFile, (v.JobId : ℤ) ≠ id) ∧ ∀ job ∈ d.Job, (job.JobId : ℤ) ≠ id

/-- No statement fails and the id is printed as it is (or neither number is the id of anything), or
the statements in front of the first one that fails find nothing to change. -/
def Harmless (fails : ℕ → Bool) (job_id : ℤ) (d : Database ρ) : Prop :=
  match (List.range 5).find? fails with
  | none => int32 job_id = job_id ∨ (NoRows job_id d ∧ NoRows (int32 job_id) d)
  | some 0 => True
  | some 1 => ∀ f ∈ d.File, f.VersionCount = 1 → ¬ d.Refers (int32 job_id) f
  | some 2 => ∀ f ∈ d.File, 1 ≤ f.VersionCount → ¬ d.Refers (int32 job_id) f
  | some 3 => ∀ v ∈ d.VersionFile, (v.JobId : ℤ) ≠ int32 job_id
  | some _ => NoRows (int32 job_id) d

variable {id id' : ℤ} {d : Database ρ} {f : FileRecord ρ}

theorem not_refers (h : ∀ v ∈ d.VersionFile, (v.JobId : ℤ) ≠ id) : ¬ d.Refers id f := by
  rintro ⟨v, hv, hid, -⟩
  exact h v hv hid

theorem filter_deleteFile_eq_iff :
    (d.File.filter fun f => ¬ (f.VersionCount = 1 ∧ d.Refers id f)) = d.File ↔
      ∀ f ∈ d.File, f.VersionCount = 1 → ¬ d.Refers id f := by
  rw [List.filter_eq_self]
  simp only [decide_eq_true_eq, not_and]

theorem deleteFile_eq_iff :
    deleteFile id d = d ↔ ∀ f ∈ d.File, f.VersionCount = 1 → ¬ d.Refers id f := by
  rw [← filter_deleteFile_eq_iff]
  constructor
  · exact fun h => congrArg Database.File h
  · intro h
    rw [deleteFile, h]

theorem updateFile_eq_of (h : ∀ f ∈ d.File, 1 < f.VersionCount → ¬ d.Refers id f) :
    updateFile id d = d := by
  have hmap : (d.File.map fun f => if 1 < f.VersionCount ∧ d.Refers id f then
      { f with VersionCount := f.VersionCount - 1 } else f) = d.File := by
    refine (List.map_congr_left fun f hf => ?_).trans (List.map_id d.File)
    exact if_neg fun hboth => h f hf hboth.1 hboth.2
  rw [updateFile, hmap]

/-- The first two statements leave the files alone only if the job has none with a version. -/
theorem files_eq_iff :
    updateFile id (deleteFile id d) = d ↔
      ∀ f ∈ d.File, 1 ≤ f.VersionCount → ¬ d.Refers id f := by
  constructor
  · intro h
    have hfile : ((deleteFile id d).File.map fun f => if 1 < f.VersionCount ∧ d.Refers id f then
        { f with VersionCount := f.VersionCount - 1 } else f) = d.File := congrArg Database.File h
    have hlen := congrArg List.length hfile
    rw [List.length_map] at hlen
    have hkeep : (deleteFile id d).File = d.File :=
      List.filter_eq_self.mpr (List.length_filter_eq_length_iff.mp hlen)
    rw [hkeep] at hfile
    intro f hf hpos hrefers
    rcases Nat.lt_or_ge 1 f.VersionCount with hmore | hone
    · have hsame := List.map_inj_left.mp (hfile.trans (List.map_id d.File).symm) f hf
      rw [if_pos ⟨hmore, hrefers⟩] at hsame
      have hcount := congrArg FileRecord.VersionCount hsame
      simp only [id_eq] at hcount
      omega
    · exact filter_deleteFile_eq_iff.mp hkeep f hf (by omega) hrefers
  · intro h
    have hdelete : deleteFile id d = d :=
      deleteFile_eq_iff.mpr fun f hf hone => h f hf (by omega)
    rw [hdelete]
    exact updateFile_eq_of fun f hf hmore => h f hf (by omega)

/-- The first three statements change something as soon as the job has a `VersionFile` row. -/
theorem versionFiles_eq_iff :
    deleteVersionFile id (updateFile id (deleteFile id d)) = d ↔
      ∀ v ∈ d.VersionFile, (v.JobId : ℤ) ≠ id := by
  constructor
  · intro h v hv
    have hrows : (d.VersionFile.filter fun v => (v.JobId : ℤ) ≠ id) = d.VersionFile :=
      congrArg Database.VersionFile h
    exact of_decide_eq_true (List.filter_eq_self.mp hrows v hv)
  · intro h
    rw [files_eq_iff.mpr fun f _ _ => not_refers h, deleteVersionFile,
      List.filter_eq_self.mpr fun v hv => decide_eq_true (h v hv)]

theorem rows_eq_iff :
    deleteJobRow id (deleteVersionFile id (updateFile id (deleteFile id d))) = d ↔ NoRows id d := by
  constructor
  · intro h
    have hversion : (d.VersionFile.filter fun v => (v.JobId : ℤ) ≠ id) = d.VersionFile :=
      congrArg Database.VersionFile h
    have hjob : (d.Job.filter fun job => (job.JobId : ℤ) ≠ id) = d.Job := congrArg Database.Job h
    exact ⟨fun v hv => of_decide_eq_true (List.filter_eq_self.mp hversion v hv),
      fun job hj => of_decide_eq_true (List.filter_eq_self.mp hjob job hj)⟩
  · rintro ⟨hversion, hjob⟩
    rw [versionFiles_eq_iff.mpr hversion, deleteJobRow,
      List.filter_eq_self.mpr fun job hj => decide_eq_true (hjob job hj)]

/-- The five statements delete the job whose number is printed. -/
theorem statements_eq (id : ℤ) (d : Database ρ) :
    deleteObject (deleteJobRow id (deleteVersionFile id (updateFile id (deleteFile id d)))) =
      deleted id d := by
  have hobject : ∀ o : ObjectRecord ρ,
      (∃ job ∈ d.Job.filter fun job => (job.JobId : ℤ) ≠ id, job.ObjectId = o.ObjectId) ↔
        ∃ job ∈ d.Job, (job.JobId : ℤ) ≠ id ∧ job.ObjectId = o.ObjectId := by
    intro o
    simp only [List.mem_filter, decide_eq_true_eq, and_assoc]
  simp only [deleteObject, deleteJobRow, deleteVersionFile, updateFile, deleteFile, deleted, hobject]
  rfl

/-- A row that one number selects and another does not is seen in what is left. -/
theorem absent_of_filter_eq {α : Type*} {key : α → ℤ} {rows : List α} (hne : id' ≠ id)
    (h : (rows.filter fun a => key a ≠ id) = rows.filter fun a => key a ≠ id') :
    ∀ a ∈ rows, key a ≠ id' := by
  intro a ha hkey
  have hleft : a ∈ rows.filter fun a => key a ≠ id :=
    List.mem_filter.mpr ⟨ha, decide_eq_true (hkey ▸ hne)⟩
  rw [h, List.mem_filter] at hleft
  exact of_decide_eq_true hleft.2 hkey

theorem deleted_eq_of_noRows (h : NoRows id d) :
    deleted id d = { d with
      Object := d.Object.filter fun o => ∃ job ∈ d.Job, job.ObjectId = o.ObjectId } := by
  have hrows := rows_eq_iff.mpr h
  rw [← statements_eq, hrows, deleteObject]

/-- Two different numbers delete the same only if neither is the id of anything. -/
theorem deleted_eq_iff :
    deleted id d = deleted id' d ↔ id = id' ∨ (NoRows id' d ∧ NoRows id d) := by
  constructor
  · intro h
    by_cases hsame : id = id'
    · exact .inl hsame
    · have hversion : (d.VersionFile.filter fun v => (v.JobId : ℤ) ≠ id) =
          d.VersionFile.filter fun v => (v.JobId : ℤ) ≠ id' := congrArg Database.VersionFile h
      have hjob : (d.Job.filter fun job => (job.JobId : ℤ) ≠ id) =
          d.Job.filter fun job => (job.JobId : ℤ) ≠ id' := congrArg Database.Job h
      exact .inr ⟨⟨absent_of_filter_eq (Ne.symm hsame) hversion,
          absent_of_filter_eq (Ne.symm hsame) hjob⟩,
        ⟨absent_of_filter_eq hsame hversion.symm, absent_of_filter_eq hsame hjob.symm⟩⟩
  · rintro (rfl | ⟨h', h⟩)
    · rfl
    · rw [deleted_eq_of_noRows h, deleted_eq_of_noRows h']

/-- Deleting a job is all or nothing as long as the statements in front of a failing one have nothing
to change, and the printed id is the id. -/
theorem all_or_nothing_iff (fails : ℕ → Bool) (job_id : ℤ) (d : Database ρ) :
    AllOrNothing fails job_id d ↔ Harmless fails job_id d := by
  have hrange : List.range 5 = [0, 1, 2, 3, 4] := rfl
  rw [AllOrNothing, Harmless, hrange, dbDeleteJob]
  cases h0 : fails 0
  · cases h1 : fails 1
    · cases h2 : fails 2
      · cases h3 : fails 3
        · cases h4 : fails 4
          · simp only [queries, List.find?_cons, List.find?_nil, h0, h1, h2, h3, h4, if_true,
              Bool.false_eq_true, if_false, statements_eq]
            exact deleted_eq_iff
          · simp only [queries, List.find?_cons, h0, h1, h2, h3, h4, if_true,
              Bool.false_eq_true, if_false]
            exact rows_eq_iff
        · simp only [queries, List.find?_cons, h0, h1, h2, h3, if_true,
            Bool.false_eq_true, if_false]
          exact versionFiles_eq_iff
      · simp only [queries, List.find?_cons, h0, h1, h2, if_true, Bool.false_eq_true, if_false]
        exact files_eq_iff
    · simp only [queries, List.find?_cons, h0, h1, if_true, Bool.false_eq_true, if_false]
      exact deleteFile_eq_iff
  · simp only [queries, List.find?_cons, h0, if_true, Bool.false_eq_true, if_false]

/-- The second statement fails and the only file of the job is gone, although `false` is returned. -/
theorem file_gone_after_failure :
    ¬ ∀ (fails : ℕ → Bool) (job_id : ℤ) (d : Database Unit), AllOrNothing fails job_id d := by
  intro h
  have hfile := congrArg Database.File (h (fun i => i == 1) 1
    { File := [⟨1, 1, ()⟩], VersionFile := [⟨1, 1, ()⟩], Job := [⟨1, 1, ()⟩], Object := [⟨1, ()⟩] })
  have hlength := congrArg List.length hfile
  revert hlength
  decide +kernel

end TCBackup.Server.DeleteJob
