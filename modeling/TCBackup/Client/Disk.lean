import TCBackup.Global

/-!
# The client's disk

Container files under `TmpPath`, the bin volumes and `repfinger` under
`BinPath`. Every change is one `write` call, and the calls are recorded in
program order.
-/

namespace TCBackup.Client

open ByteFile

/-- One `write` call on a file of the client. -/
inductive DiskWrite
  | container (name : Bytes) (data : Bytes)
  | bvol (level : ℕ) (pos : ℕ) (data : Bytes)
  | repfinger (pos : ℕ) (data : Bytes)
  deriving DecidableEq

/-- The files; `none` for a file that does not exist. -/
structure Files where
  tmp : Bytes → Option Bytes
  bvol : ℕ → Option Bytes
  repfinger : Option Bytes

/-- No file of the store exists yet. -/
def Files.empty : Files := ⟨fun _ => none, fun _ => none, none⟩

/-- A complete `write` into a file that `open` created where it was missing. -/
def writeFile (file : Option Bytes) (pos : ℕ) (data : Bytes) : Option Bytes :=
  some (writeAt (file.getD []) pos data)

def Files.apply (fs : Files) : DiskWrite → Files
  | .container name data => { fs with tmp := Function.update fs.tmp name (writeFile (fs.tmp name) 0 data) }
  | .bvol level pos data =>
    { fs with bvol := Function.update fs.bvol level (writeFile (fs.bvol level) pos data) }
  | .repfinger pos data => { fs with repfinger := writeFile fs.repfinger pos data }

/-- The files together with all writes made so far. -/
structure Disk where
  files : Files
  log : List DiskWrite

def Disk.empty : Disk := ⟨.empty, []⟩

def Disk.write (d : Disk) (w : DiskWrite) : Disk := ⟨d.files.apply w, d.log ++ [w]⟩

@[simp] theorem Disk.write_log (d : Disk) (w : DiskWrite) : (d.write w).log = d.log ++ [w] := rfl

@[simp] theorem Disk.write_files (d : Disk) (w : DiskWrite) :
    (d.write w).files = d.files.apply w := rfl

/-- Several calls, one after the other. -/
def Disk.writes (d : Disk) (ws : List DiskWrite) : Disk := ws.foldl Disk.write d

/-- The files after a list of writes. -/
def replay (fs : Files) (ws : List DiskWrite) : Files := ws.foldl Files.apply fs

@[simp] theorem Disk.writes_nil (d : Disk) : d.writes [] = d := rfl

@[simp] theorem Disk.writes_cons (d : Disk) (w : DiskWrite) (ws : List DiskWrite) :
    d.writes (w :: ws) = (d.write w).writes ws := rfl

theorem Disk.writes_append (d : Disk) (ws ws' : List DiskWrite) :
    d.writes (ws ++ ws') = (d.writes ws).writes ws' := List.foldl_append

theorem Disk.writes_files (d : Disk) (ws : List DiskWrite) :
    (d.writes ws).files = replay d.files ws := by
  induction ws generalizing d with
  | nil => rfl
  | cons w ws ih => rw [Disk.writes_cons, ih]; rfl

theorem Files.apply_bvol_append (fs : Files) (level pos : ℕ) (a b : Bytes) :
    (fs.apply (.bvol level pos a)).apply (.bvol level (pos + a.length) b) =
      fs.apply (.bvol level pos (a ++ b)) := by
  simp only [Files.apply, Function.update_self, Function.update_idem]
  simp [writeFile, writeAt_writeAt]

theorem Files.apply_repfinger_append (fs : Files) (pos : ℕ) (a b : Bytes) :
    (fs.apply (.repfinger pos a)).apply (.repfinger (pos + a.length) b) =
      fs.apply (.repfinger pos (a ++ b)) := by
  simp [Files.apply, writeFile, writeAt_writeAt]

/-- A volume as a byte string. -/
def volumeFile (fs : Files) (level : ℕ) : Bytes := (fs.bvol level).getD []

theorem volumeFile_apply_bvol (fs : Files) (level pos : ℕ) (data : Bytes) :
    volumeFile (fs.apply (.bvol level pos data)) =
      Function.update (volumeFile fs) level (writeAt (volumeFile fs level) pos data) := by
  funext v
  rcases eq_or_ne v level with rfl | hne
  · simp [volumeFile, Files.apply, writeFile]
  · simp [volumeFile, Files.apply, Function.update_of_ne hne]

end TCBackup.Client
