import TCBackup.Bnet
import TCBackup.UpdateAttr

/-!
# Paths in command messages

Both commands that carry a path print it with `%s`, which copies every byte, and
scan it with `%s`, which skips white space and then stops at it. A path survives
exactly when it has no white space in it.

## Main definitions

- `backupMsg`, `scanBackup` — the `BACK` command
- `Scannable` — the paths that `UPDATEATTR` takes to the server as they are
-/

namespace TCBackup

open ByteFile

/-- `BACK` -/
def backCommand : Bytes := [66, 65, 67, 75]

/-- `fileset=` -/
def backFileset : Bytes := [102, 105, 108, 101, 115, 101, 116, 61]

/-- `sprintf(buf, backup_cmd, backup_path)` -/
def backupMsg (backup_path : Bytes) : Bytes := backCommand ++ 32 :: (backFileset ++ backup_path)

/-- `sscanf(msg, backup_cmd, backup_path)` -/
def scanBackup (msg : Bytes) : Option Bytes :=
  (skipLiteral backCommand msg).bind fun s =>
    (skipLiteral backFileset (skipSpace s)).bind scanWord

theorem scanBackup_backupMsg (path : Bytes) : scanBackup (backupMsg path) = scanWord path := by
  have hblank : skipSpace (32 :: (backFileset ++ path)) = backFileset ++ path := by
    rw [skipSpace_blank]
    exact skipSpace_cons rfl _
  rw [scanBackup, backupMsg, skipLiteral_append, Option.bind_some, hblank, skipLiteral_append,
    Option.bind_some]

/-- No word that `%s` assigns has white space in it. -/
theorem scanWord_noSpace {s word : Bytes} (h : scanWord s = some word) :
    ∀ c ∈ word, isSpace c = false := by
  intro c hc
  rw [scanWord] at h
  split at h
  · simp at h
  · cases Option.some.inj h
    simpa using List.mem_takeWhile_imp hc

theorem scanWord_iff {path : Bytes} (hne : path ≠ []) :
    scanWord path = some path ↔ ∀ c ∈ path, isSpace c = false :=
  ⟨scanWord_noSpace, scanWord_path hne⟩

theorem cstring_whole {s : Bytes} (h : 0 ∉ s) : cstring ((Delivery.whole s).into []) = s := by
  have hne : ∀ c ∈ s, decide (c ≠ 0) = true := by
    intro c hc
    simp only [ne_eq, decide_eq_true_eq]
    rintro rfl
    exact h hc
  rw [cstring, Delivery.whole, Delivery.into, writeAt_nil, List.takeWhile_append_of_pos hne]
  simp

theorem zero_notMem_numeral (n : ℕ) : 0 ∉ numeral 10 n := by
  intro h
  have hdigit := isDigit_numeral n 0 h
  exact absurd hdigit (by decide)

theorem zero_notMem_intNumeral (x : ℤ) : 0 ∉ intNumeral x := by
  have hnum := zero_notMem_numeral x.natAbs
  rw [intNumeral]
  split
  · rw [List.mem_cons]
    rintro (h | h)
    · exact absurd h (by decide)
    · exact hnum h
  · exact hnum

theorem zero_notMem_updateAttrMsg (chunknum : ℤ) {path : Bytes} (h : 0 ∉ path) :
    0 ∉ updateAttrMsg chunknum path := by
  simp [updateAttrMsg, attrCommand, attrChunknum, attrFilepath, h, zero_notMem_intNumeral]

theorem zero_notMem_backupMsg {path : Bytes} (h : 0 ∉ path) : 0 ∉ backupMsg path := by
  simp [backupMsg, backCommand, backFileset, h]

/-- Paths that go into `filename` as they are: not empty, shorter than `FILE_NAME_LEN`, and without
NUL and white space. -/
structure Scannable (path : Bytes) : Prop where
  nonempty : path ≠ []
  short : path.length < 256
  nul : 0 ∉ path
  space : ∀ c ∈ path, isSpace c = false

theorem Scannable.scan {path : Bytes} (h : Scannable path) (chunknum : ℤ) :
    scanUpdateAttr (cstring ((Delivery.whole (updateAttrMsg chunknum path)).into [])) =
      (some chunknum, some path) := by
  rw [cstring_whole (zero_notMem_updateAttrMsg chunknum h.nul), scanUpdateAttr_chunknum,
    scanWord_path h.nonempty h.space]

/-- What the server scans from the two messages that the client builds is what the
client printed. -/
def Decoded (chunknum : ℤ) (path : Bytes) : Prop :=
  scanUpdateAttr (cstring ((Delivery.whole (updateAttrMsg chunknum path)).into [])) =
      (some chunknum, some path) ∧
    scanBackup (cstring ((Delivery.whole (backupMsg path)).into [])) = some path

/-- Messages decode to what was encoded exactly when the path has no white space. -/
theorem decoded_iff_noSpace (chunknum : ℤ) {path : Bytes} (hne : path ≠ []) (hnul : 0 ∉ path) :
    Decoded chunknum path ↔ ∀ c ∈ path, isSpace c = false := by
  rw [Decoded, cstring_whole (zero_notMem_updateAttrMsg chunknum hnul),
    cstring_whole (zero_notMem_backupMsg hnul), scanUpdateAttr_chunknum, scanBackup_backupMsg,
    ← scanWord_iff hne]
  constructor
  · rintro ⟨-, h⟩
    exact h
  · intro h
    exact ⟨by rw [h], h⟩

theorem decoded_iff_noSpace_short :
    Decoded 7 [47, 97] ↔ ∀ c ∈ ([47, 97] : Bytes), isSpace c = false :=
  decoded_iff_noSpace 7 (by decide) (by decide)

/-- A file name with a blank in it. -/
def blankPath : Bytes := [47, 97, 32, 98]

theorem blank_path_cut :
    ¬ ∀ chunknum : ℤ, ∀ path : Bytes, 0 ≤ chunknum → chunknum < 2 ^ 31 → 0 < path.length →
      path.length ≤ 255 → 0 ∉ path → Decoded chunknum path := by
  intro h
  obtain ⟨hattr, -⟩ := h 1 blankPath (by decide) (by decide) (by decide) (by decide) (by decide)
  have hscan : scanUpdateAttr (cstring ((Delivery.whole (updateAttrMsg 1 blankPath)).into [])) =
      (some 1, some [47, 97]) := by
    rw [cstring_whole (zero_notMem_updateAttrMsg 1 (by decide)), scanUpdateAttr_chunknum]
    rfl
  rw [hscan] at hattr
  exact absurd (Prod.mk.inj hattr).2 (by decide)

end TCBackup
