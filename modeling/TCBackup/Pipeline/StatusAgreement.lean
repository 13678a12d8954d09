import TCBackup.Client.PipelineBackup
import TCBackup.Server.Backup
import TCBackup.Bnet

/-!
# The status of a file (`server/src/backup.c`, `client/src/filededup.c`)

The server answers a file hash with two characters, of which `NEW_FILE` is a NUL and is not sent, and
with the chunks of a file that it knows. Both drivers of the server go on with the chunks when
`file_dedup_mark` has failed.

## Main definitions

- `isNewFile`, `dedupStatus` — how the two drivers of the client read the answer
- `Agrees` — the answer begins with the status, and the client reads what the server has marked

## Main results

- `agrees_iff` — exactly when it does
-/

namespace TCBackup.Pipeline.StatusAgreement

open ByteFile Client Server

/-- The buffer of the client after `bnet_recv`, which it has filled with zeros. -/
def answerBuffer (d : Delivery) : Bytes := d.into (List.replicate 256 0)

/-- `is_new_file`; `none` for `FAILURE`. -/
def isNewFile (d : Delivery) : Option FileStatus :=
  if d.ret = 0 then none
  else if (answerBuffer d).getD 0 0 = 0 then none
  else if (answerBuffer d).getD 1 0 = 0 then some .newFile
  else some .dedupFile

/-- `chunk_dedup_module` at the answer; `none` where it gives the file up. -/
def dedupStatus (d : Delivery) : Option FileStatus :=
  if d.ret = 0 then none else dedupAnswer (answerBuffer d)

/-- What the client is to learn: what the server has marked, if it could read the recipe. -/
def expected (marked : Bool × Recipe × List Bytes × Shared) : Option FileStatus :=
  if marked.1 then some marked.2.1.is_new else none

/-- The first message of the answer is the one that `file_dedup_mark` sends, both drivers of the
client read the expected status from it, and the chunks follow exactly when it says `DEDUP_FILE`. No
answer comes from a server that waits for the volume for ever. -/
def Agrees : Option (Bool × Recipe × List Bytes × Shared) → Prop
  | none => False
  | some marked => ∃ status rest, marked.2.2.1 = [status] ∧ dedupMessages marked = status :: rest ∧
      isNewFile (bnetSent status) = expected marked ∧
      dedupStatus (bnetSent status) = expected marked ∧
      rest = if isNewFile (bnetSent status) = some .dedupFile then sendChunkInfo marked.2.1 else []

variable {s : Shared} {hash : Fingerprint} {offset : ℕ}

/-- `NEW_FILE` is the byte that does not arrive. -/
theorem read_newFile : isNewFile (bnetSent (dedupResult .newFile)) = some .newFile ∧
    dedupStatus (bnetSent (dedupResult .newFile)) = some .newFile := by
  decide +kernel

theorem read_dedupFile : isNewFile (bnetSent (dedupResult .dedupFile)) = some .dedupFile ∧
    dedupStatus (bnetSent (dedupResult .dedupFile)) = some .dedupFile := by
  decide +kernel

/-- A new file. -/
theorem agrees_new (opened : Bool) (h : (indexLookup s.mem_index hash).1 = none) :
    Agrees (fileDedupMark opened (recipeNew hash) s) := by
  rw [fileDedupMark, show (recipeNew hash).file_hash = hash from rfl]
  split
  · refine ⟨dedupResult .newFile, [], rfl, rfl, read_newFile.1, read_newFile.2, ?_⟩
    rw [read_newFile.1]
    rfl
  · next heq =>
    rw [heq] at h
    cases h

/-- A file that the server knows. -/
theorem agrees_known_iff (opened : Bool) (h : (indexLookup s.mem_index hash).1 = some offset) :
    Agrees (fileDedupMark opened (recipeNew hash) s) ↔
      opened = true ∧ s.volume.rv.mutex = false := by
  rw [fileDedupMark, show (recipeNew hash).file_hash = hash from rfl]
  split
  · next heq =>
    rw [heq] at h
    cases h
  · rw [readRecipeFromVol]
    cases hmutex : s.volume.rv.mutex with
    | true =>
      refine iff_of_false ?_ (by simp)
      rw [if_pos rfl]
      exact id
    | false =>
      rw [if_neg (by decide)]
      cases opened with
      | false =>
        refine iff_of_false ?_ (by simp)
        rw [if_neg (by decide)]
        rintro ⟨status, rest, hmsgs, -⟩
        cases hmsgs
      | true =>
        refine iff_of_true ?_ ⟨rfl, rfl⟩
        rw [if_pos rfl, foldl_recipeAppendFingerchunk]
        refine ⟨dedupResult .dedupFile, _, rfl, rfl, read_dedupFile.1, read_dedupFile.2, ?_⟩
        rw [read_dedupFile.1]
        rfl

/-- Client and server agree on a file that is not in the index, and on one whose recipe can be
read. -/
theorem agrees_iff (opened : Bool) (hash : Fingerprint) (s : Shared) :
    Agrees (fileDedupMark opened (recipeNew hash) s) ↔
      (indexLookup s.mem_index hash).1 = none ∨ (opened = true ∧ s.volume.rv.mutex = false) := by
  cases hfound : (indexLookup s.mem_index hash).1 with
  | none => exact iff_of_true (agrees_new opened hfound) (.inl rfl)
  | some offset => rw [agrees_known_iff opened hfound, or_iff_right (by simp)]

/-- The recipe of a known file cannot be opened: the count of its chunks is the first message. -/
theorem unread_recipe_disagrees :
    ¬ ∀ (opened : Bool) (hash : Fingerprint) (s : Shared),
      Agrees (fileDedupMark opened (recipeNew hash) s) := by
  intro h
  have hagree := (agrees_iff _ _ _).mp (h false zeroFinger
    ⟨htableInsert (Server.htableInit 1) zeroFinger 16, recipeVolumeInit []⟩)
  rcases hagree with hnone | ⟨hopen, -⟩
  · exact absurd hnone (by decide +kernel)
  · cases hopen

end TCBackup.Pipeline.StatusAgreement
