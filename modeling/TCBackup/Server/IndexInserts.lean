import TCBackup.Lib.Labelled
import TCBackup.Server.Backup

/-!
# What reaches the global index

Workers of both backup drivers share the volume and the index. Each of them takes
the files of its client one by one: a new file is announced by `UPDATEATTR`, its
recipe is received and written, and its item inserted into the index. Messages may
be lost, cut short or malformed, and system calls may fail.

## Main definitions

- `Worker`, `Stage` — how far a worker is with its current file
- `Event`, `step` — one receive, write or insert of a worker
- `Clean` — which results of the calls count as free of failures
- `Backed` — an index entry with a complete recipe behind it
-/

namespace TCBackup.Server.IndexInserts

open ByteFile Labelled

inductive Driver
  | pipelined
  | plain
  deriving DecidableEq

/-- The current file of a worker. `clean` tells whether every call for it has
succeeded so far, which the code itself does not remember. -/
inductive Stage
  | idle
  | announced (clean : Bool) (rp : Recipe)
  | received (clean : Bool) (rp : Recipe)
  | written (clean : Bool) (hash : Fingerprint) (offset : ℕ)

/-- `file_dedup_queue` of the pipelined driver, or the one `rp` of the plain one. -/
structure Worker where
  driver : Driver
  queue : List Recipe
  locals : Locals
  stage : Stage

/-- The server. `arrived` records the recipes that arrived complete. -/
structure System where
  shared : Shared
  workers : ℕ → Worker
  arrived : List (Fingerprint × List FingerChunk)

inductive Event
  | hash (w : ℕ) (file_hash : Fingerprint) (opened : Bool)
  | attr (w : ℕ) (d : Delivery)
  | recipe (w : ℕ) (d : Delivery)
  | records (w : ℕ) (next : ℕ → Delivery)
  | write (w : ℕ) (io : VolIO)
  | insert (w : ℕ)

/-- A server on an empty directory, before its workers have received anything. -/
def init (driver : ℕ → Driver) : System :=
  ⟨⟨indexOpen [], recipeVolumeInit []⟩, fun w => ⟨driver w, [], .init, .idle⟩, []⟩

-- ════════════════════════════════════════════════════════════════════════
-- Calls without failure
-- ════════════════════════════════════════════════════════════════════════

/-- The message arrived in full and scans as an `UPDATEATTR` command, with a path that fits
`filename`. -/
def attrClean : Delivery → Bool
  | .message announced bytes =>
    bytes.length = announced ∧
      (scanUpdateAttr (cstring ((Delivery.message announced bytes).into []))).1.isSome ∧
      (scanUpdateAttr (cstring ((Delivery.message announced bytes).into []))).2.isSome ∧
      ((scanUpdateAttr (cstring ((Delivery.message announced bytes).into []))).2.getD []).length < 256
  | _ => false

/-- The message goes into the buffer of the driver, `msg` or `buf`. -/
def attrFits (driver : Driver) (d : Delivery) : Bool :=
  d.stored ≤ match driver with
    | .pipelined => 384
    | .plain => 65536

/-- The message arrived in full and holds the file hash and `n` records. -/
def recipeClean (hash : Fingerprint) (n : ℕ) : Delivery → Bool
  | .message announced bytes =>
    bytes.length = announced ∧ announced = 20 + 84 * n ∧ readAt bytes 0 20 = hash.toList
  | _ => false

/-- The message arrived in full and is one record. -/
def recordClean : Delivery → Bool
  | .message announced bytes => bytes.length = announced ∧ announced = 84
  | _ => false

/-- The chunks that a recipe message lists. -/
def listedChunks (n : ℕ) : Delivery → List FingerChunk
  | .message _ bytes => readRecords fingerChunkOf 84 bytes n 20
  | _ => []

/-- The chunk that a record message names. -/
def listedChunk : Delivery → FingerChunk
  | .message _ bytes => fingerChunkOf bytes
  | _ => fingerChunkOf []

/-- All writes of the recipe are complete, and the volume can be opened. -/
def ioClean (io : VolIO) (rp : Recipe) : Bool :=
  io.opened && (List.range (recipeWrites rp).length).all fun j =>
    ((recipeWrites rp).getD j []).length ≤ io.wrote j

-- ════════════════════════════════════════════════════════════════════════
-- Steps
-- ════════════════════════════════════════════════════════════════════════

def System.setWorker (s : System) (w : ℕ) (worker : Worker) : System :=
  { s with workers := Function.update s.workers w worker }

/-- The queue after a file hash: the plain driver forgets the recipe before. -/
def enqueue (worker : Worker) (rp : Recipe) : List Recipe :=
  match worker.driver with
  | .pipelined => worker.queue ++ [rp]
  | .plain => [rp]

/-- One step of one worker; `none` where it cannot happen, because the worker
waits or holds no recipe. -/
def step (s : System) : Event → Option System
  | .hash w file_hash opened =>
    match fileDedupMark opened (recipeNew file_hash) s.shared with
    | none => none
    | some (_, rp, _, shared) =>
      let worker := s.workers w
      some ({ s with shared := shared }.setWorker w { worker with queue := enqueue worker rp })
  | .attr w d =>
    let worker := s.workers w
    match worker.stage, worker.queue with
    | .idle, rp :: queue =>
      let (_, locals, rp) := scanAttr d worker.locals rp
      -- only a new file has a recipe to come
      let stage :=
        if rp.is_new = .newFile then .announced (attrFits worker.driver d && attrClean d) rp else .idle
      some (s.setWorker w { worker with queue := queue, locals := locals, stage := stage })
    | _, _ => none
  | .recipe w d =>
    let worker := s.workers w
    match worker.driver, worker.stage with
    | .pipelined, .announced clean rp =>
      let n := worker.locals.chunknum.toNat
      let ok := clean && recipeClean rp.file_hash n d
      let (_, locals, rp) := takeRecipe d true worker.locals rp
      let s := s.setWorker w { worker with locals := locals, stage := .received ok rp }
      some { s with
        arrived := if ok then s.arrived ++ [(rp.file_hash, listedChunks n d)] else s.arrived }
    | _, _ => none
  | .records w next =>
    let worker := s.workers w
    match worker.driver, worker.stage with
    | .plain, .announced clean rp =>
      let n := worker.locals.chunknum.toNat
      let ok := clean && (List.range n).all fun i => recordClean (next i)
      let (_, rp) := recvDeplicateChunk next 0 n rp
      let s := s.setWorker w { worker with stage := .received ok rp }
      some { s with
        arrived :=
          if ok then s.arrived ++ [(rp.file_hash, (List.range n).map fun i => listedChunk (next i))]
          else s.arrived }
    | _, _ => none
  | .write w io =>
    let worker := s.workers w
    match worker.stage with
    | .received clean rp =>
      match writeRecipeToVol io rp s.shared.volume with
      | none => none
      | some (offset, volume) =>
        -- a failed open leaves the offset 0, and the item is inserted all the same
        let stage := .written (clean && ioClean io rp) rp.file_hash (offset.getD 0)
        some ({ s with shared := { s.shared with volume := volume } }.setWorker w
          { worker with stage := stage })
    | _ => none
  | .insert w =>
    let worker := s.workers w
    match worker.stage with
    | .written _ hash offset =>
      some ({ s with
        shared := { s.shared with mem_index := indexInsert s.shared.mem_index hash offset } }.setWorker
          w { worker with stage := .idle })
    | _ => none

/-- An insert under a hash that the index does not have is clean. -/
def Clean (s : System) : Event → Prop
  | .insert w => ∀ clean hash offset, (s.workers w).stage = .written clean hash offset →
      clean = true ∨ (s.shared.mem_index.find hash).isSome
  | _ => True

/-- Reads below the end of the volume are not affected. -/
structure Keeps (v v' : Volume) : Prop where
  length : v.rv.volume_length ≤ v'.rv.volume_length
  reads : ∀ pos n, pos + n ≤ v.rv.volume_length → pos + n ≤ v.file.length →
    readAt v'.file pos n = readAt v.file pos n

theorem Keeps.refl (v : Volume) : Keeps v v := ⟨le_refl _, fun _ _ _ _ => rfl⟩

/-- Writes, complete or not, change nothing below their start. -/
theorem readAt_runWrites {wrote : ℕ → ℕ} {ds : List Bytes} {i start pos n : ℕ} {f : Bytes}
    (h : pos + n ≤ start) (hf : pos + n ≤ f.length) :
    readAt (runWrites wrote i start ds f) pos n = readAt f pos n := by
  induction ds generalizing i start f with
  | nil => rfl
  | cons d ds ih =>
    rw [runWrites, ih (by omega) (by rw [length_writeAt]; omega)]
    exact readAt_writeAt_of_disjoint (.inl h) hf

theorem writeRecipeToVol_keeps {io : VolIO} {rp : Recipe} {v v' : Volume} {r : Option ℕ}
    (h : writeRecipeToVol io rp v = some (r, v')) : Keeps v v' := by
  rw [writeRecipeToVol] at h
  split at h
  · simp at h
  · split at h <;> obtain ⟨-, rfl⟩ := Prod.mk.inj (Option.some.inj h)
    · refine ⟨Nat.le_add_right _ _, fun pos n hle hf => ?_⟩
      exact readAt_runWrites hle hf
    · exact ⟨le_refl _, fun _ _ _ _ => rfl⟩

theorem readRecipeFromVol_keeps {opened : Bool} {offset : ℕ} {rp : Recipe} {v v' : Volume}
    {r : Option Recipe} (h : readRecipeFromVol opened offset rp v = some (r, v')) :
    Keeps v v' := by
  rw [readRecipeFromVol] at h
  split at h
  · simp at h
  · split at h <;> obtain ⟨-, rfl⟩ := Prod.mk.inj (Option.some.inj h) <;>
      exact ⟨le_refl _, fun _ _ _ _ => rfl⟩

/-- The recipe arrived and lies below the end of the volume. -/
def Stored (arrived : List (Fingerprint × List FingerChunk)) (v : Volume) (hash : Fingerprint)
    (offset : ℕ) : Prop :=
  ∃ chunks, (hash, chunks) ∈ arrived ∧ offset + (4 + 84 * chunks.length) ≤ v.rv.volume_length ∧
    readAt v.file offset (4 + 84 * chunks.length) = recipeBytes chunks

theorem Stored.mono {arrived arrived' : List (Fingerprint × List FingerChunk)} {v v' : Volume}
    {hash : Fingerprint} {offset : ℕ} (h : Stored arrived v hash offset)
    (ha : arrived ⊆ arrived') (hv : Keeps v v') : Stored arrived' v' hash offset := by
  obtain ⟨chunks, hmem, hstop, hread⟩ := h
  have hlen := congrArg List.length hread
  rw [length_readAt, length_recipeBytes] at hlen
  refine ⟨chunks, ha hmem, hstop.trans hv.length, ?_⟩
  rw [hv.reads _ _ hstop (by omega), hread]

-- ════════════════════════════════════════════════════════════════════════
-- The invariant
-- ════════════════════════════════════════════════════════════════════════

/-- What a worker holds: recipes of new files are empty until they are received,
and what is clean did arrive and was stored. -/
structure WorkerOk (arrived : List (Fingerprint × List FingerChunk)) (v : Volume)
    (worker : Worker) : Prop where
  queued : ∀ rp ∈ worker.queue, rp.is_new = .newFile → rp.chunks = []
  announced : ∀ clean rp, worker.stage = .announced clean rp → rp.chunks = []
  received : ∀ rp, worker.stage = .received true rp → (rp.file_hash, rp.chunks) ∈ arrived
  written : ∀ hash offset, worker.stage = .written true hash offset →
    Stored arrived v hash offset

structure Inv (s : System) : Prop where
  table : s.shared.mem_index.WF
  workers : ∀ w, WorkerOk s.arrived s.shared.volume (s.workers w)
  index : ∀ hash offset, s.shared.mem_index.find hash = some offset →
    Stored s.arrived s.shared.volume hash offset

theorem WorkerOk.mono {arrived arrived' : List (Fingerprint × List FingerChunk)}
    {v v' : Volume} {worker : Worker} (h : WorkerOk arrived v worker) (ha : arrived ⊆ arrived')
    (hv : Keeps v v') : WorkerOk arrived' v' worker :=
  ⟨h.queued, h.announced, fun rp hs => ha (h.received rp hs),
    fun hash offset hs => (h.written hash offset hs).mono ha hv⟩

/-- A step of one worker that keeps the volume and adds only stored entries. -/
theorem Inv.update {s t : System} (h : Inv s) {w : ℕ} {worker : Worker}
    (hw : t.workers = Function.update s.workers w worker) (ha : s.arrived ⊆ t.arrived)
    (hv : Keeps s.shared.volume t.shared.volume) (htable : t.shared.mem_index.WF)
    (hindex : ∀ hash offset, t.shared.mem_index.find hash = some offset →
      s.shared.mem_index.find hash = some offset ∨
        Stored t.arrived t.shared.volume hash offset)
    (hok : WorkerOk t.arrived t.shared.volume worker) : Inv t := by
  refine ⟨htable, fun w' => ?_, fun hash offset hfind => ?_⟩
  · rw [hw]
    by_cases heq : w' = w
    · subst heq
      rwa [Function.update_self]
    · rw [Function.update_of_ne heq]
      exact (h.workers w').mono ha hv
  · rcases hindex hash offset hfind with hold | hnew
    · exact (h.index hash offset hold).mono ha hv
    · exact hnew

theorem init_inv (driver : ℕ → Driver) : Inv (init driver) := by
  have hopen : indexOpen [] = htableInit 16777215 := by simp [indexOpen, readAt]
  refine ⟨?_, fun w => ⟨by simp [init], by simp [init], by simp [init], by simp [init]⟩, ?_⟩
  · rw [init, hopen]
    exact htableInit_wf _
  · intro hash offset hfind
    rw [init, hopen, htableInit_find] at hfind
    simp at hfind

-- ════════════════════════════════════════════════════════════════════════
-- Steps keep the invariant
-- ════════════════════════════════════════════════════════════════════════

/-- What marking a fresh recipe can do. -/
theorem fileDedupMark_spec {opened ok : Bool} {hash : Fingerprint} {rp : Recipe}
    {msgs : List Bytes} {s s' : Shared}
    (h : fileDedupMark opened (recipeNew hash) s = some (ok, rp, msgs, s')) :
    s'.mem_index = hashIndex s.mem_index hash ∧ Keeps s.volume s'.volume ∧
      rp.file_hash = hash ∧ (rp.is_new = .newFile → rp.chunks = []) := by
  have hlookup : indexLookup s.mem_index hash =
      ((indexLookup s.mem_index hash).1, hashIndex s.mem_index hash) := rfl
  have hhash : (recipeNew hash).file_hash = hash := rfl
  rw [fileDedupMark, hhash, hlookup] at h
  cases hfound : (indexLookup s.mem_index hash).1 with
  | none =>
    rw [hfound] at h
    obtain ⟨-, rfl, -, rfl⟩ := Prod.mk.inj (Option.some.inj h)
    exact ⟨rfl, .refl _, rfl, fun _ => rfl⟩
  | some offset =>
    rw [hfound] at h
    dsimp only at h
    split at h
    · simp at h
    · next volume hread =>
      obtain ⟨-, rfl, -, rfl⟩ := Prod.mk.inj (Option.some.inj h)
      exact ⟨rfl, readRecipeFromVol_keeps hread, rfl, by simp⟩
    · next rp' volume hread =>
      obtain ⟨-, rfl, -, rfl⟩ := Prod.mk.inj (Option.some.inj h)
      have hkeep := readRecipeFromVol_keeps hread
      rw [readRecipeFromVol] at hread
      split at hread
      · simp at hread
      · split at hread
        · obtain ⟨hrp, -⟩ := Prod.mk.inj (Option.some.inj hread)
          obtain rfl := Option.some.inj hrp
          rw [foldl_recipeAppendFingerchunk]
          exact ⟨rfl, hkeep, rfl, by simp⟩
        · simp at hread

theorem Inv.hash {s t : System} {w : ℕ} {file_hash : Fingerprint} {opened : Bool} (h : Inv s)
    (hs : step s (.hash w file_hash opened) = some t) : Inv t := by
  rw [step] at hs
  split at hs
  · simp at hs
  · next ok rp msgs shared hmark =>
    obtain rfl := Option.some.inj hs
    obtain ⟨htable, hkeep, -, hchunks⟩ := fileDedupMark_spec hmark
    have hold := h.workers w
    refine h.update rfl (List.Subset.refl _) hkeep ?_ ?_ ?_
    · change shared.mem_index.WF
      rw [htable]
      exact hashIndex_wf h.table file_hash
    · intro hash offset hfind
      change shared.mem_index.find hash = some offset at hfind
      rw [htable, hashIndex_find _ h.table] at hfind
      exact .inl hfind
    · have hmono := hold.mono (List.Subset.refl _) hkeep
      refine ⟨?_, hmono.announced, hmono.received, hmono.written⟩
      intro rp' hrp' hnew
      simp only [enqueue] at hrp'
      split at hrp'
      · rcases List.mem_append.mp hrp' with hrp' | hrp'
        · exact hold.queued rp' hrp' hnew
        · obtain rfl := List.mem_singleton.mp hrp'
          exact hchunks hnew
      · obtain rfl := List.mem_singleton.mp hrp'
        exact hchunks hnew

/-- A step that changes neither the index nor the volume. -/
theorem Inv.local {s t : System} (h : Inv s) {w : ℕ} {worker : Worker}
    (hw : t.workers = Function.update s.workers w worker) (hshared : t.shared = s.shared)
    (ha : s.arrived ⊆ t.arrived) (hok : WorkerOk t.arrived s.shared.volume worker) : Inv t := by
  refine h.update hw ha (by rw [hshared]; exact .refl _) (by rw [hshared]; exact h.table) ?_
    (by rwa [hshared])
  intro hash offset hfind
  rw [hshared] at hfind
  exact .inl hfind

theorem Inv.attr {s t : System} {w : ℕ} {d : Delivery} (h : Inv s)
    (hs : step s (.attr w d) = some t) : Inv t := by
  have hold := h.workers w
  rw [step] at hs
  dsimp only at hs
  split at hs
  · next rp queue _ hqueue =>
    obtain rfl := Option.some.inj hs
    have hchunks : ∀ d l, (scanAttr d l rp).2.2.chunks = rp.chunks ∧
        (scanAttr d l rp).2.2.is_new = rp.is_new := fun d l => by
      rw [scanAttr_recipe]
      cases (scanUpdateAttr (cstring (d.into []))).2 <;> exact ⟨rfl, rfl⟩
    refine h.local rfl rfl (List.Subset.refl _) ⟨?_, ?_, ?_, ?_⟩
    · intro rp' hrp' hnew
      exact hold.queued rp' (by rw [hqueue]; exact List.mem_cons_of_mem _ hrp') hnew
    · intro clean rp' hstage
      dsimp only at hstage
      split at hstage
      · next hnew =>
        obtain ⟨-, rfl⟩ := Stage.announced.inj hstage
        rw [(hchunks _ _).1]
        rw [(hchunks _ _).2] at hnew
        exact hold.queued rp (by rw [hqueue]; exact List.mem_cons_self) hnew
      · simp at hstage
    · intro rp' hstage
      dsimp only at hstage
      split at hstage <;> simp at hstage
    · intro hash offset hstage
      dsimp only at hstage
      split at hstage <;> simp at hstage
  · simp at hs

/-- A clean recipe message leaves the listed chunks in the recipe. -/
theorem takeRecipe_clean {d : Delivery} {l : Locals} {rp : Recipe} (hrp : rp.chunks = [])
    (h : recipeClean rp.file_hash l.chunknum.toNat d = true) :
    (takeRecipe d true l rp).2.2.chunks = listedChunks l.chunknum.toNat d := by
  cases d with
  | error => simp [recipeClean] at h
  | signal len => simp [recipeClean] at h
  | message announced bytes =>
    simp only [recipeClean, decide_eq_true_eq] at h
    obtain ⟨hlen, hannounced, -⟩ := h
    simp only [takeRecipe, foldl_recipeAppendFingerchunk, hrp, List.nil_append, listedChunks,
      Delivery.into]
    apply readRecords_congr
    intro k hk
    have hin : 20 + 84 * k + 84 ≤ bytes.length := by omega
    have hbuf : readAt (writeAt l.buf 0 (bytes ++ [0])) (0 + (20 + 84 * k)) 84 =
        readAt (bytes ++ [0]) (20 + 84 * k) 84 :=
      readAt_writeAt_inside (by rw [List.length_append]; omega)
    rw [Nat.zero_add] at hbuf
    rw [hbuf, readAt_append_left hin]

/-- The loop of the plain driver appends the listed chunks while they are clean. -/
theorem recvDeplicateChunk_clean {next : ℕ → Delivery} {i n : ℕ} {rp : Recipe}
    (h : ∀ j < n, recordClean (next (i + j)) = true) :
    (recvDeplicateChunk next i n rp).2.chunks =
      rp.chunks ++ (List.range n).map fun j => listedChunk (next (i + j)) := by
  induction n generalizing i rp with
  | zero => simp [recvDeplicateChunk]
  | succ n ih =>
    have hshift : ∀ j, i + (j + 1) = i + 1 + j := fun j => by omega
    have hfirst := h 0 (by omega)
    have hrest : ∀ j < n, recordClean (next (i + 1 + j)) = true := by
      intro j hj
      rw [← hshift]
      exact h (j + 1) (by omega)
    rw [Nat.add_zero] at hfirst
    cases hd : next i with
    | error => simp [hd, recordClean] at hfirst
    | signal len => simp [hd, recordClean] at hfirst
    | message announced bytes =>
      simp only [hd, recordClean, decide_eq_true_eq] at hfirst
      obtain ⟨hlen, rfl⟩ := hfirst
      have hret : ¬(next i).ret = 0 := by
        rw [hd, Delivery.ret, hlen]
        decide
      have hchunk : fingerChunkOf ((next i).into []) = listedChunk (next i) := by
        rw [hd, Delivery.into, listedChunk, writeAt_nil, fingerChunkOf, fingerChunkOf,
          readAt_append_left (by omega), readAt_append_left (by omega)]
      have hmap : (fun j => listedChunk (next (i + j))) ∘ Nat.succ =
          fun j => listedChunk (next (i + 1 + j)) := by
        funext j
        exact congrArg (fun k => listedChunk (next k)) (hshift j)
      rw [recvDeplicateChunk, if_neg hret, ih hrest, recipeAppendFingerchunk, hchunk,
        List.range_succ_eq_map, List.map_cons, List.map_map, hmap, List.append_assoc]
      rfl

theorem recvDeplicateChunk_file_hash (next : ℕ → Delivery) (i n : ℕ) (rp : Recipe) :
    (recvDeplicateChunk next i n rp).2.file_hash = rp.file_hash := by
  induction n generalizing i rp with
  | zero => rfl
  | succ n ih =>
    rw [recvDeplicateChunk]
    split
    · rfl
    · rw [ih]
      rfl

theorem Inv.recipe {s t : System} {w : ℕ} {d : Delivery} (h : Inv s)
    (hs : step s (.recipe w d) = some t) : Inv t := by
  have hold := h.workers w
  rw [step] at hs
  dsimp only at hs
  split at hs
  · next clean rp _ hstage =>
    obtain rfl := Option.some.inj hs
    have hempty := hold.announced clean rp hstage
    have hsub : s.arrived ⊆ if (clean && recipeClean rp.file_hash
        (s.workers w).locals.chunknum.toNat d) = true then
        s.arrived ++ [((takeRecipe d true (s.workers w).locals rp).2.2.file_hash,
          listedChunks (s.workers w).locals.chunknum.toNat d)] else s.arrived := by
      split
      · exact List.subset_append_left _ _
      · exact List.Subset.refl _
    refine h.local rfl rfl hsub ⟨hold.queued, by simp, ?_, by simp⟩
    intro rp' heq
    obtain ⟨hok, rfl⟩ := Stage.received.inj heq
    obtain ⟨-, hrecipe⟩ := Bool.and_eq_true_iff.mp hok
    dsimp only [System.setWorker]
    rw [if_pos hok, takeRecipe_clean hempty hrecipe]
    exact List.mem_append_right _ (List.mem_singleton_self _)
  · simp at hs

theorem Inv.records {s t : System} {w : ℕ} {next : ℕ → Delivery} (h : Inv s)
    (hs : step s (.records w next) = some t) : Inv t := by
  have hold := h.workers w
  rw [step] at hs
  dsimp only at hs
  split at hs
  · next clean rp _ hstage =>
    obtain rfl := Option.some.inj hs
    have hempty := hold.announced clean rp hstage
    refine h.local rfl rfl ?_ ⟨hold.queued, by simp, ?_, by simp⟩
    · dsimp only [System.setWorker]
      split
      · exact List.subset_append_left _ _
      · exact List.Subset.refl _
    · intro rp' heq
      obtain ⟨hok, rfl⟩ := Stage.received.inj heq
      obtain ⟨-, hall⟩ := Bool.and_eq_true_iff.mp hok
      have hclean : ∀ j < (s.workers w).locals.chunknum.toNat, recordClean (next (0 + j)) = true := by
        intro j hj
        rw [Nat.zero_add]
        exact List.all_eq_true.mp hall j (List.mem_range.mpr hj)
      dsimp only [System.setWorker]
      rw [if_pos hok, recvDeplicateChunk_clean hclean, hempty]
      simp
  · simp at hs

theorem ioClean_full {io : VolIO} {rp : Recipe} (h : ioClean io rp = true) : io.Full rp := by
  obtain ⟨hopen, hall⟩ := Bool.and_eq_true_iff.mp h
  refine ⟨hopen, fun j d hd => ?_⟩
  obtain ⟨hj, rfl⟩ := List.getElem?_eq_some_iff.mp hd
  have := List.all_eq_true.mp hall j (List.mem_range.mpr hj)
  simpa [List.getD_eq_getElem?_getD, hd] using this

theorem Inv.write {s t : System} {w : ℕ} {io : VolIO} (h : Inv s)
    (hs : step s (.write w io) = some t) : Inv t := by
  have hold := h.workers w
  rw [step] at hs
  dsimp only at hs
  split at hs
  · next clean rp hstage =>
    split at hs
    · simp at hs
    · next offset volume hwrite =>
      obtain rfl := Option.some.inj hs
      have hkeep := writeRecipeToVol_keeps hwrite
      refine h.update rfl (List.Subset.refl _) hkeep h.table (fun _ _ hfind => .inl hfind)
        ⟨hold.queued, by simp, by simp, ?_⟩
      intro hash offset' heq
      obtain ⟨hok, rfl, rfl⟩ := Stage.written.inj heq
      obtain ⟨rfl, hio⟩ := Bool.and_eq_true_iff.mp hok
      have hmutex : s.shared.volume.rv.mutex = false := by
        by_contra hm
        rw [Bool.not_eq_false] at hm
        simp [writeRecipeToVol, hm] at hwrite
      rw [writeRecipeToVol_full hmutex (ioClean_full hio)] at hwrite
      obtain ⟨rfl, rfl⟩ := Prod.mk.inj (Option.some.inj hwrite)
      refine ⟨rp.chunks, hold.received rp hstage, ?_, ?_⟩
      · dsimp only [System.setWorker, Option.getD_some]
        omega
      · rw [← length_recipeBytes]
        exact readAt_writeAt_self _ _ _
  · simp at hs

theorem Inv.insert {s t : System} {w : ℕ} (h : Inv s) (hc : Clean s (.insert w))
    (hs : step s (.insert w) = some t) : Inv t := by
  have hold := h.workers w
  rw [step] at hs
  dsimp only at hs
  split at hs
  · next clean hash offset hstage =>
    obtain rfl := Option.some.inj hs
    refine h.update rfl (List.Subset.refl _) (.refl _) ?_ ?_ ⟨hold.queued, by simp, by simp, by simp⟩
    · dsimp only [System.setWorker]
      rw [indexInsert_eq]
      exact htableInsert_wf h.table hash offset
    · intro key off hfind
      dsimp only [System.setWorker] at hfind
      rw [indexInsert_eq, find_htableInsert h.table] at hfind
      split at hfind
      · next hnew =>
        obtain ⟨rfl, hnone⟩ := hnew
        obtain rfl := Option.some.inj hfind
        rcases hc clean key offset hstage with rfl | hsome
        · exact .inr (hold.written key offset hstage)
        · simp [hnone] at hsome
      · exact .inl hfind
  · simp at hs

theorem Inv.step {s t : System} {e : Event} (h : Inv s) (hc : Clean s e)
    (hs : IndexInserts.step s e = some t) : Inv t := by
  cases e with
  | hash w file_hash opened => exact h.hash hs
  | attr w d => exact h.attr hs
  | recipe w d => exact h.recipe hs
  | records w next => exact h.records hs
  | write w io => exact h.write hs
  | insert w => exact h.insert hc hs

theorem step_insert {s : System} {w : ℕ} {clean : Bool} {hash : Fingerprint} {offset : ℕ}
    (h : (s.workers w).stage = .written clean hash offset) :
    step s (.insert w) = some ({ s with
      shared := { s.shared with mem_index := htableInsert s.shared.mem_index hash offset } }.setWorker
        w { s.workers w with stage := .idle }) := by
  simp only [step, h, indexInsert_eq]

/-- A file announced with one chunk, whose recipe comes as `e`; its insert is to
come. -/
def oneFile (e : Event) : List Event :=
  [.hash 0 (fixed 20 [1]) true, .attr 0 (.whole (updateAttrMsg 1 [47, 97])), e, .write 0 .ok]

end TCBackup.Server.IndexInserts
