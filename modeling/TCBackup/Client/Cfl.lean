import TCBackup.Client.ChunkBuffer

/-!
# Rewriting by fragmentation level (`client/src/cfl.c`)

While the fragmentation level is low, duplicates from one container are kept back. When
one from another container comes, they are all written again or all left as they are.

## Main definitions

- `Cfl` — the level and the temporary container
- `selectiveDedup`, `typicalDedup`, `cflProcess`, `cflEnd`

## Main results

- `cflProcess_steps`, `cflEnd_steps` — a file is decided, and a flush at the end of the stream
  settles what still waits
-/

namespace TCBackup.Client

open ByteFile Handoff

structure ChunkNode where
  fc : ℕ
  fileinfo : FileInfo ℕ

structure TmpContainer where
  address : Chunkaddress
  chunks : List ChunkNode
  length : ℤ

/-- `CFL` is kept as the two numbers whose quotient it is. -/
structure Cfl where
  cfl : ℕ × ℕ
  RDC : HTable 64 Unit
  total_container_num : ℕ
  dataset_size : ℕ
  tmp_container : TmpContainer

/-- `cfl_init`. The temporary container is not initialised: its length is what `malloc` leaves,
and its address is not looked at while it is empty. -/
def cflInit (length : ℤ) : Cfl := ⟨(1, 1), htableInit 3200, 0, 0, ⟨noAddress, [], length⟩⟩

/-- A container that is not in `RDC` is counted. -/
def countContainer (c : Cfl) (address : Chunkaddress) : Cfl :=
  match c.RDC.lookup address with
  | some _ => c
  | none =>
    { c with
      RDC := c.RDC.insert (fixed 64 (cstr address)) ()
      total_container_num := c.total_container_num + 1 }

/-- The temporary container without its chunks. -/
def Cfl.clear (c : Cfl) : Cfl :=
  { c with tmp_container := { c.tmp_container with chunks := [], length := 0 } }

variable (s : Settings) (clock : ℕ → ℤ) (content : Bytes → Bytes)

/-- Write a chunk of the temporary container again. -/
def rewriteNode (cn : ChunkNode) (w : Work) : Work :=
  (rewriteDup clock (content cn.fileinfo.file_path) cn.fc w).unlock cn.fc

def keepNode (cn : ChunkNode) (w : Work) : Work := w.unlock cn.fc

/-- The loop of `selective_dedup` that writes the chunks again. -/
def rewriteNodes (nodes : List ChunkNode) (cw : Cfl × Work) : Cfl × Work :=
  nodes.foldl
    (fun cw cn =>
      let w := rewriteNode clock content cn cw.2
      (countContainer cw.1 (w.chunk cn.fc).chunkaddress, w))
    cw

/-- The chunks of the temporary container are decided. -/
def flushTmp (c : Cfl) (w : Work) : Cfl × Work :=
  if s.sparse c.tmp_container.length then
    let (c, w) := rewriteNodes clock content c.tmp_container.chunks (c, w)
    (c.clear, w)
  else
    ((countContainer c c.tmp_container.address).clear,
      c.tmp_container.chunks.foldl (fun w cn => keepNode cn w) w)

/-- The temporary container is decided before a chunk of another container joins. -/
def makeRoom (r : ℕ) (c : Cfl) (w : Work) : Cfl × Work :=
  if c.tmp_container.chunks ≠ [] ∧ ¬sameName (w.chunk r).chunkaddress c.tmp_container.address then
    flushTmp s clock content c w
  else (c, w)

/-- A chunk joins the temporary container. -/
def joinTmp (fileinfo : FileInfo ℕ) (r : ℕ) (c : Cfl) (w : Work) : Cfl × Work :=
  ({ c with
      tmp_container := ⟨(w.chunk r).chunkaddress, c.tmp_container.chunks ++ [⟨r, fileinfo⟩],
        add32 c.tmp_container.length (w.chunk r).chunklen⟩ },
    w.lock r)

/-- `selective_dedup` -/
def selectiveDedup (fileinfo : FileInfo ℕ) (r : ℕ) (c : Cfl) (w : Work) : Cfl × Work :=
  let cw := makeRoom s clock content r c w
  joinTmp fileinfo r cw.1 cw.2

/-- `typical_dedup` -/
def typicalDedup (fileinfo : FileInfo ℕ) (r : ℕ) (c : Cfl) (w : Work) : Cfl × Work :=
  let w :=
    if (w.chunk r).is_new = .newChunk then
      storeNew clock (content fileinfo.file_path) (w.chunk r).offset r w
    else w
  (countContainer c (w.chunk r).chunkaddress, w)

/-- The fragmentation level after a chunk. -/
def Cfl.update (c : Cfl) : Cfl :=
  { c with cfl := (c.dataset_size / defaultContainerSize + 1, c.total_container_num) }

/-- One round of `cfl_process`. -/
def cflChunk (fileinfo : FileInfo ℕ) (r : ℕ) (c : Cfl) (w : Work) : Cfl × Work :=
  let c := { c with dataset_size := c.dataset_size + (w.chunk r).chunklen }
  let (c, w) :=
    match w.found r with
    | some address =>
      let w := w.markDedup r (fixed 64 (cstr address))
      if s.cflLow c.cfl.1 c.cfl.2 then selectiveDedup s clock content fileinfo r c w
      else typicalDedup clock content fileinfo r c w
    | none => typicalDedup clock content fileinfo r c (w.markNew r)
  (c.update, w)

/-- `cfl_process` of a file. -/
def cflProcess (fileinfo : FileInfo ℕ) (cw : Cfl × Work) : Cfl × Work :=
  fileinfo.counted.foldl (fun cw r => cflChunk s clock content fileinfo r cw.1 cw.2) cw

/-- `cfl_process` at the end of the stream. -/
def cflEnd (c : Cfl) (w : Work) : Cfl × Work :=
  if s.sparse c.tmp_container.length then
    ({ c with tmp_container := { c.tmp_container with chunks := [] } },
      c.tmp_container.chunks.foldl (fun w cn => rewriteNode clock content cn w) w)
  else
    ({ c with tmp_container := { c.tmp_container with chunks := [] } },
      c.tmp_container.chunks.foldl (fun w cn => keepNode cn w) w)

variable {s clock content} {sha1 : Bytes → Fingerprint} {cells : FileInfo ℕ → List ℕ}
  {c : Cfl} {w : Work} {σ : ℕ → Stage} {S : ℕ → Prop}

/-- The chunks that wait with the paths of their files. -/
def Cfl.buffer (c : Cfl) : List (ℕ × Bytes) :=
  c.tmp_container.chunks.map fun cn => (cn.fc, cn.fileinfo.file_path)

/-- The chunks in the temporary container wait, and they are duplicates. -/
structure CflWaiting (sha1 : Bytes → Fingerprint) (content : Bytes → Bytes) (c : Cfl) (w : Work)
    (σ : ℕ → Stage) : Prop where
  waiting : Waiting sha1 content c.buffer w σ
  dup : ∀ p ∈ c.buffer, (w.chunk p.1).is_new = .dedupChunk

@[simp] theorem countContainer_tmp (c : Cfl) (address : Chunkaddress) :
    (countContainer c address).tmp_container = c.tmp_container := by
  rw [countContainer]
  split <;> rfl

theorem rewriteNodes_snd (nodes : List ChunkNode) (c : Cfl) (w : Work) :
    (rewriteNodes clock content nodes (c, w)).2 =
      nodes.foldl (fun w cn => rewriteNode clock content cn w) w := by
  induction nodes generalizing c w with
  | nil => rfl
  | cons cn nodes ih => exact ih _ _

theorem foldl_nodes (f : ℕ × Bytes → Work → Work) (nodes : List ChunkNode) (w : Work) :
    nodes.foldl (fun w cn => f (cn.fc, cn.fileinfo.file_path) w) w =
      (runWhile (fun p w => (true, f p w))
        (nodes.map fun cn => (cn.fc, cn.fileinfo.file_path)) w).2 := by
  rw [runWhile_true, List.foldl_map]

/-- Both ways of deciding the temporary container settle its chunks. -/
theorem CflWaiting.flush (h : Life cells w σ) (hw : CflWaiting sha1 content c w σ) :
    (∃ σ', Steps sha1 clock noFile (w, σ)
        (c.tmp_container.chunks.foldl (fun w cn => rewriteNode clock content cn w) w, σ') ∧
      Waiting sha1 content []
        (c.tmp_container.chunks.foldl (fun w cn => rewriteNode clock content cn w) w) σ') ∧
    ∃ σ', Steps sha1 clock noFile (w, σ)
        (c.tmp_container.chunks.foldl (fun w cn => keepNode cn w) w, σ') ∧
      Waiting sha1 content [] (c.tmp_container.chunks.foldl (fun w cn => keepNode cn w) w) σ' := by
  constructor
  · have hflush := hw.waiting.flush (P := fun fc => fc.is_new = .dedupChunk) clock
      (fun p w => (true, (rewriteDup clock (content p.2) p.1 w).unlock p.1))
      (fun w σ p hlife hpending hplace hdup =>
        ⟨rfl, step_rewrite hlife hpending hdup (hplace.stored rfl)⟩) h hw.dup
    rw [Cfl.buffer, ← foldl_nodes] at hflush
    exact hflush.2
  · have hflush := hw.waiting.flush (P := fun fc => fc.is_new = .dedupChunk) clock
      (fun p w => (true, w.unlock p.1))
      (fun w σ p hlife hpending _ hdup => ⟨rfl, step_keep hlife hpending hdup⟩) h hw.dup
    rw [Cfl.buffer, ← foldl_nodes] at hflush
    exact hflush.2

theorem flushTmp_steps (h : Life cells w σ) (hw : CflWaiting sha1 content c w σ) :
    (flushTmp s clock content c w).1.tmp_container.chunks = [] ∧
      ∃ σ', Steps sha1 clock noFile (w, σ) ((flushTmp s clock content c w).2, σ') ∧
        Waiting sha1 content [] (flushTmp s clock content c w).2 σ' := by
  rw [flushTmp]
  split
  · dsimp only
    rw [rewriteNodes_snd]
    exact ⟨rfl, (hw.flush h).1⟩
  · exact ⟨rfl, (hw.flush h).2⟩

variable {r : ℕ} {fileinfo : FileInfo ℕ}

theorem makeRoom_steps (clock : ℕ → ℤ) (h : Life cells w σ) (hw : CflWaiting sha1 content c w σ) (r : ℕ) :
    ∃ σ', Steps sha1 clock noFile (w, σ) ((makeRoom s clock content r c w).2, σ') ∧
      CflWaiting sha1 content (makeRoom s clock content r c w).1
        (makeRoom s clock content r c w).2 σ' := by
  rw [makeRoom]
  split
  · obtain ⟨hnil, σ', hsteps, hwaiting⟩ := flushTmp_steps (s := s) h hw
    have hbuffer : (flushTmp s clock content c w).1.buffer = [] := by
      rw [Cfl.buffer, hnil, List.map_nil]
    exact ⟨σ', hsteps, hbuffer ▸ hwaiting, by rw [hbuffer]; simp⟩
  · exact ⟨σ, Steps.refl w σ, hw⟩

/-- A marked duplicate joins the temporary container. -/
theorem joinTmp_step (fileinfo : FileInfo ℕ) (h : Life cells w σ) (hw : CflWaiting sha1 content c w σ) (hS : S r)
    (hmarked : σ r = .marked) (hdup : (w.chunk r).is_new = .dedupChunk)
    (hplace : ChunkOf sha1 (content fileinfo.file_path) (w.chunk r)) :
    Step sha1 clock S (w, σ) ((joinTmp fileinfo r c w).2, Function.update σ r .pending) ∧
      CflWaiting sha1 content (joinTmp fileinfo r c w).1 (joinTmp fileinfo r c w).2
        (Function.update σ r .pending) := by
  have hstep : Step sha1 clock S (w, σ) (w.lock r, Function.update σ r .pending) :=
    step_enter h hS hmarked hdup
  have hbuffer : (joinTmp fileinfo r c w).1.buffer = c.buffer ++ [(r, fileinfo.file_path)] := by
    rw [joinTmp, Cfl.buffer, Cfl.buffer, List.map_append, List.map_singleton]
  refine ⟨hstep, ?_, ?_⟩
  · rw [hbuffer]
    exact hw.waiting.enter (by simp [hmarked]) hplace hstep
  · intro p hp
    rw [hbuffer, List.mem_append] at hp
    rw [joinTmp, Work.lock, chunk_set]
    by_cases hr : p.1 = r
    · rw [hr, Function.update_self]
      exact hdup
    · rw [Function.update_of_ne hr]
      cases hp with
      | inl hp => exact hw.dup p hp
      | inr hp => exact absurd (congrArg Prod.fst (List.mem_singleton.mp hp)) hr

/-- A marked duplicate waits afterwards. -/
theorem selectiveDedup_steps (h : Life cells w σ) (hw : CflWaiting sha1 content c w σ) (hS : S r)
    (hmarked : σ r = .marked) (hdup : (w.chunk r).is_new = .dedupChunk)
    (hplace : ChunkOf sha1 (content fileinfo.file_path) (w.chunk r)) :
    ∃ σ', Steps sha1 clock S (w, σ) ((selectiveDedup s clock content fileinfo r c w).2, σ') ∧
      CflWaiting sha1 content (selectiveDedup s clock content fileinfo r c w).1
        (selectiveDedup s clock content fileinfo r c w).2 σ' ∧ σ' r = .pending := by
  obtain ⟨σ₁, hsteps, hw₁⟩ := makeRoom_steps (s := s) clock h hw r
  obtain ⟨hstage, hchunk⟩ : σ₁ r = σ r ∧
      (makeRoom s clock content r c w).2.chunk r = w.chunk r := by
    cases hsteps.stage (r := r) id with
    | inl hsame => exact hsame
    | inr hbad => simp [hmarked] at hbad
  obtain ⟨hstep, hw₂⟩ := joinTmp_step fileinfo (hsteps.life h) hw₁ hS
    (hstage.trans hmarked) (hchunk ▸ hdup) (hchunk ▸ hplace)
  exact ⟨_, hsteps.of_noFile.trans (.of_step hstep), hw₂, Function.update_self _ _ _⟩

/-- A chunk that is not kept back is decided at once. -/
theorem typicalDedup_snd (clock : ℕ → ℤ) (content : Bytes → Bytes) (fileinfo : FileInfo ℕ) (r : ℕ) (c : Cfl) (w : Work) :
    (typicalDedup clock content fileinfo r c w).2 =
        (if (w.chunk r).is_new = .newChunk then
          storeNew clock (content fileinfo.file_path) (w.chunk r).offset r w
        else w) ∧
      (typicalDedup clock content fileinfo r c w).1.buffer = c.buffer := by
  rw [typicalDedup, Cfl.buffer, Cfl.buffer]
  simp only [countContainer_tmp, and_self]

theorem CflWaiting.pass {w' : Work} {c' : Cfl} {t : Stage} (hw : CflWaiting sha1 content c w σ)
    (hbuffer : c'.buffer = c.buffer) (hfresh : σ r = .fresh) (ht : t ≠ .pending)
    (hs : Step sha1 clock S (w, σ) (w', Function.update σ r t)) :
    CflWaiting sha1 content c' w' (Function.update σ r t) := by
  refine ⟨hbuffer ▸ hw.waiting.pass (by simp [hfresh]) ht hs, fun p hp => ?_⟩
  rw [hbuffer] at hp
  have hpending := (hw.waiting.pending p.1).mpr (List.mem_map_of_mem hp)
  have hne : p.1 ≠ r := by
    intro heq
    simp [heq, hfresh] at hpending
  rcases (hs.at p.1).2 with ⟨-, hsame⟩ | ⟨-, hbad⟩ | ⟨-, hbad⟩
  · rw [hsame]
    exact hw.dup p hp
  · simp [hpending] at hbad
  · rw [Function.update_of_ne hne, hpending] at hbad
    simp at hbad

/-- After its round a chunk waits or is settled. -/
theorem cflChunk_steps (clock : ℕ → ℤ) (h : Life cells w σ) (hw : CflWaiting sha1 content c w σ) (hS : S r)
    (hfresh : σ r = .fresh) (hplace : ChunkOf sha1 (content fileinfo.file_path) (w.chunk r)) :
    ∃ σ', Steps sha1 clock S (w, σ) ((cflChunk s clock content fileinfo r c w).2, σ') ∧
      CflWaiting sha1 content (cflChunk s clock content fileinfo r c w).1
        (cflChunk s clock content fileinfo r c w).2 σ' ∧ (σ' r = .pending ∨ σ' r = .settled) := by
  rw [cflChunk]
  cases hfound : w.found r with
  | none =>
    have hnew : (w.markNew r).chunk r = { w.chunk r with is_new := .newChunk } := chunk_set_self _ _ _
    obtain ⟨hsnd, hbuffer⟩ := typicalDedup_snd clock content fileinfo r
      { c with dataset_size := c.dataset_size + (w.chunk r).chunklen } (w.markNew r)
    rw [hnew, if_pos rfl] at hsnd
    dsimp only
    rw [hsnd]
    have hstep : Step sha1 clock S (w, σ)
        (storeNew clock (content fileinfo.file_path) (w.chunk r).offset r (w.markNew r),
          Function.update σ r .settled) :=
      step_storeNew h hS hfresh hfound (hplace.stored rfl)
    exact ⟨_, .of_step hstep, hw.pass hbuffer hfresh (by simp) hstep, .inr (Function.update_self _ _ _)⟩
  | some a =>
    have hcstr : cstr (fixed 64 (cstr a)) = cstr a := cstr_fixed_cstr a
    have hdup : ((w.markDedup r (fixed 64 (cstr a))).chunk r).is_new = .dedupChunk := by
      rw [Work.markDedup, chunk_set_self]
    dsimp only
    split
    · have hmark : Step sha1 clock S (w, σ)
          (w.markDedup r (fixed 64 (cstr a)), Function.update σ r .marked) :=
        step_mark h hS hfresh hfound hcstr
      obtain ⟨σ', hsteps, hw', hpending⟩ := selectiveDedup_steps (s := s)
        (c := { c with dataset_size := c.dataset_size + (w.chunk r).chunklen }) (h.step hmark)
        (hw.pass rfl hfresh (by simp) hmark) hS (Function.update_self _ _ _) hdup
        (hplace.samePlace (hmark.at r).1)
      exact ⟨σ', (Steps.of_step hmark).trans hsteps, ⟨hw'.waiting, hw'.dup⟩, .inl hpending⟩
    · obtain ⟨hsnd, hbuffer⟩ := typicalDedup_snd clock content fileinfo r
        { c with dataset_size := c.dataset_size + (w.chunk r).chunklen }
        (w.markDedup r (fixed 64 (cstr a)))
      rw [hdup, if_neg (by simp)] at hsnd
      rw [hsnd]
      have hstep : Step sha1 clock S (w, σ)
          (w.markDedup r (fixed 64 (cstr a)), Function.update σ r .settled) :=
        step_dup h hS hfresh hfound hcstr
      exact ⟨_, .of_step hstep, hw.pass hbuffer hfresh (by simp) hstep, .inr (Function.update_self _ _ _)⟩

/-- The chunks that `chunknum` counts wait or are settled after `cfl_process`. -/
theorem cflProcess_steps (clock : ℕ → ℤ) (h : Life cells w σ) (hw : CflWaiting sha1 content c w σ)
    (hfile : AtHand sha1 (content fileinfo.file_path) fileinfo.counted w σ)
    (hS : ∀ r ∈ fileinfo.counted, S r) :
    ∃ σ', Steps sha1 clock S (w, σ) ((cflProcess s clock content fileinfo (c, w)).2, σ') ∧
      CflWaiting sha1 content (cflProcess s clock content fileinfo (c, w)).1
        (cflProcess s clock content fileinfo (c, w)).2 σ' ∧
      ∀ r ∈ fileinfo.counted, σ' r = .pending ∨ σ' r = .settled := by
  rw [cflProcess]
  generalize fileinfo.counted = rs at hfile hS
  induction rs generalizing c w σ with
  | nil => exact ⟨σ, Steps.refl w σ, hw, by simp⟩
  | cons r rs ih =>
    obtain ⟨σ₁, hsteps, hw₁, hdecided⟩ := cflChunk_steps (s := s) (S := (· = r)) clock h hw
      rfl (hfile.fresh r (by simp)) (hfile.place r (by simp))
    obtain ⟨σ', hrest, hw', hall⟩ := ih (hsteps.life h) hw₁ (hfile.rest hsteps)
      fun r' hr' => hS r' (List.mem_cons_of_mem _ hr')
    have hfirst := hsteps.mono (fun r' (hr' : r' = r) => hr' ▸ hS r (by simp))
    refine ⟨σ', hfirst.trans hrest, hw', fun r' hr' => ?_⟩
    rcases List.mem_cons.mp hr' with rfl | hr'
    · exact hrest.decided hdecided
    · exact hall r' hr'

/-- At the end of the stream nothing waits any more. -/
theorem cflEnd_steps (clock : ℕ → ℤ) (h : Life cells w σ) (hw : CflWaiting sha1 content c w σ) :
    ∃ σ', Steps sha1 clock noFile (w, σ) ((cflEnd s clock content c w).2, σ') ∧
      Waiting sha1 content [] (cflEnd s clock content c w).2 σ' := by
  rw [cflEnd]
  split
  · exact (hw.flush h).1
  · exact (hw.flush h).2

end TCBackup.Client
