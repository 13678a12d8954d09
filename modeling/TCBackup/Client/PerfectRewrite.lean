import TCBackup.Client.ChunkBuffer

/-!
# Rewriting with the whole stream in view (`client/src/perfect_rewrite.c`)

All files are kept back, and the data that the stream refers to is counted per container.
At the end of the stream duplicates in containers that are seldom used are written again.

## Main definitions

- `Perfect` — the files that wait and the usage of the containers
- `perfectMark`, `perfectFlush` — the first pass and the end of the stream

## Main results

- `perfectProcess_steps` — a file waits, unless it is a duplicate file with a new chunk
- `perfectFlush_steps` — the end of the stream settles what waits, and meets no error
-/

namespace TCBackup.Client

open ByteFile Handoff

/-- `dedup_buf` and `segments`, with the length of every `SegUsage`, an `int32_t`. -/
structure Perfect where
  dedup_buf : List (FileInfo ℕ)
  segments : HTable 64 ℤ

/-- `perfect_rewrite_init` -/
def perfectRewriteInit : Perfect := ⟨[], htableInit 200⟩

/-- The usage of a container grows by the addition of the field that it is kept in. -/
def addUsage (add : ℤ → ℤ → ℤ) (segments : HTable 64 ℤ) (address : Chunkaddress) (length : ℤ) :
    HTable 64 ℤ :=
  match segments.lookup address with
  | some used => segments.set address (add used length)
  | none => segments.insert address length

variable (s : Settings) (clock : ℕ → ℤ) (content : Bytes → Bytes)

/-- A round of the first loop of `perfect_rewrite_process`: whether the file is a duplicate
with a new chunk, which is an error. -/
def perfectMark (fileinfo : FileInfo ℕ) (r : ℕ) (p : HTable 64 ℤ × Work) : Bool × HTable 64 ℤ × Work :=
  let w := p.2.lock r
  match p.2.found r with
  | none => (decide (fileinfo.is_new ≠ .dedupFile), p.1, w.markNew r)
  | some address => (true, addUsage add32 p.1 address (p.2.chunk r).chunklen, w.markDedup r address)

/-- `perfect_rewrite_process` of a file. -/
def perfectProcess (fileinfo : FileInfo ℕ) (p : Perfect) (w : Work) : Bool × Perfect × Work :=
  let q := runWhile (perfectMark fileinfo) fileinfo.chunks (p.segments, w)
  (q.1, ⟨if q.1 then p.dedup_buf ++ [fileinfo] else p.dedup_buf, q.2.1⟩, q.2.2)

/-- A round of the second loop, for a file with this path. -/
def perfectChunk (segments : HTable 64 ℤ) (path : Bytes) (r : ℕ) (w : Work) : Bool × Work :=
  match (w.chunk r).is_new with
  | .newChunk =>
    match w.found r with
    | some address => (true, (w.markDedup r address).unlock r)
    | none => (true, (storeNew clock (content path) (w.chunk r).offset r w).unlock r)
  | .dedupChunk =>
    match segments.lookup (w.chunk r).chunkaddress with
    | none => (false, w)
    | some length =>
      if s.seldom length then
        match w.found r with
        | none => (false, (writeChunkToCloud clock (content path)
            (w.chunk r).offset r w).markNew r)
        | some _ => (true, (rewriteDup clock (content path) r w).unlock r)
      else (true, w.unlock r)

/-- `perfect_rewrite_process` at the end of the stream. -/
def perfectFlush (p : Perfect) (w : Work) : Bool × Work :=
  runWhile
    (fun fileinfo =>
      runWhile (perfectChunk s clock content p.segments fileinfo.file_path) fileinfo.reached)
    p.dedup_buf w

variable {s clock content} {sha1 : Bytes → Fingerprint} {cells : FileInfo ℕ → List ℕ}
  {p : Perfect} {w : Work} {σ : ℕ → Stage} {S : ℕ → Prop} {fileinfo : FileInfo ℕ} {r : ℕ}
  {rs : List ℕ} {segments : HTable 64 ℤ} {add : ℤ → ℤ → ℤ}

/-- The chunks of a file with its path. -/
def FileInfo.places (fileinfo : FileInfo ℕ) : List (ℕ × Bytes) :=
  fileinfo.chunks.map fun r => (r, fileinfo.file_path)

def Perfect.buffer (p : Perfect) : List (ℕ × Bytes) := p.dedup_buf.flatMap FileInfo.places

/-- What the end of the stream comes to. -/
def Perfect.reached (p : Perfect) : List (ℕ × Bytes) :=
  p.dedup_buf.flatMap fun f => f.reached.map fun r => (r, f.file_path)

theorem Perfect.reached_sublist (p : Perfect) : p.reached.Sublist p.buffer := by
  rw [reached, buffer]
  generalize p.dedup_buf = files
  induction files with
  | nil => exact List.Sublist.refl []
  | cons f files ih =>
    rw [List.flatMap_cons, List.flatMap_cons]
    exact (f.reached_prefix.sublist.map _).append ih

theorem Perfect.reached_eq (hshort : ∀ f ∈ p.dedup_buf, f.chunks.length < 2 ^ 32) :
    p.reached = p.buffer := by
  rw [reached, buffer]
  exact List.flatMap_congr fun f hf => by rw [FileInfo.reached_eq (hshort f hf), FileInfo.places]

/-- The containers of the duplicates that wait are counted. -/
structure PerfectWaiting (sha1 : Bytes → Fingerprint) (content : Bytes → Bytes)
    (segments : HTable 64 ℤ) (buf : List (ℕ × Bytes)) (w : Work) (σ : ℕ → Stage) : Prop where
  waiting : Waiting sha1 content buf w σ
  segments_wf : segments.WF
  counted : ∀ q ∈ buf, (w.chunk q.1).is_new = .dedupChunk →
    segments.lookup (w.chunk q.1).chunkaddress ≠ none

theorem addUsage_wf (h : segments.WF) (address : Chunkaddress) (length : ℤ) :
    (addUsage add segments address length).WF := by
  rw [addUsage]
  cases hfound : segments.lookup address with
  | some used => exact h.set _ _
  | none => exact h.insert hfound _

theorem lookup_addUsage (h : segments.WF) (address : Chunkaddress) (length : ℤ)
    (key : Chunkaddress) :
    (addUsage add segments address length).lookup key =
      if key = address then
        some (match segments.lookup address with
          | some used => add used length
          | none => length)
      else segments.lookup key := by
  rw [addUsage]
  cases hfound : segments.lookup address with
  | some used => exact h.lookup_set hfound _ _
  | none => exact h.lookup_insert hfound _ _

theorem lookup_addUsage_ne_none (h : segments.WF) (address : Chunkaddress) (length : ℤ)
    {key : Chunkaddress} (hkey : segments.lookup key ≠ none ∨ key = address) :
    (addUsage add segments address length).lookup key ≠ none := by
  rw [lookup_addUsage h]
  split
  · simp
  · next hne => exact hkey.resolve_right hne

/-- A chunk that waits is not the one that is processed. -/
theorem Waiting.chunk_eq {buf : List (ℕ × Bytes)} {w' : Work} {t : Stage}
    (h : Waiting sha1 content buf w σ) (hr : σ r ≠ .pending)
    (hs : Step sha1 clock S (w, σ) (w', Function.update σ r t)) {q : ℕ × Bytes} (hq : q ∈ buf) :
    q.1 ≠ r ∧ w'.chunk q.1 = w.chunk q.1 := by
  have hpending := (h.pending q.1).mpr (List.mem_map_of_mem hq)
  have hne : q.1 ≠ r := by
    intro heq
    exact hr (heq ▸ hpending)
  refine ⟨hne, ?_⟩
  rcases (hs.at q.1).2 with ⟨-, hsame⟩ | ⟨-, hbad⟩ | ⟨-, hbad⟩
  · exact hsame
  · simp [hpending] at hbad
  · rw [Function.update_of_ne hne, hpending] at hbad
    simp at hbad

/-- A chunk waits after its first round. -/
theorem perfectMark_step (clock : ℕ → ℤ) {buf : List (ℕ × Bytes)}
    (hw : PerfectWaiting sha1 content segments buf w σ) (hS : S r) (hfresh : σ r = .fresh)
    (hplace : ChunkOf sha1 (content fileinfo.file_path) (w.chunk r)) :
    Step sha1 clock S (w, σ)
        ((perfectMark fileinfo r (segments, w)).2.2, Function.update σ r .pending) ∧
      PerfectWaiting sha1 content (perfectMark fileinfo r (segments, w)).2.1
        (buf ++ [(r, fileinfo.file_path)]) (perfectMark fileinfo r (segments, w)).2.2
        (Function.update σ r .pending) ∧
      (perfectMark fileinfo r (segments, w)).2.2.fingers = w.fingers ∧
      ((perfectMark fileinfo r (segments, w)).1 = false ↔
        fileinfo.is_new = .dedupFile ∧ w.found r = none) := by
  have hr : σ r ≠ .pending := by simp [hfresh]
  rw [perfectMark]
  cases hfound : w.found r with
  | none =>
    have hstep : Step sha1 clock S (w, σ) ((w.lock r).markNew r, Function.update σ r .pending) :=
      (step_enterNew hS hfresh hfound).2
    refine ⟨hstep, ⟨hw.waiting.enter hr hplace hstep, hw.segments_wf, fun q hq hdup => ?_⟩, rfl, ?_⟩
    · rcases List.mem_append.mp hq with hq | hq
      · rw [(hw.waiting.chunk_eq hr hstep hq).2] at hdup ⊢
        exact hw.counted q hq hdup
      · obtain rfl := List.mem_singleton.mp hq
        rw [Work.markNew, chunk_set_self] at hdup
        simp at hdup
    · simp
  | some a =>
    have hstep : Step sha1 clock S (w, σ) ((w.lock r).markDedup r a, Function.update σ r .pending) :=
      (step_enterDup hS hfresh hfound rfl).2
    refine ⟨hstep, ⟨hw.waiting.enter hr hplace hstep, addUsage_wf hw.segments_wf _ _,
      fun q hq hdup => ?_⟩, rfl, ?_⟩
    · refine lookup_addUsage_ne_none hw.segments_wf _ _ ?_
      rcases List.mem_append.mp hq with hq | hq
      · rw [(hw.waiting.chunk_eq hr hstep hq).2] at hdup ⊢
        exact .inl (hw.counted q hq hdup)
      · obtain rfl := List.mem_singleton.mp hq
        have haddress : (((w.lock r).markDedup r a).chunk r).chunkaddress = a := by
          rw [Work.markDedup, chunk_set_self]
        exact .inr haddress
    · simp

/-- The first loop stops at a new chunk of a duplicate file; the chunks up to there wait. -/
theorem perfectMark_steps (clock : ℕ → ℤ) {buf : List (ℕ × Bytes)}
    (hw : PerfectWaiting sha1 content segments buf w σ)
    (hfile : AtHand sha1 (content fileinfo.file_path) rs w σ) (hS : ∀ r ∈ rs, S r) :
    ∃ σ' front, Steps sha1 clock S (w, σ)
        ((runWhile (perfectMark fileinfo) rs (segments, w)).2.2, σ') ∧
      PerfectWaiting sha1 content (runWhile (perfectMark fileinfo) rs (segments, w)).2.1
        (buf ++ front.map fun r => (r, fileinfo.file_path))
        (runWhile (perfectMark fileinfo) rs (segments, w)).2.2 σ' ∧
      front ⊆ rs ∧ (∀ r ∉ front, σ' r = σ r) ∧
      (runWhile (perfectMark fileinfo) rs (segments, w)).2.2.fingers = w.fingers ∧
      ((runWhile (perfectMark fileinfo) rs (segments, w)).1 = true → front = rs) ∧
      ((runWhile (perfectMark fileinfo) rs (segments, w)).1 = false ↔
        fileinfo.is_new = .dedupFile ∧ ∃ r ∈ rs, w.found r = none) := by
  induction rs generalizing w σ segments buf with
  | nil =>
    refine ⟨σ, [], Steps.refl w σ, ?_, by simp, fun _ _ => rfl, rfl, fun _ => rfl,
      by simp [runWhile]⟩
    rw [List.map_nil, List.append_nil]
    exact hw
  | cons r rs ih =>
    obtain ⟨hstep, hw₁, hfingers, hfalse⟩ := perfectMark_step (S := (· = r)) clock hw rfl
      (hfile.fresh r (by simp)) (hfile.place r (by simp))
    have hfirst : Steps sha1 clock S (w, σ)
        ((perfectMark fileinfo r (segments, w)).2.2, Function.update σ r .pending) :=
      (Steps.of_step hstep).mono (fun r' (hr' : r' = r) => hr' ▸ hS r (by simp))
    cases hmark : perfectMark fileinfo r (segments, w) with
    | mk ok q =>
      rw [hmark] at hstep hw₁ hfingers hfalse hfirst
      cases ok with
      | false =>
        rw [runWhile_of_false hmark]
        obtain ⟨hdup, hnone⟩ := hfalse.mp rfl
        refine ⟨_, [r], hfirst, hw₁, by simp, fun r' hr' => ?_, hfingers, by simp,
          by simp [hdup, hnone]⟩
        exact Function.update_of_ne (by simpa using hr') _ _
      | true =>
        rw [runWhile_of_true hmark]
        obtain ⟨σ', front, hrest, hw', hsub, hothers, hfingers', hall, hfalse'⟩ := ih hw₁
          (hfile.rest (.of_step hstep)) fun r' hr' => hS r' (List.mem_cons_of_mem _ hr')
        have hsame : ∀ r', q.2.found r' = w.found r' := by
          intro r'
          rw [Work.found, Work.found, hfingers, (hstep.at r').1.1]
        refine ⟨σ', r :: front, hfirst.trans hrest, ?_, ?_, fun r' hr' => ?_,
          hfingers'.trans hfingers, ?_, ?_⟩
        · rw [List.append_assoc] at hw'
          exact hw'
        · exact List.cons_subset_cons r hsub
        · obtain ⟨hne, hfront⟩ := not_or.mp (mt List.mem_cons.mpr hr')
          rw [hothers r' hfront, Function.update_of_ne hne]
        · intro hok
          rw [hall hok]
        · rw [hfalse']
          have hfirstok : ¬(fileinfo.is_new = .dedupFile ∧ w.found r = none) := by
            rw [← hfalse]
            simp
          simp only [hsame, List.mem_cons, exists_eq_or_imp]
          tauto

/-- A round of the second loop settles its chunk. -/
theorem perfectChunk_step {path : Bytes} (h : Life cells w σ) (hpending : σ r = .pending)
    (hplace : ChunkOf sha1 (content path) (w.chunk r))
    (hcounted : (w.chunk r).is_new = .dedupChunk → segments.lookup (w.chunk r).chunkaddress ≠ none) :
    (perfectChunk s clock content segments path r w).1 = true ∧
      Step sha1 clock S (w, σ)
        ((perfectChunk s clock content segments path r w).2, Function.update σ r .settled) := by
  rw [perfectChunk]
  cases hnew : (w.chunk r).is_new with
  | newChunk =>
    cases hfound : w.found r with
    | some a => exact ⟨rfl, step_late h hpending hnew hfound rfl⟩
    | none => exact ⟨rfl, step_storeLate h hpending hnew hfound (hplace.stored rfl)⟩
  | dedupChunk =>
    cases hseg : segments.lookup (w.chunk r).chunkaddress with
    | none => exact absurd hseg (hcounted hnew)
    | some length =>
      dsimp only
      split
      · cases hfound : w.found r with
        | none => exact absurd hfound (h.known r (.inr hpending) hnew)
        | some a => exact ⟨rfl, step_rewrite h hpending hnew (hplace.stored rfl)⟩
      · exact ⟨rfl, step_keep h hpending hnew⟩

/-- The end of the stream goes through what is reached of the files that wait. -/
theorem perfectFlush_eq (s : Settings) (clock : ℕ → ℤ) (content : Bytes → Bytes) (p : Perfect)
    (w : Work) : perfectFlush s clock content p w =
      runWhile (fun q : ℕ × Bytes => perfectChunk s clock content p.segments q.2 q.1) p.reached w :=
  runWhile_flatMap (perfectChunk s clock content p.segments) FileInfo.file_path FileInfo.reached
    p.dedup_buf w

/-- The end of the stream settles what waits, and meets no error. -/
theorem perfectFlush_steps (clock : ℕ → ℤ) (h : Life cells w σ)
    (hshort : ∀ f ∈ p.dedup_buf, f.chunks.length < 2 ^ 32)
    (hw : PerfectWaiting sha1 content p.segments p.buffer w σ) :
    (perfectFlush s clock content p w).1 = true ∧
      ∃ σ', Steps sha1 clock noFile (w, σ) ((perfectFlush s clock content p w).2, σ') ∧
        Waiting sha1 content [] (perfectFlush s clock content p w).2 σ' := by
  rw [perfectFlush_eq, Perfect.reached_eq hshort]
  exact hw.waiting.flush
    (P := fun fc => fc.is_new = .dedupChunk → p.segments.lookup fc.chunkaddress ≠ none) clock _
    (fun w σ q hlife hpending hplace hcounted => perfectChunk_step hlife hpending hplace hcounted) h
    hw.counted

/-- A file waits after the first pass, unless it is a duplicate file with a new chunk. -/
theorem perfectProcess_steps (clock : ℕ → ℤ) (hw : PerfectWaiting sha1 content p.segments p.buffer w σ)
    (hfile : AtHand sha1 (content fileinfo.file_path) fileinfo.chunks w σ)
    (hS : ∀ r ∈ fileinfo.chunks, S r) :
    ∃ σ' front, Steps sha1 clock S (w, σ) ((perfectProcess fileinfo p w).2.2, σ') ∧
      PerfectWaiting sha1 content (perfectProcess fileinfo p w).2.1.segments
        (p.buffer ++ front.map fun r => (r, fileinfo.file_path))
        (perfectProcess fileinfo p w).2.2 σ' ∧
      front ⊆ fileinfo.chunks ∧ (∀ r ∉ front, σ' r = σ r) ∧
      (perfectProcess fileinfo p w).2.2.fingers = w.fingers ∧
      ((perfectProcess fileinfo p w).1 = true → front = fileinfo.chunks ∧
        (perfectProcess fileinfo p w).2.1.buffer = p.buffer ++ fileinfo.places) ∧
      ((perfectProcess fileinfo p w).1 = false →
        (perfectProcess fileinfo p w).2.1.buffer = p.buffer) ∧
      ((perfectProcess fileinfo p w).1 = false ↔
        fileinfo.is_new = .dedupFile ∧ ∃ r ∈ fileinfo.chunks, w.found r = none) := by
  obtain ⟨σ', front, hsteps, hw', hsub, hothers, hfingers, hall, hfalse⟩ :=
    perfectMark_steps clock hw hfile hS
  rw [perfectProcess]
  cases hrun : runWhile (perfectMark fileinfo) fileinfo.chunks (p.segments, w) with
  | mk ok q =>
    rw [hrun] at hsteps hw' hfingers hall hfalse
    refine ⟨σ', front, hsteps, hw', hsub, hothers, hfingers, fun hok => ⟨hall hok, ?_⟩, fun hok => ?_,
      hfalse⟩
    · obtain rfl : ok = true := hok
      rw [Perfect.buffer, Perfect.buffer]
      dsimp only
      rw [if_pos rfl, List.flatMap_append, List.flatMap_singleton]
    · obtain rfl : ok = false := hok
      rfl

end TCBackup.Client
