import TCBackup.Client.Attempts

/-!
# Chunks that cannot be stored (`client/src/chunkdedup.c`)

Without rewriting, a chunk of a new file goes into the bin behind the call of
`write_chunk_to_cloud`, and a failure of that call is only logged. A failed `open` is logged with
the path, which `err_msg` then uses as a format.

## Main definitions

- `plainFormat` — the paths that `err_msg` can print
- `Attempt.markNewFile` — `mark_deplicate_chunk` for a new file, with its failures
- `storeChunks` — one call of `store_chunk` after the other
- `FailuresKept` — no failed store enters the bin, and each is reported
- `missing` — how many fingerprints the bin lacks

## Main results

- `MarkedNew.of_miss`, `markChunks_markedNew` — what the loop over the chunks does
- `entries_stored_iff`, `failures_kept_iff` — exactly when nothing goes wrong
-/

namespace TCBackup.Client

open ByteFile Handoff

variable (fails : Fails) (clock : ℕ → ℤ) (content : Bytes → Bytes)

/-- A chunk of a new file at `size`. -/
def Attempt.markChunk (file : Bytes) (size : ℕ) (r : ℕ) (t : Attempt) : Attempt :=
  match t.work.found r with
  | some address => t.on (·.markDedup r address)
  | none =>
    (tryWrite fails clock false true file size r (t.on (·.markNew r))).2.on (·.insertMeta r)

/-- The loop of `mark_deplicate_chunk` over a new file. -/
def Attempt.markChunks (file : Bytes) : ℕ → List ℕ → Attempt → Attempt
  | _, [], t => t
  | size, r :: rs, t =>
    Attempt.markChunks file (size + (t.work.chunk r).chunklen) rs
      (t.markChunk fails clock file size r)

/-- `printf(buf)` in `err_msg`: a `%` in the text asks for an argument that is not passed, unless
another one follows. -/
def plainFormat : Bytes → Bool
  | [] => true
  | [b] => b ≠ 37
  | b :: b' :: rest => if b = 37 then b' = 37 && plainFormat rest else plainFormat (b' :: rest)

/-- `mark_deplicate_chunk` without rewriting, for a new file. `none` when the client goes on with
arguments that were never passed. -/
def Attempt.markNewFile (fileinfo : FileInfo ℕ) (t : Attempt) : Option (Bool × Attempt) :=
  match tryOpen fails false t with
  | (false, t) => if plainFormat fileinfo.file_path then some (false, t) else none
  | (true, t) =>
    some (true, t.markChunks fails clock (content fileinfo.file_path) 0 fileinfo.chunks)

/-- `store_chunk` for one chunk after the other; the chunks as they are returned. -/
def storeChunks : Store → List Chunk → List Chunk
  | _, [] => []
  | s, chunk :: chunks =>
    (storeChunk clock s chunk).1 :: storeChunks (storeChunk clock s chunk).2 chunks

/-- What was passed to `store_chunk` since `w`. -/
def Work.storedSince (w w' : Work) : List Chunk :=
  ((acts w'.log).drop (acts w.log).length).map Prod.snd

/-- Every new entry of the bin is for a chunk that was stored at its address. -/
def EntriesStored (w w' : Work) : Prop :=
  ∀ p ∈ w'.fingers.walk, p ∉ w.fingers.walk →
    ∃ chunk ∈ storeChunks clock w.store (w.storedSince w'), chunk.hash = p.1 ∧ chunk.address = p.2

/-- No failed store enters the bin, and each is reported. The first call is `open`. -/
structure FailuresKept (t : Attempt) (result : Bool × Attempt) : Prop where
  entries : EntriesStored clock t.work result.2.work
  reported : ∀ n, t.calls < n → n < result.2.calls → fails n false = true → result.1 = false

/-- How many of the fingerprints the bin lacks. -/
def missing (fingers : HTable 20 Chunkaddress) (hashes : List Fingerprint) : ℕ :=
  (hashes.toFinset.filter fun hash => fingers.lookup hash = none).card

variable {fails clock content} {w w' : Work} {t t₁ t' : Attempt} {new : List (ℕ × Chunk)}
  {file : Bytes} {size r : ℕ} {rs : List ℕ}

-- ════════════════════════════════════════════════════════════════════════
-- Without failures
-- ════════════════════════════════════════════════════════════════════════

theorem attempt_markChunk_work (file : Bytes) (size r : ℕ) (t : Attempt) :
    (t.markChunk noFailure clock file size r).work = markChunk clock file size r t.work := by
  rw [Attempt.markChunk, markChunk]
  cases t.work.found r with
  | none => rfl
  | some address => rfl

theorem attempt_markChunks_work (file : Bytes) (size : ℕ) (rs : List ℕ) (t : Attempt) :
    (t.markChunks noFailure clock file size rs).work = markNewFile clock file size rs t.work := by
  induction rs generalizing size t with
  | nil => rfl
  | cons r rs ih => rw [Attempt.markChunks, ih, attempt_markChunk_work, markNewFile]

/-- Where nothing fails it is `markNewFile`. -/
theorem attempt_markNewFile (fileinfo : FileInfo ℕ) (t : Attempt) :
    (t.markNewFile noFailure clock content fileinfo).map (fun result => (result.1, result.2.work)) =
      some (true, markNewFile clock (content fileinfo.file_path) 0 fileinfo.chunks t.work) := by
  have hopen : tryOpen noFailure false t = (true, { t with calls := t.calls + 1 }) :=
    tryOpen_ok false t fun _ => rfl
  rw [Attempt.markNewFile, hopen]
  exact congrArg (fun w => some (true, w)) (attempt_markChunks_work _ _ _ _)

-- ════════════════════════════════════════════════════════════════════════
-- One chunk
-- ════════════════════════════════════════════════════════════════════════

theorem attempt_found {address : Chunkaddress} (h : t.work.found r = some address) :
    t.markChunk fails clock file size r = t.on (·.markDedup r address) := by
  rw [Attempt.markChunk, h]

theorem attempt_failed (h : t.work.found r = none) (hfail : fails t.calls false = true) :
    t.markChunk fails clock file size r =
      { t with work := (t.work.markNew r).insertMeta r, calls := t.calls + 1 } := by
  rw [Attempt.markChunk, h, tryWrite]
  simp only [on_calls, hfail]
  rfl

theorem attempt_stored (h : t.work.found r = none) (hfail : fails t.calls false = false) :
    t.markChunk fails clock file size r =
      { t with work := storeNew clock file size r (t.work.markNew r), calls := t.calls + 1 } := by
  rw [Attempt.markChunk, h, tryWrite]
  simp only [on_calls, hfail]
  rfl

theorem markNew_hash (w : Work) (r q : ℕ) :
    ((w.markNew r).chunk q).chunk_hash = (w.chunk q).chunk_hash := by
  by_cases hq : q = r
  · rw [hq, Work.markNew, chunk_set_self]
  · rw [Work.markNew, chunk_set_of_ne w r _ hq]

/-- The fingerprints stay. -/
theorem attempt_hash (file : Bytes) (size r : ℕ) (t : Attempt) (q : ℕ) :
    ((t.markChunk fails clock file size r).work.chunk q).chunk_hash =
      (t.work.chunk q).chunk_hash := by
  cases hfound : t.work.found r with
  | some address =>
    rw [attempt_found hfound, on_work]
    by_cases hq : q = r
    · rw [hq, Work.markDedup, chunk_set_self]
    · rw [Work.markDedup, chunk_set_of_ne t.work r _ hq]
  | none =>
    cases hfail : fails t.calls false with
    | true =>
      rw [attempt_failed hfound hfail]
      exact markNew_hash t.work r q
    | false =>
      rw [attempt_stored hfound hfail]
      show ((writeChunkToCloud clock file size r (t.work.markNew r)).chunk q).chunk_hash = _
      rw [← markNew_hash t.work r q]
      by_cases hq : q = r
      · rw [hq, write_chunk_self]
      · rw [write_chunk_of_ne clock _ r file size hq]

-- ════════════════════════════════════════════════════════════════════════
-- The loop
-- ════════════════════════════════════════════════════════════════════════

/-- What the loop did from `t` to `t'`: these chunks were stored. -/
structure MarkedNew (fails : Fails) (clock : ℕ → ℤ) (t t' : Attempt) (new : List (ℕ × Chunk)) :
    Prop where
  passed : acts t'.work.log = acts t.work.log ++ new
  fresh : ∀ p ∈ new, t.work.fingers.lookup p.2.hash = none
  kept : ∀ hash, t.work.fingers.lookup hash ≠ none → t'.work.fingers.lookup hash ≠ none
  stored : (∀ n, t.calls ≤ n → n < t'.calls → fails n false = false) →
    ∀ p ∈ t'.work.fingers.walk, p ∉ t.work.fingers.walk →
      ∃ chunk ∈ storeChunks clock t.work.store (new.map Prod.snd),
        chunk.hash = p.1 ∧ chunk.address = p.2
  failed : (∃ n, t.calls ≤ n ∧ n < t'.calls ∧ fails n false = true) →
    ∃ hash, t.work.fingers.lookup hash = none ∧ t'.work.fingers.lookup hash ≠ none ∧
      ∀ p ∈ new, p.2.hash ≠ hash

/-- `store_chunk` sets only the address. -/
theorem storeChunk_hash (clock : ℕ → ℤ) (s : Store) (chunk : Chunk) :
    (storeChunk clock s chunk).1.hash = chunk.hash := by
  cases hfull : containerFull s.container chunk.length with
  | false => rw [storeChunk_room clock hfull]
  | true => rw [storeChunk_full clock hfull]

theorem exists_of_mem_storeChunks {s : Store} {chunks : List Chunk} {chunk : Chunk}
    (h : chunk ∈ storeChunks clock s chunks) : ∃ passed ∈ chunks, chunk.hash = passed.hash := by
  induction chunks generalizing s with
  | nil => cases h
  | cons passed chunks ih =>
    cases h with
    | head => exact ⟨passed, List.mem_cons_self, storeChunk_hash clock s passed⟩
    | tail _ h =>
      obtain ⟨later, hlater, hhash⟩ := ih h
      exact ⟨later, List.mem_cons_of_mem _ hlater, hhash⟩

theorem MarkedNew.refl (fails : Fails) (clock : ℕ → ℤ) (t : Attempt) : MarkedNew fails clock t t [] where
  passed := (List.append_nil _).symm
  fresh := fun _ hp => absurd hp List.not_mem_nil
  kept := fun _ h => h
  stored := fun _ _ hp hnot => absurd hp hnot
  failed := fun ⟨_, hle, hlt, _⟩ => absurd hlt (Nat.not_lt.mpr hle)

theorem MarkedNew.storedSince (h : MarkedNew fails clock t t' new) :
    t.work.storedSince t'.work = new.map Prod.snd := by
  rw [Work.storedSince, h.passed, List.drop_left]

/-- A duplicate in front changes nothing here. -/
theorem MarkedNew.of_found {address : Chunkaddress} (hfound : t.work.found r = some address)
    (h : MarkedNew fails clock (t.markChunk fails clock file size r) t' new) :
    MarkedNew fails clock t t' new := by
  rw [attempt_found hfound] at h
  exact ⟨h.passed.trans (congrArg (· ++ new) (set_acts t.work r _)), h.fresh, h.kept, h.stored,
    h.failed⟩

section Miss

variable (hwf : t.work.fingers.WF) (hfound : t.work.found r = none)

include hwf hfound

/-- The bin after a chunk that it did not have. -/
theorem lookup_insertMeta (w : Work) (hhash : (w.chunk r).chunk_hash = (t.work.chunk r).chunk_hash)
    (hw : w.fingers = t.work.fingers) (hash : Fingerprint) :
    (w.insertMeta r).fingers.lookup hash =
      if hash = (t.work.chunk r).chunk_hash then some (w.chunk r).chunkaddress
      else t.work.fingers.lookup hash := by
  rw [Work.insertMeta, hhash, hw]
  exact hwf.lookup_insert hfound _ hash

theorem kept_insertMeta (w : Work) (hhash : (w.chunk r).chunk_hash = (t.work.chunk r).chunk_hash)
    (hw : w.fingers = t.work.fingers) (hash : Fingerprint)
    (h : t.work.fingers.lookup hash ≠ none) : (w.insertMeta r).fingers.lookup hash ≠ none := by
  rw [lookup_insertMeta hwf hfound w hhash hw]
  split
  · exact Option.some_ne_none _
  · exact h

theorem fresh_insertMeta (w : Work) (hhash : (w.chunk r).chunk_hash = (t.work.chunk r).chunk_hash)
    (hw : w.fingers = t.work.fingers) {hash : Fingerprint}
    (h : (w.insertMeta r).fingers.lookup hash = none) :
    t.work.fingers.lookup hash = none ∧ hash ≠ (t.work.chunk r).chunk_hash := by
  rw [lookup_insertMeta hwf hfound w hhash hw] at h
  split at h
  · cases h
  · next hne => exact ⟨h, hne⟩

/-- A chunk in front that could not be stored. -/
theorem MarkedNew.of_failed (hfail : fails t.calls false = true)
    (h : MarkedNew fails clock (t.markChunk fails clock file size r) t' new)
    (hcalls : t.calls < t'.calls) : MarkedNew fails clock t t' new := by
  rw [attempt_failed hfound hfail] at h
  have hfingers : (t.work.markNew r).fingers = t.work.fingers := rfl
  have hhash := markNew_hash t.work r r
  have hhas : ((t.work.markNew r).insertMeta r).fingers.lookup (t.work.chunk r).chunk_hash ≠ none := by
    rw [lookup_insertMeta hwf hfound _ hhash hfingers, if_pos rfl]
    exact Option.some_ne_none _
  refine ⟨h.passed.trans (congrArg (· ++ new) (set_acts t.work r _)), ?_, ?_, ?_, ?_⟩
  · intro p hp
    exact (fresh_insertMeta hwf hfound _ hhash hfingers (h.fresh p hp)).1
  · intro hash hsome
    exact h.kept hash (kept_insertMeta hwf hfound _ hhash hfingers hash hsome)
  · intro hok
    rw [hok t.calls le_rfl hcalls] at hfail
    cases hfail
  · intro _
    refine ⟨(t.work.chunk r).chunk_hash, hfound, h.kept _ hhas, ?_⟩
    intro p hp
    exact (fresh_insertMeta hwf hfound _ hhash hfingers (h.fresh p hp)).2

/-- A chunk in front that was stored. -/
theorem MarkedNew.of_stored (hfail : fails t.calls false = false)
    (h : MarkedNew fails clock (t.markChunk fails clock file size r) t' new) :
    MarkedNew fails clock t t'
      ((r, chunkFrom file size ((t.work.markNew r).chunk r)) :: new) := by
  rw [attempt_stored hfound hfail] at h
  have hfingers : (writeChunkToCloud clock file size r (t.work.markNew r)).fingers = t.work.fingers :=
    rfl
  have hnew : ((t.work.markNew r).chunk r).chunk_hash = (t.work.chunk r).chunk_hash :=
    markNew_hash t.work r r
  have hhash : ((writeChunkToCloud clock file size r (t.work.markNew r)).chunk r).chunk_hash =
      (t.work.chunk r).chunk_hash := by
    rw [write_chunk_self]
    exact hnew
  refine ⟨?_, ?_, ?_, ?_, ?_⟩
  · rw [h.passed]
    show acts (writeChunkToCloud clock file size r (t.work.markNew r)).log ++ new = _
    rw [write_acts, Work.markNew, set_acts, List.append_assoc]
    rfl
  · intro p hp
    cases hp with
    | head => exact (congrArg _ hnew).trans hfound
    | tail _ hp => exact (fresh_insertMeta hwf hfound _ hhash hfingers (h.fresh p hp)).1
  · intro hash hsome
    exact h.kept hash (kept_insertMeta hwf hfound _ hhash hfingers hash hsome)
  · intro hok p hp hnot
    by_cases hmem : p ∈ (storeNew clock file size r (t.work.markNew r)).fingers.walk
    · rw [storeNew, Work.insertMeta, hhash, hfingers, (hwf.walk_insert _ _).mem_iff,
        List.mem_cons] at hmem
      obtain rfl := hmem.resolve_right hnot
      refine ⟨_, List.mem_cons_self, ?_⟩
      refine ⟨(storeChunk_hash _ _ _).trans hnew, ?_⟩
      rw [write_chunk_self]
      rfl
    · have hlater : ∀ n, t.calls + 1 ≤ n → n < t'.calls → fails n false = false :=
        fun n hle hlt => hok n (by omega) hlt
      obtain ⟨chunk, hchunk, hchunk'⟩ := h.stored hlater p hp hmem
      exact ⟨chunk, List.mem_cons_of_mem _ hchunk, hchunk'⟩
  · rintro ⟨n, hle, hlt, hn⟩
    have hne : n ≠ t.calls := by
      rintro rfl
      rw [hfail] at hn
      cases hn
    obtain ⟨hash, hnone, hsome, hothers⟩ := h.failed ⟨n, by dsimp only; omega, hlt, hn⟩
    have hfresh := fresh_insertMeta hwf hfound _ hhash hfingers hnone
    refine ⟨hash, hfresh.1, hsome, ?_⟩
    intro p hp
    cases hp with
    | head => exact fun heq => hfresh.2 (heq.symm.trans hnew)
    | tail _ hp => exact hothers p hp

end Miss

theorem attempt_fingers_wf (hwf : t.work.fingers.WF) (file : Bytes) (size r : ℕ) :
    (t.markChunk fails clock file size r).work.fingers.WF := by
  cases hfound : t.work.found r with
  | some address => rwa [attempt_found hfound]
  | none =>
    have hinsert : ∀ w : Work, (w.chunk r).chunk_hash = (t.work.chunk r).chunk_hash →
        w.fingers = t.work.fingers → (w.insertMeta r).fingers.WF := by
      intro w hhash hw
      rw [Work.insertMeta, hhash, hw]
      exact hwf.insert hfound _
    cases hfail : fails t.calls false with
    | true =>
      rw [attempt_failed hfound hfail]
      exact hinsert _ (markNew_hash t.work r r) rfl
    | false =>
      rw [attempt_stored hfound hfail]
      refine hinsert _ ?_ rfl
      rw [write_chunk_self]
      exact markNew_hash t.work r r

theorem attempts_fingers_wf (hwf : t.work.fingers.WF) (file : Bytes) (size : ℕ) (rs : List ℕ) :
    (t.markChunks fails clock file size rs).work.fingers.WF := by
  induction rs generalizing size t with
  | nil => exact hwf
  | cons r rs ih => exact ih (attempt_fingers_wf hwf file size r) _

theorem attempt_calls_le (file : Bytes) (size r : ℕ) (t : Attempt) :
    t.calls ≤ (t.markChunk fails clock file size r).calls := by
  cases hfound : t.work.found r with
  | some address => rw [attempt_found hfound, on_calls]
  | none =>
    cases hfail : fails t.calls false with
    | true => exact (attempt_failed hfound hfail).symm ▸ Nat.le_succ t.calls
    | false => exact (attempt_stored hfound hfail).symm ▸ Nat.le_succ t.calls

theorem attempts_calls_le (file : Bytes) (size : ℕ) (rs : List ℕ) (t : Attempt) :
    t.calls ≤ (t.markChunks fails clock file size rs).calls := by
  induction rs generalizing size t with
  | nil => exact le_rfl
  | cons r rs ih => exact (attempt_calls_le file size r t).trans (ih _ _)

theorem markChunks_markedNew (fails : Fails) (clock : ℕ → ℤ) (file : Bytes) (size : ℕ) (rs : List ℕ)
    (t : Attempt) (hwf : t.work.fingers.WF) :
    ∃ new, MarkedNew fails clock t (t.markChunks fails clock file size rs) new := by
  induction rs generalizing size t with
  | nil => exact ⟨[], MarkedNew.refl fails clock t⟩
  | cons r rs ih =>
    obtain ⟨new, hnew⟩ := ih (size + (t.work.chunk r).chunklen) (t.markChunk fails clock file size r)
      (attempt_fingers_wf hwf file size r)
    rw [Attempt.markChunks]
    cases hfound : t.work.found r with
    | some address => exact ⟨new, MarkedNew.of_found hfound hnew⟩
    | none =>
      cases hfail : fails t.calls false with
      | true =>
        refine ⟨new, MarkedNew.of_failed hwf hfound hfail hnew ?_⟩
        have hle : (t.markChunk fails clock file size r).calls ≤
            ((t.markChunk fails clock file size r).markChunks fails clock file
              (size + (t.work.chunk r).chunklen) rs).calls :=
          attempts_calls_le file _ rs _
        have hone : (t.markChunk fails clock file size r).calls = t.calls + 1 := by
          rw [attempt_failed hfound hfail]
        omega
      | false => exact ⟨_, MarkedNew.of_stored hwf hfound hfail hnew⟩

-- ════════════════════════════════════════════════════════════════════════
-- The number of calls
-- ════════════════════════════════════════════════════════════════════════

theorem missing_found {fingers : HTable 20 Chunkaddress} {hash : Fingerprint}
    (h : fingers.lookup hash ≠ none) (hashes : List Fingerprint) :
    missing fingers (hash :: hashes) = missing fingers hashes := by
  rw [missing, missing, List.toFinset_cons, Finset.filter_insert, if_neg h]

theorem missing_insert {fingers : HTable 20 Chunkaddress} (hwf : fingers.WF) {hash : Fingerprint}
    (h : fingers.lookup hash = none) (address : Chunkaddress) (hashes : List Fingerprint) :
    missing fingers (hash :: hashes) = missing (fingers.insert hash address) hashes + 1 := by
  have hrest : hashes.toFinset.filter (fun x => (fingers.insert hash address).lookup x = none) =
      (hashes.toFinset.filter fun x => fingers.lookup x = none).erase hash := by
    ext x
    rw [Finset.mem_erase, Finset.mem_filter, Finset.mem_filter, hwf.lookup_insert h]
    by_cases hx : x = hash
    · simp [hx]
    · simp [hx]
  have hinsert : ∀ S : Finset Fingerprint, insert hash S = insert hash (S.erase hash) := by
    intro S
    ext x
    by_cases hx : x = hash
    · simp [hx]
    · simp [hx]
  rw [missing, missing, List.toFinset_cons, Finset.filter_insert, if_pos h, hrest, hinsert,
    Finset.card_insert_of_notMem (Finset.notMem_erase hash _)]

/-- There is a call for each fingerprint that the bin lacks. -/
theorem markChunks_calls (fails : Fails) (clock : ℕ → ℤ) (file : Bytes) (size : ℕ) (rs : List ℕ)
    (t : Attempt) (hwf : t.work.fingers.WF) :
    (t.markChunks fails clock file size rs).calls =
      t.calls + missing t.work.fingers (rs.map fun r => (t.work.chunk r).chunk_hash) := by
  induction rs generalizing size t with
  | nil => rfl
  | cons r rs ih =>
    have hhashes : (rs.map fun q => ((t.markChunk fails clock file size r).work.chunk q).chunk_hash) =
        rs.map fun q => (t.work.chunk q).chunk_hash :=
      List.map_congr_left fun q _ => attempt_hash file size r t q
    rw [Attempt.markChunks, ih _ _ (attempt_fingers_wf hwf file size r), hhashes, List.map_cons]
    cases hfound : t.work.found r with
    | some address =>
      have hsome : t.work.fingers.lookup (t.work.chunk r).chunk_hash ≠ none := by
        rw [← Work.found, hfound]
        exact Option.some_ne_none address
      rw [attempt_found hfound, missing_found hsome]
      rfl
    | none =>
      have hinsert : ∀ w : Work, (w.chunk r).chunk_hash = (t.work.chunk r).chunk_hash →
          w.fingers = t.work.fingers → ∀ hashes : List Fingerprint,
          missing t.work.fingers ((t.work.chunk r).chunk_hash :: hashes) =
            missing (w.insertMeta r).fingers hashes + 1 := by
        intro w hhash hw hashes
        rw [Work.insertMeta, hhash, hw]
        exact missing_insert hwf hfound _ hashes
      cases hfail : fails t.calls false with
      | true =>
        rw [attempt_failed hfound hfail, hinsert _ (markNew_hash t.work r r) rfl]
        exact Nat.add_right_comm t.calls 1 _
      | false =>
        have hhash : ((writeChunkToCloud clock file size r (t.work.markNew r)).chunk r).chunk_hash =
            (t.work.chunk r).chunk_hash := by
          rw [write_chunk_self]
          exact markNew_hash t.work r r
        rw [attempt_stored hfound hfail, hinsert _ hhash rfl, storeNew]
        exact Nat.add_right_comm t.calls 1 _

-- ════════════════════════════════════════════════════════════════════════
-- The file
-- ════════════════════════════════════════════════════════════════════════

/-- `open` fails for a path that can be printed, or nothing fails. -/
def OpenFailsOrStores (fails : Fails) (fileinfo : FileInfo ℕ) (t : Attempt) : Prop :=
  (fails t.calls false = true ∧ plainFormat fileinfo.file_path = true) ∨
    ∀ n, t.calls ≤ n →
      n ≤ t.calls + missing t.work.fingers
        (fileinfo.chunks.map fun r => (t.work.chunk r).chunk_hash) →
      fails n false = false

theorem attempt_not_opened (clock : ℕ → ℤ) (content : Bytes → Bytes) (fileinfo : FileInfo ℕ)
    (h : fails t.calls false = true) :
    t.markNewFile fails clock content fileinfo =
      if plainFormat fileinfo.file_path then some (false, { t with calls := t.calls + 1 })
      else none := by
  rw [Attempt.markNewFile, tryOpen, h]
  rfl

theorem attempt_opened (clock : ℕ → ℤ) (content : Bytes → Bytes) (fileinfo : FileInfo ℕ)
    (h : fails t.calls false = false) :
    t.markNewFile fails clock content fileinfo =
      some (true, Attempt.markChunks fails clock (content fileinfo.file_path) 0 fileinfo.chunks
        { t with calls := t.calls + 1 }) := by
  rw [Attempt.markNewFile, tryOpen, h]
  rfl

theorem attempt_calls (fails : Fails) (clock : ℕ → ℤ) (file : Bytes) (fileinfo : FileInfo ℕ)
    (hwf : t.work.fingers.WF) :
    (Attempt.markChunks fails clock file 0 fileinfo.chunks { t with calls := t.calls + 1 }).calls =
      t.calls + 1 + missing t.work.fingers
        (fileinfo.chunks.map fun r => (t.work.chunk r).chunk_hash) :=
  markChunks_calls fails clock file 0 fileinfo.chunks { t with calls := t.calls + 1 } hwf

/-- All new entries are stored unless a call of `write_chunk_to_cloud` fails. -/
theorem entries_stored_iff {result : Bool × Attempt} (fileinfo : FileInfo ℕ)
    (hwf : t.work.fingers.WF) (hmark : t.markNewFile fails clock content fileinfo = some result) :
    EntriesStored clock t.work result.2.work ↔ OpenFailsOrStores fails fileinfo t := by
  cases hopen : fails t.calls false with
  | true =>
    rw [attempt_not_opened clock content fileinfo hopen] at hmark
    split at hmark
    · next hplain =>
      obtain rfl := Option.some.inj hmark
      exact iff_of_true (fun p hp hnot => absurd hp hnot) (.inl ⟨hopen, hplain⟩)
    · cases hmark
  | false =>
    have hcalls := attempt_calls fails clock (content fileinfo.file_path) fileinfo hwf
    rw [attempt_opened clock content fileinfo hopen] at hmark
    obtain rfl := Option.some.inj hmark
    obtain ⟨new, hnew⟩ := markChunks_markedNew fails clock (content fileinfo.file_path) 0
      fileinfo.chunks { t with calls := t.calls + 1 } hwf
    rw [EntriesStored, hnew.storedSince]
    constructor
    · intro hstored
      right
      intro n hle hle'
      by_contra hfails
      rw [Bool.not_eq_false] at hfails
      have hne : n ≠ t.calls := by
        rintro rfl
        rw [hopen] at hfails
        cases hfails
      obtain ⟨hash, hnone, hsome, hothers⟩ :=
        hnew.failed ⟨n, by dsimp only; omega, by rw [hcalls]; omega, hfails⟩
      obtain ⟨address, haddress⟩ := Option.ne_none_iff_exists'.mp hsome
      let opened : Attempt := { t with calls := t.calls + 1 }
      have hopened : opened.work.fingers.WF := hwf
      have hwf' : (opened.markChunks fails clock (content fileinfo.file_path) 0
          fileinfo.chunks).work.fingers.WF := attempts_fingers_wf hopened _ 0 _
      obtain ⟨chunk, hchunk, hhash, -⟩ := hstored (hash, address)
        (hwf'.lookup_eq_some_iff.mp haddress) (hwf.lookup_eq_none_iff.mp hnone address)
      obtain ⟨passed, hpassed, heq⟩ := exists_of_mem_storeChunks hchunk
      obtain ⟨p, hp, rfl⟩ := List.mem_map.mp hpassed
      exact hothers p hp (heq.symm.trans hhash)
    · rintro (⟨h, -⟩ | h)
      · rw [hopen] at h
        cases h
      · exact hnew.stored fun n hle hlt =>
          h n (Nat.le_of_succ_le hle) (by rw [hcalls] at hlt; omega)

/-- The call comes back, and the file is marked as it should be, exactly when `open` fails for a
path that can be printed or nothing fails. -/
theorem failures_kept_iff (fails : Fails) (clock : ℕ → ℤ) (content : Bytes → Bytes)
    (fileinfo : FileInfo ℕ) (t : Attempt) (hwf : t.work.fingers.WF) :
    (∃ result, t.markNewFile fails clock content fileinfo = some result ∧
        FailuresKept fails clock t result) ↔
      OpenFailsOrStores fails fileinfo t := by
  constructor
  · rintro ⟨result, hmark, h⟩
    exact (entries_stored_iff fileinfo hwf hmark).mp h.entries
  · intro h
    cases hopen : fails t.calls false with
    | true =>
      have hplain : plainFormat fileinfo.file_path = true := by
        refine h.elim And.right fun hok => ?_
        rw [hok t.calls le_rfl (Nat.le_add_right _ _)] at hopen
        cases hopen
      have hmark := (attempt_not_opened clock content fileinfo hopen).trans (if_pos hplain)
      exact ⟨_, hmark, (entries_stored_iff fileinfo hwf hmark).mpr h, fun _ _ _ _ => rfl⟩
    | false =>
      have hmark := attempt_opened clock content fileinfo hopen
      refine ⟨_, hmark, (entries_stored_iff fileinfo hwf hmark).mpr h, ?_⟩
      intro n hlt hlt' hfails
      rw [attempt_calls _ _ _ fileinfo hwf] at hlt'
      have hok := h.resolve_left (fun hfailed => by rw [hopen] at hfailed; cases hfailed.1) n
        (Nat.le_of_lt hlt) (by omega)
      rw [hfails] at hok
      cases hok

/-- A file of two equal chunks that the bin does not have. -/
def twiceInFile : Attempt :=
  ⟨⟨[.set 0 ⟨fixed 20 [1], .newChunk, 3, 0, noAddress, false⟩,
      .set 1 ⟨fixed 20 [1], .newChunk, 3, 3, noAddress, false⟩],
    htableInit 0, storeInit (fun _ => 0) .empty ⟨0, []⟩⟩, 0, []⟩

def equalHalves : FileInfo ℕ :=
  fileAppendFingerchunk (fileAppendFingerchunk fileNew 0) 1

/-- Nothing fails. -/
theorem failures_kept_iff_twice :
    ∃ result, twiceInFile.markNewFile noFailure (fun _ => 0) (fun _ => [7, 8, 9, 7, 8, 9])
        equalHalves = some result ∧
      FailuresKept noFailure (fun _ => 0) twiceInFile result :=
  (failures_kept_iff noFailure (fun _ => 0) (fun _ => [7, 8, 9, 7, 8, 9]) equalHalves twiceInFile
    (HTable.init_wf 0)).mpr (.inr fun _ _ _ => rfl)

/-- The only call of `write_chunk_to_cloud` fails. The chunk is in the bin, with an address where
nothing is, its copy is a duplicate of it, and no error is returned. -/
theorem failed_chunk_in_bin :
    ¬ ∀ (fails : Fails) (clock : ℕ → ℤ) (content : Bytes → Bytes) (fileinfo : FileInfo ℕ)
        (t : Attempt), t.work.fingers.WF →
      ∃ result, t.markNewFile fails clock content fileinfo = some result ∧
        FailuresKept fails clock t result := by
  intro h
  obtain ⟨result, hmark, hkept⟩ := h (fun n _ => n == 1) (fun _ => 0)
    (fun _ => [7, 8, 9, 7, 8, 9]) equalHalves twiceInFile (HTable.init_wf 0)
  rw [attempt_opened _ _ equalHalves rfl] at hmark
  obtain rfl := Option.some.inj hmark
  have hreported := hkept.reported 1
  revert hreported
  decide +kernel

end TCBackup.Client
