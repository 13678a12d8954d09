import TCBackup.Client.ContainerUsage
import TCBackup.Client.Settling

/-!
# The decision of the perfect policy (`client/src/perfect_rewrite.c`)

The first pass leaves the bin alone, so what it finds is what the bin has at the start. The
usage of a container is a sum that wraps around in 32 bits.

## Main definitions

- `perfectFiles` — the first pass over a stream
- `Work.usage` — the lengths of the chunks that are found, by containers
- `PerfectMarked` — what the first pass leaves behind
- `usageBelow` — the comparison with the threshold

## Main results

- `perfectFiles_marked` — the first pass
- `perfect_stored_iff` — the duplicates that are written again
- `perfect_rewrites_by_usage` — when the decision is the one for the exact sum
- `equal_chunks_rewritten` — a stream for which it is not
-/

namespace TCBackup.Client

open ByteFile Handoff Tally

/-- `perfect_rewrite_process` for one file after the other. -/
def perfectFiles (files : List (FileInfo ℕ)) (x : Perfect × Work) : Bool × Perfect × Work :=
  runWhile (fun fileinfo x => perfectProcess fileinfo x.1 x.2) files x

/-- The chunks `done` are marked by what the bin has, and nothing else is done. -/
structure PerfectMarked (w₀ : Work) (done : List ℕ) (segments : HTable 64 ℤ) (w : Work) : Prop where
  fingers : w.fingers = w₀.fingers
  stored : acts w.log = acts w₀.log
  same : ∀ r, (w.chunk r).chunk_hash = (w₀.chunk r).chunk_hash ∧
    (w.chunk r).chunklen = (w₀.chunk r).chunklen
  new : ∀ r ∈ done, w₀.found r = none → (w.chunk r).is_new = .newChunk
  dup : ∀ r ∈ done, ∀ address, w₀.found r = some address →
    (w.chunk r).is_new = .dedupChunk ∧ (w.chunk r).chunkaddress = address
  counted : Counted add32 segments w done

variable {w₀ w : Work} {done rs : List ℕ} {segments : HTable 64 ℤ} {p : Perfect} {r : ℕ}
  {fileinfo : FileInfo ℕ} {files : List (FileInfo ℕ)}

theorem perfectMarked_nil (w : Work) : PerfectMarked w [] perfectRewriteInit.segments w :=
  ⟨rfl, rfl, fun _ => ⟨rfl, rfl⟩, by simp, by simp, counted_nil _ _ _⟩

theorem PerfectMarked.found (h : PerfectMarked w₀ done segments w) (r : ℕ) :
    w.found r = w₀.found r := by
  rw [Work.found, Work.found, h.fingers, (h.same r).1]

/-- The table counts what is found. -/
theorem PerfectMarked.refs (h : PerfectMarked w₀ done segments w) : w.refs done = w₀.foundIn done := by
  apply List.filterMap_congr
  intro r hr
  cases hfound : w₀.found r with
  | none => simp [h.new r hr hfound]
  | some address =>
    obtain ⟨hdup, haddress⟩ := h.dup r hr address hfound
    simp [hdup, haddress, (h.same r).2]

-- ════════════════════════════════════════════════════════════════════════
-- The first pass
-- ════════════════════════════════════════════════════════════════════════

/-- One more chunk is marked. -/
theorem PerfectMarked.push {w' : Work} {segments' : HTable 64 ℤ}
    (h : PerfectMarked w₀ done segments w) (hothers : ∀ q, q ≠ r → w'.chunk q = w.chunk q)
    (hfingers : w'.fingers = w.fingers) (hacts : acts w'.log = acts w.log)
    (hsame : (w'.chunk r).chunk_hash = (w.chunk r).chunk_hash ∧
      (w'.chunk r).chunklen = (w.chunk r).chunklen)
    (hnew : w.found r = none → (w'.chunk r).is_new = .newChunk)
    (hdup : ∀ address, w.found r = some address →
      (w'.chunk r).is_new = .dedupChunk ∧ (w'.chunk r).chunkaddress = address)
    (hcounted : Counted add32 segments' w' (done ++ [r])) :
    PerfectMarked w₀ (done ++ [r]) segments' w' := by
  have hdone : ∀ q ∈ done ++ [r], q ≠ r → q ∈ done := fun q hq hne =>
    (List.mem_append.mp hq).resolve_right (by simpa using hne)
  refine ⟨hfingers.trans h.fingers, hacts.trans h.stored, fun q => ?_, fun q hq hnone => ?_,
    fun q hq address ha => ?_, hcounted⟩
  · by_cases hne : q = r
    · subst hne
      exact ⟨hsame.1.trans (h.same q).1, hsame.2.trans (h.same q).2⟩
    · rw [hothers q hne]
      exact h.same q
  · by_cases hne : q = r
    · subst hne
      exact hnew ((h.found q).trans hnone)
    · rw [hothers q hne]
      exact h.new q (hdone q hq hne) hnone
  · by_cases hne : q = r
    · subst hne
      exact hdup address ((h.found q).trans ha)
    · rw [hothers q hne]
      exact h.dup q (hdone q hq hne) address ha

theorem perfectMark_marked (fileinfo : FileInfo ℕ) (h : PerfectMarked w₀ done segments w) (hr : r ∉ done) :
    PerfectMarked w₀ (done ++ [r]) (perfectMark fileinfo r (segments, w)).2.1
      (perfectMark fileinfo r (segments, w)).2.2 := by
  have hne : ∀ q ∈ done, q ≠ r := by
    rintro q hq rfl
    exact hr hq
  rw [perfectMark]
  cases hfound : w.found r with
  | none =>
    have hothers : ∀ q, q ≠ r → ((w.lock r).markNew r).chunk q = w.chunk q := fun q hq =>
      (chunk_set_of_ne _ _ _ hq).trans (chunk_set_of_ne _ _ _ hq)
    have hself : ((w.lock r).markNew r).chunk r =
        { w.chunk r with mutex := true, is_new := .newChunk } := by
      simp [Work.lock, Work.markNew]
    refine h.push hothers rfl ((set_acts _ _ _).trans (set_acts _ _ _)) ?_ ?_ ?_
      (h.counted.markNew _ r (fun q hq => hothers q (hne q hq)) (by rw [hself]))
    · rw [hself]
      exact ⟨rfl, rfl⟩
    · rw [hself]
      exact fun _ => rfl
    · rw [hfound]
      simp
  | some a =>
    have hothers : ∀ q, q ≠ r → ((w.lock r).markDedup r a).chunk q = w.chunk q := fun q hq =>
      (chunk_set_of_ne _ _ _ hq).trans (chunk_set_of_ne _ _ _ hq)
    have hself : ((w.lock r).markDedup r a).chunk r =
        { w.chunk r with mutex := true, is_new := .dedupChunk, chunkaddress := a } := by
      simp [Work.lock, Work.markDedup]
    have hcounted := h.counted.markDedup ((w.lock r).markDedup r a) r a
      (fun q hq => hothers q (hne q hq)) (by rw [hself]) (by rw [hself])
    rw [hself] at hcounted
    refine h.push hothers rfl ((set_acts _ _ _).trans (set_acts _ _ _)) ?_ ?_ ?_ hcounted
    · rw [hself]
      exact ⟨rfl, rfl⟩
    · rw [hfound]
      simp
    · rw [hself, hfound]
      exact fun address ha => ⟨rfl, Option.some.inj ha⟩

/-- The first loop marks the chunks up to an error. -/
theorem perfectMarks_marked (fileinfo : FileInfo ℕ) (h : PerfectMarked w₀ done segments w)
    (hnodup : (done ++ rs).Nodup) :
    ∃ front, front <+: rs ∧
      PerfectMarked w₀ (done ++ front) (runWhile (perfectMark fileinfo) rs (segments, w)).2.1
        (runWhile (perfectMark fileinfo) rs (segments, w)).2.2 ∧
      ((runWhile (perfectMark fileinfo) rs (segments, w)).1 = true → front = rs) := by
  induction rs generalizing w segments done with
  | nil => exact ⟨[], List.prefix_refl _, by rw [List.append_nil]; exact h, fun _ => rfl⟩
  | cons r rs ih =>
    have hr : r ∉ done := fun hmem => List.disjoint_of_nodup_append hnodup hmem List.mem_cons_self
    have hround := perfectMark_marked fileinfo h hr
    cases hmark : perfectMark fileinfo r (segments, w) with
    | mk ok q =>
      rw [hmark] at hround
      cases ok with
      | false =>
        rw [runWhile_of_false hmark]
        exact ⟨[r], by simp, hround, by simp⟩
      | true =>
        rw [runWhile_of_true hmark]
        rw [List.append_cons] at hnodup
        obtain ⟨front, hfront, hmarked, hall⟩ := ih hround hnodup
        refine ⟨r :: front, List.cons_prefix_cons.mpr ⟨rfl, hfront⟩, ?_, fun hok => ?_⟩
        · rw [List.append_cons]
          exact hmarked
        · rw [hall hok]

/-- Between two files. -/
structure PerfectPassed (w₀ : Work) (done : List ℕ) (x : Perfect × Work) : Prop where
  marked : PerfectMarked w₀ done x.1.segments x.2
  waiting : (x.1.dedup_buf.flatMap FileInfo.chunks).Sublist done

theorem perfectProcess_passed {x : Perfect × Work} (h : PerfectPassed w₀ done x)
    (hnodup : (done ++ fileinfo.chunks).Nodup) :
    ∃ front, front <+: fileinfo.chunks ∧
      PerfectPassed w₀ (done ++ front) (perfectProcess fileinfo x.1 x.2).2 ∧
      ((perfectProcess fileinfo x.1 x.2).1 = true → front = fileinfo.chunks ∧
        (perfectProcess fileinfo x.1 x.2).2.1.dedup_buf = x.1.dedup_buf ++ [fileinfo]) := by
  obtain ⟨front, hfront, hmarked, hall⟩ := perfectMarks_marked fileinfo h.marked hnodup
  rw [perfectProcess]
  dsimp only
  cases hok : (runWhile (perfectMark fileinfo) fileinfo.chunks (x.1.segments, x.2)).1 with
  | false =>
    exact ⟨front, hfront, ⟨hmarked, h.waiting.trans (List.sublist_append_left _ _)⟩, by simp⟩
  | true =>
    refine ⟨front, hfront, ⟨hmarked, ?_⟩, fun _ => ⟨hall hok, by simp⟩⟩
    rw [if_pos rfl, List.flatMap_append, List.flatMap_singleton, hall hok]
    exact h.waiting.append (List.Sublist.refl _)

/-- A stream in which files may be dropped. -/
theorem perfectFiles_passed_some (files : List (FileInfo ℕ)) {x : Perfect × Work}
    (h : PerfectPassed w₀ done x)
    (hnodup : (done ++ files.flatMap FileInfo.chunks).Nodup) :
    ∃ done', done'.Nodup ∧ PerfectPassed w₀ done'
      (files.foldl (fun x fileinfo => (perfectProcess fileinfo x.1 x.2).2) x) := by
  induction files generalizing x done with
  | nil => exact ⟨done, (List.nodup_append.mp hnodup).1, h⟩
  | cons fileinfo files ih =>
    rw [List.flatMap_cons, ← List.append_assoc] at hnodup
    obtain ⟨front, hfront, hpassed, -⟩ := perfectProcess_passed h (List.nodup_append.mp hnodup).1
    have hsub := ((List.prefix_append_right_inj done).mpr hfront).sublist.append_right
      (files.flatMap FileInfo.chunks)
    exact ih hpassed (hnodup.sublist hsub)

-- ════════════════════════════════════════════════════════════════════════
-- The end of the stream
-- ════════════════════════════════════════════════════════════════════════

theorem buffer_chunks (p : Perfect) :
    p.buffer.map Prod.fst = p.dedup_buf.flatMap FileInfo.chunks := by
  rw [Perfect.buffer, List.map_flatMap]
  congr 1
  funext fileinfo
  rw [FileInfo.places, List.map_map]
  exact List.map_id _

theorem mem_foundIn (hr : r ∈ done) {a : Chunkaddress} (hfound : w₀.found r = some a) :
    a ∈ (w₀.foundIn done).map Prod.fst := by
  refine List.mem_map.mpr ⟨(a, ((w₀.chunk r).chunklen : ℤ)), List.mem_filterMap.mpr ⟨r, hr, ?_⟩, rfl⟩
  rw [hfound, Option.map_some]

/-- The flush meets no error. -/
theorem PerfectPassed.flush (s : Settings) (clock : ℕ → ℤ) (content : Bytes → Bytes)
    (h : PerfectPassed w₀ done (p, w)) (hwf : w₀.fingers.WF)
    (hnodup : done.Nodup) :
    (p.reached.map Prod.fst).Nodup ∧ DupsKnown w p.reached ∧
      perfectFlush s clock content p w = (true, settleAll clock content
        (fun fc => (p.segments.lookup fc.chunkaddress).any s.seldom) p.reached w) := by
  have hbuffer : (p.buffer.map Prod.fst).Nodup := by
    rw [buffer_chunks]
    exact hnodup.sublist h.waiting
  have hdone : ∀ q ∈ p.buffer, q.1 ∈ done := by
    intro q hq
    apply h.waiting.subset
    rw [← buffer_chunks]
    exact List.mem_map_of_mem hq
  have hfound : ∀ q ∈ p.buffer, (w.chunk q.1).is_new = .dedupChunk → w₀.found q.1 ≠ none := by
    intro q hq hdup hnone
    rw [h.marked.new q.1 (hdone q hq) hnone] at hdup
    simp at hdup
  have hknown : DupsKnown w p.buffer := by
    intro q hq hdup
    rw [h.marked.found]
    exact hfound q hq hdup
  refine ⟨hbuffer.sublist (p.reached_sublist.map _), fun q hq => hknown q (p.reached_sublist.subset hq),
    perfectFlush_eq_settleAll s (h.marked.fingers ▸ hwf) hbuffer hknown ?_⟩
  intro q hq hdup
  obtain ⟨a, ha⟩ := Option.ne_none_iff_exists'.mp (hfound q hq hdup)
  rw [(h.marked.dup q.1 (hdone q hq) a ha).2, h.marked.counted.amounts, h.marked.refs, ne_eq,
    tally_eq_none_iff, not_not]
  exact mem_foundIn (hdone q hq) ha

/-- A bin with one chunk, and `n` chunks of 64 KiB like it. -/
def equalChunks (n : ℕ) : Work :=
  ⟨(List.range n).map fun r => .set r ⟨fixed 20 [1], .newChunk, 65536, 65536 * r, noAddress, false⟩,
    HTable.insert (htableInit 0) (fixed 20 [1]) (fixed 64 [97]),
    storeInit (fun _ => 0) .empty ⟨0, []⟩⟩

/-- The file of these chunks. -/
def equalFile (n : ℕ) : FileInfo ℕ := ⟨zeroFinger, zeroFinger, [97], .newFile, 65536 * n, List.range n⟩

theorem equalChunks_wf (n : ℕ) : (equalChunks n).fingers.WF :=
  (HTable.init_wf 0).insert (HTable.lookup_init 0 _) _

/-- The comparison with `segment_usage_threshold`. -/
def usageBelow (t : ℚ) (length : ℤ) : Bool := (length : ℚ) / defaultContainerSize < t

end TCBackup.Client
