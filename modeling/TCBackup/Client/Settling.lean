import TCBackup.Client.Capping

/-!
# What a flush stores

The loops of `rewrite` and of the end of `perfect_rewrite_process` differ only in the duplicates
that they write again. A new chunk is looked up once more, a duplicate is not.

## Main definitions

- `settleChunk`, `settleAll` — the loop, with the duplicates that are written again
- `late`, `rewritten` — the two kinds of chunks that go to the store

## Main results

- `rewrite_eq_settleAll`, `perfectFlush_eq_settleAll` — the flushes of both policies
- `settleAll_written` — the duplicates that are written again
- `settleAll_count` — how often the chunks with one hash are stored
-/

namespace TCBackup.Client

open ByteFile Handoff

variable (clock : ℕ → ℤ) (content : Bytes → Bytes) (again : FingerChunk → Bool)

/-- A round of the loop, for a file with this path. -/
def settleChunk (path : Bytes) (r : ℕ) (w : Work) : Work :=
  match (w.chunk r).is_new with
  | .newChunk =>
    match w.found r with
    | some address => (w.markDedup r address).unlock r
    | none => (storeNew clock (content path) (w.chunk r).offset r w).unlock r
  | .dedupChunk =>
    if again (w.chunk r) then (rewriteDup clock (content path) r w).unlock r else w.unlock r

def settleAll (l : List (ℕ × Bytes)) (w : Work) : Work :=
  l.foldl (fun w p => settleChunk clock content again p.2 p.1 w) w

/-- A new chunk that is still not in the bin. -/
def late (w : Work) (r : ℕ) : Bool := (w.chunk r).is_new = .newChunk && (w.found r).isNone

/-- A duplicate that is written again. -/
def rewritten (w : Work) (r : ℕ) : Bool := (w.chunk r).is_new = .dedupChunk && again (w.chunk r)

/-- The bin has the duplicates. -/
def DupsKnown (w : Work) (l : List (ℕ × Bytes)) : Prop :=
  ∀ p ∈ l, (w.chunk p.1).is_new = .dedupChunk → w.found p.1 ≠ none

variable {clock content again} {w w' : Work} {path : Bytes} {r : ℕ} {l : List (ℕ × Bytes)}

/-- What a round does to the other chunks, the bin and the store. -/
structure Settles (again : FingerChunk → Bool) (r : ℕ) (w w' : Work) : Prop where
  others : ∀ q, q ≠ r → w'.chunk q = w.chunk q
  fingers_wf : w'.fingers.WF
  unknown : ∀ h, w'.fingers.lookup h = none ↔
    w.fingers.lookup h = none ∧ ¬(late w r = true ∧ h = (w.chunk r).chunk_hash)
  stored : ∃ x : Chunk, x.hash = (w.chunk r).chunk_hash ∧
    acts w'.log = acts w.log ++ if late w r || rewritten again w r then [(r, x)] else []

theorem settleChunk_settles (clock : ℕ → ℤ) (content : Bytes → Bytes) (again : FingerChunk → Bool)
    (path : Bytes) (hwf : w.fingers.WF)
    (hknown : (w.chunk r).is_new = .dedupChunk → w.found r ≠ none) :
    Settles again r w (settleChunk clock content again path r w) := by
  rw [settleChunk]
  cases hnew : (w.chunk r).is_new with
  | newChunk =>
    have hrewritten : rewritten again w r = false := by simp [rewritten, hnew]
    cases hfound : w.found r with
    | some address =>
      have hlate : late w r = false := by simp [late, hfound]
      refine ⟨fun q hq => ?_, hwf, fun h => ?_, ⟨chunkFrom [] 0 (w.chunk r), rfl, ?_⟩⟩
      · exact (chunk_set_of_ne _ _ _ hq).trans (chunk_set_of_ne _ _ _ hq)
      · simp [hlate, Work.unlock, Work.markDedup]
      · rw [hlate, hrewritten]
        exact (set_acts _ _ _).trans ((set_acts _ _ _).trans (List.append_nil _).symm)
    | none =>
      have hlate : late w r = true := by simp [late, hfound, hnew]
      have hhash : ((writeChunkToCloud clock (content path) (w.chunk r).offset r w).chunk r).chunk_hash =
          (w.chunk r).chunk_hash := by rw [write_chunk_self]
      refine ⟨fun q hq => ?_, ?_, fun h => ?_, ⟨chunkFrom (content path) (w.chunk r).offset (w.chunk r), rfl, ?_⟩⟩
      · exact (chunk_set_of_ne _ _ _ hq).trans (write_chunk_of_ne clock w r _ _ hq)
      · refine hwf.insert ?_ _
        rw [hhash]
        exact hfound
      · show ((writeChunkToCloud clock (content path) (w.chunk r).offset r w).insertMeta r).fingers.lookup
          h = none ↔ _
        rw [Work.insertMeta, write_fingers, hhash, hwf.lookup_insert hfound, hlate]
        by_cases hh : h = (w.chunk r).chunk_hash
        · simp [hh]
        · simp [hh]
      · rw [hlate, Bool.true_or, if_pos rfl]
        exact (set_acts _ _ _).trans (write_acts clock w r _ _)
  | dedupChunk =>
    have hlate : late w r = false := by simp [late, hnew]
    cases hagain : again (w.chunk r) with
    | false =>
      have hrewritten : rewritten again w r = false := by simp [rewritten, hagain]
      refine ⟨fun q hq => chunk_set_of_ne _ _ _ hq, hwf, fun h => ?_,
        ⟨chunkFrom [] 0 (w.chunk r), rfl, ?_⟩⟩
      · simp [hlate, Work.unlock]
      · rw [hlate, hrewritten]
        exact (set_acts _ _ _).trans (List.append_nil _).symm
    | true =>
      have hrewritten : rewritten again w r = true := by simp [rewritten, hagain, hnew]
      obtain ⟨a, ha⟩ := Option.ne_none_iff_exists'.mp (hknown hnew)
      have hhash : (((writeChunkToCloud clock (content path) (w.chunk r).offset r w).markNew r).chunk
          r).chunk_hash = (w.chunk r).chunk_hash := by
        rw [Work.markNew, chunk_set_self, write_chunk_self]
      refine ⟨fun q hq => ?_, hwf.set _ _, fun h => ?_, ⟨chunkFrom (content path) (w.chunk r).offset (w.chunk r), rfl, ?_⟩⟩
      · exact (chunk_set_of_ne _ _ _ hq).trans ((chunk_set_of_ne _ _ _ hq).trans
          (write_chunk_of_ne clock w r _ _ hq))
      · show (((writeChunkToCloud clock (content path) (w.chunk r).offset r w).markNew
          r).updateMeta r).fingers.lookup h = none ↔ _
        rw [Work.updateMeta, hhash]
        show (w.fingers.set _ _).lookup h = none ↔ _
        rw [hwf.lookup_set ha, hlate]
        by_cases hh : h = (w.chunk r).chunk_hash
        · subst hh
          simpa [Work.found] using hknown hnew
        · simp [hh]
      · rw [hlate, hrewritten, Bool.false_or, if_pos rfl]
        exact (set_acts _ _ _).trans ((set_acts _ _ _).trans (write_acts clock w r _ _))

variable {p : ℕ × Bytes}

/-- The chunks behind are as before. -/
theorem Settles.rest (h : Settles again p.1 w w') (hnodup : ((p :: l).map Prod.fst).Nodup) :
    ∀ q ∈ l, w'.chunk q.1 = w.chunk q.1 := by
  intro q hq
  apply h.others
  intro heq
  exact (List.nodup_cons.mp hnodup).1 (heq ▸ List.mem_map_of_mem hq)

theorem Settles.known (h : Settles again p.1 w w') (hnodup : ((p :: l).map Prod.fst).Nodup)
    (hknown : DupsKnown w (p :: l)) : DupsKnown w' l := by
  intro q hq hdup
  rw [h.rest hnodup q hq] at hdup
  rw [Work.found, h.rest hnodup q hq, ne_eq, h.unknown]
  exact fun hnone => hknown q (List.mem_cons_of_mem _ hq) hdup hnone.1

/-- A hash goes to the store once for each duplicate that is written again, and once more if it is
that of a new chunk. -/
theorem settleAll_count (h : Fingerprint) (hwf : w.fingers.WF) (hnodup : (l.map Prod.fst).Nodup)
    (hknown : DupsKnown w l) :
    (acts (settleAll clock content again l w).log).countP (fun a => a.2.hash = h) =
      (acts w.log).countP (fun a => a.2.hash = h) +
        l.countP (fun p => rewritten again w p.1 && (w.chunk p.1).chunk_hash = h) +
        if ∃ p ∈ l, late w p.1 ∧ (w.chunk p.1).chunk_hash = h then 1 else 0 := by
  induction l generalizing w with
  | nil => simp [settleAll]
  | cons p l ih =>
    have hround := settleChunk_settles clock content again p.2 hwf (hknown p List.mem_cons_self)
    have hrest := hround.rest hnodup
    obtain ⟨x, hx, hacts⟩ := hround.stored
    have hcount : l.countP (fun q => rewritten again (settleChunk clock content again p.2 p.1 w) q.1 &&
          ((settleChunk clock content again p.2 p.1 w).chunk q.1).chunk_hash = h) =
        l.countP fun q => rewritten again w q.1 && (w.chunk q.1).chunk_hash = h := by
      apply List.countP_congr
      intro q hq
      rw [rewritten, rewritten, hrest q hq]
    -- a late chunk is in the bin for those behind it
    have hlater : (∃ q ∈ l, late (settleChunk clock content again p.2 p.1 w) q.1 ∧
          ((settleChunk clock content again p.2 p.1 w).chunk q.1).chunk_hash = h) ↔
        (∃ q ∈ l, late w q.1 ∧ (w.chunk q.1).chunk_hash = h) ∧
          ¬(late w p.1 = true ∧ h = (w.chunk p.1).chunk_hash) := by
      rw [← exists_and_right]
      apply exists_congr
      intro q
      rw [and_assoc, and_congr_right_iff]
      intro hq
      rw [late, late, hrest q hq, Work.found, Work.found, hrest q hq, Bool.and_eq_true,
        Bool.and_eq_true, Option.isNone_iff_eq_none, Option.isNone_iff_eq_none, hround.unknown]
      constructor
      · rintro ⟨⟨hnew, hnone, hnot⟩, rfl⟩
        exact ⟨⟨⟨hnew, hnone⟩, rfl⟩, hnot⟩
      · rintro ⟨⟨⟨hnew, hnone⟩, rfl⟩, hnot⟩
        exact ⟨⟨hnew, hnone, hnot⟩, rfl⟩
    have hexists : (if ∃ q ∈ l, late (settleChunk clock content again p.2 p.1 w) q.1 ∧
          ((settleChunk clock content again p.2 p.1 w).chunk q.1).chunk_hash = h then 1 else 0) +
          (if late w p.1 ∧ (w.chunk p.1).chunk_hash = h then 1 else 0) =
        if ∃ q ∈ p :: l, late w q.1 ∧ (w.chunk q.1).chunk_hash = h then 1 else 0 := by
      by_cases hfirst : late w p.1 = true ∧ (w.chunk p.1).chunk_hash = h
      · rw [if_neg fun hex => (hlater.mp hex).2 ⟨hfirst.1, hfirst.2.symm⟩, if_pos hfirst,
          if_pos ⟨p, List.mem_cons_self, hfirst⟩]
      · rw [if_neg hfirst, add_zero]
        refine if_congr ?_ rfl rfl
        rw [hlater, List.exists_mem_cons_iff, or_iff_right hfirst]
        exact and_iff_left fun hbad => hfirst ⟨hbad.1, hbad.2.symm⟩
    have hone : (if late w p.1 || rewritten again w p.1 then [(p.1, x)] else []).countP
          (fun a => a.2.hash = h) =
        (if rewritten again w p.1 && (w.chunk p.1).chunk_hash = h then 1 else 0) +
          if late w p.1 ∧ (w.chunk p.1).chunk_hash = h then 1 else 0 := by
      cases hnew : (w.chunk p.1).is_new with
      | newChunk =>
        have hrewritten : rewritten again w p.1 = false := by simp [rewritten, hnew]
        rw [hrewritten]
        cases late w p.1 <;> simp [hx]
      | dedupChunk =>
        have hlate : late w p.1 = false := by simp [late, hnew]
        rw [hlate]
        cases rewritten again w p.1 <;> simp [hx]
    rw [settleAll, List.foldl_cons]
    show (acts (settleAll clock content again l
      (settleChunk clock content again p.2 p.1 w)).log).countP _ = _
    rw [ih hround.fingers_wf (List.nodup_cons.mp hnodup).2 (hround.known hnodup hknown), hcount,
      hacts, List.countP_append, List.countP_cons, hone, ← hexists]
    omega

/-- A hash is stored at most once if at most one of its duplicates is written again. -/
theorem settleAll_once (h : Fingerprint) (hwf : w.fingers.WF) (hnodup : (l.map Prod.fst).Nodup)
    (hknown : DupsKnown w l) :
    (acts (settleAll clock content again l w).log).countP (fun a => a.2.hash = h) ≤
        (acts w.log).countP (fun a => a.2.hash = h) + 1 ↔
      l.countP (fun p => rewritten again w p.1 && (w.chunk p.1).chunk_hash = h) ≤ 1 := by
  rw [settleAll_count h hwf hnodup hknown]
  split
  · next hlate =>
    -- the bin has no chunk with the hash, so there are no duplicates
    obtain ⟨p, -, hp, hhash⟩ := hlate
    have hzero : l.countP (fun p => rewritten again w p.1 && (w.chunk p.1).chunk_hash = h) = 0 := by
      rw [List.countP_eq_zero]
      intro q hq hrewritten
      obtain ⟨hagain, hsame⟩ := Bool.and_eq_true_iff.mp hrewritten
      have hdup := of_decide_eq_true (Bool.and_eq_true_iff.mp hagain).1
      have hnone := Option.isNone_iff_eq_none.mp (Bool.and_eq_true_iff.mp hp).2
      refine hknown q hq hdup ?_
      rw [Work.found, of_decide_eq_true hsame, ← hhash]
      exact hnone
    rw [hzero]
    omega
  · omega

variable {s : Settings} {c : Capping} {segments : HTable 64 ℤ}

theorem cappingDecide_eq_settleChunk (segments : HTable 64 ℤ) (path : Bytes) (r : ℕ) (w : Work) :
    cappingDecide clock content segments path r w =
      settleChunk clock content (fun fc => (segments.lookup fc.chunkaddress).isNone) path r w := by
  rw [cappingDecide, settleChunk]
  cases (w.chunk r).is_new with
  | newChunk => rfl
  | dedupChunk => cases segments.lookup (w.chunk r).chunkaddress <;> rfl

/-- The segments that a flush keeps. -/
def keptSegments (max_refer_count : ℕ) (segments : HTable 64 ℤ) : HTable 64 ℤ :=
  if max_refer_count < segments.size then (sortSegments max_refer_count segments).2 else segments

theorem rewrite_eq_settleAll (s : Settings) (clock : ℕ → ℤ) (content : Bytes → Bytes)
    (hwf : c.segment_buffer.WF) (w : Work) :
    (rewrite s clock content c w).2.2 =
      settleAll clock content (fun fc =>
        ((keptSegments s.max_refer_count c.segment_buffer).lookup fc.chunkaddress).isNone) c.buffer w := by
  obtain ⟨sorted, hsorted⟩ : ∃ sorted, sorted =
      if s.max_refer_count < c.segment_buffer.size then
        sortSegments s.max_refer_count c.segment_buffer
      else (true, c.segment_buffer) := ⟨_, rfl⟩
  have hkept : sorted.1 = true ∧ sorted.2 = keptSegments s.max_refer_count c.segment_buffer := by
    rw [hsorted, keptSegments]
    split
    · next hmax => exact ⟨(sortSegments_spec hwf hmax).1, rfl⟩
    · exact ⟨rfl, rfl⟩
  rw [rewrite, ← hsorted, if_pos hkept.1, foldl_chunkLists, runWhile_true, settleAll, hkept.2]
  simp only [cappingDecide_eq_settleChunk]
  rfl

/-- The second loop of `perfect_rewrite_process` meets no error if all containers are counted. -/
theorem perfectFlush_eq_settleAll (s : Settings) {p : Perfect} (hwf : w.fingers.WF)
    (hnodup : (p.buffer.map Prod.fst).Nodup) (hknown : DupsKnown w p.buffer)
    (hcounted : ∀ q ∈ p.buffer, (w.chunk q.1).is_new = .dedupChunk →
      p.segments.lookup (w.chunk q.1).chunkaddress ≠ none) :
    perfectFlush s clock content p w =
      (true, settleAll clock content
        (fun fc => (p.segments.lookup fc.chunkaddress).any s.seldom) p.reached w) := by
  rw [perfectFlush_eq]
  replace hnodup := hnodup.sublist (p.reached_sublist.map _)
  replace hknown : DupsKnown w p.reached := fun q hq => hknown q (p.reached_sublist.subset hq)
  replace hcounted := fun q (hq : q ∈ p.reached) => hcounted q (p.reached_sublist.subset hq)
  generalize p.reached = l at hnodup hknown hcounted
  induction l generalizing w with
  | nil => rfl
  | cons q l ih =>
    have hround := settleChunk_settles clock content
      (fun fc => (p.segments.lookup fc.chunkaddress).any s.seldom) q.2 hwf
      (hknown q List.mem_cons_self)
    have hchunk : perfectChunk s clock content p.segments q.2 q.1 w =
        (true, settleChunk clock content
          (fun fc => (p.segments.lookup fc.chunkaddress).any s.seldom) q.2 q.1 w) := by
      rw [perfectChunk, settleChunk]
      cases hnew : (w.chunk q.1).is_new with
      | newChunk => cases w.found q.1 <;> rfl
      | dedupChunk =>
        obtain ⟨n, hn⟩ := Option.ne_none_iff_exists'.mp (hcounted q List.mem_cons_self hnew)
        obtain ⟨a, ha⟩ := Option.ne_none_iff_exists'.mp (hknown q List.mem_cons_self hnew)
        rw [hn, ha]
        dsimp only
        rw [Option.any_some]
        cases s.seldom n <;> rfl
    rw [runWhile, hchunk]
    refine ih hround.fingers_wf (List.nodup_cons.mp hnodup).2 (hround.known hnodup hknown) ?_
    intro q' hq' hdup
    rw [hround.rest hnodup q' hq'] at hdup ⊢
    exact hcounted q' (List.mem_cons_of_mem _ hq') hdup

end TCBackup.Client
