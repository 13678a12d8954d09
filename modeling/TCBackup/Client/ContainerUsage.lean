import TCBackup.Client.SortSegments
import TCBackup.Lib.Tally

/-!
# How much of a container is referred to

Both policies that count references keep the duplicates that wait in a table by their
containers. The table is the sum of the lengths of these chunks, in the arithmetic of the field.

## Main definitions

- `Work.refs`, `Work.foundIn` — the duplicates with their containers and lengths, by their marks
  and by the bin
- `Counted` — a table that is their tally
- `Capping.chunks` — the chunks in the buffer
- `recentChunks`, `recentFiles` — the chunks that have come since the last flush
- `SinceFlush` — the buffer and its table are those of these chunks

## Main results

- `cappingChunks_counted`, `cappingFiles_counted` — `segment_buffer` over a stream
- `capping_keeps_top` — what a flush gets, and what `sort_segments` keeps of it
-/

namespace TCBackup.Client

open ByteFile Handoff Tally

/-- The duplicates among the chunks. -/
def Work.refs (w : Work) (l : List ℕ) : List (Chunkaddress × ℤ) :=
  l.filterMap fun r =>
    if (w.chunk r).is_new = .dedupChunk then
      some ((w.chunk r).chunkaddress, ((w.chunk r).chunklen : ℤ))
    else none

/-- The chunks that the bin has, by their containers. -/
def Work.foundIn (w : Work) (l : List ℕ) : List (Chunkaddress × ℤ) :=
  l.filterMap fun r => (w.found r).map fun address => (address, ((w.chunk r).chunklen : ℤ))

/-- The table has the tally of the duplicates in `l`. -/
structure Counted (add : ℤ → ℤ → ℤ) (segments : HTable 64 ℤ) (w : Work) (l : List ℕ) : Prop where
  wf : segments.WF
  amounts : ∀ address, segments.lookup address = tally add (w.refs l) address

variable {add : ℤ → ℤ → ℤ} {segments : HTable 64 ℤ} {w w' : Work} {l done : List ℕ} {r : ℕ}
  {a : Chunkaddress}

theorem counted_nil (add : ℤ → ℤ → ℤ) (tsize : ℕ) (w : Work) :
    Counted add (htableInit tsize) w [] :=
  ⟨HTable.init_wf tsize, fun _ => HTable.lookup_init tsize _⟩

theorem refs_congr (hothers : ∀ q ∈ l, w'.chunk q = w.chunk q) : w'.refs l = w.refs l := by
  apply List.filterMap_congr
  intro q hq
  rw [hothers q hq]

theorem refs_push (hothers : ∀ q ∈ l, w'.chunk q = w.chunk q) :
    w'.refs (l ++ [r]) = w.refs l ++ w'.refs [r] := by
  rw [Work.refs, List.filterMap_append]
  exact congrArg (· ++ w'.refs [r]) (refs_congr hothers)

/-- A new chunk is not counted. -/
theorem Counted.markNew (h : Counted add segments w l) (w' : Work) (r : ℕ)
    (hothers : ∀ q ∈ l, w'.chunk q = w.chunk q)
    (hnew : (w'.chunk r).is_new = .newChunk) : Counted add segments w' (l ++ [r]) := by
  refine ⟨h.wf, fun address => ?_⟩
  rw [refs_push hothers, h.amounts]
  simp [Work.refs, hnew]

/-- A duplicate is counted for its container. -/
theorem Counted.markDedup (h : Counted add segments w l) (w' : Work) (r : ℕ) (a : Chunkaddress)
    (hothers : ∀ q ∈ l, w'.chunk q = w.chunk q) (hdup : (w'.chunk r).is_new = .dedupChunk)
    (haddress : (w'.chunk r).chunkaddress = a) :
    Counted add (addUsage add segments a (w'.chunk r).chunklen) w' (l ++ [r]) := by
  refine ⟨addUsage_wf h.wf a _, fun address => ?_⟩
  have hone : w'.refs [r] = [(a, ((w'.chunk r).chunklen : ℤ))] := by
    simp [Work.refs, hdup, haddress]
  rw [refs_push hothers, hone, tally_append_singleton, lookup_addUsage h.wf, h.amounts, h.amounts]
  split
  · cases tally add (w.refs l) a <;> rfl
  · rfl

def Capping.chunks (c : Capping) : List ℕ := c.chunk_buffer.flatMap ChunkList.chunks

/-- Whether the buffer is flushed before the chunk. -/
def cappingFull (s : Settings) (r : ℕ) (p : List ℕ × Capping × Work) : Bool :=
  decide (s.buffer_capacity < addLength (p.2.2.chunk r).chunklen p.2.1.buffer_length)

/-- The chunks that have come since the last flush, `recent` before the chunks `rs` of a file. -/
def recentChunks (s : Settings) (clock : ℕ → ℤ) (content : Bytes → Bytes) (fileinfo : FileInfo ℕ) :
    List ℕ → List ℕ → List ℕ × Capping × Work → List ℕ
  | [], recent, _ => recent
  | r :: rs, recent, p =>
    recentChunks s clock content fileinfo rs ((if cappingFull s r p then [] else recent) ++ [r])
      (cappingChunk s clock content fileinfo r p).2

def recentFiles (s : Settings) (clock : ℕ → ℤ) (content : Bytes → Bytes) :
    List (FileInfo ℕ) → List ℕ → Capping × Work → List ℕ
  | [], recent, _ => recent
  | fileinfo :: files, recent, x =>
    recentFiles s clock content files
      (recentChunks s clock content fileinfo fileinfo.chunks recent ([], x))
      (cappingProcess s clock content fileinfo x.1 x.2).2

/-- The chunks `recent` wait in the buffer or, at the end, in the list `cl` of their file, marked
by what the bin has, and the table has the exact sums of the duplicates among them. -/
structure SinceFlush (recent cl : List ℕ) (c : Capping) (w : Work) : Prop where
  chunks : c.chunks ++ cl = recent
  marked : w.refs recent = w.foundIn recent
  wf : c.segment_buffer.WF
  sums : ∀ address, c.segment_buffer.lookup address =
    if address ∈ (w.foundIn recent).map Prod.fst then some (total (w.foundIn recent) address)
    else none

/-- In front of a round: the chunks since the last flush are counted. -/
structure CappingCounted (done recent : List ℕ) (p : List ℕ × Capping × Work) : Prop where
  chunks : p.2.1.chunks ++ p.1 = recent
  marked : p.2.2.refs recent = p.2.2.foundIn recent
  counted : Counted (· + ·) p.2.1.segment_buffer p.2.2 recent
  suffix : recent <:+ done

variable {s : Settings} {clock : ℕ → ℤ} {content : Bytes → Bytes} {c : Capping}
  {p : List ℕ × Capping × Work} {fileinfo : FileInfo ℕ} {recent cl : List ℕ}

theorem CappingCounted.sinceFlush (h : CappingCounted done recent p) :
    SinceFlush recent p.1 p.2.1 p.2.2 := by
  refine ⟨h.chunks, h.marked, h.counted.wf, fun address => ?_⟩
  rw [h.counted.amounts, h.marked]
  exact tally_eq_total id (fun _ _ => rfl) fun _ _ => rfl

/-- A flush meets no error, and nothing is counted after it. -/
theorem rewrite_cleared (s : Settings) (clock : ℕ → ℤ) (content : Bytes → Bytes)
    (hwf : c.segment_buffer.WF) (w : Work) :
    (rewrite s clock content c w).1 = true ∧
      (rewrite s clock content c w).2.1.chunks = [] ∧
      (rewrite s clock content c w).2.1.segment_buffer = htableInit 50 := by
  rw [rewrite]
  split
  · next hmax =>
    rw [if_pos (sortSegments_spec hwf hmax).1]
    exact ⟨rfl, rfl, rfl⟩
  · exact ⟨rfl, rfl, rfl⟩

/-- A flush gets what waits, with its table. -/
theorem SinceFlush.room (h : SinceFlush recent p.1 p.2.1 p.2.2) (s : Settings) (clock : ℕ → ℤ)
    (content : Bytes → Bytes) (hfull : cappingFull s r p = true)
    (hfirst : fileinfo.chunks.head? = some r → p.1 = []) :
    ∃ c, SinceFlush recent [] c p.2.2 ∧ cappingRoom s clock content fileinfo r p =
      ((rewrite s clock content c p.2.2).1, [],
        { (rewrite s clock content c p.2.2).2.1 with buffer_length := 0 },
        (rewrite s clock content c p.2.2).2.2) := by
  rw [cappingRoom, if_pos (of_decide_eq_true hfull)]
  refine ⟨_, ⟨?_, h.marked, ?_, ?_⟩, rfl⟩
  · rw [← h.chunks]
    split
    · next hhead => rw [hfirst hhead]
    · rw [List.append_nil, Capping.chunks, Capping.chunks, List.flatMap_append,
        List.flatMap_singleton]
  · split <;> exact h.wf
  · split <;> exact h.sums

theorem cappingRoom_counted (s : Settings) (clock : ℕ → ℤ) (content : Bytes → Bytes)
    (h : CappingCounted done recent p) (hfirst : fileinfo.chunks.head? = some r → p.1 = []) :
    ∃ q, cappingRoom s clock content fileinfo r p = (true, q) ∧
      CappingCounted done (if cappingFull s r p then [] else recent) q := by
  cases hfull : cappingFull s r p with
  | true =>
    obtain ⟨c, hflush, hroom⟩ := h.sinceFlush.room s clock content hfull hfirst
    obtain ⟨htrue, hnil, hinit⟩ := rewrite_cleared s clock content hflush.wf p.2.2
    refine ⟨_, hroom.trans (Prod.ext htrue rfl), ?_, rfl, ?_, List.nil_suffix⟩
    · rw [if_pos rfl, List.append_nil]
      exact hnil
    · dsimp only
      rw [if_pos rfl, hinit]
      exact counted_nil _ _ _
  | false =>
    rw [cappingRoom, if_neg (of_decide_eq_false hfull)]
    exact ⟨p, rfl, h⟩

/-- The mark of one chunk says what the bin has. -/
theorem refs_of_new {w : Work} (hnew : (w.chunk r).is_new = .newChunk) (hnone : w.found r = none) :
    w.refs [r] = w.foundIn [r] := by
  simp [Work.refs, Work.foundIn, hnew, hnone]

theorem refs_of_dup {w : Work} (hdup : (w.chunk r).is_new = .dedupChunk)
    (haddress : w.found r = some (w.chunk r).chunkaddress) : w.refs [r] = w.foundIn [r] := by
  simp [Work.refs, Work.foundIn, hdup, haddress]

/-- The chunk is buffered with its mark, and counted when it is a duplicate. -/
theorem cappingMark_counted (h : CappingCounted done recent p) (hr : r ∉ done) :
    CappingCounted (done ++ [r]) (recent ++ [r]) (cappingMark r p) := by
  have hne : ∀ q ∈ recent, q ≠ r := by
    rintro q hq rfl
    exact hr (h.suffix.subset hq)
  have hothers : ∀ {fc fc'}, ∀ q ∈ recent, ((p.2.2.set r fc).set r fc').chunk q = p.2.2.chunk q := by
    intro fc fc' q hq
    rw [chunk_set, Function.update_of_ne (hne q hq), chunk_set, Function.update_of_ne (hne q hq)]
  have hsuffix : recent ++ [r] <:+ done ++ [r] := List.suffix_append_self_iff.mpr h.suffix
  have hchunks : p.2.1.chunks ++ (p.1 ++ [r]) = recent ++ [r] := by
    rw [← List.append_assoc, h.chunks]
  -- the bin stays as it is, and so does what it has for the others
  have hfound : ∀ w' : Work, w'.fingers = p.2.2.fingers →
      (∀ q ∈ recent, w'.chunk q = p.2.2.chunk q) → w'.refs [r] = w'.foundIn [r] →
      w'.refs (recent ++ [r]) = w'.foundIn (recent ++ [r]) := by
    intro w' hfingers hsame hone
    rw [refs_push hsame, h.marked, hone, Work.foundIn, Work.foundIn, Work.foundIn,
      List.filterMap_append]
    congr 1
    refine List.filterMap_congr fun q hq => ?_
    rw [Work.found, Work.found, hfingers, hsame q hq]
  rw [cappingMark]
  split
  · next hnone =>
    refine ⟨hchunks, hfound _ rfl hothers ?_, ?_, hsuffix⟩
    · refine refs_of_new (by simp [Work.lock, Work.markNew]) ?_
      rw [← hnone]
      simp [Work.found, Work.lock, Work.markNew]
    · exact h.counted.markNew ((p.2.2.markNew r).lock r) r hothers
        (by simp [Work.lock, Work.markNew])
  · next a hsome =>
    have hlen : (((p.2.2.markDedup r a).lock r).chunk r).chunklen = (p.2.2.chunk r).chunklen := by
      simp [Work.lock, Work.markDedup]
    have hcounted := h.counted.markDedup ((p.2.2.markDedup r a).lock r) r a hothers
      (by simp [Work.lock, Work.markDedup]) (by simp [Work.lock, Work.markDedup])
    rw [hlen] at hcounted
    refine ⟨hchunks, hfound _ rfl hothers ?_, hcounted, hsuffix⟩
    refine refs_of_dup (by simp [Work.lock, Work.markDedup]) ?_
    have haddress : (((p.2.2.markDedup r a).lock r).chunk r).chunkaddress = a := by
      simp [Work.lock, Work.markDedup]
    rw [haddress, ← hsome]
    simp [Work.found, Work.lock, Work.markDedup]

/-- The loop of `capping_process` over chunks of a file. -/
theorem cappingChunks_counted (s : Settings) (clock : ℕ → ℤ) (content : Bytes → Bytes)
    (fileinfo : FileInfo ℕ) {rs : List ℕ} (h : CappingCounted done recent p)
    (hnodup : (done ++ rs).Nodup) (hfirst : p.1 = [] ∨ ∀ r ∈ rs, fileinfo.chunks.head? ≠ some r)
    (htail : ∀ r ∈ rs.tail, fileinfo.chunks.head? ≠ some r) :
    ∃ q, runWhile (cappingChunk s clock content fileinfo) rs p = (true, q) ∧
      CappingCounted (done ++ rs) (recentChunks s clock content fileinfo rs recent p) q := by
  induction rs generalizing p done recent with
  | nil => exact ⟨p, rfl, by rw [List.append_nil]; exact h⟩
  | cons r rs ih =>
    have hhead : fileinfo.chunks.head? = some r → p.1 = [] := fun hhead =>
      hfirst.resolve_right fun hne => hne r List.mem_cons_self hhead
    obtain ⟨q, hroom, hq⟩ := cappingRoom_counted s clock content h hhead
    have hround : cappingChunk s clock content fileinfo r p = (true, cappingMark r q) := by
      rw [cappingChunk, hroom]
      rfl
    have hr : r ∉ done := fun hmem => List.disjoint_of_nodup_append hnodup hmem List.mem_cons_self
    rw [runWhile_of_true hround, recentChunks, hround, List.append_cons]
    rw [List.append_cons] at hnodup
    exact ih (cappingMark_counted hq hr) hnodup (.inr htail) fun r' hr' => htail r' (List.mem_of_mem_tail hr')

/-- Only the first chunk of a file is the head of its list. -/
theorem not_head_of_tail {rs : List ℕ} (hnodup : fileinfo.chunks.Nodup) (h : rs <+: fileinfo.chunks) :
    ∀ r ∈ rs.tail, fileinfo.chunks.head? ≠ some r := by
  intro r hr hhead
  obtain ⟨rest, hrest⟩ := h
  cases rs with
  | nil => simp at hr
  | cons r' rs =>
    rw [← hrest] at hhead hnodup
    obtain rfl : r' = r := Option.some.inj hhead
    exact (List.nodup_cons.mp hnodup).1 (List.mem_append_left _ hr)

/-- `capping_process` for one file after the other. -/
theorem cappingFiles_counted (s : Settings) (clock : ℕ → ℤ) (content : Bytes → Bytes)
    (files : List (FileInfo ℕ)) {x : Capping × Work} (h : CappingCounted done recent ([], x))
    (hnodup : (done ++ files.flatMap FileInfo.chunks).Nodup) :
    CappingCounted (done ++ files.flatMap FileInfo.chunks)
      (recentFiles s clock content files recent x)
      ([], files.foldl (fun x fileinfo => (cappingProcess s clock content fileinfo x.1 x.2).2) x) := by
  induction files generalizing x done recent with
  | nil =>
    rw [List.flatMap_nil, List.append_nil]
    exact h
  | cons fileinfo files ih =>
    rw [List.flatMap_cons, ← List.append_assoc] at hnodup ⊢
    have hfile := (List.nodup_append.mp hnodup).1
    obtain ⟨q, hrun, hq⟩ := cappingChunks_counted s clock content fileinfo h hfile (.inl rfl)
      (not_head_of_tail (List.nodup_append.mp hfile).2.1 (List.prefix_refl _))
    refine ih ?_ hnodup
    show CappingCounted _ _ ([], (cappingProcess s clock content fileinfo x.1 x.2).2)
    rw [cappingProcess, hrun]
    refine ⟨?_, hq.marked, hq.counted, hq.suffix⟩
    rw [← hq.chunks]
    dsimp only
    rw [if_pos rfl, List.append_nil, Capping.chunks, Capping.chunks, List.flatMap_append,
      List.flatMap_singleton]

/-- The table after `sort_segments`, by the list that it builds. -/
theorem sortSegments_lookup (h : segments.WF) (max_refer_count : ℕ) (address : Chunkaddress) (n : ℤ) :
    (sortSegments max_refer_count segments).2.lookup address = some n ↔
      (address, n) ∈ (linkSegments segments.walk).take max_refer_count := by
  obtain ⟨hkept, hwf⟩ := sortSegments_kept h max_refer_count
  rw [hwf.lookup_eq_some_iff, hkept.mem_iff]

/-- `sort_segments` returns true and keeps so many segments, and none of the others is longer. The
table that a flush gives it has the exact sums of the duplicates that have come since the last
flush. -/
theorem capping_keeps_top (s : Settings) (clock : ℕ → ℤ) (content : Bytes → Bytes) :
    (∀ (segments : HTable 64 ℤ) (max_refer_count fuel : ℕ) (link : Links), segments.WF →
      max_refer_count < segments.size → segments.size < fuel →
      ∃ (t : HTable 64 ℤ) (kept removed : List RefNode),
        sortSegmentsLinked fuel max_refer_count segments link = some (true, t) ∧
        t.size = max_refer_count ∧ (kept ++ removed).Perm segments.walk ∧
        (∀ a ∈ kept, ∀ b ∈ removed, b.2 ≤ a.2) ∧
        ∀ address n, t.lookup address = some n ↔ (address, n) ∈ kept) ∧
    ∀ (files : List (FileInfo ℕ)) (fileinfo : FileInfo ℕ) (pre : List ℕ) (w : Work)
      (p : List ℕ × Capping × Work) (recent : List ℕ), pre <+: fileinfo.chunks →
      (files.flatMap FileInfo.chunks ++ fileinfo.chunks).Nodup →
      (runWhile (cappingChunk s clock content fileinfo) pre
        ([], files.foldl (fun x fileinfo => (cappingProcess s clock content fileinfo x.1 x.2).2)
          (cappingInit, w))).2 = p →
      recentChunks s clock content fileinfo pre
        (recentFiles s clock content files [] (cappingInit, w))
        ([], files.foldl (fun x fileinfo => (cappingProcess s clock content fileinfo x.1 x.2).2)
          (cappingInit, w)) = recent →
      SinceFlush recent p.1 p.2.1 p.2.2 ∧
        ∀ r, pre ++ [r] <+: fileinfo.chunks → cappingFull s r p = true →
          ∃ c, SinceFlush recent [] c p.2.2 ∧ cappingRoom s clock content fileinfo r p =
            ((rewrite s clock content c p.2.2).1, [],
              { (rewrite s clock content c p.2.2).2.1 with buffer_length := 0 },
              (rewrite s clock content c p.2.2).2.2) := by
  refine ⟨fun segments max_refer_count fuel link hwf hmax hfuel => ?_,
    fun files fileinfo pre w p recent hpre hnodup hp hrecent => ?_⟩
  · have htrue := (sortSegments_spec hwf hmax).1
    have hbefore := linkSegments_before (List.Nodup.of_map _ hwf.nodup_walk)
    rw [← List.take_append_drop max_refer_count (linkSegments segments.walk)] at hbefore
    refine ⟨(sortSegments max_refer_count segments).2,
      (linkSegments segments.walk).take max_refer_count,
      (linkSegments segments.walk).drop max_refer_count, ?_, of_decide_eq_true htrue, ?_, ?_,
      sortSegments_lookup hwf max_refer_count⟩
    · rw [sortSegmentsLinked_eq hwf (Nat.ne_zero_of_lt hmax) hfuel]
      exact congrArg some (Prod.ext htrue rfl)
    · rw [List.take_append_drop]
      exact linkSegments_perm segments.walk
    · intro a ha b hb
      rcases (List.pairwise_append.mp hbefore).2.2 a ha b hb with hlonger | ⟨heq, -⟩
      · exact le_of_lt hlonger
      · exact le_of_eq heq
  · have hstart : CappingCounted [] [] ([], cappingInit, w) :=
      ⟨rfl, rfl, counted_nil _ _ _, List.suffix_refl _⟩
    have hdone := cappingFiles_counted s clock content files hstart
      (by rw [List.nil_append]; exact (List.nodup_append.mp hnodup).1)
    have hfile := (List.nodup_append.mp hnodup).2.1
    obtain ⟨q, hrun, hq⟩ := cappingChunks_counted s clock content fileinfo hdone
      (by rw [List.nil_append]; exact hnodup.sublist (hpre.sublist.append_left _)) (.inl rfl)
      (not_head_of_tail hfile hpre)
    obtain rfl : q = p := by rw [← hp, hrun]
    rw [hrecent] at hq
    refine ⟨hq.sinceFlush, fun r hr hfull => hq.sinceFlush.room s clock content hfull fun hhead => ?_⟩
    -- a file starts with no chunks of its own in the list
    cases pre with
    | nil => rw [← hp]; rfl
    | cons r' pre =>
      exact absurd hhead (not_head_of_tail hfile hr r (by simp))

/-- A bin with two chunks, and a file that has the first one three times. -/
def recurring : List ℕ × Capping × Work :=
  ([], cappingInit,
    { log := [
        .set 0 { fingerchunkNew with chunk_hash := fixed 20 [1], chunklen := 4 },
        .set 1 { fingerchunkNew with chunk_hash := fixed 20 [2], chunklen := 3, offset := 4 },
        .set 2 { fingerchunkNew with chunk_hash := fixed 20 [1], chunklen := 4, offset := 7 },
        .set 3 { fingerchunkNew with chunk_hash := fixed 20 [1], chunklen := 4, offset := 11 }]
      fingers := HTable.insertAll (htableInit 0)
        [(fixed 20 [1], fixed 64 [97]), (fixed 20 [2], fixed 64 [98])]
      store := storeInit (fun _ => 0) .empty ⟨0, []⟩ })

def recurringFile : FileInfo ℕ := { (fileNew : FileInfo ℕ) with chunks := [0, 1, 2, 3] }

/-- A buffer for two chunks, and one container that may be referred to. -/
def smallBuffer : Settings := ⟨.cappingRewrite, fun _ _ => false, fun _ => false, fun _ => false, 8, 1⟩

/-- The rounds for some chunks of the file. -/
def recurringRun (pre : List ℕ) : List ℕ × Capping × Work :=
  (runWhile (cappingChunk smallBuffer (fun _ => 0) (fun _ => List.replicate 15 9) recurringFile) pre
    recurring).2

/-- One of two segments is kept. The third chunk flushes the buffer with the first two, and the
duplicates behind it are counted anew. -/
theorem capping_keeps_top_of_two :
    (∃ (t : HTable 64 ℤ) (kept : List RefNode),
      sortSegmentsLinked 3 1
        (HTable.insertAll (htableInit 50) [(fixed 64 [97], 5), (fixed 64 [98], 7)])
        (fun _ => none) = some (true, t) ∧ t.size = 1 ∧
      ∀ address n, t.lookup address = some n ↔ (address, n) ∈ kept) ∧
    (∃ c, SinceFlush [0, 1] [] c (recurringRun [0, 1]).2.2 ∧
      c.segment_buffer.lookup (fixed 64 [97]) = some 4 ∧
      c.segment_buffer.lookup (fixed 64 [98]) = some 3 ∧
      (cappingRoom smallBuffer (fun _ => 0) (fun _ => List.replicate 15 9) recurringFile 2
        (recurringRun [0, 1])).2.1 = []) ∧
    SinceFlush [2, 3] (recurringRun [0, 1, 2, 3]).1 (recurringRun [0, 1, 2, 3]).2.1
      (recurringRun [0, 1, 2, 3]).2.2 ∧
    (recurringRun [0, 1, 2, 3]).2.1.segment_buffer.lookup (fixed 64 [97]) = some 8 := by
  have hall := capping_keeps_top smallBuffer (fun _ => 0) (fun _ => List.replicate 15 9)
  refine ⟨?_, ?_, ?_, by decide +kernel⟩
  · obtain ⟨t, kept, -, hsort, hsize, -, -, hlookup⟩ :=
      hall.1 (HTable.insertAll (htableInit 50) [(fixed 64 [97], 5), (fixed 64 [98], 7)]) 1 3
        (fun _ => none) (HTable.insertAll_init_wf (by decide) 50) (by decide) (by decide)
    exact ⟨t, kept, hsort, hsize, hlookup⟩
  · obtain ⟨-, hflush⟩ := hall.2 [] recurringFile [0, 1] recurring.2.2 (recurringRun [0, 1]) [0, 1]
      ⟨[2, 3], rfl⟩ (by decide) rfl (by decide +kernel)
    obtain ⟨c, hc, hroom⟩ := hflush 2 ⟨[3], rfl⟩ (by decide +kernel)
    refine ⟨c, hc, ?_, ?_, by rw [hroom]⟩
    · rw [hc.sums]
      decide +kernel
    · rw [hc.sums]
      decide +kernel
  · exact (hall.2 [] recurringFile [0, 1, 2, 3] recurring.2.2 (recurringRun [0, 1, 2, 3]) [2, 3]
      (List.prefix_refl _) (by decide) rfl (by decide +kernel)).1

end TCBackup.Client
