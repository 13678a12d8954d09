import TCBackup.Client.PerfectUsage

/-!
# Duplicates that are written again (`client/src/capping.c`, `client/src/perfect_rewrite.c`)

A flush looks a new chunk up once more before it stores it. A duplicate keeps the address that
it got when it was marked, also where an equal one in front was just stored elsewhere.

## Main definitions

- `StoredOnce` — no hash goes to the store twice
- `segmentKept` — the segments with few others in front of them

## Main results

- `stored_once_iff` — when the flushes of both policies are like that
- `equal_chunks_stored_twice` — a stream for which they are not
-/

namespace TCBackup.Client

open ByteFile Handoff

/-- `write_chunk_to_cloud` is called at most once for each hash. -/
def StoredOnce (w w' : Work) : Prop :=
  ∀ h : Fingerprint, (acts w'.log).countP (fun a => a.2.hash = h) ≤
    (acts w.log).countP (fun a => a.2.hash = h) + 1

/-- Fewer than `max_refer_count` segments come before that of the container. -/
def segmentKept (max_refer_count : ℕ) (segments : HTable 64 ℤ) (address : Chunkaddress) : Bool :=
  (segments.lookup address).any fun n =>
    segments.walk.countP (fun rn => Before segments.walk rn (address, n)) < max_refer_count

variable {segments : HTable 64 ℤ} {max_refer_count : ℕ} {l : List RefNode} {a b : RefNode}

theorem Before.asymm (h : Before l a b) : ¬Before l b a := by
  rintro (hlonger | ⟨heq, hidx⟩)
  · rcases h with h | ⟨h, -⟩ <;> omega
  · rcases h with h | ⟨-, h⟩ <;> omega

/-- The place of an element is the number of those in front of it. -/
theorem mem_take_iff_countP {α : Type*} {R : α → α → Prop} [DecidableRel R] {l : List α} {a : α}
    (h : l.Pairwise R) (hasymm : ∀ a b, R a b → ¬R b a) (ha : a ∈ l) (n : ℕ) :
    a ∈ l.take n ↔ l.countP (fun b => R b a) < n := by
  obtain ⟨front, behind, rfl⟩ := List.append_of_mem ha
  obtain ⟨-, hbehind, hfront⟩ := List.pairwise_append.mp h
  have hself : ¬R a a := fun hself => hasymm a a hself hself
  have hrank : (front ++ a :: behind).countP (fun b => R b a) = front.length := by
    rw [List.countP_append, List.countP_cons, List.countP_eq_length.mpr, List.countP_eq_zero.mpr]
    · simp [hself]
    · intro b hb hba
      exact hasymm a b ((List.pairwise_cons.mp hbehind).1 b hb) (of_decide_eq_true hba)
    · intro b hb
      exact decide_eq_true (hfront b hb a List.mem_cons_self)
  have hnot : a ∉ front := fun hmem => hself (hfront a hmem a List.mem_cons_self)
  rw [hrank, List.take_append]
  constructor
  · intro hmem
    rcases List.mem_append.mp hmem with hmem | hmem
    · exact absurd (List.mem_of_mem_take hmem) hnot
    · by_contra hle
      rw [Nat.sub_eq_zero_of_le (not_lt.mp hle)] at hmem
      simp at hmem
  · intro hlt
    obtain ⟨k, hk⟩ := Nat.exists_eq_add_of_lt hlt
    rw [show n - front.length = k + 1 by omega, List.take_succ_cons]
    exact List.mem_append_right _ List.mem_cons_self

/-- The flush finds the segments that are kept. -/
theorem keptSegments_lookup (hwf : segments.WF) (max_refer_count : ℕ) (address : Chunkaddress) :
    ((keptSegments max_refer_count segments).lookup address).isNone =
      !segmentKept max_refer_count segments address := by
  have hnodup : segments.walk.Nodup := List.Nodup.of_map _ hwf.nodup_walk
  have hself : ∀ n, ¬Before segments.walk (address, n) (address, n) := fun n hbefore =>
    hbefore.asymm hbefore
  rw [keptSegments, segmentKept]
  split
  · have hperm := linkSegments_perm segments.walk
    cases hlookup : segments.lookup address with
    | none =>
      have hgone : (sortSegments max_refer_count segments).2.lookup address = none := by
        rw [Option.eq_none_iff_forall_ne_some]
        intro n hn
        rw [sortSegments_lookup hwf] at hn
        rw [hwf.lookup_eq_none_iff] at hlookup
        exact hlookup n (hperm.mem_iff.mp (List.mem_of_mem_take hn))
      rw [hgone]
      rfl
    | some n =>
      have hmem : (address, n) ∈ linkSegments segments.walk :=
        hperm.mem_iff.mpr (hwf.lookup_eq_some_iff.mp hlookup)
      have hplace := mem_take_iff_countP (linkSegments_before hnodup) (fun _ _ => Before.asymm) hmem
        max_refer_count
      rw [← sortSegments_lookup hwf, hperm.countP_eq] at hplace
      rw [Option.any_some]
      by_cases hlt : segments.walk.countP (fun rn => Before segments.walk rn (address, n)) <
          max_refer_count
      · rw [hplace.mpr hlt, decide_eq_true hlt]
        rfl
      · have hgone : (sortSegments max_refer_count segments).2.lookup address = none := by
          rw [Option.eq_none_iff_forall_ne_some]
          intro m hm
          have hwalk := hperm.mem_iff.mp (List.mem_of_mem_take ((sortSegments_lookup hwf _ _ _).mp hm))
          rw [← hwf.lookup_eq_some_iff, hlookup] at hwalk
          obtain rfl := Option.some.inj hwalk
          exact hlt (hplace.mp hm)
        rw [hgone, decide_eq_false hlt]
        rfl
  · next hall =>
    cases hlookup : segments.lookup address with
    | none => rfl
    | some n =>
      have hlt : segments.walk.countP (fun rn => Before segments.walk rn (address, n)) <
          max_refer_count := by
        refine lt_of_lt_of_le ?_ (hwf.size_eq ▸ not_lt.mp hall)
        refine lt_of_le_of_ne List.countP_le_length fun heq => ?_
        have hall' := List.countP_eq_length.mp heq _ (hwf.lookup_eq_some_iff.mp hlookup)
        exact hself n (of_decide_eq_true hall')
      rw [Option.any_some, decide_eq_true hlt]
      rfl

/-- A flush stores nothing twice if and only if, of the duplicates with one hash, it writes at most one
again. -/
theorem stored_once_iff (s : Settings) (clock : ℕ → ℤ) (content : Bytes → Bytes) :
    (∀ (c : Capping) (w : Work), c.segment_buffer.WF → w.fingers.WF →
      (c.buffer.map Prod.fst).Nodup → DupsKnown w c.buffer →
      (StoredOnce w (rewrite s clock content c w).2.2 ↔
        ∀ h, c.buffer.countP (fun p => (w.chunk p.1).is_new = .dedupChunk &&
          !segmentKept s.max_refer_count c.segment_buffer (w.chunk p.1).chunkaddress &&
          (w.chunk p.1).chunk_hash = h) ≤ 1)) ∧
    ∀ (files : List (FileInfo ℕ)) (w₀ : Work) (p : Perfect) (w : Work), w₀.fingers.WF →
      (files.flatMap FileInfo.chunks).Nodup →
      files.foldl (fun x fileinfo => (perfectProcess fileinfo x.1 x.2).2) (perfectRewriteInit, w₀) =
        (p, w) →
      (StoredOnce w (perfectFlush s clock content p w).2 ↔
        ∀ h, p.reached.countP (fun q => (w.chunk q.1).is_new = .dedupChunk &&
          (p.segments.lookup (w.chunk q.1).chunkaddress).any s.seldom &&
          (w.chunk q.1).chunk_hash = h) ≤ 1) := by
  refine ⟨fun c w hsegments hwf hnodup hknown => ?_, fun files w₀ p w hwf hnodup hrun => ?_⟩
  · rw [StoredOnce, rewrite_eq_settleAll s clock content hsegments]
    refine forall_congr' fun h => ?_
    rw [settleAll_once h hwf hnodup hknown]
    simp only [rewritten, keptSegments_lookup hsegments]
  · have hstart : PerfectPassed w₀ [] (perfectRewriteInit, w₀) :=
      ⟨perfectMarked_nil w₀, List.Sublist.refl _⟩
    obtain ⟨done, hdone, hpassed⟩ := perfectFiles_passed_some files hstart
      (by rw [List.nil_append]; exact hnodup)
    rw [hrun] at hpassed
    obtain ⟨hbuffer, hknown, hflush⟩ := hpassed.flush s clock content hwf hdone
    rw [StoredOnce, hflush]
    refine forall_congr' fun h => ?_
    exact settleAll_once h (hpassed.marked.fingers ▸ hwf) hbuffer hknown

/-- The settings in which a container has to be used by half. -/
def halfUsed : Settings :=
  ⟨.perfectRewrite, fun _ _ => false, fun _ => false, usageBelow (1 / 2), 0, 0⟩

/-- The settings in which one container is kept. -/
def oneKept : Settings := { halfUsed with buffer_capacity := 131072, max_refer_count := 1 }

/-- Two equal chunks of a container wait in the buffer. -/
def twoWaiting : Bool × Capping × Work :=
  cappingProcess oneKept (fun _ => 0) (fun _ => []) (equalFile 2) cappingInit (equalChunks 2)

/-- The same chunks, and a bin that has none of them. -/
def twoNew : Work := { equalChunks 2 with fingers := htableInit 0 }

/-- Duplicates in a container that is kept, and a stream with the same new chunk twice. -/
theorem stored_once_iff_two :
    StoredOnce twoWaiting.2.2
      (rewrite oneKept (fun _ => 0) (fun _ => []) twoWaiting.2.1 twoWaiting.2.2).2.2 ∧
    StoredOnce (perfectProcess (equalFile 2) perfectRewriteInit twoNew).2.2
      (perfectFlush oneKept (fun _ => 0) (fun _ => [])
        (perfectProcess (equalFile 2) perfectRewriteInit twoNew).2.1
        (perfectProcess (equalFile 2) perfectRewriteInit twoNew).2.2).2 := by
  have hiff := stored_once_iff oneKept (fun _ => 0) (fun _ => [])
  have hsegments : twoWaiting.2.1.segment_buffer =
      addUsage (· + ·) (addUsage (· + ·) (htableInit 50) (fixed 64 [97]) 65536) (fixed 64 [97]) 65536 := rfl
  have hbuffer : twoWaiting.2.1.buffer = [(0, [97]), (1, [97])] := by decide +kernel
  have hfound : (twoWaiting.2.1.buffer.all fun p => (twoWaiting.2.2.found p.1).isSome &&
      segmentKept 1 twoWaiting.2.1.segment_buffer (twoWaiting.2.2.chunk p.1).chunkaddress) = true := by
    decide +kernel
  have hnew : ∀ q ∈ (perfectProcess (equalFile 2) perfectRewriteInit twoNew).2.1.reached,
      ((perfectProcess (equalFile 2) perfectRewriteInit twoNew).2.2.chunk q.1).is_new = .newChunk := by
    decide +kernel
  have hkept := List.all_eq_true.mp hfound
  constructor
  · refine (hiff.1 twoWaiting.2.1 twoWaiting.2.2 ?_ (equalChunks_wf 2) ?_ fun p hp hdup => ?_).mpr fun h => ?_
    · rw [hsegments]
      exact addUsage_wf (addUsage_wf (HTable.init_wf 50) _ _) _ _
    · rw [hbuffer]
      decide
    · have hsome := (Bool.and_eq_true_iff.mp (hkept p hp)).1
      exact Option.isSome_iff_ne_none.mp hsome
    · rw [List.countP_eq_zero.mpr]
      · exact Nat.zero_le 1
      · intro p hp
        have hsegment := (Bool.and_eq_true_iff.mp (hkept p hp)).2
        simp [oneKept, hsegment]
  · refine (hiff.2 [equalFile 2] twoNew _ _ (HTable.init_wf 0) (by decide) rfl).mpr fun h => ?_
    rw [List.countP_eq_zero.mpr]
    · exact Nat.zero_le 1
    · intro q hq hcounted
      have hdup := of_decide_eq_true (Bool.and_eq_true_iff.mp (Bool.and_eq_true_iff.mp hcounted).1).1
      exact absurd ((hnew q hq).symm.trans hdup) (by decide)

/-- Two equal chunks in a container that is used too little are both written again. -/
theorem equal_chunks_stored_twice :
    ¬ ((∀ (s : Settings) (clock : ℕ → ℤ) (content : Bytes → Bytes) (c : Capping) (w : Work),
        c.segment_buffer.WF → w.fingers.WF → (c.buffer.map Prod.fst).Nodup → DupsKnown w c.buffer →
        StoredOnce w (rewrite s clock content c w).2.2) ∧
      ∀ (s : Settings) (clock : ℕ → ℤ) (content : Bytes → Bytes) (files : List (FileInfo ℕ))
        (w₀ : Work) (p : Perfect) (w : Work), w₀.fingers.WF →
        (files.flatMap FileInfo.chunks).Nodup →
        files.foldl (fun x fileinfo => (perfectProcess fileinfo x.1 x.2).2)
          (perfectRewriteInit, w₀) = (p, w) →
        StoredOnce w (perfectFlush s clock content p w).2) := by
  rintro ⟨-, hperfect⟩
  have honce := hperfect halfUsed (fun _ => 0) (fun _ => []) [equalFile 2] (equalChunks 2) _ _
    (equalChunks_wf 2) (by decide) rfl (fixed 20 [1])
  revert honce
  decide +kernel

end TCBackup.Client
