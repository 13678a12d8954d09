import TCBackup.Framing
import TCBackup.Client.Restore

/-!
# Chunk lists that are cut (`client/src/filededup.c`)

`recv_deplicate_chunk` receives a count and as many chunk records. It compares what `bnet_recv`
returns with zero, while an error is −100 and a message that was cut is a smaller positive number.

## Main definitions

- `listFrom` — what `bnet_recv` meets on a byte stream
- `CompleteList` — the count and all its records arrived
- `ReceivedRight` — `SUCCESS` for a complete list and its records, `FAILURE` for others
- `EndsInZero` — a message without bytes is met

## Main results

- `received_right_iff` — exactly when a byte stream is received right
-/

namespace TCBackup.Client

open ByteFile Transfer

/-- The messages on a byte stream whose other end is closed behind it; `recv_deplicate_chunk` makes
no more calls than that. -/
def listFrom (k : Kernel) (stream : Bytes) : Incoming :=
  ⟨Framing.recvAll k 0 stream (2 ^ 31), true⟩

/-- The chunk of a record: a fingerprint and an address. -/
def recordChunk (r : Bytes) : FingerChunk :=
  { fingerchunkNew with
    chunk_hash := fixed 20 (readAt r 0 20)
    chunkaddress := fixed 64 (readAt r 20 64) }

/-- The count arrived in full, and so did that number of records of 84 bytes. -/
def CompleteList (ds : List Delivery) (records : List Bytes) : Prop :=
  ∃ count rest, ds = .whole count :: (records.map .whole ++ rest) ∧
    (4 ≤ count.length ∧ count.length < countRoom) ∧ (intOf (readAt count 0 4)).toNat = records.length ∧ ∀ r ∈ records, r.length = 84

/-- `recv_deplicate_chunk` returns `SUCCESS` for a complete list, with its chunks in the file, and
`FAILURE` in every other case. -/
def ReceivedRight (chunknum : ℤ) (fileinfo : RestoreFile) (conn : Incoming) : Prop :=
  (∀ records, CompleteList conn.arriving records → ∃ conn',
    recvDeplicateChunk chunknum fileinfo conn =
      .ok (true, { fileinfo with chunks := fileinfo.chunks ++ records.map recordChunk }, conn')) ∧
  ((¬ ∃ records, CompleteList conn.arriving records) → ∃ fileinfo' conn',
    recvDeplicateChunk chunknum fileinfo conn = .ok (false, fileinfo', conn'))

/-- The number of records that are asked for: the first message over what the variable holds. -/
def askedFor (chunknum : ℤ) : List Delivery → ℕ
  | [] => 0
  | d :: _ => chunkCount (d.into (intBytes 4 chunknum))

/-- Among the messages that are asked for there is one without bytes, and neither the count nor a
record before it goes beyond its buffer. -/
def EndsInZero (chunknum : ℤ) (ds : List Delivery) : Prop :=
  ∃ before d rest, ds = before ++ d :: rest ∧ d.ret = 0 ∧ before.length ≤ askedFor chunknum ds ∧
    (∀ count ∈ before.head?, count.stored ≤ countRoom) ∧ ∀ e ∈ before.tail, e.stored ≤ 85

variable {chunknum : ℤ} {fileinfo fileinfo' : RestoreFile} {conn conn' : Incoming} {n : ℕ}
  {ds : List Delivery} {closed : Bool}

theorem receivedChunk_into {r : Bytes} (hr : r.length = 84) :
    receivedChunk ((Delivery.whole r).into []) = recordChunk r := by
  have hinto : (Delivery.whole r).into [] = r ++ [0] := by
    rw [Delivery.whole, Delivery.into, writeAt_nil]
  rw [receivedChunk, recordChunk, hinto, readAt_append_left (by omega), readAt_append_left (by omega)]

/-- Records of the right length are received. -/
theorem recvChunks_records (records : List Bytes) (h : ∀ r ∈ records, r.length = 84)
    (fileinfo : RestoreFile) (rest : List Delivery) (closed : Bool) :
    recvChunks records.length fileinfo ⟨records.map .whole ++ rest, closed⟩ =
      .ok (true, { fileinfo with chunks := fileinfo.chunks ++ records.map recordChunk },
        ⟨rest, closed⟩) := by
  induction records generalizing fileinfo with
  | nil => simp [recvChunks]
  | cons r records ih =>
    have hr := h r List.mem_cons_self
    have hstored : (Delivery.whole r).stored = 85 := by
      rw [Delivery.whole, Delivery.stored, hr]
    have hret : (Delivery.whole r).ret = 84 := by
      rw [Delivery.whole, Delivery.ret, hr]
      rfl
    rw [List.length_cons, recvChunks, List.map_cons, List.cons_append, recvInto, recv]
    dsimp only
    rw [hstored, if_pos (le_refl _)]
    dsimp only
    rw [hret, if_neg (by decide), receivedChunk_into hr,
      ih (fun q hq => h q (List.mem_cons_of_mem r hq)), fileAppendFingerchunk]
    simp

theorem recvChunks_cons (n : ℕ) (fileinfo : RestoreFile) (d : Delivery) (ds : List Delivery)
    (closed : Bool) :
    recvChunks (n + 1) fileinfo ⟨d :: ds, closed⟩ =
      if d.stored ≤ 85 then
        if d.ret = 0 then .ok (false, fileinfo, ⟨ds, closed⟩)
        else recvChunks n (fileAppendFingerchunk fileinfo (receivedChunk (d.into []))) ⟨ds, closed⟩
      else .error .stuck := by
  rw [recvChunks, recvInto, recv]
  dsimp only
  by_cases hstored : d.stored ≤ 85
  · rw [if_pos hstored, if_pos hstored]
  · rw [if_neg hstored, if_neg hstored]

/-- At the end of the connection the loop goes on with errors. -/
theorem recvChunks_nil (n : ℕ) (fileinfo : RestoreFile) :
    ∃ fileinfo', recvChunks n fileinfo ⟨[], true⟩ = .ok (true, fileinfo', ⟨[], true⟩) := by
  induction n generalizing fileinfo with
  | zero => exact ⟨fileinfo, rfl⟩
  | succ n ih => exact ih _

theorem stored_le_one {d : Delivery} (h : d.ret = 0) : d.stored ≤ 1 := by
  cases d with
  | error => exact Nat.zero_le 1
  | signal len => exact Nat.zero_le 1
  | message announced bytes =>
    have hlen : (bytes.length : ℤ) = 0 := h
    rw [Delivery.stored]
    omega

/-- The loop returns `FAILURE` at a message without bytes, and there only. -/
theorem recvChunks_false_iff :
    (∃ fileinfo' conn', recvChunks n fileinfo ⟨ds, true⟩ = .ok (false, fileinfo', conn')) ↔
      ∃ before d rest, ds = before ++ d :: rest ∧ d.ret = 0 ∧ before.length < n ∧
        ∀ e ∈ before ++ [d], e.stored ≤ 85 := by
  induction n generalizing fileinfo ds with
  | zero =>
    constructor
    · rintro ⟨fileinfo', conn', h⟩
      cases h
    · rintro ⟨before, d, rest, -, -, hlt, -⟩
      omega
  | succ n ih =>
    cases ds with
    | nil =>
      obtain ⟨fileinfo₁, hrun⟩ := recvChunks_nil (n + 1) fileinfo
      constructor
      · rintro ⟨fileinfo', conn', h⟩
        rw [hrun] at h
        cases h
      · rintro ⟨before, d, rest, heq, -⟩
        exact absurd heq.symm (by simp)
    | cons d ds =>
      rw [recvChunks_cons]
      by_cases hstored : d.stored ≤ 85
      · rw [if_pos hstored]
        by_cases hret : d.ret = 0
        · rw [if_pos hret]
          exact iff_of_true ⟨_, _, rfl⟩ ⟨[], d, ds, rfl, hret, by simp, by simpa using hstored⟩
        · rw [if_neg hret, ih]
          constructor
          · rintro ⟨before, z, rest, rfl, hzero, hlt, hall⟩
            refine ⟨d :: before, z, rest, rfl, hzero, by simpa using hlt, ?_⟩
            rw [List.cons_append, List.forall_mem_cons]
            exact ⟨hstored, hall⟩
          · rintro ⟨before, z, rest, heq, hzero, hlt, hall⟩
            cases before with
            | nil =>
              obtain ⟨rfl, -⟩ := List.cons.inj heq
              exact absurd hzero hret
            | cons e before =>
              obtain ⟨rfl, rfl⟩ := List.cons.inj heq
              exact ⟨before, z, rest, rfl, hzero, by simpa using hlt,
                fun e he => hall e (List.mem_cons_of_mem _ he)⟩
      · rw [if_neg hstored]
        constructor
        · rintro ⟨fileinfo', conn', h⟩
          cases h
        · rintro ⟨before, z, rest, heq, -, -, hall⟩
          refine absurd (hall d ?_) hstored
          cases before with
          | nil =>
            obtain ⟨rfl, -⟩ := List.cons.inj heq
            exact List.mem_cons_self
          | cons e before =>
            obtain ⟨rfl, -⟩ := List.cons.inj heq
            exact List.mem_cons_self

theorem recvDeplicateChunk_complete {records : List Bytes} (h : CompleteList ds records)
    (chunknum : ℤ) (fileinfo : RestoreFile) (closed : Bool) : ∃ conn',
      recvDeplicateChunk chunknum fileinfo ⟨ds, closed⟩ =
        .ok (true, { fileinfo with chunks := fileinfo.chunks ++ records.map recordChunk }, conn') := by
  obtain ⟨count, rest, rfl, ⟨hlen, hroom⟩, hcount, hall⟩ := h
  have hstored : (Delivery.whole count).stored ≤ countRoom := hroom
  have hret : (Delivery.whole count).ret = count.length := rfl
  have hasked : chunkCount ((Delivery.whole count).into (intBytes 4 chunknum)) = records.length := by
    have hinside : readAt (writeAt (intBytes 4 chunknum) 0 (count ++ [0])) (0 + 0) 4 =
        readAt (count ++ [0]) 0 4 := readAt_writeAt_inside (by simp; omega)
    rw [← hcount, chunkCount]
    show (intOf (readAt (writeAt (intBytes 4 chunknum) 0 (count ++ [0])) 0 4)).toNat = _
    rw [show (0 : ℕ) = 0 + 0 from rfl, hinside, readAt_append_left (by omega)]
  rw [recvDeplicateChunk, recvInto, recv]
  dsimp only
  rw [if_pos hstored]
  dsimp only
  rw [hret, if_neg (by omega), hasked]
  exact ⟨_, recvChunks_records records hall fileinfo rest closed⟩

/-- `FAILURE` is returned when a message without bytes is met, and only then. -/
theorem recvDeplicateChunk_false_iff :
    (∃ fileinfo' conn', recvDeplicateChunk chunknum fileinfo ⟨ds, true⟩ =
      .ok (false, fileinfo', conn')) ↔ EndsInZero chunknum ds := by
  cases ds with
  | nil =>
    obtain ⟨fileinfo₁, hrun⟩ := recvChunks_nil
      (chunkCount (Delivery.error.into (intBytes 4 chunknum))) fileinfo
    have herror : Delivery.error.ret ≠ 0 := by decide
    constructor
    · rintro ⟨fileinfo', conn', h⟩
      rw [recvDeplicateChunk, recvInto, recv] at h
      dsimp only at h
      rw [if_pos (show Delivery.error.stored ≤ countRoom from Nat.zero_le _)] at h
      dsimp only at h
      rw [if_neg herror, hrun] at h
      cases h
    · rintro ⟨before, d, rest, heq, -⟩
      exact absurd heq.symm (by simp)
  | cons d ds =>
    rw [recvDeplicateChunk, recvInto, recv]
    dsimp only
    by_cases hstored : d.stored ≤ countRoom
    · rw [if_pos hstored]
      dsimp only
      by_cases hret : d.ret = 0
      · rw [if_pos hret]
        exact iff_of_true ⟨_, _, rfl⟩ ⟨[], d, ds, rfl, hret, Nat.zero_le _, by simp, by simp⟩
      · rw [if_neg hret, recvChunks_false_iff, EndsInZero]
        constructor
        · rintro ⟨before, z, rest, rfl, hzero, hlt, hall⟩
          refine ⟨d :: before, z, rest, rfl, hzero, hlt, by simpa using hstored, ?_⟩
          exact fun e he => hall e (List.mem_append_left _ he)
        · rintro ⟨before, z, rest, heq, hzero, hle, -, hall⟩
          cases before with
          | nil =>
            obtain ⟨rfl, -⟩ := List.cons.inj heq
            exact absurd hzero hret
          | cons e before =>
            obtain ⟨rfl, rfl⟩ := List.cons.inj heq
            refine ⟨before, z, rest, rfl, hzero, hle, ?_⟩
            intro e he
            rcases List.mem_append.mp he with hold | hlast
            · exact hall e hold
            · rw [List.mem_singleton.mp hlast]
              exact (stored_le_one hzero).trans (by decide)
    · rw [if_neg hstored]
      -- the count leaves its variable
      constructor
      · rintro ⟨fileinfo', conn', h⟩
        cases h
      · rintro ⟨before, z, rest, heq, hzero, -, hfirst, -⟩
        refine absurd ?_ hstored
        cases before with
        | nil =>
          obtain ⟨rfl, -⟩ := List.cons.inj heq
          exact (stored_le_one hzero).trans (by decide)
        | cons e before =>
          obtain ⟨rfl, -⟩ := List.cons.inj heq
          exact hfirst d rfl

/-- The list is received right if it is complete, or if a message without bytes is met. -/
theorem received_right_iff (k : Kernel) (stream : Bytes) (chunknum : ℤ) (fileinfo : RestoreFile) :
    ReceivedRight chunknum fileinfo (listFrom k stream) ↔
      (∃ records, CompleteList (listFrom k stream).arriving records) ∨
        EndsInZero chunknum (listFrom k stream).arriving := by
  have hfalse : (∃ fileinfo' conn', recvDeplicateChunk chunknum fileinfo (listFrom k stream) =
      .ok (false, fileinfo', conn')) ↔ EndsInZero chunknum (listFrom k stream).arriving :=
    recvDeplicateChunk_false_iff
  constructor
  · rintro ⟨-, hfail⟩
    by_cases hcomplete : ∃ records, CompleteList (listFrom k stream).arriving records
    · exact .inl hcomplete
    · exact .inr (hfalse.mp (hfail hcomplete))
  · intro h
    refine ⟨fun records hrec => recvDeplicateChunk_complete hrec chunknum fileinfo true, ?_⟩
    intro hcut
    exact hfalse.mpr (h.resolve_left hcut)

theorem recvAll_nil {k : Kernel} (hk : k.Reliable) (i n : ℕ) :
    Framing.recvAll k i [] n = List.replicate n .error := by
  induction n generalizing i with
  | zero => rfl
  | succ n ih =>
    obtain ⟨next, hrecv⟩ := Framing.bnetRecv_nil hk i
    rw [Framing.recvAll, hrecv, List.replicate_succ]
    exact congrArg _ (ih next)

/-- The count says one record, and the connection ends: the client appends a record of zeros and
returns `SUCCESS`. -/
theorem cut_list_succeeds :
    ¬ ∀ (k : Kernel) (stream : Bytes) (chunknum : ℤ) (fileinfo : RestoreFile),
      ReceivedRight chunknum fileinfo (listFrom k stream) := by
  intro h
  let count := intBytes 8 1
  obtain ⟨next, hfirst⟩ : ∃ next, Framing.bnetRecv Framing.choppy 0
      (Framing.htonl count.length ++ count ++ []) = (.whole count, next, []) :=
    Framing.bnetRecv_send Framing.choppy_reliable 0 (by decide) (by decide) []
  have harrive : (listFrom Framing.choppy (Framing.htonl count.length ++ count)).arriving =
      .whole count :: List.replicate (2 ^ 31 - 1) .error := by
    rw [listFrom]
    show Framing.recvAll Framing.choppy 0 _ (2 ^ 31 - 1 + 1) = _
    rw [List.append_nil] at hfirst
    rw [Framing.recvAll, hfirst]
    exact congrArg _ (recvAll_nil Framing.choppy_reliable next (2 ^ 31 - 1))
  have hright := (received_right_iff _ _ _ _).mp
    (h Framing.choppy (Framing.htonl count.length ++ count) 0 fileNew)
  rw [harrive] at hright
  rcases hright with ⟨records, read, rest, heq, -, hnum, -⟩ | ⟨before, d, rest, heq, hzero, -⟩
  · obtain ⟨hcount, hmore⟩ := List.cons.inj heq
    obtain ⟨-, rfl⟩ := Delivery.message.inj hcount
    have hone : (intOf (readAt count 0 4)).toNat = 1 := by decide
    obtain ⟨r, hr⟩ := List.exists_mem_of_length_pos (l := records) (by omega)
    have hmem : Delivery.whole r ∈ List.replicate (2 ^ 31 - 1) Delivery.error := by
      rw [hmore]
      exact List.mem_append_left _ (List.mem_map.mpr ⟨r, hr, rfl⟩)
    cases List.eq_of_mem_replicate hmem
  · have hmem : d ∈ Delivery.whole count :: List.replicate (2 ^ 31 - 1) Delivery.error := by
      rw [heq]
      exact List.mem_append_right _ List.mem_cons_self
    rcases List.mem_cons.mp hmem with rfl | herr
    · exact absurd hzero (by decide)
    · rw [List.eq_of_mem_replicate herr] at hzero
      exact absurd hzero (by decide)

end TCBackup.Client
