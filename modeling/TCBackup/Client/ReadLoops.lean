import TCBackup.Client.ExtremeBinning

/-!
# Reads of a fixed length (`client/src/chunkdedup.c`, `client/src/extreme_binning.c`)

`write_chunk_to_cloud` and `ReadBinFromVolume` call `read` until they have as many bytes as they
want. A result of zero does not end their loops.

## Main definitions

- `Result` — what a call of `read` returns
- `readLoop` — the loop, with the errors after which it goes on
- `writeChunkReads`, `readBinReads` — the two loops
- `StopsRight` — the loop ends, with `false` for missing bytes

## Main results

- `reads_stop_iff` — exactly when the loops stop
- `readBinFromVolume_eq_none_iff` — the loop over a volume whose region is cut
-/

namespace TCBackup.Client

open ByteFile

/-- The result of a `read`: `n` bytes, or all that it was asked for when that is less, or a
negative number with an error. -/
inductive Result
  | got (n : ℕ)
  | failed (errno : ℕ)
  deriving DecidableEq

def EINTR : ℕ := 4

def EAGAIN : ℕ := 11

variable (retried : ℕ → Bool) (results : ℕ → Result)

/-- The loop from result `i` on, for so many rounds, with `left` bytes to go: whether the bytes were
read. -/
def readLoop : ℕ → ℕ → ℕ → Option Bool
  | 0, _, _ => none
  | fuel + 1, i, left =>
    if left = 0 then some true
    else
      match results i with
      | .failed errno => if retried errno then readLoop fuel (i + 1) left else some false
      | .got n => readLoop fuel (i + 1) (left - n)

/-- The loop of `write_chunk_to_cloud`, for `chunklen` bytes. -/
def writeChunkReads (fuel chunklen : ℕ) : Option Bool :=
  readLoop (fun _ => false) results fuel 0 chunklen

/-- The loop of `ReadBinFromVolume`, for `current_bin_size` bytes. -/
def readBinReads (fuel current_bin_size : ℕ) : Option Bool :=
  readLoop (fun errno => errno = EINTR ∨ errno = EAGAIN) results fuel 0 current_bin_size

def Result.amount : Result → ℕ
  | .got n => n
  | .failed _ => 0

/-- The bytes of `m` results from result `i` on. -/
def delivered : ℕ → ℕ → ℕ
  | _, 0 => 0
  | i, m + 1 => (results i).amount + delivered (i + 1) m

/-- The results give as many bytes. -/
def Enough (n : ℕ) : Prop := ∃ m, n ≤ delivered results 0 m

/-- From some call on the file is at its end. -/
def EndsInEof : Prop := ∃ m, ∀ i ≥ m, results i = .got 0

/-- The loop stops, and it returns `false` when the bytes are not there. -/
def StopsRight (loop : ℕ → ℕ → Option Bool) (n : ℕ) : Prop :=
  ∃ fuel read, loop fuel n = some read ∧ (¬ Enough results n → read = false)

/-- One of `m` results from result `i` on is an error that ends the loop. -/
def Breaks (i m : ℕ) : Prop := ∃ j < m, ∃ errno, results (i + j) = .failed errno ∧ retried errno = false

variable {retried results} {fuel i left m n : ℕ} {read : Bool}

theorem Breaks.of_succ (h : Breaks retried results (i + 1) m) : Breaks retried results i (m + 1) := by
  obtain ⟨j, hj, errno, herr, hend⟩ := h
  exact ⟨j + 1, by omega, errno, by rw [← herr, Nat.add_right_comm, Nat.add_assoc], hend⟩

theorem Breaks.succ (h : Breaks retried results i (m + 1)) :
    (∃ errno, results i = .failed errno ∧ retried errno = false) ∨
      Breaks retried results (i + 1) m := by
  obtain ⟨j, hj, errno, herr, hend⟩ := h
  cases j with
  | zero => exact .inl ⟨errno, herr, hend⟩
  | succ j => exact .inr ⟨j, by omega, errno, by rw [← herr, Nat.add_right_comm, Nat.add_assoc], hend⟩

/-- The loop has stopped because it has the bytes, or because of an error. -/
theorem readLoop_some (h : readLoop retried results fuel i left = some read) :
    (read = true ∧ left ≤ delivered results i fuel) ∨
      (read = false ∧ Breaks retried results i fuel) := by
  induction fuel generalizing i left with
  | zero => cases h
  | succ fuel ih =>
    rw [readLoop] at h
    split at h
    · next hleft =>
      exact .inl ⟨(Option.some.inj h).symm, by omega⟩
    · split at h
      · next errno herr =>
        split at h
        · rcases ih h with ⟨hread, hle⟩ | ⟨hread, hfail⟩
          · refine .inl ⟨hread, ?_⟩
            rw [delivered]
            omega
          · exact .inr ⟨hread, hfail.of_succ⟩
        · next hend =>
          exact .inr ⟨(Option.some.inj h).symm, 0, by omega, errno, herr, by simpa using hend⟩
      · next k hgot =>
        rcases ih h with ⟨hread, hle⟩ | ⟨hread, hfail⟩
        · refine .inl ⟨hread, ?_⟩
          rw [delivered, hgot, Result.amount]
          omega
        · exact .inr ⟨hread, hfail.of_succ⟩

/-- With the bytes or an error among `m` results the loop stops. -/
theorem readLoop_stops (h : left ≤ delivered results i m ∨ Breaks retried results i m) :
    ∃ read, readLoop retried results (m + 1) i left = some read := by
  induction m generalizing i left with
  | zero =>
    rcases h with hle | ⟨j, hj, -⟩
    · have hleft : left = 0 := Nat.le_zero.mp hle
      exact ⟨true, by rw [readLoop, if_pos hleft]⟩
    · omega
  | succ m ih =>
    rw [readLoop]
    by_cases hleft : left = 0
    · exact ⟨true, by rw [if_pos hleft]⟩
    · rw [if_neg hleft]
      cases hres : results i with
      | failed errno =>
        cases hretry : retried errno with
        | false => exact ⟨false, if_neg (by rw [hretry]; decide)⟩
        | true =>
          show ∃ read, (if retried errno = true then _ else _) = some read
          rw [if_pos hretry]
          refine ih ?_
          rcases h with hle | hfail
          · rw [delivered, hres, Result.amount, Nat.zero_add] at hle
            exact .inl hle
          · rcases hfail.succ with ⟨errno', herr, hend⟩ | hfail
            · rw [hres] at herr
              cases herr
              rw [hretry] at hend
              cases hend
            · exact .inr hfail
      | got k =>
        refine ih ?_
        rcases h with hle | hfail
        · rw [delivered, hres, Result.amount] at hle
          exact .inl (by omega)
        · rcases hfail.succ with ⟨errno, herr, -⟩ | hfail
          · rw [hres] at herr
            cases herr
          · exact .inr hfail

theorem stopsRight_iff :
    StopsRight results (fun fuel n => readLoop retried results fuel 0 n) n ↔
      Enough results n ∨ ∃ i errno, results i = .failed errno ∧ retried errno = false := by
  constructor
  · rintro ⟨fuel, read, hrun, -⟩
    rcases readLoop_some hrun with ⟨-, hle⟩ | ⟨-, j, -, errno, herr, hend⟩
    · exact .inl ⟨fuel, hle⟩
    · exact .inr ⟨0 + j, errno, herr, hend⟩
  · intro h
    obtain ⟨m, hm⟩ : ∃ m, n ≤ delivered results 0 m ∨ Breaks retried results 0 m := by
      rcases h with ⟨m, hle⟩ | ⟨i, errno, herr, hend⟩
      · exact ⟨m, .inl hle⟩
      · exact ⟨i + 1, .inr ⟨i, by omega, errno, by rwa [Nat.zero_add], hend⟩⟩
    obtain ⟨read, hrun⟩ := readLoop_stops hm
    refine ⟨m + 1, read, hrun, fun hshort => ?_⟩
    rcases readLoop_some hrun with ⟨-, hle⟩ | ⟨hread, -⟩
    · exact absurd ⟨m + 1, hle⟩ hshort
    · exact hread

/-- The loops stop exactly when the bytes are there or a `read` fails, for `ReadBinFromVolume` with
another error than `EINTR` and `EAGAIN`. -/
theorem reads_stop_iff (results : ℕ → Result) (n : ℕ) :
    (StopsRight results (writeChunkReads results) n ↔
      Enough results n ∨ ∃ i errno, results i = .failed errno) ∧
    (StopsRight results (readBinReads results) n ↔
      Enough results n ∨ ∃ i errno, results i = .failed errno ∧ errno ≠ EINTR ∧ errno ≠ EAGAIN) := by
  constructor
  · rw [show writeChunkReads results = fun fuel n => readLoop (fun _ => false) results fuel 0 n from rfl,
      stopsRight_iff]
    simp
  · rw [show readBinReads results =
        fun fuel n => readLoop (fun errno => errno = EINTR ∨ errno = EAGAIN) results fuel 0 n from rfl,
      stopsRight_iff]
    simp

/-- A file that was cut to nothing: every `read` returns zero, and the loops go on for ever. -/
theorem cut_file_loops :
    ¬ ∀ (results : ℕ → Result) (n : ℕ), EndsInEof results →
      StopsRight results (writeChunkReads results) n ∧
        StopsRight results (readBinReads results) n := by
  intro h
  have hzero : ∀ i m, delivered (fun _ => .got 0) i m = 0 := by
    intro i m
    induction m generalizing i with
    | zero => rfl
    | succ m ih => rw [delivered, ih]; rfl
  rcases (reads_stop_iff _ 1).1.mp (h (fun _ => .got 0) 1 ⟨0, fun _ _ => rfl⟩).1 with
    ⟨m, hle⟩ | ⟨i, errno, herr⟩
  · rw [hzero] at hle
    omega
  · cases herr

/-- One `read` that gets what the file has, and then the end of the file. -/
def wholeRead (bytes : Bytes) : ℕ → Result
  | 0 => .got bytes.length
  | _ + 1 => .got 0

theorem delivered_wholeRead_succ (bytes : Bytes) (i m : ℕ) :
    delivered (wholeRead bytes) (i + 1) m = 0 := by
  induction m generalizing i with
  | zero => rfl
  | succ m ih => rw [delivered, ih]; rfl

theorem enough_wholeRead (bytes : Bytes) (n : ℕ) :
    Enough (wholeRead bytes) n ↔ n ≤ bytes.length := by
  constructor
  · rintro ⟨m, hle⟩
    cases m with
    | zero => exact hle.trans (Nat.zero_le _)
    | succ m => rwa [delivered, delivered_wholeRead_succ] at hle
  · exact fun hle => ⟨1, hle⟩

theorem readBinReads_wholeRead (bytes : Bytes) (n : ℕ) :
    (∀ fuel, readBinReads (wholeRead bytes) fuel n = none) ↔ bytes.length < n := by
  constructor
  · intro hnone
    by_contra hlong
    obtain ⟨fuel, read, hrun, -⟩ := (reads_stop_iff (wholeRead bytes) n).2.mpr
      (.inl ((enough_wholeRead bytes n).mpr (Nat.not_lt.mp hlong)))
    rw [hnone] at hrun
    cases hrun
  · intro hshort fuel
    cases hrun : readBinReads (wholeRead bytes) fuel n with
    | none => rfl
    | some read =>
      rcases readLoop_some hrun with ⟨-, hdel⟩ | ⟨-, j, -, errno, herr, -⟩
      · have := (enough_wholeRead bytes n).mp ⟨fuel, hdel⟩
        omega
      · rw [Nat.zero_add] at herr
        cases j <;> cases herr

/-- `readBinFromVolume` has no result exactly when the loop over the bytes of the region does not
stop. -/
theorem readBinFromVolume_eq_none_iff (d : Disk) (bin : Bin) :
    readBinFromVolume d bin = none ↔ ∃ file, d.files.bvol (levelOf bin.address) = some file ∧
      ∀ fuel, readBinReads
        (wholeRead (readAt file (offsetOf bin.address) (levelToMaxAmount (levelOf bin.address))))
        fuel (levelToMaxAmount (levelOf bin.address)) = none := by
  simp only [readBinReads_wholeRead]
  rw [readBinFromVolume]
  cases d.files.bvol (levelOf bin.address) with
  | none => simp
  | some file =>
    have hle : (readAt file (offsetOf bin.address)
        (levelToMaxAmount (levelOf bin.address))).length ≤ levelToMaxAmount (levelOf bin.address) :=
      (length_readAt ..).trans_le (Nat.min_le_left ..)
    simp only [Option.some.injEq, exists_eq_left']
    rw [hle.lt_iff_ne]
    split
    · next hshort => simp [hshort]
    · next hfull =>
      simp only [hfull, iff_false]
      split <;> simp

end TCBackup.Client
