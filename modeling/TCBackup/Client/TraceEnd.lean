import Mathlib.Data.List.ReduceOption
import TCBackup.Client.ReadTrace

/-!
# The end of a trace (`client/src/read_trace.c`)

The loop of `read_trace` ends at a `STREAM_END` line only. At the end of the file `fgets` leaves the
buffer alone, and the last line is read again.

## Main definitions

- `traceLines` — the pieces that `fgets` reads a file in
- `orderly` — a `STREAM_END` line ends lines that are in order
- `EndsOnce` — the loop ends, and no `FileInfo` is pushed twice

## Main results

- `ends_once_iff` — exactly when it does
-/

namespace TCBackup.Client

open ByteFile

/-- What a line is to `read_trace`. An index is good when it fits into `fileindex`. -/
inductive LineKind
  | streamEnd
  | index (good : Bool)
  | fileEnd
  | chunk
  deriving DecidableEq

def kindOf (line : Bytes) : LineKind :=
  if streamEndWord.isPrefixOf line then .streamEnd
  else if fileindexWord.isPrefixOf line then
    .index (1 ≤ (cstring (line.drop 10)).length ∧ (cstring (line.drop 10)).length ≤ 10)
  else if fileEndWord.isPrefixOf line then .fileEnd
  else .chunk

/-- The lines of a file with at most `n` lines. -/
def cutLines : ℕ → Bytes → List Bytes
  | 0, _ => []
  | n + 1, rest =>
    if rest = [] then [] else takeLine 127 rest :: cutLines n (rest.drop (takeLine 127 rest).length)

/-- The pieces that `fgets` reads the file in. -/
def traceLines (trace : Bytes) : List Bytes := cutLines trace.length trace

/-- Whether there is a file, and whether it has been pushed, behind a line; `none` where the line is
out of order. -/
def nextFile : Option Bool → LineKind → Option (Option Bool)
  | _, .index good => if good then some (some false) else none
  | some true, .fileEnd => none
  | some false, .fileEnd => some (some true)
  | none, .fileEnd => some none
  | none, .chunk => none
  | some pushed, .chunk => some (some pushed)
  | _, .streamEnd => none

/-- There is a `STREAM_END` line, and in front of it every index is good, every chunk has a file, and
no file ends twice. -/
def orderly : Option Bool → List Bytes → Bool
  | _, [] => false
  | file, line :: lines =>
    if kindOf line = .streamEnd then true
    else
      match nextFile file (kindOf line) with
      | none => false
      | some file => orderly file lines

/-- No `FileInfo` is in the queue twice. -/
def Reading.Once (s : Reading) : Prop := s.queue.reduceOption.Nodup

/-- `read_trace` ends, and it has pushed every `FileInfo` at most once. -/
def EndsOnce (trace line : Bytes) : Prop :=
  ∃ fuel s, readTrace fuel trace line = some s ∧ s.Once

variable {s s' : Reading} {file file' : Option Bool} {line rest : Bytes} {fuel n : ℕ}

theorem isPrefixOf_terminated {w : Bytes} (hw : 0 ∉ w) (line more : Bytes) :
    w.isPrefixOf (line ++ 0 :: more) = w.isPrefixOf line := by
  induction w generalizing line with
  | nil => rw [List.isPrefixOf_nil_left, List.isPrefixOf_nil_left]
  | cons a w ih =>
    rw [List.mem_cons, not_or] at hw
    cases line with
    | nil =>
      rw [List.nil_append, List.isPrefixOf_cons_cons, beq_false_of_ne (Ne.symm hw.1)]
      rfl
    | cons b line => rw [List.cons_append, List.isPrefixOf_cons_cons, List.isPrefixOf_cons_cons, ih hw.2]

theorem cstring_terminated (line more : Bytes) : cstring (line ++ 0 :: more) = cstring line := by
  induction line with
  | nil => rfl
  | cons a line ih =>
    rw [cstring, cstring, List.cons_append, List.takeWhile_cons, List.takeWhile_cons]
    split
    · exact congrArg _ ih
    · rfl

/-- What lies behind the string in the buffer does not matter for the kind of the line. -/
theorem kindOf_terminated (line more : Bytes) : kindOf (line ++ 0 :: more) = kindOf line := by
  rw [kindOf, kindOf, isPrefixOf_terminated (by decide), isPrefixOf_terminated (by decide),
    isPrefixOf_terminated (by decide)]
  split
  · rfl
  · split
    · next hindex =>
      have hlen : 10 ≤ line.length := (List.isPrefixOf_iff_prefix.mp hindex).length_le
      rw [List.drop_append_of_le_length hlen, cstring_terminated]
    · rfl

/-- One call of `fgets` while there are bytes left. -/
theorem fgets_of_ne_nil (h : rest ≠ []) (line : Bytes) :
    ∃ more, fgets 128 rest line =
      (rest.drop (takeLine 127 rest).length, takeLine 127 rest ++ 0 :: more) := by
  rw [fgets, if_neg h]
  exact ⟨_, Prod.ext rfl (by simp [writeAt]; rfl)⟩

theorem takeLine_ne_nil (h : rest ≠ []) (n : ℕ) : takeLine (n + 1) rest ≠ [] := by
  cases rest with
  | nil => exact absurd rfl h
  | cons c rest =>
    rw [takeLine]
    split <;> exact List.cons_ne_nil _ _

/-- More room for lines does not give more lines. -/
theorem cutLines_eq (h : rest.length ≤ n) : cutLines n rest = traceLines rest := by
  induction n using Nat.strong_induction_on generalizing rest with
  | _ n ih =>
    rw [traceLines]
    cases rest with
    | nil => cases n <;> rfl
    | cons c rest =>
      obtain ⟨n, rfl⟩ := Nat.exists_eq_succ_of_ne_zero (Nat.ne_of_gt (Nat.zero_lt_of_lt h))
      have hpos : 0 < (takeLine 127 (c :: rest)).length :=
        List.length_pos_of_ne_nil (takeLine_ne_nil (List.cons_ne_nil c rest) 126)
      have hless : ((c :: rest).drop (takeLine 127 (c :: rest)).length).length ≤ rest.length := by
        simp only [List.length_drop, List.length_cons]
        omega
      rw [List.length_cons, cutLines, if_neg (List.cons_ne_nil c rest), cutLines,
        if_neg (List.cons_ne_nil c rest)]
      rw [List.length_cons] at h
      rw [ih n (by omega) (hless.trans (by omega))]
      rcases Nat.lt_or_ge rest.length (n + 1) with hlt | hge
      · rw [ih rest.length hlt hless]
      · omega

theorem traceLines_of_ne_nil (h : rest ≠ []) :
    traceLines rest = takeLine 127 rest :: traceLines (rest.drop (takeLine 127 rest).length) := by
  have hpos : 0 < (takeLine 127 rest).length := List.length_pos_of_ne_nil (takeLine_ne_nil h 126)
  have hlen := List.length_pos_of_ne_nil h
  obtain ⟨n, hn⟩ := Nat.exists_eq_succ_of_ne_zero (Nat.ne_of_gt hlen)
  rw [traceLines, hn, cutLines, if_neg h, cutLines_eq]
  rw [List.length_drop]
  omega

/-- The state of `read_trace` behind lines in order. -/
structure Tracks (file : Option Bool) (s : Reading) : Prop where
  current : file = none ↔ s.fileinfo = none
  pushed : ∀ i, s.fileinfo = some i → (file = some true ↔ some i ∈ s.queue)
  inside : ∀ i, s.fileinfo = some i → i < s.files.length
  queued : ∀ i, some i ∈ s.queue → i < s.files.length

theorem Reading.once_append {s : Reading} {p : Option ℕ} :
    (s.queue ++ [p]).reduceOption.Nodup ↔ s.Once ∧ ∀ i, p = some i → some i ∉ s.queue := by
  cases p with
  | none => simp [Reading.Once, List.reduceOption]
  | some i =>
    rw [List.reduceOption_append, List.reduceOption_singleton, Option.toList_some,
      List.nodup_append, Reading.Once]
    simp only [List.reduceOption_mem_iff, List.mem_singleton, Option.some.injEq, forall_eq']
    constructor
    · rintro ⟨honce, -, hne⟩
      exact ⟨honce, fun hmem => hne i hmem i rfl rfl⟩
    · rintro ⟨honce, hnot⟩
      refine ⟨honce, List.nodup_singleton i, ?_⟩
      rintro a ha b rfl rfl
      exact hnot ha

/-- A new record is behind all records in the queue. -/
theorem Tracks.alloc (h : Tracks file s) (f : TraceFile) : Tracks (some false) (s.alloc f) where
  current := by simp [Reading.alloc]
  pushed i hi := by
    obtain rfl := Option.some.inj hi
    refine iff_of_false (by simp) fun hmem => ?_
    exact absurd (h.queued _ hmem) (Nat.lt_irrefl _)
  inside i hi := by
    obtain rfl := Option.some.inj hi
    simp [Reading.alloc]
  queued i hi := by
    have := h.queued i hi
    simp only [Reading.alloc, List.length_append, List.length_singleton]
    omega

/-- The record of the file is in the queue behind the push. -/
theorem Tracks.push (h : Tracks file s) : Tracks (file.map fun _ => true) s.push where
  current := by
    rw [Option.map_eq_none_iff]
    exact h.current
  pushed i hi := by
    have hi' : s.fileinfo = some i := hi
    refine iff_of_true ?_ (by simp [Reading.push, hi'])
    cases file with
    | none => exact absurd (h.current.mp rfl) (by simp [hi'])
    | some p => rfl
  inside := h.inside
  queued i hi := by
    rcases List.mem_append.mp hi with hold | hnew
    · exact h.queued i hold
    · exact h.inside i (List.mem_singleton.mp hnew).symm

/-- A push keeps the queue free of repetitions unless the file has been pushed. -/
theorem Tracks.once_push (h : Tracks file s) : s.push.Once ↔ s.Once ∧ file ≠ some true := by
  rw [Reading.Once, Reading.push, Reading.once_append]
  refine and_congr_right fun _ => ?_
  cases hp : s.fileinfo with
  | none =>
    rw [h.current.mpr hp]
    simp
  | some i =>
    rw [Ne, h.pushed i hp]
    simp

/-- A line that does not end the loop: it is in order and leads to a state behind lines in order, or
it is not, and the loop cannot end well. -/
theorem onLine_spec (h : Tracks file s) (hkind : kindOf s.line ≠ .streamEnd) :
    (∃ file' s', nextFile file (kindOf s.line) = some file' ∧ onLine s = .again s' ∧
      s'.rest = s.rest ∧ s'.line = s.line ∧ Tracks file' s' ∧ (s'.Once ↔ s.Once)) ∨
    (nextFile file (kindOf s.line) = none ∧
      (onLine s = .undefined ∨ ∃ s', onLine s = .again s' ∧ ¬ s'.Once)) := by
  rw [kindOf] at hkind ⊢
  rw [onLine]
  by_cases hend : streamEndWord.isPrefixOf s.line
  · rw [if_pos hend] at hkind
    exact absurd rfl hkind
  · rw [if_neg hend, if_neg hend]
    by_cases hindex : fileindexWord.isPrefixOf s.line
    · rw [if_pos hindex, if_pos hindex]
      dsimp only
      by_cases hgood : 1 ≤ (cstring (s.line.drop 10)).length ∧ (cstring (s.line.drop 10)).length ≤ 10
      · refine .inl ⟨some false, _, ?_, if_pos hgood, rfl, rfl, h.alloc _, Iff.rfl⟩
        rw [nextFile, if_pos (decide_eq_true hgood)]
      · refine .inr ⟨?_, .inl (if_neg hgood)⟩
        rw [nextFile, if_neg (by simpa using hgood)]
    · rw [if_neg hindex, if_neg hindex]
      by_cases hfile : fileEndWord.isPrefixOf s.line
      · rw [if_pos hfile, if_pos hfile]
        cases file with
        | none => exact .inl ⟨none, _, rfl, rfl, rfl, rfl, h.push, h.once_push.trans (by simp)⟩
        | some pushed =>
          cases pushed with
          | false =>
            exact .inl ⟨some true, _, rfl, rfl, rfl, rfl, h.push, h.once_push.trans (by simp)⟩
          | true => exact .inr ⟨rfl, .inr ⟨_, rfl, fun honce => (h.once_push.mp honce).2 rfl⟩⟩
      · rw [if_neg hfile, if_neg hfile]
        cases file with
        | none =>
          rw [h.current.mp rfl]
          exact .inr ⟨rfl, .inl rfl⟩
        | some p =>
          cases hp : s.fileinfo with
          | none => exact absurd (h.current.mpr hp) (by simp)
          | some i =>
            refine .inl ⟨some p, _, rfl, rfl, rfl, rfl, ⟨?_, ?_, ?_, ?_⟩, Iff.rfl⟩
            · exact iff_of_false (by simp) (by simp)
            · exact fun j hj => h.pushed j (hp.trans hj)
            · intro j hj
              rw [List.length_modify]
              exact h.inside j (hp.trans hj)
            · intro j hj
              rw [List.length_modify]
              exact h.queued j hj

theorem isPrefixOf_of_kindOf (hkind : kindOf line = .streamEnd) :
    streamEndWord.isPrefixOf line := by
  by_contra hend
  rw [kindOf, if_neg hend] at hkind
  split at hkind
  · cases hkind
  · split at hkind <;> cases hkind

theorem onLine_streamEnd (h : Tracks file s) (honce : s.Once) (hkind : kindOf s.line = .streamEnd) :
    ∃ s', onLine s = .done s' ∧ s'.Once :=
  ⟨_, if_pos (isPrefixOf_of_kindOf hkind), (h.alloc _).once_push.mpr ⟨honce, by simp⟩⟩

/-- The loop goes on with the next line while there is one. -/
theorem turn_of_ne_nil (h : Tracks file s) (hne : s.rest ≠ []) :
    ∃ s', turn s = onLine s' ∧ Tracks file s' ∧ s'.queue = s.queue ∧
      traceLines s.rest = takeLine 127 s.rest :: traceLines s'.rest ∧
      kindOf s'.line = kindOf (takeLine 127 s.rest) := by
  obtain ⟨more, hget⟩ := fgets_of_ne_nil hne s.line
  refine ⟨{ s with
    rest := s.rest.drop (takeLine 127 s.rest).length
    line := takeLine 127 s.rest ++ 0 :: more }, by rw [turn, hget],
    ⟨h.current, h.pushed, h.inside, h.queued⟩, rfl, traceLines_of_ne_nil hne,
    kindOf_terminated _ more⟩

/-- At the end of the file it goes on with the line that is in the buffer. -/
theorem turn_of_nil (hnil : s.rest = []) : turn s = onLine s := by
  rw [turn, fgets, if_pos hnil]

/-- The queue only grows, so that what is in it twice stays there twice. -/
theorem once_of_onLine (h : onLine s = .again s' ∨ onLine s = .done s') (honce : s'.Once) :
    s.Once := by
  have hgrow : s'.queue = s.queue ∨ ∃ p, s'.queue = s.queue ++ [p] := by
    rw [onLine] at h
    split at h
    · rcases h with h | h <;> cases h
      exact .inr ⟨_, rfl⟩
    · split at h
      · dsimp only at h
        split at h
        · rcases h with h | h <;> cases h
          exact .inl rfl
        · rcases h with h | h <;> cases h
      · split at h
        · rcases h with h | h <;> cases h
          exact .inr ⟨_, rfl⟩
        · split at h
          · rcases h with h | h <;> cases h
          · rcases h with h | h <;> cases h
            exact .inl rfl
  rcases hgrow with hsame | ⟨p, happ⟩
  · rwa [Reading.Once, ← hsame]
  · rw [Reading.Once, happ, Reading.once_append] at honce
    exact honce.1

theorem once_of_turn (h : turn s = .again s' ∨ turn s = .done s') (honce : s'.Once) : s.Once :=
  once_of_onLine (s := { s with
    rest := (fgets 128 s.rest s.line).1, line := (fgets 128 s.rest s.line).2 }) h honce

theorem once_of_loop (h : readTraceLoop fuel s = some s') (honce : s'.Once) : s.Once := by
  induction fuel generalizing s with
  | zero => cases h
  | succ fuel ih =>
    rw [readTraceLoop] at h
    split at h
    · next s₁ hturn => exact once_of_turn (.inl hturn) (ih h)
    · next s₁ hturn =>
      obtain rfl := Option.some.inj h
      exact once_of_turn (.inr hturn) honce
    · cases h

/-- With lines in order the loop ends. -/
theorem ends_of_orderly (lines : List Bytes) (h : Tracks file s) (honce : s.Once)
    (hlines : traceLines s.rest = lines) (horder : orderly file lines) :
    ∃ fuel s', readTraceLoop fuel s = some s' ∧ s'.Once := by
  induction lines generalizing s file with
  | nil => cases horder
  | cons line lines ih =>
    have hne : s.rest ≠ [] := by
      intro hnil
      rw [hnil] at hlines
      cases hlines
    obtain ⟨s₀, hturn, htracks, hqueue, hsplit, hkind⟩ := turn_of_ne_nil h hne
    rw [hsplit] at hlines
    obtain ⟨rfl, hmore⟩ := List.cons.inj hlines
    have honce₀ : s₀.Once := by rwa [Reading.Once, hqueue]
    rw [orderly, ← hkind] at horder
    by_cases hend : kindOf s₀.line = .streamEnd
    · obtain ⟨s', hdone, honce'⟩ := onLine_streamEnd htracks honce₀ hend
      exact ⟨1, s', by rw [readTraceLoop, hturn, hdone], honce'⟩
    · rw [if_neg hend] at horder
      rcases onLine_spec htracks hend with ⟨file', s', hnext, hline, hrest, -, htracks', honce'⟩ |
        ⟨hnext, -⟩
      · rw [hnext] at horder
        obtain ⟨fuel, s₁, hrun, hdone⟩ := ih htracks' (honce'.mpr honce₀) (by rw [hrest, hmore]) horder
        exact ⟨fuel + 1, s₁, (readTraceLoop_again (hturn.trans hline) fuel).trans hrun, hdone⟩
      · rw [hnext] at horder
        cases horder

/-- If the loop ends well, the lines are in order, or the file is at its end and the buffer has the
word already. -/
theorem orderly_of_ends (h : Tracks file s) (hrun : readTraceLoop fuel s = some s')
    (honce : s'.Once) :
    orderly file (traceLines s.rest) ∨ (s.rest = [] ∧ kindOf s.line = .streamEnd) := by
  induction fuel generalizing s file with
  | zero => cases hrun
  | succ fuel ih =>
    obtain ⟨s₀, hturn, htracks, hcase⟩ : ∃ s₀, turn s = onLine s₀ ∧ Tracks file s₀ ∧
        ((s.rest = [] ∧ s₀.rest = [] ∧ s₀.line = s.line) ∨
          ∃ line, traceLines s.rest = line :: traceLines s₀.rest ∧ kindOf s₀.line = kindOf line) := by
      by_cases hnil : s.rest = []
      · exact ⟨s, turn_of_nil hnil, h, .inl ⟨hnil, hnil, rfl⟩⟩
      · obtain ⟨s₀, hturn, htracks, -, hsplit, hkind⟩ := turn_of_ne_nil h hnil
        exact ⟨s₀, hturn, htracks, .inr ⟨_, hsplit, hkind⟩⟩
    by_cases hend : kindOf s₀.line = .streamEnd
    · rcases hcase with ⟨hnil, -, hline⟩ | ⟨line, hlines, hkind⟩
      · exact .inr ⟨hnil, hline ▸ hend⟩
      · left
        rw [hlines, orderly, if_pos (hkind ▸ hend)]
    · rw [readTraceLoop, hturn] at hrun
      rcases onLine_spec htracks hend with
        ⟨file', s₁, hnext, hline, hrest, hbuffer, htracks', -⟩ | ⟨-, hundef | ⟨s₁, hline, hbad⟩⟩
      · rw [hline] at hrun
        rcases ih htracks' hrun with horder | ⟨-, hword⟩
        · rcases hcase with ⟨-, hnil, -⟩ | ⟨line, hlines, hkind⟩
          · rw [hrest, hnil] at horder
            cases horder
          · left
            rw [hlines, orderly, if_neg (hkind ▸ hend), ← hkind, hnext, ← hrest]
            exact horder
        · exact absurd (hbuffer ▸ hword) hend
      · rw [hundef] at hrun
        cases hrun
      · rw [hline] at hrun
        exact absurd (once_of_loop hrun honce) hbad

/-- `read_trace` ends and pushes no file twice exactly when the lines are in order. For an empty file
it depends on what the buffer has. -/
theorem ends_once_iff (trace line : Bytes) :
    EndsOnce trace line ↔
      orderly none (traceLines trace) ∨ (trace = [] ∧ streamEndWord.isPrefixOf line) := by
  have htracks : Tracks none ⟨trace, line, none, [], []⟩ :=
    ⟨by simp, by simp, by simp, by simp⟩
  constructor
  · rintro ⟨fuel, s, hrun, honce⟩
    exact (orderly_of_ends htracks hrun honce).imp id
      fun ⟨hnil, hkind⟩ => ⟨hnil, isPrefixOf_of_kindOf hkind⟩
  · rintro (horder | ⟨rfl, hword⟩)
    · exact ends_of_orderly _ htracks List.nodup_nil rfl horder
    · obtain ⟨s, hdone, honce⟩ := onLine_streamEnd htracks List.nodup_nil (if_pos hword)
      exact ⟨1, s, by rw [readTrace, readTraceLoop, turn_of_nil rfl, hdone], honce⟩

/-- A trace that was cut behind `FILE_END`: the file is pushed again and again. -/
theorem cut_trace_loops : ¬ ∀ trace line : Bytes, EndsOnce trace line := by
  intro h
  have hends := (ends_once_iff _ _).mp (h (fileindexWord ++ [48, 10] ++ fileEndWord ++ [10]) [])
  exact absurd hends (by decide +kernel)

end TCBackup.Client
