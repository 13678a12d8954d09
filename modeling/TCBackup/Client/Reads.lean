import TCBackup.Lib.Memory
import TCBackup.Global

/-!
# Reading files (`readn` of `client/lib/bnet.c`)

`read` gives some of the bytes that are left, is interrupted or fails. A file comes with a
script of what its next calls do; once it is used up, calls give all that they can.

## Main definitions

- `OpenFile`, `OpenFile.read`
- `readn` — reads until it has everything, the file ends or a call fails

## Main results

- `readn_spec` — the bytes that end up in the buffer
-/

namespace TCBackup.Client

open ByteFile Memory

/-- What a call of `read` does. One that gives bytes gives at least one before the end of
the file. -/
inductive Outcome
  | interrupted
  | fails
  | gives (more : ℕ)
  deriving DecidableEq

/-- The bytes that were not read, and what the next calls do. -/
structure OpenFile where
  rest : Bytes
  script : List Outcome

inductive ReadResult
  | interrupted
  | failed
  | bytes (bs : Bytes)

/-- `read(fd, …, n)` -/
def OpenFile.read (f : OpenFile) (n : ℕ) : ReadResult × OpenFile :=
  match f.script with
  | [] => (.bytes (f.rest.take n), ⟨f.rest.drop n, []⟩)
  | .interrupted :: script => (.interrupted, ⟨f.rest, script⟩)
  | .fails :: script => (.failed, ⟨f.rest, script⟩)
  | .gives more :: script =>
    (.bytes (f.rest.take (min n (more + 1))), ⟨f.rest.drop (min n (more + 1)), script⟩)

/-- A buffer, the file that is read into it, and the ranges of the buffer that system
calls and `memmove` have used. -/
structure Io where
  src : Mem
  file : OpenFile
  touched : List (ℕ × ℕ)

/-- `ERROR` -/
def readError : ℤ := -100

/-- The loop of `readn`: what is missing at its end, or nothing after an error. -/
def readnLoop : ℕ → Io → ℕ → ℕ → Option ℕ × Io
  | 0, io, _, nleft => (some nleft, io)
  | fuel + 1, io, ptr, nleft =>
    if nleft = 0 then (some nleft, io)
    else
      let r := io.file.read nleft
      let io := { io with file := r.2, touched := io.touched ++ [(ptr, nleft)] }
      match r.1 with
      | .interrupted => readnLoop fuel io ptr nleft
      | .failed => (none, io)
      | .bytes bs =>
        if bs = [] then (some nleft, io)
        else readnLoop fuel { io with src := store io.src ptr bs } (ptr + bs.length)
          (nleft - bs.length)

/-- `readn(fd, vptr, n)` -/
def readn (io : Io) (vptr n : ℕ) : ℤ × Io :=
  match readnLoop (io.file.script.length + n + 1) io vptr n with
  | (some nleft, io) => ((n : ℤ) - nleft, io)
  | (none, io) => (readError, io)

/-- The calls from `f` to `g` have read `bs`, and failed if `ok` is false. -/
structure OpenFile.Reads (f g : OpenFile) (bs : Bytes) (ok : Bool) : Prop where
  rest : f.rest = bs ++ g.rest
  script : ∃ used, f.script = used ++ g.script ∧ (ok = false ↔ .fails ∈ used)

variable {f g h : OpenFile} {bs cs : Bytes} {ok : Bool} {n : ℕ}

theorem OpenFile.Reads.refl (f : OpenFile) : f.Reads f [] true :=
  ⟨rfl, [], rfl, by simp⟩

theorem OpenFile.Reads.trans (h₁ : f.Reads g bs true) (h₂ : g.Reads h cs ok) :
    f.Reads h (bs ++ cs) ok := by
  obtain ⟨used₁, hscript₁, hok₁⟩ := h₁.script
  obtain ⟨used₂, hscript₂, hok₂⟩ := h₂.script
  have hnone : .fails ∉ used₁ := fun hmem => by simpa using hok₁.mpr hmem
  refine ⟨by rw [h₁.rest, h₂.rest, List.append_assoc], used₁ ++ used₂, ?_, ?_⟩
  · rw [hscript₁, hscript₂, List.append_assoc]
  · rw [hok₂, List.mem_append]
    exact ⟨.inr, fun hmem => hmem.resolve_left hnone⟩

/-- A file whose script has no failure is read without one. -/
theorem OpenFile.Reads.ok_of_noFailure (h₁ : f.Reads g bs ok) (hscript : .fails ∉ f.script) :
    ok = true ∧ .fails ∉ g.script := by
  obtain ⟨used, hused, hok⟩ := h₁.script
  rw [hused, List.mem_append, not_or] at hscript
  refine ⟨?_, hscript.2⟩
  by_contra hfalse
  exact hscript.1 (hok.mp (by simpa using hfalse))

/-- What one call of `read` does. It gives nothing only at the end of the file. -/
theorem OpenFile.read_spec (f : OpenFile) (hn : 0 < n) :
    ((f.read n).1 = .interrupted ∧ f.Reads (f.read n).2 [] true ∧
      (f.read n).2.script.length < f.script.length) ∨
    ((f.read n).1 = .failed ∧ f.Reads (f.read n).2 [] false) ∨
    ∃ bs, (f.read n).1 = .bytes bs ∧ f.Reads (f.read n).2 bs true ∧ bs.length ≤ n ∧
      (f.read n).2.script.length ≤ f.script.length ∧ (bs = [] → f.rest = []) := by
  obtain ⟨rest, script⟩ := f
  cases script with
  | nil =>
    refine .inr (.inr ⟨rest.take n, rfl, ⟨(List.take_append_drop n rest).symm, [], rfl, by simp⟩,
      List.length_take_le n rest, le_refl _, fun hnil => ?_⟩)
    exact (List.take_eq_nil_iff.mp hnil).resolve_left hn.ne'
  | cons o script =>
    cases o with
    | interrupted => exact .inl ⟨rfl, ⟨rfl, [.interrupted], rfl, by simp⟩, Nat.lt_succ_self _⟩
    | fails => exact .inr (.inl ⟨rfl, rfl, [.fails], rfl, by simp⟩)
    | gives more =>
      refine .inr (.inr ⟨rest.take (min n (more + 1)), rfl,
        ⟨(List.take_append_drop _ rest).symm, [.gives more], rfl, by simp⟩, ?_,
        Nat.le_succ _, fun hnil => ?_⟩)
      · rw [List.length_take]
        omega
      · exact (List.take_eq_nil_iff.mp hnil).resolve_left (by omega)

/-- The bytes `bs` were read to `ptr`, with calls that use the `n` bytes there at most. -/
structure Io.Fills (io io' : Io) (ptr n : ℕ) (bs : Bytes) (ok : Bool) : Prop where
  file : io.file.Reads io'.file bs ok
  src : io'.src = store io.src ptr bs
  le : bs.length ≤ n
  touched : ∃ ts, io'.touched = io.touched ++ ts ∧ ∀ t ∈ ts, ptr ≤ t.1 ∧ t.1 + t.2 ≤ ptr + n

variable {io io' : Io} {ptr : ℕ}

theorem Io.Fills.refl (io : Io) (ptr n : ℕ) : io.Fills io ptr n [] true :=
  ⟨.refl _, (store_nil _ _).symm, Nat.zero_le _, [], by simp, by simp⟩

/-- A call, and then the rest of the loop. -/
theorem Io.Fills.step {io₁ : Io} {file : OpenFile} (hfile : io.file.Reads file bs true)
    (hle : bs.length ≤ n)
    (hio₁ : io₁ = ⟨store io.src ptr bs, file, io.touched ++ [(ptr, n)]⟩)
    (h : io₁.Fills io' (ptr + bs.length) (n - bs.length) cs ok) :
    io.Fills io' ptr n (bs ++ cs) ok := by
  subst hio₁
  obtain ⟨ts, hts, hranges⟩ := h.touched
  have hcs := h.le
  refine ⟨hfile.trans h.file, ?_, ?_, (ptr, n) :: ts, ?_, ?_⟩
  · rw [h.src, store_append]
  · rw [List.length_append]
    omega
  · rw [hts, List.append_assoc, List.singleton_append]
  · intro t ht
    cases List.mem_cons.mp ht with
    | inl hfirst =>
      rw [hfirst]
      exact ⟨le_refl _, le_refl _⟩
    | inr hlater =>
      obtain ⟨hlow, hhigh⟩ := hranges t hlater
      omega

theorem readnLoop_spec {fuel : ℕ} (io : Io) (ptr nleft : ℕ)
    (hfuel : io.file.script.length + nleft < fuel) :
    (∃ bs io', readnLoop fuel io ptr nleft = (none, io') ∧ io.Fills io' ptr nleft bs false) ∨
    ∃ bs io', readnLoop fuel io ptr nleft = (some (nleft - bs.length), io') ∧
      io.Fills io' ptr nleft bs true ∧ (bs.length = nleft ∨ io'.file.rest = []) := by
  induction fuel generalizing io ptr nleft with
  | zero => omega
  | succ fuel ih =>
    rw [readnLoop]
    by_cases hzero : nleft = 0
    · rw [if_pos hzero]
      exact .inr ⟨[], io, by simp, .refl _ _ _, .inl hzero.symm⟩
    · rw [if_neg hzero]
      have hspec := io.file.read_spec (Nat.pos_of_ne_zero hzero)
      generalize io.file.read nleft = r at hspec ⊢
      obtain ⟨result, file⟩ := r
      dsimp only at hspec ⊢
      obtain ⟨rfl, hreads, hshort⟩ | ⟨rfl, hreads⟩ | ⟨bs, rfl, hreads, hle, hshort, hend⟩ := hspec
      · dsimp only
        obtain ⟨cs, io', hrun, hfills⟩ | ⟨cs, io', hrun, hfills, hdone⟩ :=
          ih ⟨io.src, file, io.touched ++ [(ptr, nleft)]⟩ ptr nleft (by dsimp only; omega)
        · refine .inl ⟨cs, io', hrun, .step hreads (Nat.zero_le _) ?_ hfills⟩
          rw [store_nil]
        · refine .inr ⟨cs, io', hrun, .step hreads (Nat.zero_le _) ?_ hfills, hdone⟩
          rw [store_nil]
      · exact .inl ⟨[], _, rfl, hreads, (store_nil _ _).symm, Nat.zero_le _, [(ptr, nleft)], rfl,
          by simp⟩
      · dsimp only
        by_cases hnil : bs = []
        · rw [if_pos hnil]
          subst hnil
          have hempty : file.rest = [] := by
            have hrest := hreads.rest
            rw [hend rfl] at hrest
            exact hrest.symm
          exact .inr ⟨[], _, rfl, ⟨hreads, (store_nil _ _).symm, Nat.zero_le _,
            [(ptr, nleft)], rfl, by simp⟩, .inr hempty⟩
        · rw [if_neg hnil]
          have hpos : 0 < bs.length := List.length_pos_iff.mpr hnil
          obtain ⟨cs, io', hrun, hfills⟩ | ⟨cs, io', hrun, hfills, hdone⟩ :=
            ih ⟨store io.src ptr bs, file, io.touched ++ [(ptr, nleft)]⟩ (ptr + bs.length)
              (nleft - bs.length) (by dsimp only; omega)
          · exact .inl ⟨bs ++ cs, io', hrun, .step hreads hle rfl hfills⟩
          · refine .inr ⟨bs ++ cs, io', ?_, .step hreads hle rfl hfills, ?_⟩
            · rw [hrun, List.length_append, Nat.sub_sub]
            · cases hdone with
              | inl hfull =>
                rw [List.length_append]
                exact .inl (by omega)
              | inr hempty => exact .inr hempty

/-- `readn` fails, or reads `n` bytes or all that is left. -/
theorem readn_spec (io : Io) (vptr n : ℕ) :
    (∃ bs, (readn io vptr n).1 = readError ∧ io.Fills (readn io vptr n).2 vptr n bs false) ∨
    ((readn io vptr n).1 = (io.file.rest.take n).length ∧
      io.Fills (readn io vptr n).2 vptr n (io.file.rest.take n) true ∧
      (readn io vptr n).2.file.rest = io.file.rest.drop n) := by
  obtain ⟨bs, io', hrun, hfills⟩ | ⟨bs, io', hrun, hfills, hdone⟩ :=
    readnLoop_spec io vptr n (Nat.lt_succ_self (io.file.script.length + n))
  · rw [readn, hrun]
    exact .inl ⟨bs, rfl, hfills⟩
  · have hrest := hfills.file.rest
    have hle := hfills.le
    have htake : io.file.rest.take n = bs := by
      rw [hrest]
      cases hdone with
      | inl hfull => exact List.take_left' hfull
      | inr hempty => rw [hempty, List.append_nil, List.take_of_length_le hle]
    have hdrop : io.file.rest.drop n = io'.file.rest := by
      rw [hrest]
      cases hdone with
      | inl hfull => exact List.drop_left' hfull
      | inr hempty => rw [hempty, List.append_nil, List.drop_of_length_le hle]
    rw [readn, hrun, htake, hdrop]
    refine .inr ⟨?_, hfills, rfl⟩
    dsimp only
    omega

end TCBackup.Client
