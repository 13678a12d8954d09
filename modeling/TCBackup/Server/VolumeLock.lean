import TCBackup.Lib.Labelled
import TCBackup.Server.Recipe

/-!
# The lock of the recipe volume (`server/src/recipe.c`)

The three functions on the recipe volume hold `rv->mutex` while they work. A failed `open` returns
between the lock and the unlock.

## Main definitions

- `Call`, `perform` — the calls, and what they do with the volume
- `System`, `step` — any number of workers that make calls
- `Opens` — no `open` fails

## Main results

- `lock_released` — while no `open` fails the lock is free between the calls, and a failed call
  leaves the counters alone
- `failed_open_blocks` — after a failed `open` no call gets the lock again
-/

namespace TCBackup.Server.VolumeLock

open ByteFile Labelled

inductive Call
  | flush
  | read (offset : ℕ) (rp : Recipe)
  | write (rp : Recipe)

/-- A call on a volume whose lock is free: what it returns, and the volume behind it. -/
def perform (io : VolIO) (v : Volume) : Call → Option (Bool × Volume)
  | .flush => recipeVolumeFlush io.opened v
  | .read offset rp => (readRecipeFromVol io.opened offset rp v).map fun p => (p.1.isSome, p.2)
  | .write rp => (writeRecipeToVol io rp v).map fun p => (p.1.isSome, p.2)

/-- Where a worker is: outside, before the lock, or behind it. -/
inductive Phase
  | idle
  | waiting (c : Call)
  | inside (c : Call)

/-- The volume, the workers, and what their last calls have returned. -/
structure System where
  volume : Volume
  phase : ℕ → Phase
  returned : ℕ → Option Bool

inductive Event
  | enter (w : ℕ) (c : Call)
  | lock (w : ℕ)
  | leave (w : ℕ) (io : VolIO)

def Volume.setMutex (v : Volume) (mutex : Bool) : Volume := { v with rv := { v.rv with mutex := mutex } }

/-- A worker calls one of the functions, gets the lock, or does the rest of the call and returns. -/
def step (s : System) : Event → Option System
  | .enter w c =>
    match s.phase w with
    | .idle => some { s with phase := Function.update s.phase w (.waiting c) }
    | _ => none
  | .lock w =>
    match s.phase w with
    | .waiting c =>
      if s.volume.rv.mutex then none
      else some { s with
        volume := Volume.setMutex s.volume true
        phase := Function.update s.phase w (.inside c) }
    | _ => none
  | .leave w io =>
    match s.phase w with
    | .inside c =>
      (perform io (Volume.setMutex s.volume false) c).map fun p =>
        { volume := p.2
          phase := Function.update s.phase w .idle
          returned := Function.update s.returned w (some p.1) }
    | _ => none

/-- `recipe_volume_init`, and no call is in progress. -/
def start (file : Bytes) : System := ⟨recipeVolumeInit file, fun _ => .idle, fun _ => none⟩

/-- The `open` of a call does not fail. -/
def Opens (_ : System) : Event → Prop
  | .leave _ io => io.opened = true
  | _ => True

/-- No call is in progress. -/
def Quiet (s : System) : Prop := ∀ w, s.phase w = .idle

variable {s s' t : System} {e : Event} {es : List Event} {w w' : ℕ} {c c' : Call} {io : VolIO}
  {v : Volume}

/-- A call ends. It succeeds and frees the lock, or its `open` has failed: it keeps the lock, and
the counters are as before. -/
theorem perform_spec (io : VolIO) (hv : v.rv.mutex = false) (c : Call) :
    ∃ v', perform io v c = some (io.opened, v') ∧ v'.rv.mutex = !io.opened ∧
      (io.opened = false → v'.rv.volume_length = v.rv.volume_length ∧
        v'.rv.file_num = v.rv.file_num) := by
  cases c with
  | flush =>
    rw [perform, recipeVolumeFlush, hv, if_neg (by decide)]
    cases io.opened with
    | true => exact ⟨_, rfl, hv, by simp⟩
    | false => exact ⟨_, rfl, rfl, fun _ => ⟨rfl, rfl⟩⟩
  | read offset rp =>
    rw [perform, readRecipeFromVol, hv, if_neg (by decide)]
    cases io.opened with
    | true => exact ⟨_, rfl, hv, by simp⟩
    | false => exact ⟨_, rfl, rfl, fun _ => ⟨rfl, rfl⟩⟩
  | write rp =>
    rw [perform, writeRecipeToVol, hv, if_neg (by decide)]
    cases hopen : io.opened with
    | true => exact ⟨_, rfl, hv, by simp⟩
    | false => exact ⟨_, rfl, rfl, fun _ => ⟨rfl, rfl⟩⟩

/-- What a step can do. -/
theorem step_cases (h : step s e = some s') :
    (∃ w c, e = .enter w c ∧ s.phase w = .idle ∧
      s' = { s with phase := Function.update s.phase w (.waiting c) }) ∨
    (∃ w c, e = .lock w ∧ s.phase w = .waiting c ∧ s.volume.rv.mutex = false ∧
      s' = { s with
        volume := Volume.setMutex s.volume true
        phase := Function.update s.phase w (.inside c) }) ∨
    (∃ w c io v, e = .leave w io ∧ s.phase w = .inside c ∧ v.rv.mutex = !io.opened ∧
      (io.opened = false → v.rv.volume_length = s.volume.rv.volume_length ∧
        v.rv.file_num = s.volume.rv.file_num) ∧
      s' = ⟨v, Function.update s.phase w .idle,
        Function.update s.returned w (some io.opened)⟩) := by
  cases e with
  | enter w c =>
    simp only [step] at h
    split at h
    · next hphase => exact .inl ⟨w, c, rfl, hphase, (Option.some.inj h).symm⟩
    · cases h
  | lock w =>
    simp only [step] at h
    split at h
    · next c hphase =>
      split at h
      · cases h
      · next hfree =>
        exact .inr (.inl ⟨w, c, rfl, hphase, by simpa using hfree, (Option.some.inj h).symm⟩)
    · cases h
  | leave w io =>
    simp only [step] at h
    split at h
    · next c hphase =>
      obtain ⟨v, hperform, hmutex, hsame⟩ :=
        perform_spec io (v := Volume.setMutex s.volume false) rfl c
      rw [hperform] at h
      exact .inr (.inr ⟨w, c, io, v, rfl, hphase, hmutex, hsame, (Option.some.inj h).symm⟩)
    · cases h

/-- The lock is held by a worker that is behind it. -/
def Owned (s : System) : Prop := s.volume.rv.mutex = true → ∃ w c, s.phase w = .inside c

theorem Owned.step (h : Owned s) (hopens : Opens s e) (hs : step s e = some s') : Owned s' := by
  obtain ⟨w, c, rfl, hphase, rfl⟩ | ⟨w, c, rfl, -, -, rfl⟩ |
    ⟨w, c, io, v, rfl, -, hmutex, -, rfl⟩ := step_cases hs
  · intro hheld
    obtain ⟨w', c', hinside⟩ := h hheld
    refine ⟨w', c', ?_⟩
    have hne : w' ≠ w := by
      rintro rfl
      rw [hphase] at hinside
      cases hinside
    show Function.update s.phase w (.waiting c) w' = _
    rw [Function.update_of_ne hne, hinside]
  · exact fun _ => ⟨w, c, Function.update_self ..⟩
  · intro hheld
    have hopened : io.opened = true := hopens
    rw [hopened] at hmutex
    exact absurd (hheld.symm.trans hmutex) (by decide)

theorem start_owned (file : Bytes) : Owned (start file) := by
  intro hheld
  rw [start, recipeVolumeInit] at hheld
  split at hheld <;> cases hheld

/-- While no `open` fails the lock is free whenever no call is in progress. In every run a call that
fails leaves the length and the number of recipes as they were. -/
theorem lock_released (file : Bytes) :
    (∀ es s, Run step Opens (start file) es s → Quiet s → s.volume.rv.mutex = false) ∧
      ∀ es s w io s', Run step (fun _ _ => True) (start file) es s →
        step s (.leave w io) = some s' → s'.returned w = some false →
          s'.volume.rv.volume_length = s.volume.rv.volume_length ∧
            s'.volume.rv.file_num = s.volume.rv.file_num := by
  constructor
  · intro es s hrun hquiet
    have howned : Owned s := hrun.invariant (fun _ _ _ h ho hs => h.step ho hs) (start_owned file)
    cases hmutex : s.volume.rv.mutex with
    | false => rfl
    | true =>
      obtain ⟨w, c, hinside⟩ := howned hmutex
      rw [hquiet w] at hinside
      cases hinside
  · intro es s w io s' _ hs hfailed
    obtain ⟨w', c, heq, -⟩ | ⟨w', c, heq, -⟩ | ⟨w', c, io', v, heq, -, -, hsame, rfl⟩ := step_cases hs
    · cases heq
    · cases heq
    · obtain ⟨rfl, rfl⟩ := Event.leave.inj heq
      change Function.update s.returned w (some io.opened) w = some false at hfailed
      rw [Function.update_self] at hfailed
      exact hsame (Option.some.inj hfailed)

/-- A flush from beginning to end. -/
def oneFlush (opened : Bool) : List Event :=
  [.enter 0 .flush, .lock 0, .leave 0 ⟨opened, fun _ => 64⟩]

theorem exec_flush (opened : Bool) :
    ∃ s, exec step (start []) (oneFlush opened) = some s ∧
      Quiet s ∧ s.volume.rv.mutex = !opened := by
  cases opened with
  | true =>
    refine ⟨_, rfl, fun w => ?_, by decide +kernel⟩
    by_cases hw : w = 0 <;> simp [hw, start]
  | false =>
    refine ⟨_, rfl, fun w => ?_, by decide +kernel⟩
    by_cases hw : w = 0 <;> simp [hw, start]

theorem lock_released_flush : ∃ s, Quiet s ∧ s.volume.rv.mutex = false := by
  obtain ⟨s, hexec, hquiet, -⟩ := exec_flush true
  have hrun : Run step Opens (start []) (oneFlush true) s := by
    refine run_of_exec_of_forall (fun e he s => ?_) hexec
    simp only [oneFlush, List.mem_cons, List.not_mem_nil, or_false] at he
    obtain rfl | rfl | rfl := he <;> trivial
  exact ⟨s, hquiet, (lock_released []).1 _ s hrun hquiet⟩

/-- The only call fails to open the volume and keeps the lock. -/
theorem failed_flush_keeps_lock :
    ¬ ∀ file es s, Run step (fun _ _ => True) (start file) es s → Quiet s →
      s.volume.rv.mutex = false := by
  intro h
  obtain ⟨s, hexec, hquiet, hmutex⟩ := exec_flush false
  have hrun := @run_of_exec_of_forall _ _ step (fun _ _ => True) _ _ _ (fun _ _ _ => trivial) hexec
  exact absurd ((h _ _ _ hrun hquiet).symm.trans hmutex) (by decide)

/-- At most one worker is behind the lock, and only while it is held. -/
def Exclusive (s : System) : Prop :=
  ∀ w c, s.phase w = .inside c → s.volume.rv.mutex = true ∧
    ∀ w' c', s.phase w' = .inside c' → w' = w

/-- The lock is held by nobody. -/
def Lost (s : System) : Prop := s.volume.rv.mutex = true ∧ ∀ w c, s.phase w ≠ .inside c

theorem Exclusive.step (h : Exclusive s) (hs : step s e = some s') : Exclusive s' := by
  obtain ⟨w, c, rfl, hphase, rfl⟩ | ⟨w, c, rfl, hphase, hfree, rfl⟩ |
    ⟨w, c, io, v, rfl, hphase, hmutex, -, rfl⟩ := step_cases hs
  · have hold : ∀ w' c', Function.update s.phase w (.waiting c) w' = .inside c' →
        s.phase w' = .inside c' := by
      intro w' c' h'
      by_cases hw : w' = w
      · rw [hw, Function.update_self] at h'
        cases h'
      · rwa [Function.update_of_ne hw] at h'
    intro w₁ c₁ h₁
    obtain ⟨hheld, honly⟩ := h w₁ c₁ (hold w₁ c₁ h₁)
    exact ⟨hheld, fun w₂ c₂ h₂ => honly w₂ c₂ (hold w₂ c₂ h₂)⟩
  · have hself : ∀ w' c', Function.update s.phase w (.inside c) w' = .inside c' → w' = w := by
      intro w' c' h'
      by_contra hw
      rw [Function.update_of_ne hw] at h'
      rw [(h w' c' h').1] at hfree
      cases hfree
    intro w₁ c₁ h₁
    refine ⟨rfl, fun w₂ c₂ h₂ => ?_⟩
    rw [hself w₁ c₁ h₁, hself w₂ c₂ h₂]
  · intro w₁ c₁ h₁
    change Function.update s.phase w .idle w₁ = .inside c₁ at h₁
    by_cases hw : w₁ = w
    · rw [hw, Function.update_self] at h₁
      cases h₁
    · rw [Function.update_of_ne hw] at h₁
      exact absurd ((h w c hphase).2 w₁ c₁ h₁) hw

theorem Lost.step (h : Lost s) (hs : step s e = some s') : Lost s' := by
  obtain ⟨w, c, rfl, hphase, rfl⟩ | ⟨w, c, rfl, hphase, hfree, rfl⟩ |
    ⟨w, c, io, v, rfl, hphase, -, -, rfl⟩ := step_cases hs
  · refine ⟨h.1, fun w' c' h' => ?_⟩
    change Function.update s.phase w (.waiting c) w' = .inside c' at h'
    by_cases hw : w' = w
    · rw [hw, Function.update_self] at h'
      cases h'
    · rw [Function.update_of_ne hw] at h'
      exact h.2 w' c' h'
  · rw [h.1] at hfree
    cases hfree
  · exact absurd hphase (h.2 w c)

/-- After a failed `open` the lock is held for ever, and no call gets behind it. -/
theorem failed_open_blocks {file : Bytes} (hrun : Run step (fun _ _ => True) (start file) es s)
    (hs : step s (.leave w io) = some s') (hfailed : io.opened = false) {es' : List Event}
    (hrest : Run step (fun _ _ => True) s' es' t) : Lost t := by
  have hexcl : Exclusive s := hrun.invariant (fun _ _ _ h _ hs => h.step hs) fun w c h => by cases h
  refine hrest.invariant (fun _ _ _ h _ hs => h.step hs) ?_
  have hexcl' := hexcl.step hs
  obtain ⟨w', c, heq, -⟩ | ⟨w', c, heq, -⟩ | ⟨w', c, io', v, heq, hphase, hmutex, -, rfl⟩ :=
    step_cases hs
  · cases heq
  · cases heq
  · obtain ⟨rfl, rfl⟩ := Event.leave.inj heq
    rw [hfailed] at hmutex
    refine ⟨hmutex, fun w₁ c₁ h₁ => ?_⟩
    change Function.update s.phase w .idle w₁ = .inside c₁ at h₁
    by_cases hw : w₁ = w
    · rw [hw, Function.update_self] at h₁
      cases h₁
    · rw [Function.update_of_ne hw] at h₁
      exact hw ((hexcl w c hphase).2 w₁ c₁ h₁)

end TCBackup.Server.VolumeLock
