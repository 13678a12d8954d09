import TCBackup.Lib.Labelled
import TCBackup.Server.Index
import TCBackup.Server.Recipe
import Mathlib

/-!
# Histories of the recipe volume and the index

Workers write recipes, insert the offsets they got into the index, look hashes
up, and the server is shut down cleanly and started again. `write_recipe_to_vol`
and `index_insert` are two separate critical sections, so the items of several
workers may reach the index in another order than their recipes reached the
volume.
-/

namespace TCBackup.Server.RecipeHistory

open ByteFile Labelled

/-- One call of `write_recipe_to_vol`: for which hash, where, and what. -/
structure Written where
  hash : Fingerprint
  offset : ℕ
  chunks : List FingerChunk
  deriving DecidableEq

/-- The bytes of the volume that the recipe occupies. -/
def Written.range (w : Written) : Set ℕ := Set.Ico w.offset (w.offset + (4 + 84 * w.chunks.length))

/-- Volume, index and the items that workers hold between the two critical
sections. `written` and `inserted` record the calls made so far, in order. -/
structure Store where
  volume : Volume
  global_index : Bytes
  mem_index : HTable ℕ
  pending : List Written
  written : List Written
  inserted : List Written

inductive Event
  | write (rp : Recipe)
  | insert (worker : ℕ)
  | read (hash : Fingerprint)
  | restart

/-- A server started on an empty directory. -/
def init : Store := ⟨recipeVolumeInit [], [], indexOpen [], [], [], []⟩

def step (s : Store) : Event → Option Store
  | .write rp =>
    match writeRecipeToVol .ok rp s.volume with
    | some (some offset, volume) =>
      let w : Written := ⟨rp.file_hash, offset, rp.chunks⟩
      some { s with
        volume := volume
        pending := s.pending ++ [w]
        written := s.written ++ [w] }
    | _ => none
  | .insert worker =>
    match s.pending[worker]? with
    | some w =>
      some { s with
        mem_index := indexInsert s.mem_index w.hash w.offset
        pending := s.pending.eraseIdx worker
        inserted := s.inserted ++ [w] }
    | none => none
  | .read hash =>
    match indexLookup s.mem_index hash with
    | (none, mem_index) => some { s with mem_index := mem_index }
    | (some offset, mem_index) =>
      match readRecipeFromVol true offset (recipeNew hash) s.volume with
      | some (some _, volume) => some { s with mem_index := mem_index, volume := volume }
      | _ => none
  | .restart =>
    match recipeVolumeFlush true s.volume with
    | some (_, volume) =>
      let global_index := indexClose s.mem_index s.global_index
      some { s with
        volume := recipeVolumeInit volume.file
        global_index := global_index
        mem_index := indexOpen global_index
        pending := [] }
    | none => none

/-- A recipe has fewer than `2 ^ 31` chunks and the volume stays within the
largest file offset. -/
def NoFailure (s : Store) : Event → Prop
  | .write rp => rp.chunks.length < 2 ^ 31 ∧
      s.volume.rv.volume_length + (8 + 84 * rp.chunks.length) < 2 ^ 63
  | _ => True

/-- In addition the index is small enough for the count that `index_close`
stores in four bytes. -/
def Fits (s : Store) (e : Event) : Prop :=
  NoFailure s e ∧ (e = .restart → s.mem_index.chains.numItems < 2 ^ 31)

-- ════════════════════════════════════════════════════════════════════════
-- The invariant
-- ════════════════════════════════════════════════════════════════════════

/-- The recipe lies in the volume, behind the header and below the end. -/
structure Stored (v : Volume) (w : Written) : Prop where
  start : 16 ≤ w.offset
  stop : w.offset + (4 + 84 * w.chunks.length) ≤ v.rv.volume_length
  count : w.chunks.length < 2 ^ 31
  bytes : readAt v.file w.offset (4 + 84 * w.chunks.length) = recipeBytes w.chunks

theorem Stored.in_file {v : Volume} {w : Written} (h : Stored v w) :
    w.offset + (4 + 84 * w.chunks.length) ≤ v.file.length := by
  have := congrArg List.length h.bytes
  rw [length_readAt, length_recipeBytes] at this
  omega

theorem Stored.chunksAt {v : Volume} {w : Written} (h : Stored v w) :
    chunksAt v.file w.offset = w.chunks :=
  chunksAt_of_readAt h.count h.bytes

structure Sound (s : Store) : Prop where
  table : s.mem_index.WF
  free : s.volume.rv.mutex = false
  magic : readAt s.volume.file 0 4 = magicKey
  header : 16 ≤ s.volume.rv.volume_length
  offset_t : s.volume.rv.volume_length < 2 ^ 63
  stored : ∀ w ∈ s.written, Stored s.volume w
  apart : s.written.Pairwise fun a b => a.offset + (4 + 84 * a.chunks.length) ≤ b.offset
  pending : s.pending ⊆ s.written
  inserted : s.inserted ⊆ s.written
  index : ∀ hash, s.mem_index.find hash =
    (s.inserted.find? fun w => w.hash = hash).map Written.offset

theorem length_volumeHeader (rv : RecipeVolume) : (volumeHeader rv).length = 16 := by
  simp [volumeHeader]

theorem readAt_volumeHeader_magic (rv : RecipeVolume) (f : Bytes) :
    readAt (writeAt f 0 (volumeHeader rv)) 0 4 = magicKey := by
  have h := readAt_writeAt_self f 0 (volumeHeader rv)
  rw [length_volumeHeader] at h
  have hsub : readAt (readAt (writeAt f 0 (volumeHeader rv)) 0 16) 0 4 = _ :=
    readAt_readAt (by omega)
  rw [h, Nat.zero_add] at hsub
  rw [← hsub, volumeHeader, List.append_assoc]
  exact readAt_front length_magicKey

theorem readAt_volumeHeader_length (rv : RecipeVolume) (f : Bytes) :
    readAt (writeAt f 0 (volumeHeader rv)) 8 8 = intBytes 8 rv.volume_length := by
  have h := readAt_writeAt_self f 0 (volumeHeader rv)
  rw [length_volumeHeader] at h
  have hsub : readAt (readAt (writeAt f 0 (volumeHeader rv)) 0 16) 8 8 = _ :=
    readAt_readAt (by omega)
  rw [h, Nat.zero_add] at hsub
  have hlast := readAt_front (b := []) (length_intBytes 8 (rv.volume_length : ℤ))
  rw [List.append_nil] at hlast
  rw [← hsub, volumeHeader, readAt_skip (k := 0) (by simp), hlast]

/-- The header that a flush writes is the one the next start reads. -/
theorem recipeVolumeInit_flushed {rv : RecipeVolume} (h : rv.volume_length < 2 ^ 63) (f : Bytes) :
    (recipeVolumeInit (writeAt f 0 (volumeHeader rv))).file = writeAt f 0 (volumeHeader rv) ∧
      (recipeVolumeInit (writeAt f 0 (volumeHeader rv))).rv.volume_length = rv.volume_length ∧
      (recipeVolumeInit (writeAt f 0 (volumeHeader rv))).rv.mutex = false := by
  have hlen : intOf (intBytes 8 rv.volume_length) = rv.volume_length :=
    intOf_intBytes_natCast (by omega)
  rw [recipeVolumeInit, if_pos (readAt_volumeHeader_magic rv f), readAt_volumeHeader_length, hlen]
  exact ⟨rfl, rfl, rfl⟩

theorem init_sound : Sound init := by
  have hmagic : ¬readAt ([] : Bytes) 0 4 = magicKey := by
    intro h
    have := congrArg List.length h
    simp [readAt] at this
  have hopen : indexOpen [] = htableInit 16777215 := by simp [indexOpen, readAt]
  have hvol : init.volume = ⟨writeAt [] 0 (volumeHeader ⟨0, recipeVolumeHeadSize, false⟩),
      ⟨0, recipeVolumeHeadSize, false⟩⟩ := by
    rw [init, recipeVolumeInit, if_neg hmagic]
  refine ⟨?_, ?_, ?_, ?_, ?_, ?_, ?_, ?_, ?_, ?_⟩
  · rw [init, hopen]
    exact htableInit_wf _
  · rw [hvol]
  · rw [hvol]
    exact readAt_volumeHeader_magic _ _
  · rw [hvol]
    decide
  · rw [hvol]
    decide
  · simp [init]
  · simp [init]
  · simp [init]
  · simp [init]
  · intro hash
    simp [init, hopen, htableInit_find]

/-- A write appends: earlier recipes and the header are not touched. -/
theorem Sound.write {s t : Store} {rp : Recipe} (h : Sound s) (hf : NoFailure s (.write rp))
    (hs : step s (.write rp) = some t) : Sound t := by
  rw [step, writeRecipeToVol_full h.free ( VolIO.ok_full rp)] at hs
  obtain rfl := Option.some.inj hs
  obtain ⟨hn, hsize⟩ := hf
  have hkeep : ∀ pos n, pos + n ≤ s.volume.rv.volume_length → pos + n ≤ s.volume.file.length →
      readAt (writeAt s.volume.file s.volume.rv.volume_length (recipeBytes rp.chunks)) pos n =
        readAt s.volume.file pos n :=
    fun pos n hle hfile => readAt_writeAt_of_disjoint (.inl hle) hfile
  have hmagic : 4 ≤ s.volume.file.length := by
    have := congrArg List.length h.magic
    rw [length_readAt, length_magicKey] at this
    omega
  refine ⟨h.table, h.free, ?_, ?_, ?_, ?_, ?_, ?_, ?_, h.index⟩
  · have := h.header
    exact (hkeep 0 4 (by omega) (by omega)).trans h.magic
  · have := h.header
    dsimp only
    omega
  · exact hsize
  · intro w hw
    rcases List.mem_append.mp hw with hw | hw
    · have hst := h.stored w hw
      have hstop := hst.stop
      refine ⟨hst.start, by dsimp only; omega, hst.count, ?_⟩
      exact (hkeep _ _ hst.stop hst.in_file).trans hst.bytes
    · obtain rfl := List.mem_singleton.mp hw
      refine ⟨h.header, by dsimp only; omega, hn, ?_⟩
      have := readAt_writeAt_self s.volume.file s.volume.rv.volume_length (recipeBytes rp.chunks)
      rwa [length_recipeBytes] at this
  · refine List.pairwise_append.mpr ⟨h.apart, List.pairwise_singleton _ _, ?_⟩
    intro a ha b hb
    obtain rfl := List.mem_singleton.mp hb
    exact (h.stored a ha).stop
  · intro w hw
    rcases List.mem_append.mp hw with hw | hw
    · exact List.mem_append_left _ (h.pending hw)
    · exact List.mem_append_right _ hw
  · exact fun w hw => List.mem_append_left _ (h.inserted hw)

/-- The index keeps the item that was inserted first. -/
theorem Sound.insert {s t : Store} {worker : ℕ} (h : Sound s)
    (hs : step s (.insert worker) = some t) : Sound t := by
  rw [step] at hs
  split at hs
  · next w hw =>
    obtain rfl := Option.some.inj hs
    have hmem : w ∈ s.pending := List.mem_of_getElem? hw
    refine ⟨?_, h.free, h.magic, h.header, h.offset_t, h.stored, h.apart, ?_, ?_, ?_⟩
    · rw [indexInsert_eq]
      exact htableInsert_wf h.table _ _
    · exact fun w' hw' => h.pending (List.eraseIdx_subset hw')
    · intro w' hw'
      rcases List.mem_append.mp hw' with hw' | hw'
      · exact h.inserted hw'
      · obtain rfl := List.mem_singleton.mp hw'
        exact h.pending hmem
    · intro hash
      rw [indexInsert_eq, find_htableInsert h.table, List.find?_append, h.index, h.index]
      cases hfirst : s.inserted.find? (fun w => decide (w.hash = hash)) with
      | some w' =>
        have hne : ¬(hash = w.hash ∧
            (s.inserted.find? fun w' => decide (w'.hash = w.hash)).map Written.offset = none) := by
          rintro ⟨rfl, hnone⟩
          rw [hfirst] at hnone
          simp at hnone
        rw [if_neg hne]
        rfl
      | none =>
        by_cases hh : hash = w.hash
        · subst hh
          simp [hfirst]
        · simp [hh, Ne.symm hh]
  · simp at hs

/-- Looking a hash up and reading its recipe only changes the table's cache. -/
theorem step_read {s : Store} (hfree : s.volume.rv.mutex = false) (hash : Fingerprint) :
    step s (.read hash) = some { s with mem_index := hashIndex s.mem_index hash } := by
  have hlookup : indexLookup s.mem_index hash =
      ((indexLookup s.mem_index hash).1, hashIndex s.mem_index hash) := rfl
  rw [step, hlookup]
  cases (indexLookup s.mem_index hash).1 with
  | none => rfl
  | some offset => simp [readRecipeFromVol, hfree]

theorem Sound.read {s t : Store} {hash : Fingerprint} (h : Sound s)
    (hs : step s (.read hash) = some t) : Sound t := by
  rw [step_read h.free] at hs
  obtain rfl := Option.some.inj hs
  refine ⟨hashIndex_wf h.table hash, h.free, h.magic, h.header, h.offset_t, h.stored, h.apart,
    h.pending, h.inserted, fun key => ?_⟩
  exact (hashIndex_find s.mem_index h.table hash key).trans (h.index key)

/-- A clean restart keeps the volume, its length and the index. -/
theorem Sound.restart {s t : Store} (h : Sound s)
    (hcount : s.mem_index.chains.numItems < 2 ^ 31) (hs : step s .restart = some t) :
    Sound t := by
  rw [step, recipeVolumeFlush, h.free] at hs
  simp only [Bool.false_eq_true, if_false, if_true] at hs
  obtain rfl := Option.some.inj hs
  obtain ⟨hfile, hlen, hmutex⟩ := recipeVolumeInit_flushed h.offset_t s.volume.file
  have hoff : ∀ key x, s.mem_index.find key = some x → x < 2 ^ 63 := by
    intro key x hx
    rw [h.index, Option.map_eq_some_iff] at hx
    obtain ⟨w, hw, rfl⟩ := hx
    have hstop := (h.stored w (h.inserted (List.mem_of_find?_eq_some hw))).stop
    have := h.offset_t
    omega
  obtain ⟨htable, hfind⟩ := indexOpen_indexClose h.table hcount hoff s.global_index
  refine ⟨htable, hmutex, ?_, ?_, ?_, ?_, h.apart, ?_, h.inserted, ?_⟩
  · dsimp only
    rw [hfile]
    exact readAt_volumeHeader_magic _ _
  · dsimp only
    rw [hlen]
    exact h.header
  · dsimp only
    rw [hlen]
    exact h.offset_t
  · intro w hw
    have hst := h.stored w hw
    refine ⟨hst.start, by dsimp only; rw [hlen]; exact hst.stop, hst.count, ?_⟩
    dsimp only
    rw [hfile, readAt_writeAt_of_disjoint (.inr ?_) hst.in_file]
    · exact hst.bytes
    · rw [length_volumeHeader]
      exact hst.start
  · simp
  · intro key
    exact (hfind key).trans (h.index key)

theorem Sound.step {s t : Store} {e : Event} (h : Sound s) (hf : Fits s e)
    (hs : RecipeHistory.step s e = some t) : Sound t := by
  cases e with
  | write rp => exact h.write hf.1 hs
  | insert worker => exact h.insert hs
  | read hash => exact h.read hs
  | restart => exact h.restart (hf.2 rfl) hs

theorem sound_of_run {s : Store} {es : List Event} (h : Run step Fits init es s) : Sound s :=
  h.invariant (fun _ _ _ hi hc hs => hi.step hc hs) init_sound

-- ════════════════════════════════════════════════════════════════════════
-- Reading back
-- ════════════════════════════════════════════════════════════════════════

/-- The store after a write. -/
def afterWrite (s : Store) (rp : Recipe) : Store :=
  let w : Written := ⟨rp.file_hash, s.volume.rv.volume_length, rp.chunks⟩
  { s with
    volume :=
      { file := writeAt s.volume.file s.volume.rv.volume_length (recipeBytes rp.chunks)
        rv := { s.volume.rv with
          volume_length := s.volume.rv.volume_length + (8 + 84 * rp.chunks.length)
          file_num := s.volume.rv.file_num + 1 } }
    pending := s.pending ++ [w]
    written := s.written ++ [w] }

/-- The store after worker `worker` inserted the item `w`. -/
def afterInsert (s : Store) (worker : ℕ) (w : Written) : Store :=
  { s with
    mem_index := htableInsert s.mem_index w.hash w.offset
    pending := s.pending.eraseIdx worker
    inserted := s.inserted ++ [w] }

theorem step_write {s : Store} (h : s.volume.rv.mutex = false) (rp : Recipe) :
    step s (.write rp) = some (afterWrite s rp) := by
  rw [step, writeRecipeToVol_full h ( VolIO.ok_full rp)]
  rfl

theorem step_insert {s : Store} {worker : ℕ} {w : Written} (h : s.pending[worker]? = some w) :
    step s (.insert worker) = some (afterInsert s worker w) := by
  simp only [step, h, indexInsert_eq]
  rfl

theorem fits_insert (s : Store) (worker : ℕ) : Fits s (.insert worker) := ⟨trivial, by simp⟩

/-- A write and its insert, with no other worker in between. -/
theorem write_insert_run {s : Store} (hfree : s.volume.rv.mutex = false) (hp : s.pending = [])
    (rp : Recipe) (hf : NoFailure s (.write rp)) :
    ∃ t, Run step Fits s [.write rp, .insert 0] t ∧ t.pending = [] ∧
      t.mem_index = htableInsert s.mem_index rp.file_hash s.volume.rv.volume_length ∧
      t.inserted = s.inserted ++ [⟨rp.file_hash, s.volume.rv.volume_length, rp.chunks⟩] ∧
      t.volume.rv.volume_length = s.volume.rv.volume_length + (8 + 84 * rp.chunks.length) ∧
      chunksAt t.volume.file s.volume.rv.volume_length = rp.chunks := by
  have h1 : Run step Fits s [.write rp] (afterWrite s rp) :=
    Run.single ⟨hf, by simp⟩ (step_write hfree rp)
  have hpending : (afterWrite s rp).pending =
      [⟨rp.file_hash, s.volume.rv.volume_length, rp.chunks⟩] := by
    rw [afterWrite, hp]
    rfl
  have h2 := h1.snoc (fits_insert _ 0) (step_insert (by rw [hpending]; rfl))
  refine ⟨_, h2, ?_, rfl, rfl, rfl, chunksAt_of_readAt hf.1 ?_⟩
  · rw [afterInsert, hpending]
    rfl
  · rw [← length_recipeBytes]
    exact readAt_writeAt_self _ _ _

theorem init_volume_length : init.volume.rv.volume_length = 16 := by
  simp [init, recipeVolumeInit, readAt, magicKey, leBytes, recipeVolumeHeadSize]

/-- The `i`-th of many distinct hashes. -/
def numbered (i : ℕ) : Fingerprint := fixed 20 (leBytes 20 i)

/-- A recipe with one chunk. -/
def oneChunk (hash : Fingerprint) : Recipe :=
  { recipeNew hash with chunks := [⟨fixed 20 [], fixed 64 []⟩] }

/-- For every hash in the index, the recipe volume holds at the indexed offset
the recipe whose item reached the index first, and no two recipes overlap each
other or the header. -/
theorem indexed_recipes_read_back {s : Store} {es : List Event} (h : Run step Fits init es s) :
    (∀ hash offset, s.mem_index.find hash = some offset →
      ∃ w ∈ s.written, s.inserted.find? (fun w => w.hash = hash) = some w ∧ w.hash = hash ∧
        w.offset = offset ∧ ∀ rp, readRecipeFromVol true offset rp s.volume =
          some (some { rp with chunks := rp.chunks ++ w.chunks }, s.volume)) ∧
      (∀ w ∈ s.written, Disjoint (Set.Ico 0 recipeVolumeHeadSize) w.range) ∧
      s.written.Pairwise fun a b => Disjoint a.range b.range := by
  have hsound := sound_of_run h
  refine ⟨?_, ?_, ?_⟩
  · intro hash offset hfind
    rw [hsound.index, Option.map_eq_some_iff] at hfind
    obtain ⟨w, hw, rfl⟩ := hfind
    have hmem := hsound.inserted (List.mem_of_find?_eq_some hw)
    refine ⟨w, hmem, hw, by simpa using List.find?_some hw, rfl, fun rp => ?_⟩
    rw [readRecipeFromVol, hsound.free, (hsound.stored w hmem).chunksAt,
      foldl_recipeAppendFingerchunk]
    simp
  · intro w hw
    exact Set.Ico_disjoint_Ico.mpr (by
      have := (hsound.stored w hw).start
      rw [recipeVolumeHeadSize]
      omega)
  · refine hsound.apart.imp fun hab => ?_
    exact Set.Ico_disjoint_Ico.mpr (by omega)

/-- One recipe, inserted and read back. -/
theorem indexed_recipes_read_back_one : ∃ s offset,
    Run step Fits init [.write (oneChunk (numbered 0)), .insert 0] s ∧
      s.mem_index.find (numbered 0) = some offset ∧
      readRecipeFromVol true offset (recipeNew (numbered 0)) s.volume =
        some (some (oneChunk (numbered 0)), s.volume) := by
  obtain ⟨s, hrun, -, hindex, hins, -⟩ := write_insert_run init_sound.free rfl
    (oneChunk (numbered 0)) ⟨by decide, by rw [init_volume_length]; decide⟩
  have hfind : s.mem_index.find (numbered 0) = some init.volume.rv.volume_length := by
    rw [hindex]
    exact (find_htableInsert init_sound.table _ _ _).trans
      (if_pos ⟨rfl, init_sound.index (numbered 0)⟩)
  refine ⟨s, _, hrun, hfind, ?_⟩
  obtain ⟨w, -, hw, -, -, hread⟩ := (indexed_recipes_read_back hrun).1 _ _ hfind
  rw [hins] at hw
  obtain rfl := Option.some.inj hw
  exact hread _

-- ════════════════════════════════════════════════════════════════════════
-- Orders and sizes for which the first written recipe is not the indexed one
-- ════════════════════════════════════════════════════════════════════════

/-- The indexed recipe of every hash is the one written first. -/
def FirstWritten (s : Store) : Prop :=
  ∀ hash offset w, s.mem_index.find hash = some offset →
    s.written.find? (fun w => w.hash = hash) = some w → chunksAt s.volume.file offset = w.chunks

/-- The indexed recipe of every hash is the one whose item was inserted first. -/
def FirstInserted (s : Store) : Prop :=
  ∀ hash offset w, s.mem_index.find hash = some offset →
    s.inserted.find? (fun w => w.hash = hash) = some w → chunksAt s.volume.file offset = w.chunks

theorem numbered_injective {i j : ℕ} (hi : i < 2 ^ 32) (hj : j < 2 ^ 32)
    (h : numbered i = numbered j) : i = j :=
  fixed_leBytes_inj (by omega) (by omega) h

/-- An index with any number of entries up to `2 ^ 31` is reachable. -/
theorem fill_index (n : ℕ) (hn : n ≤ 2 ^ 31) : ∃ es s, Run step Fits init es s ∧ s.pending = [] ∧
    s.mem_index.chains.numItems = n ∧ s.volume.rv.volume_length = 16 + 8 * n ∧
    s.inserted.map Written.hash = (List.range n).map numbered ∧
    ∀ w ∈ s.inserted, w.chunks = [] := by
  induction n with
  | zero =>
    refine ⟨[], init, .nil _, rfl, ?_, ?_, rfl, by simp [init]⟩
    · simp [init, indexOpen, readAt, htableInit, ChainTable.empty]
    · exact init_volume_length
  | succ n ih =>
    obtain ⟨es, s, hrun, hp, hnum, hlen, hins, hempty⟩ := ih (by omega)
    have hsound := sound_of_run hrun
    have hfree : s.mem_index.find (numbered n) = none := by
      rw [hsound.index, Option.map_eq_none_iff, List.find?_eq_none]
      intro w hw hwn
      have hmem : w.hash ∈ (List.range n).map numbered := hins ▸ List.mem_map_of_mem hw
      obtain ⟨i, hi, hiw⟩ := List.mem_map.mp hmem
      rw [of_decide_eq_true hwn] at hiw
      have := numbered_injective (by have := List.mem_range.mp hi; omega) (by omega) hiw
      simp [this] at hi
    obtain ⟨t, ht, htp, hti, htins, htlen, -⟩ := write_insert_run hsound.free hp
      (recipeNew (numbered n)) ⟨by simp [recipeNew], by simp [recipeNew, hlen]; omega⟩
    refine ⟨_, t, hrun.append ht, htp, ?_, ?_, ?_, ?_⟩
    · rw [hti, numItems_htableInsert hsound.table, recipeNew, if_pos hfree, hnum]
    · rw [htlen, hlen, recipeNew]
      simp only [List.length_nil]
      omega
    · rw [htins, List.map_append, hins, List.range_succ, List.map_append]
      rfl
    · intro w hw
      rw [htins] at hw
      rcases List.mem_append.mp hw with hw | hw
      · exact hempty w hw
      · obtain rfl := List.mem_singleton.mp hw
        rfl

/-- A count that is read back as a negative number loads nothing. -/
theorem indexOpen_indexClose_of_full {tbl : HTable ℕ} (h : tbl.chains.numItems = 2 ^ 31)
    (file : Bytes) : indexOpen (indexClose tbl file) = htableInit 16777215 := by
  have hread := readAt_writeAt_self file 0
    (leBytes 4 tbl.chains.numItems ++ (foreachHtable tbl).flatMap indexItemBytes)
  rw [List.length_append, readAt_add] at hread
  have hlen := congrArg List.length hread
  simp only [List.length_append, length_readAt, length_leBytes] at hlen
  obtain ⟨hcount, -⟩ := List.append_inj hread (by
    simp only [length_readAt, length_leBytes]
    omega)
  rw [length_leBytes, h] at hcount
  rw [indexOpen, indexClose, h, hcount, length_leBytes, if_pos rfl]
  rfl

/-- Two workers write recipes for one hash, and the second one reaches the index
first. -/
theorem overtaken_insert : ∃ s, Run step Fits init
    [.write (oneChunk (numbered 0)), .write (recipeNew (numbered 0)), .insert 1, .insert 0] s ∧
      ¬FirstWritten s := by
  have hinit := init_sound.free
  let s1 := afterWrite init (oneChunk (numbered 0))
  have hlen1 : s1.volume.rv.volume_length = 108 := by
    change init.volume.rv.volume_length + (8 + 84 * 1) = 108
    rw [init_volume_length]
  have h1 : Run step Fits init [.write (oneChunk (numbered 0))] s1 :=
    Run.single ⟨⟨by decide, by rw [init_volume_length]; decide⟩, by simp⟩ (step_write hinit _)
  have hfits : Fits s1 (.write (recipeNew (numbered 0))) :=
    ⟨⟨by decide, by rw [hlen1]; decide⟩, by simp⟩
  have h2 := h1.snoc hfits (step_write (s := s1) hinit _)
  have h3 := h2.snoc (fits_insert _ 1) (step_insert rfl)
  have h4 := h3.snoc (fits_insert _ 0) (step_insert rfl)
  refine ⟨_, h4, fun hfirst => ?_⟩
  have hsound := sound_of_run h4
  have hsecond := (hsound.stored ⟨numbered 0, s1.volume.rv.volume_length, []⟩
    (List.mem_append_right _ (List.mem_singleton_self _))).chunksAt
  have hchunks := hfirst (numbered 0) _ ⟨numbered 0, _, [_]⟩ (hsound.index (numbered 0)) rfl
  exact absurd (hsecond.symm.trans hchunks) (List.cons_ne_nil _ _).symm

/-- After a restart with `2 ^ 31` hashes the index is empty, and a later recipe
takes the place of one that was inserted before. -/
theorem overfull_restart : ∃ es s, Run step NoFailure init es s ∧ ¬FirstInserted s := by
  obtain ⟨es, s, hrun, -, hnum, hlen, hins, hempty⟩ := fill_index (2 ^ 31) (le_refl _)
  have hsound := sound_of_run hrun
  obtain ⟨-, hvol, hmutex⟩ := recipeVolumeInit_flushed hsound.offset_t s.volume.file
  let r : Store :=
    { s with
      volume := recipeVolumeInit (writeAt s.volume.file 0 (volumeHeader s.volume.rv))
      global_index := indexClose s.mem_index s.global_index
      mem_index := htableInit 16777215
      pending := [] }
  have hstep : step s .restart = some r := by
    rw [step, recipeVolumeFlush, hsound.free]
    simp [indexOpen_indexClose_of_full hnum, r]
  have hrestart := (hrun.mono (fun _ _ h => h.1)).snoc trivial hstep
  have hroom : r.volume.rv.volume_length + (8 + 84 * 1) < 2 ^ 63 := by
    change (recipeVolumeInit (writeAt s.volume.file 0 (volumeHeader s.volume.rv))).rv.volume_length
      + (8 + 84 * 1) < 2 ^ 63
    rw [hvol, hlen]
    decide
  obtain ⟨t, ht, -, hti, htins, -, hchunks⟩ :=
    write_insert_run (s := r) hmutex rfl (oneChunk (numbered 0)) ⟨by decide, hroom⟩
  refine ⟨_, t, hrestart.append (ht.mono fun _ _ h => h.1), fun hfirst => ?_⟩
  have hzero : numbered 0 ∈ s.inserted.map Written.hash := by
    rw [hins]
    exact List.mem_map_of_mem (List.mem_range.mpr (by decide))
  obtain ⟨w, hw, hwh⟩ := List.mem_map.mp hzero
  obtain ⟨w', hw'⟩ : ∃ w', s.inserted.find? (fun w => w.hash = numbered 0) = some w' := by
    rw [← Option.isSome_iff_exists, List.find?_isSome]
    exact ⟨w, hw, by simpa using hwh⟩
  have hfind : t.mem_index.find (numbered 0) = some r.volume.rv.volume_length := by
    rw [hti]
    exact (find_htableInsert (htableInit_wf _) _ _ _).trans (if_pos ⟨rfl, htableInit_find _ _⟩)
  have hread := hfirst (numbered 0) _ w' hfind (by
    rw [htins, List.find?_append, hw']
    rfl)
  rw [hempty w' (List.mem_of_find?_eq_some hw')] at hread
  exact absurd (hchunks.symm.trans hread) (List.cons_ne_nil _ _)

/-- The recipe written first need not be the indexed one, and past `2 ^ 31`
hashes the one inserted first need not be either. -/
theorem first_recipe_not_indexed :
    (∃ es s, Run step Fits init es s ∧ ¬FirstWritten s) ∧
      ∃ es s, Run step NoFailure init es s ∧ ¬FirstInserted s := by
  obtain ⟨s, hrun, hs⟩ := overtaken_insert
  exact ⟨⟨_, s, hrun, hs⟩, overfull_restart⟩

end TCBackup.Server.RecipeHistory
