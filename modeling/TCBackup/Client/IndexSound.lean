import TCBackup.Client.BinVolumes
import TCBackup.Client.Located
import TCBackup.Client.RestoreClient
import TCBackup.Client.SkippedFile

/-!
# What the index of a backup leads to

Under every rewrite policy the addresses of decided chunks and those in the bin lead to chunks
with the right fingerprint, in the open container or in one that was written.

## Main definitions

- `Hashed` — the bytes of a chunk have its fingerprint
- `Decided` — a chunk has its address
- `IndexSound` — all addresses lead to their chunks

## Main results

- `Handle.sound` — whatever is done with one chunk
- `Moves.sound` — what the thread does
- `index_sound` — the whole stream
- `long_file_not_sound` — a file of 2³¹ chunks
-/

namespace TCBackup.Client

open ByteFile Handoff

/-- The bytes have this fingerprint. -/
def Hashed (sha1 : Bytes → Fingerprint) (hash : Fingerprint) (data : Bytes) : Prop :=
  sha1 data = hash

/-- A chunk that is decided, or a duplicate that waits. -/
def Decided (s : Stage) (fc : FingerChunk) : Prop :=
  s = .settled ∨ (s = .marked ∨ s = .pending) ∧ fc.is_new = .dedupChunk

/-- The chunk is where its address says, and the bin has it. -/
structure Known (sha1 : Bytes → Fingerprint) (store : Store) (fingers : HTable 20 Chunkaddress)
    (fc : FingerChunk) : Prop where
  located : Located (Hashed sha1) store fc.chunkaddress fc.chunk_hash
  found : fingers.lookup fc.chunk_hash ≠ none

/-- All entries of the bin lead to their chunks. -/
def BinSound (sha1 : Bytes → Fingerprint) (store : Store) (fingers : HTable 20 Chunkaddress) : Prop :=
  ∀ p ∈ fingers.walk, Located (Hashed sha1) store p.2 p.1

/-- All addresses lead to their chunks. -/
structure IndexSound (sha1 : Bytes → Fingerprint) (d₀ : Disk) (n₀ : Names) (w : Work)
    (σ : ℕ → Stage) : Prop where
  storeOk : StoreOk (Hashed sha1) d₀ n₀ w.store
  chains : ChainTable.WF hashIndex w.fingers
  bin : BinSound sha1 w.store w.fingers
  chunks : ∀ r, Decided (σ r) (w.chunk r) → Known sha1 w.store w.fingers (w.chunk r)

variable {sha1 : Bytes → Fingerprint} {s : Settings} {clock : ℕ → ℤ} {content : Bytes → Bytes}
  {d₀ : Disk} {n₀ : Names} {w w' : Work} {σ σ' : ℕ → Stage} {S : ℕ → Prop} {fc fc' : FingerChunk}
  {st st' : Stage} {chunks : List Chunk} {fingers : HTable 20 Chunkaddress} {store : Store}

-- ════════════════════════════════════════════════════════════════════════
-- One chunk
-- ════════════════════════════════════════════════════════════════════════

theorem Stored.sized {chunk : Chunk} (h : Stored sha1 fc chunk) : chunk.Sized := ⟨h.data, h.len⟩

theorem Stored.hashed {chunk : Chunk} (h : Stored sha1 fc chunk) :
    Hashed sha1 chunk.hash chunk.data := h.sha

theorem Handle.calls (h : Handle sha1 clock w fc st fc' chunks fingers store st') :
    w.store.names.calls <+: store.names.calls := by
  cases h with
  | storeNew | rewrite => exact calls_storeChunk clock w.store _
  | _ => exact List.prefix_rfl

/-- The address that the bin has for a fingerprint. -/
theorem BinSound.lookup (h : BinSound sha1 store fingers) (hchains : ChainTable.WF hashIndex fingers)
    {hash : Fingerprint} {a : Chunkaddress} (hlookup : fingers.lookup hash = some a) :
    Located (Hashed sha1) store a hash :=
  h (hash, a) (hchains.mem_of_lookup hlookup)

/-- What the store holds for a chunk that it has just got. -/
structure Placed (sha1 : Bytes → Fingerprint) (d₀ : Disk) (n₀ : Names) (s s' : Store)
    (a : Chunkaddress) (hash : Fingerprint) : Prop where
  storeOk : StoreOk (Hashed sha1) d₀ n₀ s'
  kept : ∀ {a hash}, Located (Hashed sha1) s a hash → Located (Hashed sha1) s' a hash
  located : Located (Hashed sha1) s' a hash

theorem placed_of_stored (clock : ℕ → ℤ) {chunk : Chunk} (hstore : StoreOk (Hashed sha1) d₀ n₀ w.store)
    (hnames : Distinct d₀ n₀ w.store.names) (h : Stored sha1 fc chunk) :
    Placed sha1 d₀ n₀ w.store (storeChunk clock w.store chunk).2 (w.newAddress clock chunk)
      fc.chunk_hash where
  storeOk := hstore.storeChunk clock h.sized h.hashed
  kept := fun hlocated => hlocated.storeChunk clock hstore hnames chunk
  located := h.hash ▸ located_storeChunk clock hstore h.sized

/-- What was done with one chunk. -/
structure Handled (sha1 : Bytes → Fingerprint) (d₀ : Disk) (n₀ : Names) (s : Store) (fc' : FingerChunk)
    (fingers : HTable 20 Chunkaddress) (store : Store) (st' : Stage) : Prop where
  storeOk : StoreOk (Hashed sha1) d₀ n₀ store
  kept : ∀ {a hash}, Located (Hashed sha1) s a hash → Located (Hashed sha1) store a hash
  bin : BinSound sha1 store fingers
  known : Decided st' fc' → Known sha1 store fingers fc'

theorem not_decided_new {fc : FingerChunk} (hnew : fc.is_new = .newChunk) : ¬Decided .pending fc := by
  rintro (h | ⟨-, h⟩)
  · cases h
  · rw [hnew] at h
    cases h

theorem Handle.sound (h : Handle sha1 clock w fc st fc' chunks fingers store st')
    (hstore : StoreOk (Hashed sha1) d₀ n₀ w.store) (hchains : ChainTable.WF hashIndex w.fingers)
    (hbin : BinSound sha1 w.store w.fingers) (hnames : Distinct d₀ n₀ w.store.names)
    (hknown : Decided st fc → Known sha1 w.store w.fingers fc) :
    Handled sha1 d₀ n₀ w.store fc' fingers store st' := by
  have hdup : ∀ {a a' : Chunkaddress}, w.fingers.lookup fc.chunk_hash = some a → cstr a' = cstr a →
      Located (Hashed sha1) w.store a' fc.chunk_hash ∧ w.fingers.lookup fc.chunk_hash ≠ none := by
    intro a a' hsome ha
    exact ⟨(hbin.lookup hchains hsome).congr ha, by rw [hsome]; exact Option.some_ne_none a⟩
  cases h with
  | enterNew hnone => exact ⟨hstore, id, hbin, fun hdec => absurd hdec (not_decided_new rfl)⟩
  | enterDup hsome ha | mark hsome ha | dup _ hsome ha =>
    exact ⟨hstore, id, hbin, fun _ => ⟨(hdup hsome ha).1, (hdup hsome ha).2⟩⟩
  | enter hisdup hsome =>
    have hfound := hknown (.inr ⟨.inl rfl, hisdup⟩)
    exact ⟨hstore, id, hbin, fun _ => ⟨hfound.located, hfound.found⟩⟩
  | keep hisdup =>
    have hfound := hknown (.inr ⟨.inr rfl, hisdup⟩)
    exact ⟨hstore, id, hbin, fun _ => ⟨hfound.located, hfound.found⟩⟩
  | storeNew _ hnone hchunk =>
    have hplaced := placed_of_stored clock hstore hnames hchunk
    refine ⟨hplaced.storeOk, hplaced.kept, ?_, fun _ => ⟨hplaced.located, ?_⟩⟩
    · intro p hp
      cases (ChainTable.mem_items_insert hashIndex_lt hchains).mp hp with
      | inl hnew =>
        rw [hnew]
        exact hplaced.located
      | inr hold => exact hplaced.kept (hbin p hold)
    · intro hlookup
      refine (ChainTable.WF.insert hashIndex_lt hchains _ _).lookup_eq_none_iff.mp hlookup ?_
      exact (ChainTable.keys_insert_perm hashIndex_lt hchains _ _).mem_iff.mpr List.mem_cons_self
  | rewrite hisdup hchunk =>
    have hplaced := placed_of_stored clock hstore hnames hchunk
    have hfound := hknown (.inr ⟨.inr rfl, hisdup⟩)
    refine ⟨hplaced.storeOk, hplaced.kept, ?_, fun _ => ⟨hplaced.located, ?_⟩⟩
    · intro p hp
      cases ChainTable.mem_items_set hp with
      | inl hnew =>
        rw [hnew]
        exact hplaced.located
      | inr hold => exact hplaced.kept (hbin p hold)
    · have hkey := mt hchains.lookup_eq_none_iff.mpr hfound.found
      rw [not_not] at hkey
      intro hlookup
      have hnone := (hchains.set _ _).lookup_eq_none_iff.mp hlookup
      rw [ChainTable.keys_set] at hnone
      exact hnone hkey

-- ════════════════════════════════════════════════════════════════════════
-- The thread
-- ════════════════════════════════════════════════════════════════════════

theorem Known.mono (h : Known sha1 w.store w.fingers fc)
    (hkept : ∀ {a hash}, Located (Hashed sha1) w.store a hash → Located (Hashed sha1) store a hash)
    (hfound : ∀ {key}, w.fingers.lookup key ≠ none → fingers.lookup key ≠ none) :
    Known sha1 store fingers fc :=
  ⟨hkept h.located, hfound h.found⟩

theorem Step.calls (h : Step sha1 clock S (w, σ) (w', σ')) :
    w.store.names.calls <+: w'.store.names.calls := by
  generalize hp : (w, σ) = p at h
  generalize hq : (w', σ') = q at h
  cases h with
  | handle _ hstep =>
    obtain ⟨rfl, rfl⟩ := Prod.mk.inj hp
    obtain ⟨rfl, rfl⟩ := Prod.mk.inj hq
    exact hstep.calls

theorem IndexSound.step (h : IndexSound sha1 d₀ n₀ w σ) (hnames : Distinct d₀ n₀ w.store.names)
    (hs : Step sha1 clock S (w, σ) (w', σ')) : IndexSound sha1 d₀ n₀ w' σ' := by
  generalize hp : (w, σ) = p at hs
  generalize hq : (w', σ') = q at hs
  cases hs with
  | @handle w₀ σ₀ r es fc chunks fingers store s hr hstep hcell hheld hacts hafter =>
    obtain ⟨rfl, rfl⟩ := Prod.mk.inj hp
    obtain ⟨rfl, rfl⟩ := Prod.mk.inj hq
    have hhandled := hstep.sound h.storeOk h.chains h.bin hnames (h.chunks r)
    refine ⟨hhandled.storeOk, hstep.chains h.chains, hhandled.bin, fun r' hdec => ?_⟩
    rw [chunk_touched hcell, hafter] at hdec ⊢
    by_cases heq : r' = r
    · rw [heq, Function.update_self, Function.update_self] at hdec
      rw [heq, Function.update_self]
      exact hhandled.known hdec
    · rw [Function.update_of_ne heq, Function.update_of_ne heq] at hdec
      rw [Function.update_of_ne heq]
      exact (h.chunks r' hdec).mono hhandled.kept (hstep.lookup_ne_none h.chains)

/-- Only a store that is at its beginning gets its bin from the volume, and that bin is good. -/
def LoadsSound (sha1 : Bytes → Fingerprint) (Loads : Store → HTable 20 Chunkaddress → Prop) : Prop :=
  ∀ store fingers, Loads store fingers → BinSound sha1 store fingers

variable {Loads : Store → HTable 20 Chunkaddress → Prop}

theorem Move.calls (h : Move sha1 s clock Loads (w, σ) (w', σ')) :
    w.store.names.calls <+: w'.store.names.calls := by
  cases h with
  | step hstep => exact hstep.calls
  | _ => exact List.prefix_rfl

theorem IndexSound.move (h : IndexSound sha1 d₀ n₀ w σ) (hnames : Distinct d₀ n₀ w.store.names)
    (hloads : LoadsSound sha1 Loads) (hm : Move sha1 s clock Loads (w, σ) (w', σ')) :
    IndexSound sha1 d₀ n₀ w' σ' := by
  cases hm with
  | step hstep => exact h.step hnames hstep
  | @alloc _ _ r fc hr hfc =>
    refine ⟨h.storeOk, h.chains, h.bin, fun r' hdec => ?_⟩
    have hne : r' ≠ r := by
      rintro rfl
      rw [hr] at hdec
      rcases hdec with hbad | ⟨hbad | hbad, -⟩ <;> cases hbad
    rw [chunk_set, Function.update_of_ne hne] at hdec ⊢
    exact h.chunks r' hdec
  | push hcells =>
    refine ⟨h.storeOk, h.chains, h.bin, fun r' hdec => ?_⟩
    rw [push_chunk] at hdec ⊢
    exact h.chunks r' hdec
  | @drop _ _ r hpub hstage =>
    refine ⟨h.storeOk, h.chains, h.bin, fun r' hdec => ?_⟩
    by_cases heq : r' = r
    · rw [heq, Function.update_self] at hdec
      rcases hdec with hbad | ⟨hbad | hbad, -⟩ <;> cases hbad
    · rw [Function.update_of_ne heq] at hdec
      exact h.chunks r' hdec
  | load hfresh hchains hload =>
    refine ⟨h.storeOk, hchains, hloads _ _ hload, fun r' hdec => ?_⟩
    rw [hfresh r'] at hdec
    rcases hdec with hbad | ⟨hbad | hbad, -⟩ <;> cases hbad

/-- What the thread does keeps the addresses good, as long as containers have names of their
own. -/
theorem Moves.sound (hm : Moves sha1 s clock Loads (w, σ) (w', σ')) (hloads : LoadsSound sha1 Loads)
    (h : IndexSound sha1 d₀ n₀ w σ) (hnames : Distinct d₀ n₀ w'.store.names) :
    IndexSound sha1 d₀ n₀ w' σ' := by
  refine Moves.induct (P := fun v τ => Distinct d₀ n₀ v.store.names → IndexSound sha1 d₀ n₀ v τ)
    ?_ hm (fun _ => h) hnames
  intro v τ v' τ' hP hmove hnames'
  have hbefore := hnames'.mono hmove.calls
  exact (hP hbefore).move hbefore hloads hmove

theorem Moves.calls (hm : Moves sha1 s clock Loads (w, σ) (w', σ')) :
    w.store.names.calls <+: w'.store.names.calls :=
  Moves.induct (P := fun v _ => w.store.names.calls <+: v.store.names.calls)
    (fun _ _ _ _ hP hmove => hP.trans hmove.calls) hm List.prefix_rfl

/-- What the thread does leaves the chunks where they are. -/
theorem IndexSound.kept (h : IndexSound sha1 d₀ n₀ w σ) (hnames : Distinct d₀ n₀ w.store.names)
    (hm : Move sha1 s clock Loads (w, σ) (w', σ')) {a : Chunkaddress} {hash : Fingerprint}
    (hlocated : Located (Hashed sha1) w.store a hash) : Located (Hashed sha1) w'.store a hash := by
  cases hm with
  | step hs =>
    generalize hp : (w, σ) = p at hs
    generalize hq : (w', σ') = q at hs
    cases hs with
    | @handle w₀ σ₀ r es fc chunks fingers store s hr hstep hcell hheld hacts hafter =>
      obtain ⟨rfl, rfl⟩ := Prod.mk.inj hp
      obtain ⟨rfl, rfl⟩ := Prod.mk.inj hq
      exact (hstep.sound h.storeOk h.chains h.bin hnames (h.chunks r)).kept hlocated
  | _ => exact hlocated

theorem Moves.located (hm : Moves sha1 s clock Loads (w, σ) (w', σ'))
    (hloads : LoadsSound sha1 Loads) (h : IndexSound sha1 d₀ n₀ w σ)
    (hnames : Distinct d₀ n₀ w'.store.names) {a : Chunkaddress} {hash : Fingerprint}
    (hlocated : Located (Hashed sha1) w.store a hash) : Located (Hashed sha1) w'.store a hash := by
  refine (Moves.induct (P := fun v τ => Distinct d₀ n₀ v.store.names →
    IndexSound sha1 d₀ n₀ v τ ∧ Located (Hashed sha1) v.store a hash) ?_ hm
    (fun _ => ⟨h, hlocated⟩) hnames).2
  intro v τ v' τ' hP hmove hnames'
  have hbefore := hnames'.mono hmove.calls
  obtain ⟨hindex, hv⟩ := hP hbefore
  exact ⟨hindex.move hbefore hloads hmove, hindex.kept hbefore hmove hv⟩

-- ════════════════════════════════════════════════════════════════════════
-- The stream comes to its end
-- ════════════════════════════════════════════════════════════════════════

variable {ex₀ : ExtremeBinning} {store₀ : Store} {paths : List Bytes} {t : DedupThread}
  {fileinfo : FileInfo ℕ}

/-- The bin that a following process finds on the disk leads to good chunks. -/
def SoundDisk (sha1 : Bytes → Fingerprint) (d : Disk) : Prop :=
  ∀ file_hash (n : ℕ), ∃ bin ex,
    loadBin (extremeBinningInit d).1 (extremeBinningInit d).2 zeroFinger file_hash n =
      some (bin, ex) ∧
    ∀ p ∈ bin.fingers.walk, OnDisk (Hashed sha1) d p.2 p.1

theorem markDeplicateChunk_exbin (s : Settings) (clock : ℕ → ℤ) (content : Bytes → Bytes)
    (fileinfo : FileInfo ℕ) (t : DedupThread) :
    (markDeplicateChunk s clock content fileinfo t).2.exbin = t.exbin := by
  rw [markDeplicateChunk]
  cases s.rewrite with
  | noRewrite => cases fileinfo.is_new <;> rfl
  | _ => rfl

/-- The bin can be loaded at any time, at first for a number of chunks that is one. -/
theorem BinKept.loads (h : BinKept ex₀ store₀ t σ)
    (hload : ∀ file_hash (n : ℕ), ∃ b, loadBin ex₀ store₀.disk zeroFinger file_hash n = some b)
    (file_hash : Fingerprint) {n : ℤ} (hn : t.exbin.bin_cache.lookup zeroFinger = none → 0 ≤ n) :
    ∃ b, loadBin t.exbin t.work.store.disk zeroFinger file_hash n = some b := by
  cases hcached : t.exbin.bin_cache.lookup zeroFinger with
  | some bin => exact ⟨(bin, t.exbin), by rw [loadBin, hcached]⟩
  | none =>
    obtain ⟨hex, hstore, -⟩ := h.unloaded hcached
    lift n to ℕ using hn hcached
    rw [hex, hstore]
    exact hload file_hash n

/-- A thread without a bin gets one for a count that is not negative only. -/
theorem chunkDedup_nonneg {s : Settings} {clock : ℕ → ℤ} {q : Bool × FileInfo ℕ × DedupThread}
    (hchunks : fileinfo.chunks = []) (hnone : t.exbin.bin_cache.lookup zeroFinger = none)
    (hrun : chunkDedup sha1 s clock content fileinfo t = some q) :
    0 ≤ int32 (chunkFile t.rabin (content fileinfo.file_path)).1.length := by
  have hlength := length_cutFile sha1 content hchunks t
  have hexbin : (cutFile sha1 content fileinfo t).2.exbin = t.exbin :=
    (appendChunks_only _ _ _).exbin
  have hrep : (cutFile sha1 content fileinfo t).1.rep_finger = zeroFinger := rfl
  rw [chunkDedup] at hrun
  obtain ⟨b, hload, -⟩ := Option.map_eq_some_iff.mp hrun
  rw [← hexbin] at hnone
  rw [hrep] at hload
  rw [← hlength]
  exact nonneg_of_loadBin hload hnone

/-- The thread gets its bin and keeps it. -/
theorem chunkDedup_ends (s : Settings) (clock : ℕ → ℤ)
    (h : Between sha1 s content ex₀ store₀ paths t σ)
    (hload : ∀ file_hash (n : ℕ), ∃ b, loadBin ex₀ store₀.disk zeroFinger file_hash n = some b)
    (hchunks : fileinfo.chunks = [])
    (hcount : t.exbin.bin_cache.lookup zeroFinger = none →
      0 ≤ int32 (chunkFile t.rabin (content fileinfo.file_path)).1.length) :
    ∃ q, chunkDedup sha1 s clock content fileinfo t = some q ∧
      (forward q).exbin.bin_cache.lookup zeroFinger ≠ none := by
  obtain ⟨-, hb, hcut, -⟩ := cutFile_spec clock (FirstLoad ex₀ store₀) h hchunks
  have hlength := length_cutFile sha1 content hchunks t
  have hexbin : (cutFile sha1 content fileinfo t).2.exbin = t.exbin :=
    (appendChunks_only _ _ _).exbin
  rw [← hlength, ← hexbin] at hcount
  rw [chunkDedup]
  generalize cutFile sha1 content fileinfo t = p at hb hcut hcount
  obtain ⟨⟨bin, ex⟩, hb'⟩ := hb.bins.loads hload p.1.file_hash (n := p.1.chunknum) hcount
  obtain ⟨-, hcache, hbin, hrep⟩ := hb.bins.openBin sha1 s clock hb'
  rw [hcut.rep, hb']
  obtain ⟨m, hm⟩ : ∃ m, m = markDeplicateChunk s clock content p.1 ({ p.2 with exbin := ex }.openBin bin) :=
    ⟨_, rfl⟩
  have hexbin : m.2.exbin = ex := by
    rw [hm, markDeplicateChunk_exbin]
    rfl
  have hlookup := (lookup_closeBin (hexbin ▸ hcache) (hexbin ▸ hbin) hrep).2
  refine ⟨(m.1, p.1, m.2.closeBin bin), by rw [hm]; rfl, ?_⟩
  rw [forward]
  split
  · exact hlookup ▸ Option.some_ne_none _
  · exact hlookup ▸ Option.some_ne_none _

theorem dedupItem_ends (clock : ℕ → ℤ) (hs : s.rewrite ≠ .noRewrite)
    (h : Between sha1 s content ex₀ store₀ paths t σ)
    (hload : ∀ file_hash (n : ℕ), ∃ b, loadBin ex₀ store₀.disk zeroFinger file_hash n = some b)
    {item : Bytes × Answer} (hcount : FitsChunknum (content item.1)) :
    ∃ t', dedupItem sha1 s clock content t item = some t' ∧
      t'.exbin.bin_cache.lookup zeroFinger ≠ none := by
  rw [dedupItem]
  cases item.2 with
  | newFile =>
    obtain ⟨q, hq, hlookup⟩ := chunkDedup_ends s clock h hload
      (rfl : ({ queuedFile sha1 content item.1 with is_new := .newFile } : FileInfo ℕ).chunks = [])
      fun _ => hcount.nonneg t.rabin
    refine ⟨forward q, ?_, hlookup⟩
    dsimp only
    rw [hq]
    rfl
  | dedupFile msgs =>
    have hspec := appendChunks_spec clock (FirstLoad ex₀ store₀)
      { queuedFile sha1 content item.1 with is_new := .dedupFile } (mutex_receivedChunk msgs) h
    have hfile := appendChunks_path (msgs.map receivedChunk)
      { queuedFile sha1 content item.1 with is_new := .dedupFile } t
    dsimp only
    rw [if_neg hs]
    generalize appendChunks (msgs.map receivedChunk)
      { queuedFile sha1 content item.1 with is_new := .dedupFile } t = p at hspec hfile
    have hpath : ({ p.1 with chunks := [] } : FileInfo ℕ).file_path = item.1 := hfile
    have hchunks : ({ p.1 with chunks := [] } : FileInfo ℕ).chunks = [] := rfl
    obtain ⟨q, hq, hlookup⟩ := chunkDedup_ends s clock hspec.between hload hchunks fun _ => by
      rw [hpath]
      exact hcount.nonneg p.2.rabin
    refine ⟨forward q, ?_, hlookup⟩
    rw [hq]
    rfl

theorem dedupItems_ends (clock : ℕ → ℤ) (hs : s.rewrite ≠ .noRewrite)
    (h : Between sha1 s content ex₀ store₀ paths t σ)
    (hload : ∀ file_hash (n : ℕ), ∃ b, loadBin ex₀ store₀.disk zeroFinger file_hash n = some b)
    {stream : List (Bytes × Answer)} (hcount : ∀ item ∈ stream, FitsChunknum (content item.1)) :
    ∃ t', stream.foldlM (dedupItem sha1 s clock content) t = some t' ∧
      (stream ≠ [] ∨ t.exbin.bin_cache.lookup zeroFinger ≠ none →
        t'.exbin.bin_cache.lookup zeroFinger ≠ none) := by
  induction stream generalizing t σ paths with
  | nil => exact ⟨t, rfl, fun hor => hor.resolve_left fun hne => hne rfl⟩
  | cons item stream ih =>
    have hitem := hcount item List.mem_cons_self
    obtain ⟨u, hu, hlookup⟩ := dedupItem_ends clock hs h hload hitem
    obtain ⟨σ', -, hb⟩ := dedupItem_between h (fun _ => hitem) hu
    obtain ⟨t', ht', hlookup'⟩ := ih hb fun i hi => hcount i (List.mem_cons_of_mem _ hi)
    refine ⟨t', ?_, fun _ => hlookup' (.inr hlookup)⟩
    rw [List.foldlM_cons, hu]
    exact ht'

theorem streamEnd_ends (s : Settings) (clock : ℕ → ℤ) (content : Bytes → Bytes)
    (h : BinKept ex₀ store₀ t σ) (hlookup : t.exbin.bin_cache.lookup zeroFinger ≠ none) :
    ∃ t', streamEnd s clock content t = some t' ∧ t'.exbin.bin_cache.lookup zeroFinger ≠ none := by
  obtain ⟨bin, hbin⟩ := Option.ne_none_iff_exists'.mp hlookup
  have hreload : reloadBin t = some bin := hbin
  have hrep := (h.loaded bin hbin).2
  have hclose : ∀ u : DedupThread, u.exbin = t.exbin →
      (u.closeBin bin).exbin.bin_cache.lookup zeroFinger ≠ none := by
    intro u hu
    rw [(lookup_closeBin (hu ▸ h.cache) (hu ▸ hbin) hrep).2]
    exact Option.some_ne_none _
  rw [streamEnd]
  cases s.rewrite with
  | noRewrite => exact ⟨t, rfl, hlookup⟩
  | cflRewrite =>
    dsimp only
    split
    · exact ⟨t, rfl, hlookup⟩
    · rw [hreload]
      exact ⟨_, rfl, hclose _ rfl⟩
  | perfectRewrite =>
    dsimp only
    split
    · exact ⟨t, rfl, hlookup⟩
    · rw [hreload]
      exact ⟨_, rfl, hclose _ rfl⟩
  | cappingRewrite =>
    dsimp only
    rw [hreload]
    exact ⟨_, rfl, hclose _ rfl⟩

-- ════════════════════════════════════════════════════════════════════════
-- Restoring a file by its recipe and by the bin
-- ════════════════════════════════════════════════════════════════════════

/-- No two chunks that the containers hold have one fingerprint. -/
def NoCollision (sha1 : Bytes → Fingerprint) (d : Disk) : Prop :=
  ∀ a a' hash hash' data data', fetch d a hash = some data → fetch d a' hash' = some data' →
    sha1 data = sha1 data' → data = data'

/-- The names of the container files. -/
def IsContainer (d : Disk) (address : Chunkaddress) : Prop := d.files.tmp (cstr address) ≠ none

/-- Restores of the chunks with two lists of addresses, from any caches, write the same. -/
def SameBytes (d : Disk) (fcs fcs' : List FingerChunk) : Prop :=
  ∃ data : List Bytes, ∀ wrote : ℕ → ℕ, (∀ j, ∀ bs ∈ data, bs.length ≤ wrote j) →
    ∀ clock (r r' : Restore), Cached d (IsContainer d) r.restore_cache →
      Cached d (IsContainer d) r'.restore_cache →
      (writeChunks clock d wrote 0 fcs r).join.map Prod.fst = some data ∧
      (writeChunks clock d wrote 0 fcs' r').join.map Prod.fst = some data

variable {d : Disk} {fcs fcs' : List FingerChunk} {data : List Bytes}

theorem readAll_of_fetch (h : List.Forall₂ (fun fc bs =>
      fetch d fc.chunkaddress fc.chunk_hash = some bs) fcs data) {wrote : ℕ → ℕ}
    (hwrote : ∀ j, ∀ bs ∈ data, bs.length ≤ wrote j) (j : ℕ) : readAll d wrote j fcs = some data := by
  induction h generalizing j with
  | nil => rfl
  | @cons fc bs fcs data hfetch _ ih =>
    rw [readAll, hfetch, Option.bind_some, if_pos (hwrote j bs List.mem_cons_self),
      ih fun j bs hbs => hwrote j bs (List.mem_cons_of_mem _ hbs)]
    rfl

/-- The bin has an address for every chunk, which leads to the same bytes. -/
theorem binAddresses_fetch (hbin : ∀ p ∈ fingers.walk, OnDisk (Hashed sha1) d p.2 p.1)
    (hchains : ChainTable.WF hashIndex fingers) (hcollision : NoCollision sha1 d)
    (h : ∀ fc ∈ fcs, OnDisk (Hashed sha1) d fc.chunkaddress fc.chunk_hash ∧
      fingers.lookup fc.chunk_hash ≠ none) :
    ∃ fcs' data, binAddresses fingers fcs = some fcs' ∧
      (∀ fc ∈ fcs', IsContainer d fc.chunkaddress) ∧
      List.Forall₂ (fun fc bs => fetch d fc.chunkaddress fc.chunk_hash = some bs) fcs data ∧
      List.Forall₂ (fun fc bs => fetch d fc.chunkaddress fc.chunk_hash = some bs) fcs' data := by
  induction fcs with
  | nil => exact ⟨[], [], rfl, by simp, .nil, .nil⟩
  | cons fc fcs ih =>
    obtain ⟨⟨-, bs, hfetch, hsha⟩, hfound⟩ := h fc List.mem_cons_self
    obtain ⟨a, ha⟩ := Option.ne_none_iff_exists'.mp hfound
    have hentry := hbin (fc.chunk_hash, a) (hchains.mem_of_lookup ha)
    have hfile := hentry.exists_file
    obtain ⟨-, bs', hfetch', hsha'⟩ := hentry
    have hsame : bs = bs' := hcollision _ _ _ _ _ _ hfetch hfetch' (hsha.trans hsha'.symm)
    obtain ⟨fcs', data, hfcs', hfiles, hall, hall'⟩ := ih fun x hx => h x (List.mem_cons_of_mem _ hx)
    refine ⟨{ fc with chunkaddress := a } :: fcs', bs :: data, ?_, ?_, .cons hfetch hall, .cons ?_ hall'⟩
    · rw [binAddresses, ha, Option.bind_some, hfcs']
      rfl
    · intro x hx
      cases List.mem_cons.mp hx with
      | inl hfirst =>
        rw [hfirst]
        exact hfile
      | inr hrest => exact hfiles x hrest
    · rw [hsame]
      exact hfetch'

theorem sameBytes_of_sound (hbin : ∀ p ∈ fingers.walk, OnDisk (Hashed sha1) d p.2 p.1)
    (hchains : ChainTable.WF hashIndex fingers) (hcollision : NoCollision sha1 d)
    (h : ∀ fc ∈ fcs, OnDisk (Hashed sha1) d fc.chunkaddress fc.chunk_hash ∧
      fingers.lookup fc.chunk_hash ≠ none) :
    ∃ fcs', binAddresses fingers fcs = some fcs' ∧ SameBytes d fcs fcs' := by
  obtain ⟨fcs', data, hfcs', hfiles, hall, hall'⟩ := binAddresses_fetch hbin hchains hcollision h
  refine ⟨fcs', hfcs', data, fun wrote hwrote clock r r' hr hr' => ⟨?_, ?_⟩⟩
  · rw [(writeChunks_eq hr fun fc hfc => (h fc hfc).1.exists_file).2.1]
    exact readAll_of_fetch hall hwrote 0
  · rw [(writeChunks_eq hr' hfiles).2.1]
    exact readAll_of_fetch hall' hwrote 0

-- ════════════════════════════════════════════════════════════════════════
-- The whole stream
-- ════════════════════════════════════════════════════════════════════════

theorem tmp_extremeBinningInit (d : Disk) : (extremeBinningInit d).2.files.tmp = d.files.tmp := by
  rw [(extremeBinningInit_eq d).2.2.2]

theorem dedupStart_exbin (clock : ℕ → ℤ) (disk : Disk) (names : Names) (rabin : Rabin) (u : ℤ) :
    (dedupStart clock disk names rabin u).exbin = (extremeBinningInit disk).1 := rfl

theorem dedupStart_store (clock : ℕ → ℤ) (disk : Disk) (names : Names) (rabin : Rabin) (u : ℤ) :
    (dedupStart clock disk names rabin u).work.store =
      storeInit clock (extremeBinningInit disk).2 names := rfl

theorem storeInit_disk (clock : ℕ → ℤ) (disk : Disk) (names : Names) :
    (storeInit clock disk names).disk = disk := rfl

/-- At the start of the thread. -/
theorem indexSound_start (sha1 : Bytes → Fingerprint) (clock : ℕ → ℤ) (disk : Disk) (names : Names)
    (rabin : Rabin) (u : ℤ) :
    IndexSound sha1 disk names (dedupStart clock disk names rabin u).work fun _ => .fresh where
  storeOk := by
    rw [dedupStart_store]
    refine storeOk_init clock (List.append_nil _).symm fun name _ => ?_
    rw [tmp_extremeBinningInit]
  chains := (HTable.init_wf 0).chains
  bin := by
    have hwalk : HTable.walk (dedupStart clock disk names rabin u).work.fingers = [] :=
      HTable.walk_init 0
    intro p hp
    rw [hwalk] at hp
    cases hp
  chunks := by
    rintro r (hbad | ⟨hbad | hbad, -⟩) <;> cases hbad

theorem firstLoad_sound {disk : Disk} (hdisk : SoundDisk sha1 disk) (clock : ℕ → ℤ) (names : Names)
    (rabin : Rabin) (u : ℤ) :
    LoadsSound sha1 (FirstLoad (dedupStart clock disk names rabin u).exbin
      (dedupStart clock disk names rabin u).work.store) := by
  rintro store fingers ⟨hstore, file_hash, n, bin, ex, hload, hfingers⟩ p hp
  rw [dedupStart_exbin, dedupStart_store, storeInit_disk] at hload
  have hn : 0 ≤ n := nonneg_of_loadBin hload <| by
    rw [(extremeBinningInit_eq disk).2.1]
    exact HTable.lookup_init 100 zeroFinger
  lift n to ℕ using hn
  obtain ⟨bin', ex', hload', hsound⟩ := hdisk file_hash n
  obtain ⟨hbin, -⟩ := Prod.mk.inj (Option.some.inj (hload.symm.trans hload'))
  rw [← hfingers, hbin] at hp
  refine .inl ((hsound p hp).congr rfl ?_)
  rw [hstore, dedupStart_store, storeInit_disk, tmp_extremeBinningInit]

/-- Under every rewrite policy the stream comes to its end, and then the chunks of the forwarded
files and the entries of the bin lead to container files with the right chunks. A file is
restored by its recipe as it is by the bin. -/
theorem index_sound (sha1 : Bytes → Fingerprint) (s : Settings) (clock : ℕ → ℤ)
    (content : Bytes → Bytes) (hs : s.rewrite ≠ .noRewrite) (disk : Disk) (names : Names)
    (rabin : Rabin) (u : ℤ) {stream : List (Bytes × Answer)} (hstream : stream ≠ [])
    (hcount : ∀ item ∈ stream, FitsChunknum (content item.1)) (hdisk : SoundDisk sha1 disk)
    (hnames : ∀ t, chunkDedupModule sha1 s clock content stream
      (dedupStart clock disk names rabin u) = some t → Distinct disk names t.work.store.names) :
    ∃ t bin, chunkDedupModule sha1 s clock content stream (dedupStart clock disk names rabin u) =
        some t ∧
      t.exbin.bin_cache.lookup zeroFinger = some bin ∧
      (∀ p ∈ bin.fingers.walk, OnDisk (Hashed sha1) (storeDestory t.work.store) p.2 p.1) ∧
      ∀ f ∈ groups t.work.log,
        (∀ r ∈ f.chunks, OnDisk (Hashed sha1) (storeDestory t.work.store)
          (t.work.chunk r).chunkaddress (t.work.chunk r).chunk_hash) ∧
        (NoCollision sha1 (storeDestory t.work.store) →
          ∃ fcs, binAddresses bin.fingers (f.chunks.map t.work.chunk) = some fcs ∧
            SameBytes (storeDestory t.work.store) (f.chunks.map t.work.chunk) fcs) := by
  have hload : ∀ file_hash (n : ℕ), ∃ b, loadBin (dedupStart clock disk names rabin u).exbin
      (dedupStart clock disk names rabin u).work.store.disk zeroFinger file_hash n = some b := by
    intro file_hash n
    obtain ⟨bin, ex, hload, -⟩ := hdisk file_hash n
    rw [dedupStart_exbin, dedupStart_store, storeInit_disk]
    exact ⟨(bin, ex), hload⟩
  have hstart := between_start sha1 s content clock disk names rabin u
  obtain ⟨v, hv, hlookup⟩ := dedupItems_ends clock hs hstart hload hcount
  obtain ⟨σ₁, -, hb⟩ := dedupItems_between hstart (fun _ => hcount) hv
  obtain ⟨t, ht, hbin⟩ := streamEnd_ends s clock content hb.bins (hlookup (.inl hstream))
  have hrun : chunkDedupModule sha1 s clock content stream (dedupStart clock disk names rabin u) =
      some t := by
    rw [chunkDedupModule, hv]
    exact ht
  obtain ⟨bin, hbin⟩ := Option.ne_none_iff_exists'.mp hbin
  obtain ⟨σ', hmoves, hended⟩ := chunkDedupModule_moves (fun _ => hcount) hrun
  have hsound := hmoves.sound (firstLoad_sound hdisk clock names rabin u)
    (indexSound_start sha1 clock disk names rabin u) (hnames t hrun)
  have hfingers := (hended.bins.loaded bin hbin).1
  have hfile : ∀ p ∈ bin.fingers.walk,
      OnDisk (Hashed sha1) (storeDestory t.work.store) p.2 p.1 := by
    intro p hp
    rw [hfingers] at hp
    exact (hsound.bin p hp).storeDestory hsound.storeOk (hnames t hrun)
  have hchunk : ∀ f ∈ groups t.work.log, ∀ r ∈ f.chunks,
      OnDisk (Hashed sha1) (storeDestory t.work.store) (t.work.chunk r).chunkaddress
        (t.work.chunk r).chunk_hash ∧ bin.fingers.lookup (t.work.chunk r).chunk_hash ≠ none := by
    intro f hf r hr
    have hown : ¬(s.rewrite = .noRewrite ∧ f.is_new = .dedupFile) := fun hboth => hs hboth.1
    have hstage := hended.life.published r (mem_pushedChunks.mp (mem_pushedChunks_of_file hf hown hr))
    have hknown := hsound.chunks r (.inl (hstage.resolve_left (hended.decided r)))
    exact ⟨hknown.located.storeDestory hsound.storeOk (hnames t hrun), hfingers ▸ hknown.found⟩
  refine ⟨t, bin, hrun, hbin, hfile, fun f hf => ⟨fun r hr => (hchunk f hf r hr).1, ?_⟩⟩
  intro hcollision
  refine sameBytes_of_sound hfile (hfingers ▸ hsound.chains) hcollision fun fc hfc => ?_
  obtain ⟨r, hr, rfl⟩ := List.mem_map.mp hfc
  exact hchunk f hf r hr

/-- On an empty disk the bin is new. -/
theorem soundDisk_empty (sha1 : Bytes → Fingerprint) : SoundDisk sha1 .empty := by
  intro file_hash n
  obtain ⟨hmain, hcache, -, -⟩ := extremeBinningInit_eq .empty
  have hrecords : savedRecords (Disk.empty.files.repfinger.getD []) = [] := by decide
  have hnone : (extremeBinningInit .empty).1.main_table.lookup zeroFinger = none := by
    rw [hmain, hrecords]
    exact HTable.lookup_init 3200 zeroFinger
  refine ⟨emptyBin 0 zeroFinger n, ?_⟩
  rw [loadBin, hcache, HTable.lookup_init, locationBin, hnone]
  dsimp only
  rw [newBin_of_nonneg 0 zeroFinger (Int.natCast_nonneg n)]
  refine ⟨_, rfl, fun p hp => ?_⟩
  rw [emptyBin, HTable.walk_init] at hp
  cases hp

theorem index_sound_one :
    ∃ t bin, chunkDedupModule (fun _ => zeroFinger) ⟨.cflRewrite, fun _ _ => true, fun _ => true,
        fun _ => true, 0, 0⟩ (fun _ => 0) (fun _ => [1, 2, 3]) [([97], .newFile)]
        (dedupStart (fun _ => 0) .empty ⟨1, []⟩ ⟨0, 0, fun _ => 0⟩ 0) = some t ∧
      t.exbin.bin_cache.lookup zeroFinger = some bin ∧
      ∀ p ∈ bin.fingers.walk,
        OnDisk (Hashed fun _ => zeroFinger) (storeDestory t.work.store) p.2 p.1 := by
  have hcalls : (chunkDedupModule (fun _ => zeroFinger) ⟨.cflRewrite, fun _ _ => true, fun _ => true,
      fun _ => true, 0, 0⟩ (fun _ => 0) (fun _ => [1, 2, 3]) [([97], .newFile)]
      (dedupStart (fun _ => 0) .empty ⟨1, []⟩ ⟨0, 0, fun _ => 0⟩ 0)).map
        (fun t => t.work.store.names.calls) = some [⟨0, 2⟩] := by decide +kernel
  obtain ⟨t, bin, hrun, hbin, hsound, -⟩ := index_sound (fun _ => zeroFinger) ⟨.cflRewrite,
    fun _ _ => true, fun _ => true, fun _ => true, 0, 0⟩ (fun _ => 0) (fun _ => [1, 2, 3]) (by simp)
    .empty ⟨1, []⟩ ⟨0, 0, fun _ => 0⟩ 0 (List.cons_ne_nil ([97], .newFile) [])
    (fun _ _ => fitsChunknum_of_length (by decide)) (soundDisk_empty _) (by
      intro t hrun
      rw [hrun] at hcalls
      have hone : t.work.store.names.calls = [⟨0, 2⟩] := Option.some.inj hcalls
      refine ⟨?_, fun _ _ => rfl⟩
      rw [hone]
      exact List.nodup_singleton _)
  exact ⟨t, bin, hrun, hbin, hsound⟩

/-- The chunks of a file of 2³¹ chunks have no address. -/
theorem long_file_not_sound :
    ¬ ∀ (sha1 : Bytes → Fingerprint) (s : Settings) (clock : ℕ → ℤ) (content : Bytes → Bytes),
      s.rewrite ≠ .noRewrite → ∀ (disk : Disk) (names : Names) (rabin : Rabin) (u : ℤ)
        (stream : List (Bytes × Answer)) (t : DedupThread), stream ≠ [] → SoundDisk sha1 disk →
        chunkDedupModule sha1 s clock content stream (dedupStart clock disk names rabin u) = some t →
        Distinct disk names t.work.store.names →
        ∀ f ∈ groups t.work.log, ∀ r ∈ f.chunks, OnDisk (Hashed sha1) (storeDestory t.work.store)
          (t.work.chunk r).chunkaddress (t.work.chunk r).chunk_hash := by
  intro hall
  obtain ⟨t, f, hrun, hf, hchunks, hlong, -, -, hcalls⟩ := longStream_run
  obtain ⟨r, hr⟩ := List.exists_mem_of_ne_nil _ hchunks
  have hdistinct : Distinct .empty ⟨1, []⟩ t.work.store.names := by
    refine ⟨?_, fun _ _ => rfl⟩
    rw [hcalls]
    exact List.nodup_singleton _
  have hdisk := hall (fun _ => zeroFinger) cflSettings (fun _ => 0) longContent Rewrite.noConfusion .empty
    ⟨1, []⟩ ⟨0, 0, fun _ => 0⟩ 0 longStream t (List.cons_ne_nil _ _) (soundDisk_empty _) hrun hdistinct f hf
    r hr
  rw [(hlong r hr).2.1] at hdisk
  exact hdisk.1 (by decide)

end TCBackup.Client
