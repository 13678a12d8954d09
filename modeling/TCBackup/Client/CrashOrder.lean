import TCBackup.Client.Drivers

/-!
# Crashes during a backup

The bins are written before the container that is still open. A bin that is written over its old
region can be loaded at once, any other bin as soon as the main table leads to it.

## Main definitions

- `Intact` — the bin that a process can load, and its chunks
- `Ending` — what is written when the files are done

## Main results

- `Ending.final` — the bin when all is written
- `Ending.always_iff` — when no crash point among the last writes is bad
-/

namespace TCBackup.Client

open ByteFile Handoff Prefixes

/-- The bin that a process can load has the entries `F`, and their chunks are on disk. -/
structure Intact (sha1 : Bytes → Fingerprint) (F : BinMap) (addr : ℕ) (fs : Files) : Prop where
  table : Saved fs.repfinger addr
  bin : BinAt F addr fs.bvol
  entries : ∀ hash a, F hash = some a → OnDisk (Hashed sha1) ⟨fs, []⟩ a hash

variable {sha1 : Bytes → Fingerprint} {F F' : BinMap} {addr addr' : ℕ} {fs : Files}
  {ws : List DiskWrite} {ex : ExtremeBinning}

theorem Intact.sound (h : Intact sha1 F addr fs) : CrashSound sha1 fs :=
  (crashSound_iff h.table.table h.bin).mpr h.entries

theorem Intact.container (h : Intact sha1 F addr fs) {name : Bytes} (hfree : fs.tmp name = none)
    (data : Bytes) : Intact sha1 F addr (fs.apply (.container name data)) := by
  refine ⟨h.table, h.bin, fun hash a ha => ?_⟩
  have hdisk := h.entries hash a ha
  refine hdisk.congr rfl (Function.update_of_ne ?_ _ _)
  intro hname
  rw [← hname] at hfree
  exact hdisk.exists_file hfree

theorem Intact.header (h : Intact sha1 F addr fs) {w : DiskWrite} (hw : IsHeader w) :
    Intact sha1 F addr (fs.apply w) := by
  cases w with
  | bvol level pos data => exact ⟨h.table, h.bin.write (.inr hw), h.entries⟩
  | container name data => exact hw.elim
  | repfinger pos data => exact hw.elim

theorem Intact.headers (h : Intact sha1 F addr fs) (hws : ∀ w ∈ ws, IsHeader w) :
    Always Files.apply (Intact sha1 F addr) fs ws :=
  Always.of_invariant (fun _ _ hfs hw => hfs.header hw) hws h

theorem replay_headers (hws : ∀ w ∈ ws, IsHeader w) :
    (replay fs ws).repfinger = fs.repfinger ∧ (replay fs ws).tmp = fs.tmp := by
  induction ws generalizing fs with
  | nil => exact ⟨rfl, rfl⟩
  | cons w ws ih =>
    obtain ⟨hrepfinger, htmp⟩ := @ih (fs.apply w) fun w hw => hws w (List.mem_cons_of_mem _ hw)
    have hw := hws w List.mem_cons_self
    cases w with
    | bvol level pos data => exact ⟨hrepfinger, htmp⟩
    | container name data => exact hw.elim
    | repfinger pos data => exact hw.elim

/-- The main table leads to the bin in its new place. -/
theorem flushed (h : Saved fs.repfinger addr) (hmain : ex.main_table.WF)
    (hkeys : ∀ k mi, ex.main_table.lookup k = some mi → k = zeroFinger ∧ mi.binaddr ≠ 0 ∧ mi.binaddr < 2 ^ 64)
    (hkept : addr ≠ 0 → ex.binaddr zeroFinger ≠ 0) (hbin : BinAt F' (ex.binaddr zeroFinger) fs.bvol)
    (hws : ∀ w ∈ ws, IsHeader w) :
    Saved (replay fs (tableWrites ex.main_table ++ ws)).repfinger (ex.binaddr zeroFinger) ∧
      BinAt F' (ex.binaddr zeroFinger) (replay fs (tableWrites ex.main_table ++ ws)).bvol ∧
      (replay fs (tableWrites ex.main_table ++ ws)).tmp = fs.tmp := by
  obtain ⟨halways, hsaved⟩ := h.always_table hmain hkeys hkept
  have hsame := halways.end
  have hbvol : (replay fs (tableWrites ex.main_table)).bvol = fs.bvol := hsame.bvol
  have htmp : (replay fs (tableWrites ex.main_table)).tmp = fs.tmp := hsame.tmp
  rw [replay, List.foldl_append]
  change Saved (replay (replay fs (tableWrites ex.main_table)) ws).repfinger _ ∧
    BinAt F' _ (replay (replay fs (tableWrites ex.main_table)) ws).bvol ∧
    (replay (replay fs (tableWrites ex.main_table)) ws).tmp = fs.tmp
  rw [← hbvol] at hbin
  refine ⟨?_, hbin.headers hws, ?_⟩
  · rw [(replay_headers hws).1]
    exact hsaved
  · rw [(replay_headers hws).2, htmp]

/-- The main table changes from one bin to another. -/
theorem Intact.flush (h : Intact sha1 F addr fs) (hmain : ex.main_table.WF)
    (hkeys : ∀ k mi, ex.main_table.lookup k = some mi → k = zeroFinger ∧ mi.binaddr ≠ 0 ∧ mi.binaddr < 2 ^ 64)
    (hkept : addr ≠ 0 → ex.binaddr zeroFinger ≠ 0) (hbin : BinAt F' (ex.binaddr zeroFinger) fs.bvol)
    (hentries : ∀ hash a, F' hash = some a → OnDisk (Hashed sha1) ⟨fs, []⟩ a hash)
    (hws : ∀ w ∈ ws, IsHeader w) :
    Always Files.apply (CrashSound sha1) fs (tableWrites ex.main_table ++ ws) := by
  obtain ⟨halways, hsaved⟩ := h.table.always_table hmain hkeys hkept
  have hsame := halways.end
  have hcongr : ∀ fs', fs'.tmp = fs.tmp → ∀ a hash, OnDisk (Hashed sha1) ⟨fs, []⟩ a hash →
      OnDisk (Hashed sha1) ⟨fs', []⟩ a hash :=
    fun fs' htmp a hash ha => ha.congr rfl (congrFun htmp (cstr a))
  have hnew : Intact sha1 F' (ex.binaddr zeroFinger) (replay fs (tableWrites ex.main_table)) := by
    refine ⟨hsaved, ?_, fun hash a ha => hcongr _ hsame.tmp _ _ (hentries hash a ha)⟩
    rw [show (replay fs (tableWrites ex.main_table)).bvol = fs.bvol from hsame.bvol]
    exact hbin
  have hheaders := hnew.headers hws
  refine always_append.mpr ⟨halways.mono fun fs' hfs' => ?_, hheaders.mono fun _ => Intact.sound⟩
  rcases hfs'.table with hold | hnext
  · refine (crashSound_iff hold (hfs'.bvol ▸ h.bin)).mpr fun hash a ha => ?_
    exact hcongr fs' hfs'.tmp a hash (h.entries hash a ha)
  · refine (crashSound_iff hnext (hfs'.bvol ▸ hbin)).mpr fun hash a ha => ?_
    exact hcongr fs' hfs'.tmp a hash (hentries hash a ha)

/-- What `store_destory` writes. -/
def lastContainer (s : Store) : List DiskWrite :=
  if 0 < s.container.chunk_num then [.container (cstr s.container.name) (containerBytes s.container)] else []

theorem storeDestory_writes (s : Store) : storeDestory s = s.disk.writes (lastContainer s) := by
  rw [storeDestory, lastContainer]
  split <;> rfl

/-- The writes at the end of a backup. `bins` is what `free_cache_bin` writes, after which the bin at
`addr'` has the entries `F'`; `last` is what `store_destory` writes. The old bin was written over, or
it is still there. -/
structure Ending (sha1 : Bytes → Fingerprint) (F F' : BinMap) (addr : ℕ) (fs : Files) (ex : ExtremeBinning)
    (bins last : List DiskWrite) (inPlace : Prop) : Prop where
  intact : Intact sha1 F addr fs
  few : bins = [] ∨ ∃ level pos data, bins = [.bvol level pos data]
  main : ex.main_table.WF
  keys : ∀ k mi, ex.main_table.lookup k = some mi → k = zeroFinger ∧ mi.binaddr ≠ 0 ∧ mi.binaddr < 2 ^ 64
  kept : addr ≠ 0 → ex.binaddr zeroFinger ≠ 0
  bin : BinAt F' (ex.binaddr zeroFinger) (replay fs bins).bvol
  place : inPlace ∧ ex.binaddr zeroFinger = addr ∨ ¬inPlace ∧ BinAt F addr (replay fs bins).bvol
  free : last = [] ∨ ∃ name data, last = [.container name data] ∧ fs.tmp name = none
  located : ∀ hash a, F' hash = some a → OnDisk (Hashed sha1) ⟨replay fs last, []⟩ a hash
  fresh : F' = F ∧ last = [] ∨ ∃ hash a, F' hash = some a ∧ fs.tmp (cstr a) = none

namespace Ending

variable {bins last : List DiskWrite} {inPlace : Prop}

theorem bins_same (h : Ending sha1 F F' addr fs ex bins last inPlace) :
    (replay fs bins).repfinger = fs.repfinger ∧ (replay fs bins).tmp = fs.tmp := by
  rcases h.few with hnil | ⟨level, pos, data, hone⟩
  · rw [hnil]
    exact ⟨rfl, rfl⟩
  · rw [hone]
    exact ⟨rfl, rfl⟩

theorem last_same (h : Ending sha1 F F' addr fs ex bins last inPlace) (fs' : Files) :
    (replay fs' last).repfinger = fs'.repfinger ∧ (replay fs' last).bvol = fs'.bvol ∧
      (fs'.tmp = fs.tmp → (replay fs' last).tmp = (replay fs last).tmp) := by
  rcases h.free with hnil | ⟨name, data, hone, -⟩
  · rw [hnil]
    exact ⟨rfl, rfl, id⟩
  · rw [hone]
    refine ⟨rfl, rfl, fun htmp => ?_⟩
    change Function.update fs'.tmp name (writeFile (fs'.tmp name) 0 data) = _
    rw [htmp]
    rfl

/-- The old bin can still be loaded, unless it was written over by one with other entries. -/
theorem still_intact (h : Ending sha1 F F' addr fs ex bins last inPlace) (hsafe : F' = F ∨ ¬inPlace) :
    Intact sha1 F addr (replay fs bins) := by
  obtain ⟨hrepfinger, htmp⟩ := h.bins_same
  refine ⟨?_, ?_, fun hash a ha => (h.intact.entries hash a ha).congr rfl (congrFun htmp (cstr a))⟩
  · rw [hrepfinger]
    exact h.intact.table
  · rcases h.place with ⟨hplace, haddr⟩ | ⟨-, hbin⟩
    · have hbin := h.bin
      rwa [hsafe.resolve_right fun hnot => hnot hplace, haddr] at hbin
    · exact hbin

theorem always_bins (h : Ending sha1 F F' addr fs ex bins last inPlace) (hsafe : F' = F ∨ ¬inPlace) :
    Always Files.apply (CrashSound sha1) fs bins := by
  have hend := (h.still_intact hsafe).sound
  rcases h.few with hnil | ⟨level, pos, data, hone⟩
  · rw [hnil]
    exact always_nil.mpr h.intact.sound
  · rw [hone] at hend ⊢
    exact always_cons.mpr ⟨h.intact.sound, always_nil.mpr hend⟩

/-- The last container has a new name. -/
theorem always_last (h : Ending sha1 F F' addr fs ex bins last inPlace)
    (hintact : Intact sha1 F addr (replay fs bins)) :
    Always Files.apply (Intact sha1 F addr) (replay fs bins) last := by
  rcases h.free with hnil | ⟨name, data, hone, hnone⟩
  · rw [hnil]
    exact always_nil.mpr hintact
  · rw [hone]
    rw [← h.bins_same.2] at hnone
    exact always_cons.mpr ⟨hintact, always_nil.mpr (hintact.container hnone data)⟩

/-- A bin with an entry for the container that is not on disk. -/
theorem not_sound (hnew : ∃ hash a, F' hash = some a ∧ fs.tmp (cstr a) = none)
    (htable : TableAt addr' fs.repfinger) (hbin : BinAt F' addr' fs.bvol) : ¬CrashSound sha1 fs := by
  intro hsound
  obtain ⟨hash, a, ha, hnone⟩ := hnew
  exact ((crashSound_iff htable hbin).mp hsound hash a ha).exists_file hnone

/-- The last writes, in the order of the client. -/
def order (driver : Driver) (table last : List DiskWrite) : List DiskWrite :=
  match driver with
  | .backupClient => table ++ last
  | .pipelineBackup => last ++ table

theorem flushed (h : Ending sha1 F F' addr fs ex bins last inPlace) {fs' : Files}
    (hrepfinger : fs'.repfinger = fs.repfinger) (hbvol : fs'.bvol = (replay fs bins).bvol)
    (hws : ∀ w ∈ ws, IsHeader w) :
    Saved (replay fs' (tableWrites ex.main_table ++ ws)).repfinger (ex.binaddr zeroFinger) ∧
      BinAt F' (ex.binaddr zeroFinger) (replay fs' (tableWrites ex.main_table ++ ws)).bvol ∧
      (replay fs' (tableWrites ex.main_table ++ ws)).tmp = fs'.tmp := by
  have htable := h.intact.table
  have hbin := h.bin
  rw [← hrepfinger] at htable
  rw [← hbvol] at hbin
  exact Client.flushed htable h.main h.keys h.kept hbin hws

/-- When all is written the bin leads to its chunks. -/
theorem final (h : Ending sha1 F F' addr fs ex bins last inPlace) (driver : Driver)
    (hws : ∀ w ∈ ws, IsHeader w) :
    Intact sha1 F' (ex.binaddr zeroFinger)
      (replay fs (bins ++ order driver (tableWrites ex.main_table ++ ws) last)) := by
  obtain ⟨hrepfinger, htmp⟩ := h.bins_same
  have hentries : ∀ fs', fs'.tmp = (replay fs last).tmp → ∀ hash a, F' hash = some a →
      OnDisk (Hashed sha1) ⟨fs', []⟩ a hash :=
    fun fs' hsame hash a ha => (h.located hash a ha).congr rfl (congrFun hsame (cstr a))
  rw [replay, List.foldl_append]
  cases driver with
  | backupClient =>
    obtain ⟨hsaved, hbin, htmp'⟩ := h.flushed hrepfinger rfl hws
    obtain ⟨hrep, hvol, hlast⟩ := h.last_same (replay (replay fs bins) (tableWrites ex.main_table ++ ws))
    rw [order, List.foldl_append]
    change Intact sha1 F' _ (replay (replay (replay fs bins) (tableWrites ex.main_table ++ ws)) last)
    exact ⟨hrep ▸ hsaved, hvol ▸ hbin, hentries _ (hlast (htmp'.trans htmp))⟩
  | pipelineBackup =>
    obtain ⟨hrep, hvol, hlast⟩ := h.last_same (replay fs bins)
    obtain ⟨hsaved, hbin, htmp'⟩ := h.flushed (hrep.trans hrepfinger) hvol hws
    rw [order, List.foldl_append]
    exact ⟨hsaved, hbin, hentries _ (htmp'.trans (hlast htmp))⟩

/-- No crash point is bad exactly if nothing is new, or the container comes before the table and the
old bin was not written over. -/
theorem always_iff (h : Ending sha1 F F' addr fs ex bins last inPlace) (driver : Driver)
    (hws : ∀ w ∈ ws, IsHeader w) :
    Always Files.apply (CrashSound sha1) fs (bins ++ order driver (tableWrites ex.main_table ++ ws) last) ↔
      F' = F ∧ last = [] ∨ driver = .pipelineBackup ∧ ¬inPlace := by
  obtain ⟨hrepfinger, htmp⟩ := h.bins_same
  obtain ⟨hrep, hvol, hlast⟩ := h.last_same (replay fs bins)
  have hmiss : ¬(F' = F ∧ last = []) →
      ∃ hash a, F' hash = some a ∧ (replay fs bins).tmp (cstr a) = none := by
    intro hnot
    rw [htmp]
    exact h.fresh.resolve_left hnot
  constructor
  · intro halways
    by_contra hnot
    obtain ⟨hnew, hbad⟩ := not_or.mp hnot
    obtain ⟨hash, a, ha, hnone⟩ := hmiss hnew
    rcases not_and_or.mp hbad with hclient | hplace
    · obtain rfl : driver = .backupClient := by
        cases driver with
        | backupClient => rfl
        | pipelineBackup => exact absurd rfl hclient
      obtain ⟨hsaved, hbin, htmp'⟩ := h.flushed hrepfinger rfl hws
      rw [order, ← List.append_assoc] at halways
      have hbad := (always_append.mp halways).1.end
      rw [List.foldl_append] at hbad
      refine not_sound ⟨hash, a, ha, ?_⟩ hsaved.table hbin hbad
      rw [htmp']
      exact hnone
    · have hbad := (always_append.mp halways).1.end
      have haddr := (h.place.resolve_right fun haside => hplace haside.1).2
      have htable := h.intact.table.table
      rw [← hrepfinger, ← haddr] at htable
      exact not_sound ⟨hash, a, ha, hnone⟩ htable h.bin hbad
  · intro hsafe
    have hstill : F' = F ∨ ¬inPlace := hsafe.imp And.left And.right
    have hintact := h.still_intact hstill
    refine always_append.mpr ⟨h.always_bins hstill, ?_⟩
    change Always Files.apply (CrashSound sha1) (replay fs bins) _
    have hbefore : last = [] → ∀ hash a, F' hash = some a →
        OnDisk (Hashed sha1) ⟨replay fs bins, []⟩ a hash := by
      intro hnil hash a ha
      have hdisk := h.located hash a ha
      rw [hnil] at hdisk
      exact hdisk.congr rfl (congrFun htmp (cstr a))
    rcases hsafe with ⟨-, hnil⟩ | ⟨rfl, -⟩
    · have hflush := hintact.flush h.main h.keys h.kept h.bin (hbefore hnil) hws
      cases driver with
      | backupClient =>
        rw [order, hnil, List.append_nil]
        exact hflush
      | pipelineBackup =>
        rw [order, hnil, List.nil_append]
        exact hflush
    · rw [order]
      have hlast' := h.always_last hintact
      have hend : Intact sha1 F addr (replay (replay fs bins) last) := hlast'.end
      refine always_append.mpr ⟨hlast'.mono fun _ => Intact.sound, ?_⟩
      refine hend.flush h.main h.keys h.kept (hvol ▸ h.bin) (fun hash a ha => ?_) hws
      exact (h.located hash a ha).congr rfl (congrFun (hlast htmp) (cstr a))

end Ending

end TCBackup.Client
