import TCBackup.Client.CrashIndex

/-!
# The writes at the end of a backup

`free_cache_bin` writes the bin over its old region, or into a new one when it has none or has
outgrown it. Only then the main table is written, which leads to the new region.

## Main results

- `Bins.freeCacheBin_writes` — what `free_cache_bin` writes
- `Saved.always_table` — what a flush of the main table writes
-/

namespace TCBackup.Client

open ByteFile Prefixes

variable {F : Fingerprint → BinMap} {data : Fingerprint → Bytes} {R : Finset Fingerprint} {addr : ℕ}
  {fs : Files} {d : Disk} {ex : ExtremeBinning}

/-- A table that has at most one key. -/
theorem walk_only {n : ℕ} {α : Type*} {t : HTable n α} (h : t.WF) {key : List.Vector UInt8 n}
    (honly : ∀ k x, t.lookup k = some x → k = key) :
    t.walk = (t.lookup key).toList.map fun x => (key, x) := by
  have hkeys : ∀ p ∈ t.walk, p.1 = key := fun p hp => honly p.1 p.2 (h.lookup_eq_some_iff.mpr hp)
  have hnodup := h.nodup_walk
  cases hwalk : t.walk with
  | nil =>
    have hnone : t.lookup key = none := h.lookup_eq_none_iff.mpr (by simp [hwalk])
    rw [hnone]
    rfl
  | cons p l =>
    obtain ⟨k, x⟩ := p
    have hk : k = key := hkeys (k, x) (by simp [hwalk])
    subst hk
    have hsome : t.lookup k = some x := h.lookup_eq_some_iff.mpr (by simp [hwalk])
    cases l with
    | nil =>
      rw [hsome]
      rfl
    | cons q l =>
      rw [hwalk, List.map_cons, List.map_cons, List.nodup_cons] at hnodup
      exact absurd (hkeys q (by simp [hwalk])) fun heq => hnodup.1 (heq ▸ List.mem_cons_self)

theorem Bins.binAt (h : Bins R F data ex fs) :
    BinAt (F zeroFinger) (ex.binaddr zeroFinger) fs.bvol := by
  by_cases hzero : ex.binaddr zeroFinger = 0
  · exact .inl ⟨hzero, h.unsaved zeroFinger (ExtremeBinning.place_eq_none_iff.mpr hzero)⟩
  · have hplace := ExtremeBinning.place_eq_some_iff.mpr ⟨hzero, rfl, rfl⟩
    obtain ⟨-, t, hwf, hfit, hlen, hdata, hF⟩ := h.saved zeroFinger _ _ hplace
    refine .inr ⟨hzero, (h.sound.inside zeroFinger _ _ hplace).1, t, hwf, hfit, hlen, hF, ?_⟩
    rw [← hdata]
    exact h.holds.reads zeroFinger _ _ hplace

theorem addressOf_binaddr {a : ℕ} (ha : a < 2 ^ 64) : addressOf (levelOf a) (offsetOf a) = a := by
  rw [addressOf, levelOf, offsetOf]
  omega

/-- The bin stays in its region if it fits, or goes to a volume of a higher level. -/
theorem Bins.freeBin_writes (h : Bins R F data ex d.files)
    (hvols : ∀ v, v < 23 → ex.layout.length v < 2 ^ 56) {k : Fingerprint} {bin : Bin}
    (hbin : ex.bin_cache.lookup k = some bin) (hlen : binLength bin.fingers < 2 ^ 31) :
    ∃ level offset bytes, (Client.freeBin ex d bin).2 = d.write (.bvol level offset bytes) ∧
      (Client.freeBin ex d bin).1.binaddr k ≠ 0 ∧
      (ex.binaddr k ≠ 0 ∧ binLength bin.fingers ≤ levelToMaxAmount (levelOf (ex.binaddr k)) ∧
          (Client.freeBin ex d bin).1.binaddr k = ex.binaddr k ∨
        (ex.binaddr k ≠ 0 → levelToMaxAmount (levelOf (ex.binaddr k)) < binLength bin.fingers) ∧
          (ex.binaddr k ≠ 0 → levelOf (ex.binaddr k) ≠ level)) := by
  obtain ⟨hrep, -, mi, hmi, -⟩ := h.cached k bin hbin
  obtain ⟨level, offset, vols, hwrite, hlevel, hfit, hhead, hcases⟩ := h.writeBin hbin hlen
  have hhead20 : bvolumeHeadSize = 20 := rfl
  have hoffset : offset < 2 ^ 56 := by
    have hlt := hvols level hlevel
    rcases hcases with ⟨hplace, -⟩ | ⟨rfl, -⟩
    · have := (h.sound.inside k level offset hplace).2
      have := levelToMaxAmount_pos level
      omega
    · exact hlt
  have hne : addressOf level offset ≠ 0 := by
    have := addressOf_eq hlevel hoffset
    omega
  have hfree : Client.freeBin ex d bin = (ex.relocate k mi (addressOf level offset) vols,
      d.write (.bvol level offset (binBytes k bin.fingers (levelToMaxAmount level)))) := by
    rw [Client.freeBin, hwrite]
    dsimp only
    rw [if_neg hne, hrep, hmi]
    rfl
  have hbinaddr : (Client.freeBin ex d bin).1.binaddr k = addressOf level offset := by
    have hmain := h.main.lookup_set hmi { mi with binaddr := addressOf level offset } k
    rw [if_pos rfl] at hmain
    rw [hfree, ExtremeBinning.binaddr, ExtremeBinning.relocate, hmain, Option.map_some, Option.getD_some]
  refine ⟨level, offset, _, congrArg Prod.snd hfree, hbinaddr ▸ hne, ?_⟩
  rcases hcases with ⟨hplace, -⟩ | ⟨-, hup, -⟩
  · obtain ⟨hpos, rfl, rfl⟩ := ExtremeBinning.place_eq_some_iff.mp hplace
    have hlt : ex.binaddr k < 2 ^ 64 := by
      rw [ExtremeBinning.binaddr_of_lookup hmi]
      exact (h.keys k mi hmi).2
    exact .inl ⟨hpos, hfit, hbinaddr.trans (addressOf_binaddr hlt)⟩
  · refine .inr ⟨fun hpos => ?_, fun hpos => ?_⟩
    · exact (hup _ (ExtremeBinning.place_eq_some_iff.mpr ⟨hpos, rfl, rfl⟩)).2
    · have hbelow := (hup _ (ExtremeBinning.place_eq_some_iff.mpr ⟨hpos, rfl, rfl⟩)).1
      dsimp only at hbelow
      omega

/-- What `free_cache_bin` does with the only bin. -/
theorem freeCacheBin_one (h : Bins {zeroFinger} F data ex d.files) :
    freeCacheBin ex d = ((ex.bin_cache.lookup zeroFinger).map fun bin => freeBin ex d bin).getD (ex, d) := by
  have honly : ∀ k bin, ex.bin_cache.lookup k = some bin → k = zeroFinger := by
    intro k bin hbin
    obtain ⟨-, -, mi, hmi, -⟩ := h.cached k bin hbin
    exact Finset.mem_singleton.mp (h.keys k mi hmi).1
  have hwalk := walk_only h.cache honly
  rw [freeCacheBin, hwalk]
  cases ex.bin_cache.lookup zeroFinger with
  | none => rfl
  | some bin => rfl

/-- The main table leads to the bin at its old address until the last write of its entry. -/
theorem Saved.always_table (h : Saved fs.repfinger addr) (hmain : ex.main_table.WF)
    (hkeys : ∀ k mi, ex.main_table.lookup k = some mi → k = zeroFinger ∧ mi.binaddr ≠ 0 ∧ mi.binaddr < 2 ^ 64)
    (hkept : addr ≠ 0 → ex.binaddr zeroFinger ≠ 0) :
    Always Files.apply (TableOnly fs addr (ex.binaddr zeroFinger)) fs (tableWrites ex.main_table) ∧
      Saved (replay fs (tableWrites ex.main_table)).repfinger (ex.binaddr zeroFinger) := by
  have hwalk := walk_only hmain fun k mi hmi => (hkeys k mi hmi).1
  rw [tableWrites, hmain.size_eq, hwalk]
  cases hlookup : ex.main_table.lookup zeroFinger with
  | none =>
    have hzero : ex.binaddr zeroFinger = 0 := by rw [ExtremeBinning.binaddr, hlookup]; rfl
    have hold : addr = 0 := by
      by_contra hne
      exact hkept hne hzero
    rw [hzero]
    rw [hold] at h ⊢
    exact h.always_empty
  | some mi =>
    obtain ⟨-, hne, hlt⟩ := hkeys zeroFinger mi hlookup
    rw [ExtremeBinning.binaddr_of_lookup hlookup]
    exact h.always_entry mi.file_hash hne hlt

end TCBackup.Client
