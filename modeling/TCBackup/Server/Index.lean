import TCBackup.Server.HTable

/-!
# The global file index (`server/src/index.c`)

File hash to offset in the recipe volume. The index lives in a hash table and
is written to `global_index` on shutdown, as a 4-byte count and the items.
-/

namespace TCBackup.Server

open ByteFile

/-- An item as `index_close` writes it: the hash and an `int64_t` offset. -/
def indexItemBytes (item : Fingerprint × ℕ) : Bytes := item.1.toList ++ intBytes 8 item.2

def indexItemOf (b : Bytes) : Fingerprint × ℕ :=
  (fixed 20 (readAt b 0 20), (intOf (readAt b 20 8)).toNat)

/-- `index_init` and `index_open` on the stored file. -/
def indexOpen (file : Bytes) : HTable ℕ :=
  if (readAt file 0 4).length = 4 then
    (readRecords indexItemOf 28 file (intOf (readAt file 0 4)).toNat 4).foldl
      (fun tbl item => htableInsert tbl item.1 item.2) (htableInit 16777215)
  else htableInit 16777215

/-- `index_close`: overwrite the stored file from its start. -/
def indexClose (tbl : HTable ℕ) (file : Bytes) : Bytes :=
  writeAt file 0 (leBytes 4 tbl.chains.numItems ++ (foreachHtable tbl).flatMap indexItemBytes)

/-- `index_insert`: nothing happens when the hash is there. -/
def indexInsert (tbl : HTable ℕ) (hash : Fingerprint) (offset : ℕ) : HTable ℕ :=
  match htableLookup tbl hash with
  | (some _, tbl) => tbl
  | (none, tbl) => htableAdd tbl hash offset

def indexLookup (tbl : HTable ℕ) (hash : Fingerprint) : Option ℕ × HTable ℕ :=
  htableLookup tbl hash

theorem indexInsert_eq (tbl : HTable ℕ) (hash : Fingerprint) (offset : ℕ) :
    indexInsert tbl hash offset = htableInsert tbl hash offset := by
  unfold indexInsert htableInsert
  obtain ⟨found, tbl'⟩ := htableLookup tbl hash
  cases found <;> rfl

@[simp] theorem length_indexItemBytes (item : Fingerprint × ℕ) :
    (indexItemBytes item).length = 28 := by
  simp [indexItemBytes]

theorem indexItemOf_bytes {item : Fingerprint × ℕ} (h : item.2 < 2 ^ 63) :
    indexItemOf (indexItemBytes item) = item := by
  have h1 : readAt (indexItemBytes item) 0 20 = item.1.toList :=
    readAt_front item.1.toList_length
  have h2 : readAt (indexItemBytes item) 20 8 = intBytes 8 item.2 := by
    have := readAt_front (b := []) (length_intBytes 8 item.2)
    rw [indexItemBytes, readAt_skip (k := 0) (by simp)]
    simpa using this
  have h3 : intOf (intBytes 8 item.2) = item.2 := intOf_intBytes_natCast (by omega)
  rw [indexItemOf, h1, h2, h3, fixed_toList, Int.toNat_natCast]

/-- Loading items with distinct hashes into a table that has none of them. -/
theorem foldl_htableInsert {l : List (Fingerprint × ℕ)} {tbl : HTable ℕ} (h : tbl.WF)
    (hd : (l.map Prod.fst).Nodup) (hn : ∀ p ∈ l, tbl.find p.1 = none) :
    (l.foldl (fun tbl item => htableInsert tbl item.1 item.2) tbl).WF ∧
      ∀ key x, (l.foldl (fun tbl item => htableInsert tbl item.1 item.2) tbl).find key = some x ↔
        (key, x) ∈ l ∨ tbl.find key = some x := by
  induction l generalizing tbl with
  | nil => exact ⟨h, fun key x => by simp⟩
  | cons p l ih =>
    rw [List.map_cons, List.nodup_cons] at hd
    have hfind := find_htableInsert h p.1 p.2
    have hp : tbl.find p.1 = none := hn p (by simp)
    obtain ⟨hw, hf⟩ := ih (htableInsert_wf h p.1 p.2) hd.2 (by
      intro q hq
      have hne : q.1 ≠ p.1 := fun he => hd.1 (List.mem_map.mpr ⟨q, hq, he⟩)
      rw [hfind, if_neg (by simp [hne])]
      exact hn q (by simp [hq]))
    refine ⟨hw, fun key x => ?_⟩
    rw [List.foldl_cons, hf, hfind]
    by_cases hk : key = p.1
    · subst hk
      rw [if_pos ⟨rfl, hp⟩, hp, List.mem_cons]
      constructor
      · rintro (hx | hx)
        · exact .inl (.inr hx)
        · obtain rfl := Option.some.inj hx
          exact .inl (.inl rfl)
      · rintro ((hx | hx) | hx)
        · exact .inr (congrArg some (congrArg Prod.snd hx).symm)
        · exact .inl hx
        · simp at hx
    · rw [if_neg (by simp [hk]), List.mem_cons]
      have : (key, x) ≠ p := fun he => hk (congrArg Prod.fst he)
      simp [this]

/-- Shutdown and restart keep the index, as long as its count fits an `int32_t`. -/
theorem indexOpen_indexClose {tbl : HTable ℕ} (h : tbl.WF)
    (hcount : tbl.chains.numItems < 2 ^ 31)
    (hoff : ∀ key x, tbl.find key = some x → x < 2 ^ 63) (file : Bytes) :
    (indexOpen (indexClose tbl file)).WF ∧
      ∀ key, (indexOpen (indexClose tbl file)).find key = tbl.find key := by
  have hlen : (foreachHtable tbl).length = tbl.chains.numItems := by
    rw [foreachHtable, List.length_map, h.chains.count]
  let body := leBytes 4 tbl.chains.numItems ++ (foreachHtable tbl).flatMap indexItemBytes
  have hbody : body.length = 4 + 28 * (foreachHtable tbl).length := by
    rw [List.length_append, length_leBytes, length_flatMap_enc length_indexItemBytes]
  have hread : readAt (indexClose tbl file) 0 (4 + 28 * (foreachHtable tbl).length) = body := by
    rw [← hbody]
    exact readAt_writeAt_self file 0 body
  rw [readAt_add] at hread
  have hfile : 4 + 28 * (foreachHtable tbl).length ≤ (indexClose tbl file).length := by
    rw [indexClose, length_writeAt]
    change _ ≤ max file.length (0 + body.length)
    omega
  obtain ⟨hc, hitems⟩ := List.append_inj hread (by
    rw [length_leBytes, length_readAt_of_le]
    omega)
  have hint : intOf (leBytes 4 tbl.chains.numItems) = tbl.chains.numItems := by
    have hb : leBytes 4 tbl.chains.numItems = intBytes 4 (tbl.chains.numItems : ℤ) := by
      rw [intBytes]
      congr 1
      omega
    rw [hb]
    exact intOf_intBytes_natCast (by omega)
  have hrecords : readRecords indexItemOf 28 (indexClose tbl file) (foreachHtable tbl).length 4 =
      foreachHtable tbl :=
    readRecords_of_readAt' length_indexItemBytes
      (fun p hp => indexItemOf_bytes (hoff p.1 p.2 (h.find_eq_some_iff.mpr hp))) hitems
  have hopen : indexOpen (indexClose tbl file) =
      (foreachHtable tbl).foldl (fun t item => htableInsert t item.1 item.2)
        (htableInit 16777215) := by
    rw [indexOpen, hc, length_leBytes, if_pos rfl, hint, Int.toNat_natCast, ← hlen, hrecords]
  obtain ⟨hw, hf⟩ := foldl_htableInsert (htableInit_wf 16777215)
    (by rw [foreachHtable_keys]; exact h.nodup) (fun p _ => htableInit_find _ p.1)
  rw [hopen]
  refine ⟨hw, fun key => Option.ext fun x => ?_⟩
  rw [hf, htableInit_find, h.find_eq_some_iff]
  simp

end TCBackup.Server
