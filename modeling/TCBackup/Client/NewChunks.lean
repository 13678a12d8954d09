import TCBackup.Client.StoredBytes

/-!
# What the files of a backup add to the bin

Without rewriting, the bin keeps its entries and gets one for every fingerprint that it did not
have. The last chunk that was stored is in the open container, and the bin names it.

## Main definitions

- `Added` — the bin and the open container after some chunks

## Main results

- `markNewFile_added` — one file
- `Added.size` — how many entries there are
-/

namespace TCBackup.Client

open ByteFile Handoff

/-- The bin had the entries `F` and has those of the chunks `cuts` as well. A chunk that is new
was stored, and the open container is named by an entry that is new. -/
structure Added (sha1 : Bytes → Fingerprint) (F : BinMap) (cuts : List Bytes) (w : Work) : Prop where
  wf : w.fingers.WF
  kept : ∀ hash a, F hash = some a → w.fingers.lookup hash = some a
  keys : ∀ hash, F hash = none → (w.fingers.lookup hash ≠ none ↔ hash ∈ cuts.map sha1)
  store : (∀ bs ∈ cuts, F (sha1 bs) ≠ none) ∧ w.store.container.chunk_num = 0 ∨
    ∃ hash, F hash = none ∧ w.fingers.lookup hash = some w.store.container.name

variable {sha1 : Bytes → Fingerprint} {F : BinMap} {cuts pieces : List Bytes} {w w' : Work} {r : ℕ}
  {rs : List ℕ} {bs : Bytes}

theorem storeChunk_address (clock : ℕ → ℤ) (s : Store) (chunk : Chunk) :
    (storeChunk clock s chunk).1.address = (storeChunk clock s chunk).2.container.name := by
  cases hfull : containerFull s.container chunk.length with
  | false =>
    rw [storeChunk_room clock hfull]
    rfl
  | true => rw [storeChunk_full clock hfull]

/-- Nothing was stored in the beginning. -/
theorem Added.start (hwf : w.fingers.WF) (hF : w.fingers.lookup = F)
    (hempty : w.store.container.chunk_num = 0) : Added sha1 F [] w := by
  refine ⟨hwf, fun hash a ha => ?_, fun hash hnone => ?_, .inl ⟨by simp, hempty⟩⟩
  · rw [hF]
    exact ha
  · rw [hF, hnone]
    simp

theorem Added.congr (h : Added sha1 F cuts w) (hfingers : w'.fingers = w.fingers)
    (hstore : w'.store = w.store) : Added sha1 F cuts w' := by
  refine ⟨?_, ?_, ?_, ?_⟩
  · rw [hfingers]
    exact h.wf
  · rw [hfingers]
    exact h.kept
  · rw [hfingers]
    exact h.keys
  · rw [hfingers, hstore]
    exact h.store

/-- A chunk that the bin has. -/
theorem Added.found (h : Added sha1 F cuts w) (hfound : w.fingers.lookup (sha1 bs) ≠ none) :
    Added sha1 F (cuts ++ [bs]) w := by
  refine ⟨h.wf, h.kept, fun hash hnone => ?_, ?_⟩
  · rw [h.keys hash hnone, List.map_append, List.mem_append]
    constructor
    · exact .inl
    · rintro (hold | hnew)
      · exact hold
      · obtain rfl : hash = sha1 bs := by simpa using hnew
        exact (h.keys _ hnone).mp hfound
  · rcases h.store with ⟨hall, hempty⟩ | hopen
    · refine .inl ⟨fun c hc => ?_, hempty⟩
      rcases List.mem_append.mp hc with hold | hnew
      · exact hall c hold
      · obtain rfl : c = bs := by simpa using hnew
        intro hnone
        obtain ⟨c', hc', hsame⟩ := List.mem_map.mp ((h.keys _ hnone).mp hfound)
        exact hall c' hc' (hsame ▸ hnone)
    · exact .inr hopen

/-- A new chunk. -/
theorem Added.insert (h : Added sha1 F cuts w) (hnone : w.fingers.lookup (sha1 bs) = none)
    (hfingers : w'.fingers = w.fingers.insert (sha1 bs) w'.store.container.name) :
    Added sha1 F (cuts ++ [bs]) w' := by
  have hnew : F (sha1 bs) = none := by
    by_contra hne
    obtain ⟨a, ha⟩ := Option.ne_none_iff_exists'.mp hne
    rw [h.kept _ a ha] at hnone
    cases hnone
  have hlookup := fun hash => h.wf.lookup_insert hnone w'.store.container.name hash
  rw [← hfingers] at hlookup
  refine ⟨?_, fun hash a ha => ?_, fun hash hF => ?_, .inr ⟨sha1 bs, hnew, ?_⟩⟩
  · rw [hfingers]
    exact h.wf.insert hnone _
  · have hne : hash ≠ sha1 bs := fun heq => by
      rw [heq, hnew] at ha
      cases ha
    rw [hlookup, if_neg hne]
    exact h.kept hash a ha
  · rw [hlookup, List.map_append, List.mem_append]
    by_cases heq : hash = sha1 bs
    · simp [heq]
    · rw [if_neg heq, h.keys hash hF]
      simp [heq]
  · rw [hlookup, if_pos rfl]

theorem markChunk_added (clock : ℕ → ℤ) (file : Bytes) (size : ℕ) (h : Added sha1 F cuts w)
    (hhash : (w.chunk r).chunk_hash = sha1 bs) :
    Added sha1 F (cuts ++ [bs]) (markChunk clock file size r w) := by
  rw [markChunk]
  cases hfound : w.found r with
  | some a =>
    rw [Work.found, hhash] at hfound
    exact (h.found (hfound ▸ Option.some_ne_none a)).congr rfl rfl
  | none =>
    rw [Work.found, hhash] at hfound
    refine h.insert hfound ?_
    dsimp only
    have hmark : (w.markNew r).chunk r = { w.chunk r with is_new := .newChunk } := chunk_set_self _ _ _
    rw [storeNew, insertMeta_store, write_store, Work.insertMeta, write_chunk_self, write_fingers,
      Work.newAddress, storeChunk_address]
    dsimp only
    rw [hmark, hhash]
    rfl

theorem markNewFile_added (clock : ℕ → ℤ) (file : Bytes) {offset : ℕ} (hnodup : rs.Nodup)
    (hrow : rs.map w.chunk = fingerChunks sha1 offset pieces) (h : Added sha1 F cuts w) (size : ℕ) :
    Added sha1 F (cuts ++ pieces) (markNewFile clock file size rs w) := by
  induction rs generalizing offset pieces w cuts size with
  | nil =>
    have hnil : pieces = [] := by
      cases pieces with
      | nil => rfl
      | cons bs pieces => simp [fingerChunks] at hrow
    rw [hnil, List.append_nil]
    exact h
  | cons r rs ih =>
    obtain ⟨hr, hnodup⟩ := List.nodup_cons.mp hnodup
    cases pieces with
    | nil => simp [fingerChunks] at hrow
    | cons bs pieces =>
      rw [List.map_cons, fingerChunks] at hrow
      obtain ⟨hfirst, hrest⟩ := List.cons_eq_cons.mp hrow
      have hhash : (w.chunk r).chunk_hash = sha1 bs := by rw [hfirst]
      have hsame : rs.map (markChunk clock file size r w).chunk = rs.map w.chunk := by
        apply List.map_congr_left
        intro q hq
        exact markChunk_others clock _ _ w fun heq => hr (heq ▸ hq)
      have hnext := ih hnodup (hsame.trans hrest) (markChunk_added clock file size h hhash)
        (size + (w.chunk r).chunklen)
      rw [List.append_assoc] at hnext
      rw [markNewFile]
      exact hnext

/-- Without new chunks the bin is as it was. -/
theorem Added.same (h : Added sha1 F cuts w) (hall : ∀ bs ∈ cuts, F (sha1 bs) ≠ none) :
    w.fingers.lookup = F := by
  funext hash
  cases hF : F hash with
  | some a => exact h.kept hash a hF
  | none =>
    by_contra hne
    obtain ⟨bs, hbs, rfl⟩ := List.mem_map.mp ((h.keys hash hF).mp hne)
    exact hall bs hbs hF

/-- There is one entry for every fingerprint. -/
theorem Added.size (h : Added sha1 F cuts w) {saved : List Fingerprint}
    (hsaved : ∀ hash, hash ∈ saved ↔ F hash ≠ none) :
    w.fingers.size = (saved ++ cuts.map sha1).toFinset.card := by
  have hkeys : (w.fingers.walk.map Prod.fst).toFinset = (saved ++ cuts.map sha1).toFinset := by
    ext hash
    rw [List.mem_toFinset, List.mem_toFinset, List.mem_append, hsaved]
    have hmem : hash ∈ w.fingers.walk.map Prod.fst ↔ w.fingers.lookup hash ≠ none := by
      rw [Ne, h.wf.lookup_eq_none_iff]
      push Not
      constructor
      · intro hin
        obtain ⟨p, hp, rfl⟩ := List.mem_map.mp hin
        exact ⟨p.2, hp⟩
      · rintro ⟨a, ha⟩
        exact List.mem_map.mpr ⟨_, ha, rfl⟩
    rw [hmem]
    cases hF : F hash with
    | some a =>
      rw [h.kept hash a hF]
      simp
    | none =>
      rw [h.keys hash hF]
      simp
  rw [h.wf.size_eq, ← List.length_map (f := Prod.fst), ← List.toFinset_card_of_nodup h.wf.nodup_walk, hkeys]

end TCBackup.Client
