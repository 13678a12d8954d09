import TCBackup.Bnet
import TCBackup.Client.ContainerNames
import TCBackup.UpdateAttr

/-!
# The statistics of restored segments (`client/src/simulate.c`, `client/seg_statistics.py`)

A restore collects the names of the containers it needs. `output_seg_statistics` prints a line
with their names and sizes, which a script splits again.

## Main definitions

- `getRestoreInfo` — the containers of a stream of chunks
- `outputSegStatistics` — the line that is appended to the file
- `readItem`, `readLine` — the script
- `RoundTrips` — a line within its buffer that is read back

## Main results

- `roundTrips_iff` — the numbers of segments for which it works
-/

namespace TCBackup.Client.SegStatistics

open ByteFile ContainerNames

/-- `restore_segments`, whose elements are their keys. -/
abbrev Segments := HTable 64 Unit

/-- `get_restore_info_init` -/
def getRestoreInfoInit : Segments := htableInit 100

/-- `get_restore_info` for a chunk with this address. -/
def getRestoreInfo (segments : Segments) (chunkaddress : Chunkaddress) : Segments :=
  match segments.lookup chunkaddress with
  | some _ => segments
  | none => segments.insert chunkaddress ()

/-- The segments in the order of `first` and `next`. -/
def segmentIds (segments : Segments) : List Chunkaddress := segments.walk.map Prod.fst

variable (size : Chunkaddress → ℤ)

/-- What is printed of a segment, whose size `get_container_size` tells. -/
def segmentText (id : Chunkaddress) : Bytes := cstr id ++ 44 :: intNumeral (size id)

/-- A write to a buffer, at an offset from its start. Outside the buffer it has no value. -/
def put (buf : Bytes) (tmp : ℤ) (bs : Bytes) : Option Bytes :=
  if 0 ≤ tmp ∧ tmp + bs.length ≤ buf.length then some (writeAt buf tmp.toNat bs) else none

/-- `malloc` and `memset`. As a `size_t` a negative size is more memory than there is. -/
def zeroBuffer (n : ℤ) : Option Bytes := if n < 0 then none else some (List.replicate n.toNat 0)

/-- The buffer of `output_seg_statistics`. -/
def segBuffer (chunknum : ℤ) : Option Bytes := zeroBuffer (int32 (int32 (65 * chunknum) + 1))

/-- The loop of `output_seg_statistics`. `sprintf` prints a `/` behind every segment, and a NUL. -/
def printSegments : Bytes → ℤ → List Chunkaddress → Option (Bytes × ℤ)
  | buf, tmp, [] => some (buf, tmp)
  | buf, tmp, id :: ids =>
    (put buf tmp (segmentText size id ++ [47, 0])).bind fun buf =>
      printSegments buf (tmp + (segmentText size id ++ [47]).length) ids

/-- `output_seg_statistics`: what it appends to the file. -/
def outputSegStatistics (segments : Segments) (chunknum : ℤ) : Option Bytes :=
  (segBuffer chunknum).bind fun buf =>
    (printSegments size buf 0 (segmentIds segments)).bind fun (buf, tmp) =>
      (put buf (tmp - 1) [10]).map cstring

/-- `count` of `get_restore_info_final`. -/
def segmentCount (segments : Segments) : ℤ :=
  (segmentIds segments).foldl (fun count _ => int32 (count + 1)) 0

/-- The line of `get_restore_info_final`. -/
def statisticsLine (segments : Segments) : Option Bytes :=
  outputSegStatistics size segments (segmentCount segments)

/-- `int` of a string with a decimal number and blanks around it. -/
def pythonInt (s : Bytes) : Option ℤ :=
  match scanInt s with
  | some (x, rest) => if rest.all isSpace then some x else none
  | none => none

/-- `dict` and `length` of `seg_statistics.py`. -/
structure Totals where
  dict : List (Bytes × Bytes)
  length : ℤ

/-- An item of a line. Without a comma `info[1]` fails, unless the name is known. -/
def readItem (t : Totals) (item : Bytes) : Option Totals :=
  match item.splitOn 44 with
  | [] => none
  | name :: info =>
    if name ∈ t.dict.map Prod.fst then some t
    else info.head?.bind fun value =>
      (pythonInt value).map fun x => ⟨t.dict ++ [(name, value)], t.length + x⟩

/-- The items of a line, whose last byte is dropped. -/
def readLine (t : Totals) (line : Bytes) : Option Totals :=
  (line.dropLast.splitOn 47).foldlM readItem t

/-- What was read is every segment once, with its size. -/
structure Reads (t : Totals) (ids : Finset Chunkaddress) : Prop where
  names : (t.dict.map Prod.fst).Nodup
  count : t.dict.length = ids.card
  pairs : ∀ pair, pair ∈ t.dict.map (fun e => (e.1, pythonInt e.2)) ↔
    ∃ id ∈ ids, pair = (cstr id, some (size id))
  length : t.length = ∑ id ∈ ids, size id

/-- The line of these segments is written inside a buffer of `65 * n + 1` bytes and is read
back. -/
def RoundTrips (segments : Segments) (ids : Finset Chunkaddress) : Prop :=
  (∃ buf, segBuffer (segmentCount segments) = some buf ∧ buf.length = 65 * ids.card + 1) ∧
  ∃ line t, statisticsLine size segments = some line ∧ readLine ⟨[], 0⟩ line = some t ∧
    Reads size t ids

theorem mem_intNumeral {x : ℤ} {c : UInt8} (h : c ∈ intNumeral x) : c = 45 ∨ isDigit c = true := by
  rw [intNumeral] at h
  split at h
  · exact (List.mem_cons.mp h).imp_right (isDigit_of_mem_numeral (by decide) (by decide))
  · exact .inr (isDigit_of_mem_numeral (by decide) (by decide) h)

theorem mem_text {call : NameCall} {c : UInt8} (h : c ∈ call.text) : c = 45 ∨ isDigit c = true := by
  rw [NameCall.text, padded, List.mem_append, List.mem_append] at h
  rcases h with (h | h) | h
  · rw [List.eq_of_mem_replicate h]
    exact .inr rfl
  · exact .inr (isDigit_of_mem_numeral (by decide) (by decide) h)
  · exact mem_intNumeral h

/-- `int` reads what `%d` prints. -/
theorem pythonInt_intNumeral (x : ℤ) : pythonInt (intNumeral x) = some x := by
  have hscan := scanInt_intNumeral_append x (s := []) fun _ hc => nomatch hc
  rw [List.append_nil] at hscan
  rw [pythonInt, hscan]
  rfl

/-- A segment whose name `GetContainerName` made. -/
def Named (id : Chunkaddress) : Prop := ∃ call : NameCall, IsInt call.randomabc ∧ id = call.name

variable {size : Chunkaddress → ℤ} {id : Chunkaddress}

theorem Named.cstr_eq (h : Named id) : ∃ call : NameCall, IsInt call.randomabc ∧ cstr id = call.text := by
  obtain ⟨call, hint, rfl⟩ := h
  exact ⟨call, hint, cstr_name hint⟩

/-- No separator is in a name or a number. -/
theorem Named.mem_segmentText (h : Named id) {c : UInt8} (hc : c ∈ segmentText size id) :
    c = 45 ∨ c = 44 ∨ isDigit c = true := by
  obtain ⟨call, -, heq⟩ := h.cstr_eq
  rw [segmentText, heq, List.mem_append, List.mem_cons] at hc
  rcases hc with hc | hc | hc
  · exact (mem_text hc).imp_right .inr
  · exact .inr (.inl hc)
  · exact (mem_intNumeral hc).imp_right .inr

theorem Named.length_segmentText (h : Named id) (hsize : IsInt (size id)) :
    (segmentText size id).length ≤ 34 := by
  obtain ⟨call, hint, heq⟩ := h.cstr_eq
  have hname := length_intNumeral_le hint
  have hnum := length_intNumeral_le hsize
  rw [segmentText, heq, NameCall.text, List.length_append, List.length_append, length_second,
    List.length_cons]
  omega

/-- A write right behind what was written so far, with zeros after it. -/
theorem put_zeros {done bs : Bytes} {room : ℕ} (hroom : bs.length ≤ room) :
    put (done ++ List.replicate room 0) done.length bs =
      some (done ++ bs ++ List.replicate (room - bs.length) 0) := by
  rw [put, if_pos ⟨by omega, by rw [List.length_append, List.length_replicate]; omega⟩, writeAt]
  have hzero : done.length - (done ++ List.replicate room (0 : UInt8)).length = 0 := by
    rw [List.length_append]
    omega
  rw [Int.toNat_natCast, List.take_left, hzero, List.replicate_zero, List.append_nil,
    List.drop_append, List.drop_eq_nil_of_le (by omega), List.nil_append, List.drop_replicate]
  congr 3
  omega

/-- The segments with a `/` behind each. -/
def printed (size : Chunkaddress → ℤ) (ids : List Chunkaddress) : Bytes :=
  ids.flatMap fun id => segmentText size id ++ [47]

theorem printSegments_spec (hsize : ∀ id, IsInt (size id)) {ids : List Chunkaddress}
    (hids : ∀ id ∈ ids, Named id) {done : Bytes} {room : ℕ} (hroom : 35 * ids.length < room) :
    printSegments size (done ++ List.replicate room 0) done.length ids =
      some (done ++ printed size ids ++ List.replicate (room - (printed size ids).length) 0,
        (((done ++ printed size ids).length : ℕ) : ℤ)) := by
  induction ids generalizing done room with
  | nil => simp [printSegments, printed]
  | cons id ids ih =>
    have hlength := (hids id List.mem_cons_self).length_segmentText (hsize id)
    rw [List.length_cons] at hroom
    have hentry : (segmentText size id ++ [47, 0]).length ≤ room := by
      rw [List.length_append, List.length_cons, List.length_singleton]
      omega
    have hput := @put_zeros done _ _ hentry
    have hzeros : done ++ (segmentText size id ++ [47, 0]) ++
        List.replicate (room - (segmentText size id ++ [47, 0]).length) 0 =
        done ++ (segmentText size id ++ [47]) ++
          List.replicate (room - (segmentText size id ++ [47]).length) 0 := by
      have hsucc : room - (segmentText size id ++ [47]).length =
          room - (segmentText size id ++ [47, 0]).length + 1 := by
        simp only [List.length_append, List.length_cons, List.length_nil]
        omega
      rw [hsucc, List.replicate_succ]
      simp
    rw [printSegments, hput, Option.bind_some, hzeros]
    have htmp : (done.length : ℤ) + (segmentText size id ++ [47]).length =
        ((done ++ (segmentText size id ++ [47])).length : ℕ) := by
      exact_mod_cast (List.length_append ..).symm
    rw [htmp, ih (fun id hid => hids id (List.mem_cons_of_mem _ hid)) (by
      rw [List.length_append, List.length_singleton]
      omega)]
    have hprinted : printed size (id :: ids) = segmentText size id ++ [47] ++ printed size ids := rfl
    have hrest : room - (printed size (id :: ids)).length =
        room - (segmentText size id ++ [47]).length - (printed size ids).length := by
      rw [hprinted, List.length_append, Nat.sub_sub]
    rw [hrest, hprinted]
    simp only [List.append_assoc]

/-- All but the last `/`. -/
theorem printed_eq_intercalate {ids : List Chunkaddress} (hids : ids ≠ []) :
    printed size ids = [47].intercalate (ids.map (segmentText size)) ++ [47] := by
  induction ids with
  | nil => exact absurd rfl hids
  | cons id ids ih =>
    have hprinted : printed size (id :: ids) = segmentText size id ++ [47] ++ printed size ids := rfl
    by_cases hnil : ids = []
    · rw [hnil]
      simp [printed]
    · rw [hprinted, ih hnil, List.map_cons, List.intercalate_cons_of_ne_nil (by simpa using hnil)]
      simp only [List.append_assoc]

theorem length_printed_le (hsize : ∀ id, IsInt (size id)) {ids : List Chunkaddress}
    (hids : ∀ id ∈ ids, Named id) : (printed size ids).length ≤ 35 * ids.length := by
  induction ids with
  | nil => exact Nat.zero_le _
  | cons id ids ih =>
    have hlength := (hids id List.mem_cons_self).length_segmentText (hsize id)
    have hrest := ih fun id hid => hids id (List.mem_cons_of_mem _ hid)
    rw [printed, List.flatMap_cons, List.length_append, List.length_append, List.length_singleton,
      List.length_cons]
    change _ + 1 + (printed size ids).length ≤ _
    omega

/-- Every byte of a line is one of a segment, or the `/` between two. -/
theorem mem_intercalate {α : Type*} {x c : α} {ls : List (List α)} (h : c ∈ [x].intercalate ls) :
    c = x ∨ ∃ l ∈ ls, c ∈ l := by
  induction ls with
  | nil => exact absurd h List.not_mem_nil
  | cons l ls ih =>
    by_cases hnil : ls = []
    · subst hnil
      rw [List.intercalate_singleton] at h
      exact .inr ⟨l, List.mem_cons_self, h⟩
    · rw [List.intercalate_cons_of_ne_nil hnil, List.mem_append, List.mem_append,
        List.mem_singleton] at h
      rcases h with (h | h) | h
      · exact .inr ⟨l, List.mem_cons_self, h⟩
      · exact .inl h
      · exact (ih h).imp_right fun ⟨l', hl', hc⟩ => ⟨l', List.mem_cons_of_mem _ hl', hc⟩

/-- What the function appends, when its buffer has room for 35 bytes a segment. -/
theorem written_line (hsize : ∀ id, IsInt (size id)) {ids : List Chunkaddress} (hne : ids ≠ [])
    (hids : ∀ id ∈ ids, Named id) {room : ℕ} (hroom : 35 * ids.length < room) :
    ((printSegments size (List.replicate room 0) 0 ids).bind fun (buf, tmp) =>
      (put buf (tmp - 1) [10]).map cstring) =
        some ([47].intercalate (ids.map (segmentText size)) ++ [10]) := by
  have hspec := @printSegments_spec size hsize ids hids [] room hroom
  have hprinted := @printed_eq_intercalate size ids hne
  have hlength := length_printed_le hsize hids
  simp only [List.nil_append, List.length_nil, Nat.cast_zero] at hspec
  rw [hspec, Option.bind_some]
  dsimp only
  generalize hline : [47].intercalate (ids.map (segmentText size)) = line at hprinted ⊢
  have hzero : (0 : UInt8) ∉ line := by
    rw [← hline]
    intro h
    rcases mem_intercalate h with h | ⟨l, hl, h⟩
    · exact absurd h (by decide)
    · obtain ⟨id, hid, rfl⟩ := List.mem_map.mp hl
      rcases (hids id hid).mem_segmentText h with h | h | h
      · exact absurd h (by decide)
      · exact absurd h (by decide)
      · exact absurd h (by decide)
  rw [hprinted, List.length_append, List.length_singleton] at hlength ⊢
  obtain ⟨k, hk⟩ : ∃ k, room - (line.length + 1) = k + 1 := ⟨room - (line.length + 1) - 1, by omega⟩
  have htmp : ((line.length + 1 : ℕ) : ℤ) - 1 = (line.length : ℕ) := by omega
  rw [hk, htmp, put, if_pos ⟨by omega, by simp; omega⟩, Option.map_some, Int.toNat_natCast, writeAt]
  have hover : line.length - (line ++ [47] ++ List.replicate (k + 1) (0 : UInt8)).length = 0 := by
    simp only [List.length_append]
    omega
  have htake : (line ++ [47] ++ List.replicate (k + 1) (0 : UInt8)).take line.length = line := by
    rw [List.append_assoc]
    exact List.take_left
  have hdrop : (line ++ [47] ++ List.replicate (k + 1) (0 : UInt8)).drop
      (line.length + [(10 : UInt8)].length) = List.replicate (k + 1) 0 := List.drop_left' (by simp)
  rw [hover, List.replicate_zero, List.append_nil, htake, hdrop, cstring,
    List.takeWhile_append_of_pos, List.replicate_succ]
  · simp
  · intro c hc
    rw [decide_eq_true_eq]
    rintro rfl
    simp [hzero] at hc

/-- The name and the printed size of a segment. -/
def entry (size : Chunkaddress → ℤ) (id : Chunkaddress) : Bytes × Bytes :=
  (cstr id, intNumeral (size id))

theorem readItem_segmentText (hid : Named id) (t : Totals)
    (hnew : cstr id ∉ t.dict.map Prod.fst) : readItem t (segmentText size id) =
      some ⟨t.dict ++ [entry size id], t.length + size id⟩ := by
  have hname : (44 : UInt8) ∉ cstr id := by
    obtain ⟨call, -, heq⟩ := hid.cstr_eq
    rw [heq]
    intro h
    rcases mem_text h with h | h <;> exact absurd h (by decide)
  have hnum : (44 : UInt8) ∉ intNumeral (size id) := by
    intro h
    rcases mem_intNumeral h with h | h <;> exact absurd h (by decide)
  rw [readItem, segmentText, List.splitOn_append_cons_self_of_not_mem hname,
    List.splitOn_eq_singleton hnum]
  simp only [if_neg hnew, List.head?_cons, Option.bind_some, pythonInt_intNumeral, Option.map_some,
    entry]

/-- Segments with different names, none of which is known. -/
theorem foldlM_readItem {ids : List Chunkaddress} (hids : ∀ id ∈ ids, Named id) (t : Totals)
    (hnodup : (t.dict.map Prod.fst ++ ids.map cstr).Nodup) :
    (ids.map (segmentText size)).foldlM readItem t =
      some ⟨t.dict ++ ids.map (entry size), t.length + (ids.map size).sum⟩ := by
  induction ids generalizing t with
  | nil => simp
  | cons id ids ih =>
    have hnew : cstr id ∉ t.dict.map Prod.fst := fun h =>
      List.disjoint_of_nodup_append hnodup h List.mem_cons_self
    rw [List.map_cons, List.foldlM_cons, readItem_segmentText (hids id List.mem_cons_self) t hnew]
    refine (ih (fun id hid => hids id (List.mem_cons_of_mem _ hid)) _ ?_).trans ?_
    · simpa [entry] using hnodup
    · simp [add_assoc]

/-- Each line that was written is read back. -/
theorem readLine_written {ids : List Chunkaddress} (hne : ids ≠ []) (hids : ∀ id ∈ ids, Named id)
    (hnodup : (ids.map cstr).Nodup) :
    readLine ⟨[], 0⟩ ([47].intercalate (ids.map (segmentText size)) ++ [10]) =
      some ⟨ids.map (entry size), (ids.map size).sum⟩ := by
  rw [readLine, List.dropLast_concat, List.splitOn_intercalate _ ?_ (by simpa using hne)]
  · have hread := @foldlM_readItem size ids hids ⟨[], 0⟩ (by simpa using hnodup)
    simpa using hread
  · intro l hl h
    obtain ⟨id, hid, rfl⟩ := List.mem_map.mp hl
    rcases (hids id hid).mem_segmentText h with h | h | h <;> exact absurd h (by decide)

/-- The segments that were collected for these addresses. -/
theorem getRestoreInfo_wf {segments : Segments} (h : segments.WF) (address : Chunkaddress) :
    (getRestoreInfo segments address).WF ∧ ∀ id, id ∈ segmentIds (getRestoreInfo segments address) ↔
      id ∈ segmentIds segments ∨ id = address := by
  rw [getRestoreInfo]
  split
  · next u hlookup =>
    have hmem : address ∈ segmentIds segments :=
      List.mem_map.mpr ⟨(address, u), h.lookup_eq_some_iff.mp hlookup, rfl⟩
    refine ⟨h, fun id => (or_iff_left_of_imp ?_).symm⟩
    rintro rfl
    exact hmem
  · next hlookup =>
    refine ⟨h.insert hlookup (), fun id => ?_⟩
    have hperm := ((h.walk_insert address ()).map Prod.fst).mem_iff (a := id)
    rw [List.map_cons, List.mem_cons, or_comm] at hperm
    exact hperm

theorem restored_wf (addresses : List Chunkaddress) :
    (addresses.foldl getRestoreInfo getRestoreInfoInit).WF ∧
      (segmentIds (addresses.foldl getRestoreInfo getRestoreInfoInit)).toFinset =
        addresses.toFinset := by
  suffices h : ∀ segments : Segments, segments.WF →
      (addresses.foldl getRestoreInfo segments).WF ∧
        ∀ id, id ∈ segmentIds (addresses.foldl getRestoreInfo segments) ↔
          id ∈ segmentIds segments ∨ id ∈ addresses by
    obtain ⟨hwf, hmem⟩ := h getRestoreInfoInit (HTable.init_wf 100)
    refine ⟨hwf, ?_⟩
    have hinit : segmentIds getRestoreInfoInit = [] := by
      rw [segmentIds, getRestoreInfoInit, HTable.walk_init, List.map_nil]
    ext id
    rw [List.mem_toFinset, List.mem_toFinset, hmem, hinit]
    simp
  induction addresses with
  | nil => exact fun segments h => ⟨h, fun id => by simp⟩
  | cons address addresses ih =>
    intro segments h
    obtain ⟨hwf, hmem⟩ := getRestoreInfo_wf h address
    obtain ⟨hwf', hmem'⟩ := ih _ hwf
    refine ⟨hwf', fun id => ?_⟩
    rw [List.foldl_cons, hmem', hmem, List.mem_cons, or_assoc]

/-- The count of `get_restore_info_final`. -/
theorem segmentCount_eq (segments : Segments) :
    segmentCount segments = int32 (segmentIds segments).length := by
  suffices h : ∀ (ids : List Chunkaddress) (k : ℕ),
      ids.foldl (fun count _ => int32 (count + 1)) (int32 k) = int32 (k + ids.length : ℕ) by
    have hzero : int32 ((0 : ℕ) : ℤ) = 0 := by decide
    have hcount := h (segmentIds segments) 0
    rwa [hzero, Nat.zero_add] at hcount
  intro ids
  induction ids with
  | nil => exact fun k => by rw [List.foldl_nil, List.length_nil, Nat.add_zero]
  | cons id ids ih =>
    intro k
    have hstep : int32 (int32 k + 1) = int32 ((k + 1 : ℕ) : ℤ) := by
      rw [int32, int32, Int.bmod_add_bmod, int32, Nat.cast_add, Nat.cast_one]
    rw [List.foldl_cons, hstep, ih, List.length_cons, Nat.add_right_comm, Nat.add_assoc]

/-- The buffer for as many segments as were counted. -/
theorem segBuffer_segmentCount (segments : Segments) :
    segBuffer (segmentCount segments) =
      zeroBuffer (int32 (65 * (segmentIds segments).length + 1)) := by
  rw [segBuffer, segmentCount_eq, int32, int32, int32, int32, Int.mul_bmod_bmod, Int.bmod_add_bmod]

theorem length_zeroBuffer {n : ℤ} {buf : Bytes} (h : zeroBuffer n = some buf) :
    (buf.length : ℤ) = n := by
  rw [zeroBuffer] at h
  split at h
  · cases h
  · obtain rfl := Option.some.inj h
    rw [List.length_replicate]
    omega

/-- A name is known from its string. -/
theorem Named.eq_fixed (h : Named id) : id = fixed 64 (cstr id) := by
  obtain ⟨call, hint, rfl⟩ := h
  rw [cstr_name hint]
  rfl

theorem reads_entries {ids : List Chunkaddress} (hnodup : ids.Nodup) (hids : ∀ id ∈ ids, Named id) :
    Reads size ⟨ids.map (entry size), (ids.map size).sum⟩ ids.toFinset := by
  refine ⟨?_, ?_, fun pair => ?_, ?_⟩
  · rw [List.map_map]
    refine (List.nodup_map_iff_inj_on hnodup).mpr fun a ha b hb heq => ?_
    have heq : cstr a = cstr b := heq
    rw [(hids a ha).eq_fixed, (hids b hb).eq_fixed, heq]
  · rw [List.length_map, List.toFinset_card_of_nodup hnodup]
  · simp [entry, pythonInt_intNumeral, eq_comm]
  · exact (List.sum_toFinset size hnodup).symm

/-- The statistics of any positive number of segments come back, as long as the size of the buffer
is an `int`. -/
theorem roundTrips_iff (size : Chunkaddress → ℤ) (hsize : ∀ id, IsInt (size id))
    (addresses : List Chunkaddress) (hnamed : ∀ id ∈ addresses, Named id) :
    RoundTrips size (addresses.foldl getRestoreInfo getRestoreInfoInit) addresses.toFinset ↔
      0 < addresses.toFinset.card ∧ 65 * addresses.toFinset.card + 1 < 2 ^ 31 := by
  obtain ⟨hwf, hset⟩ := restored_wf addresses
  generalize addresses.foldl getRestoreInfo getRestoreInfoInit = segments at hwf hset ⊢
  have hnodup : (segmentIds segments).Nodup := hwf.nodup_walk
  have hids : ∀ id ∈ segmentIds segments, Named id := fun id hid =>
    hnamed id (List.mem_toFinset.mp (hset ▸ List.mem_toFinset.mpr hid))
  rw [RoundTrips, segBuffer_segmentCount, statisticsLine, outputSegStatistics,
    segBuffer_segmentCount, ← hset, List.toFinset_card_of_nodup hnodup]
  generalize segmentIds segments = ids at hnodup hids ⊢
  constructor
  · rintro ⟨⟨buf, hbuf, hbytes⟩, line, t, hline, -⟩
    have hint := length_zeroBuffer hbuf
    have hlt := int32_lt (65 * (ids.length : ℤ) + 1)
    refine ⟨List.length_pos_iff.mpr ?_, by omega⟩
    rintro rfl
    rw [hbuf, Option.bind_some] at hline
    cases hline
  · rintro ⟨hpos, hsmall⟩
    have hint : int32 (65 * (ids.length : ℤ) + 1) = (65 * ids.length + 1 : ℕ) := by
      rw [int32_eq (by omega) (by omega)]
      push_cast
      ring
    have hbuf : zeroBuffer (int32 (65 * (ids.length : ℤ) + 1)) =
        some (List.replicate (65 * ids.length + 1) 0) := by
      rw [hint, zeroBuffer, if_neg (by omega), Int.toNat_natCast]
    have hne : ids ≠ [] := List.length_pos_iff.mp hpos
    have hnames : (ids.map cstr).Nodup :=
      (List.nodup_map_iff_inj_on hnodup).mpr fun a ha b hb heq => by
        rw [(hids a ha).eq_fixed, (hids b hb).eq_fixed, heq]
    refine ⟨⟨_, hbuf, List.length_replicate ..⟩, _, _, ?_,
      readLine_written hne hids hnames, reads_entries hnodup hids⟩
    rw [hbuf, Option.bind_some, written_line hsize hne hids (by omega)]

/-- Two containers, one of which holds two of the chunks. -/
def twoSegments : List NameCall := [⟨1600000000, 2⟩, ⟨1600000007, 3⟩, ⟨1600000000, 2⟩]

theorem roundTrips_two : RoundTrips (fun _ => -5)
    ((twoSegments.map NameCall.name).foldl getRestoreInfo getRestoreInfoInit)
    (twoSegments.map NameCall.name).toFinset := by
  refine (roundTrips_iff _ (fun _ => ⟨by decide, by decide⟩) _ fun id hid => ?_).mpr ?_
  · obtain ⟨call, hcall, rfl⟩ := List.mem_map.mp hid
    refine ⟨call, ?_, rfl⟩
    rw [twoSegments] at hcall
    simp only [List.mem_cons, List.not_mem_nil, or_false] at hcall
    rcases hcall with rfl | rfl | rfl <;> exact ⟨by decide, by decide⟩
  · decide +kernel

/-- Without a segment the line feed goes in front of the buffer. -/
theorem no_segments_do_not_work : ¬∀ (size : Chunkaddress → ℤ) (addresses : List Chunkaddress),
    (∀ id, IsInt (size id)) → (∀ id ∈ addresses, Named id) →
    RoundTrips size (addresses.foldl getRestoreInfo getRestoreInfoInit) addresses.toFinset := by
  intro h
  obtain ⟨-, line, t, hline, -⟩ := h (fun _ => 0) [] (fun _ => ⟨by decide, by decide⟩) (by simp)
  rw [statisticsLine, outputSegStatistics, segmentIds, List.foldl_nil, getRestoreInfoInit,
    HTable.walk_init] at hline
  cases hbuf : segBuffer (segmentCount (htableInit 100)) with
  | none => rw [hbuf] at hline; cases hline
  | some buf => rw [hbuf] at hline; cases hline

end TCBackup.Client.SegStatistics
