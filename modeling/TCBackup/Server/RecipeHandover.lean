import TCBackup.Lib.Labelled
import TCBackup.Server.Backup

/-!
# Handing recipes over (`server/src/pipeline_backup.c`)

`file_dedup_module` allocates one recipe for every file hash, looks it up and pushes it to
`file_dedup_queue`; `update_recipe_module` pops it, works on it and frees it. The end
is a recipe whose `is_new` is still -1. Recipes are named by the order of their
allocation, and what becomes of their memory is part of the state. Both threads take
`rv->mutex` of the recipe volume, which other sessions use at the same time.

## Main definitions

- `State`, `Event`, `step` — the two threads and the queue between them
- `hashes`, `streamEnded` — what a stream of messages holds, and how it ends
- `Waits` — a thread has come to a mutex that is lost
- `HandedOver` — every recipe is popped once, then the sentinel
-/

namespace TCBackup.Server.RecipeHandover

open ByteFile Labelled

/-- A recipe on the heap and whether it has not been freed. -/
structure Cell where
  rp : Recipe
  live : Bool

inductive Fault
  | uninitialised
  | useAfterFree
  deriving DecidableEq

/-- `update_recipe_module` waits for a recipe, works on one, is about to insert its item,
or has left its loop; or it has read memory that holds no recipe. -/
inductive Consumer
  | waiting
  | holding (i : ℕ)
  | updated (i : ℕ) (item : Option (Fingerprint × ℕ))
  | stopped
  | faulted (fault : Fault)
  deriving DecidableEq

/-- Both threads. `input` is what the client's socket still delivers before it breaks,
and `rp` the variable of `file_dedup_module`, which starts without a value. -/
structure State where
  input : List Delivery
  buf : Bytes
  rp : Option ℕ
  producing : Bool
  heap : List Cell
  queue : List (Option ℕ)
  popped : List (Option ℕ)
  freed : List ℕ
  consumer : Consumer
  locals : Locals
  shared : Shared

/-- What another session does meanwhile with the index and the volume. -/
inductive Call
  | mark (opened : Bool) (rp : Recipe)
  | write (io : VolIO) (rp : Recipe)
  | insert (hash : Fingerprint) (offset : ℕ)

/-- The messages of the recipe connection and the results of the system calls come with
the step that gets them. -/
inductive Event
  | recv (opened : Bool)
  | pop
  | update (attr recipe : Delivery) (io : VolIO)
  | release
  | other (c : Call)

/-- A step of one of the two threads. -/
def Event.own : Event → Bool
  | .other _ => false
  | _ => true

def init (input : List Delivery) (shared : Shared) : State :=
  ⟨input, [], none, true, [], [], [], [], .waiting, .init, shared⟩

/-- `recipe_new` -/
def fresh : Recipe := recipeNew (fixed 20 [])

/-- `none` when the call waits for `rv->mutex` for ever. -/
def Call.run (s : Shared) : Call → Option Shared
  | .mark opened rp => (fileDedupMark opened rp s).map fun marked => marked.2.2.2
  | .write io rp => (writeRecipeToVol io rp s.volume).map fun p => { s with volume := p.2 }
  | .insert hash offset => some { s with mem_index := indexInsert s.mem_index hash offset }

/-- Allocate a recipe, assign it to `rp` and push it. -/
def State.push (s : State) (rp : Recipe) : State :=
  { s with
    rp := some s.heap.length
    heap := s.heap ++ [⟨rp, true⟩]
    queue := s.queue ++ [some s.heap.length] }

/-- `recipe_free` -/
def State.free (s : State) (i : ℕ) : State :=
  { s with
    heap := s.heap.modify i fun c => { c with live := false }
    freed := s.freed ++ [i] }

/-- One round of the loop of `file_dedup_module`. After it `rp` is pushed once more. -/
def recv (s : State) (opened : Bool) : Option State :=
  match s.input with
  | [] => some { s with producing := false, queue := s.queue ++ [s.rp] }
  | d :: input =>
    if d.ret = bnetError then some { s with producing := false, queue := s.queue ++ [s.rp] }
    else
      let s := { s with input := input, buf := d.into s.buf }
      if d = .signal streamEnd then some { s.push fresh with producing := false }
      else
        (fileDedupMark opened { fresh with file_hash := fixed 20 (readAt s.buf 0 20) } s.shared).map
          fun (_, rp, _, shared) => { s with shared := shared }.push rp

/-- Take a recipe from the queue and look at its `is_new`. -/
def pop (s : State) (p : Option ℕ) (queue : List (Option ℕ)) : State :=
  let s := { s with queue := queue, popped := s.popped ++ [p] }
  match p with
  | none => { s with consumer := .faulted .uninitialised }
  | some i =>
    match s.heap[i]? with
    | none => { s with consumer := .faulted .uninitialised }
    | some c =>
      if c.live = false then { s with consumer := .faulted .useAfterFree }
      else if c.rp.is_new = .unset then { s.free i with consumer := .stopped }
      else { s with consumer := .holding i }

/-- What `update_recipe_module` does with a recipe before it inserts the item of a new file. -/
def update (attr d : Delivery) (io : VolIO) (rp : Recipe) (l : Locals) (s : Shared) :
    Option (Option (Fingerprint × ℕ) × Locals × Shared) :=
  let (ok, l, rp) := scanAttr attr l rp
  if rp.is_new = .newFile then
    let (_, l, rp) := takeRecipe d ok l rp
    (writeRecipeToVol io rp s.volume).map fun (offset, volume) =>
      (some (rp.file_hash, offset.getD 0), l, { s with volume := volume })
  else some (none, l, s)

/-- One step of one of the threads or of another session. `sync_queue_pop` waits while the
queue is empty. -/
def step (s : State) : Event → Option State
  | .recv opened => if s.producing then recv s opened else none
  | .pop =>
    match s.consumer, s.queue with
    | .waiting, p :: queue => some (pop s p queue)
    | _, _ => none
  | .update attr d io =>
    match s.consumer with
    | .holding i =>
      match s.heap[i]? with
      | none => none
      | some c => (update attr d io c.rp s.locals s.shared).map fun (item, locals, shared) =>
          { s with consumer := .updated i item, locals := locals, shared := shared }
    | _ => none
  | .release =>
    match s.consumer with
    | .updated i item =>
      let mem_index := match item with
        | none => s.shared.mem_index
        | some (hash, offset) => indexInsert s.shared.mem_index hash offset
      some { s.free i with consumer := .waiting, shared := { s.shared with mem_index := mem_index } }
    | _ => none
  | .other c => (c.run s.shared).map fun shared => { s with shared := shared }

/-- The hashes that a stream delivers before it ends, each with what the buffer holds
after its message. -/
def hashes : Bytes → List Delivery → List Fingerprint
  | _, [] => []
  | buf, d :: input =>
    if d.ret = bnetError ∨ d = .signal streamEnd then []
    else fixed 20 (readAt (d.into buf) 0 20) :: hashes (d.into buf) input

/-- Whether `STREAM_END` is received before the connection breaks. -/
def streamEnded : List Delivery → Bool
  | [] => false
  | d :: input => d = .signal streamEnd || (d.ret ≠ bnetError && streamEnded input)

/-- The recipes in the order of their allocation: one for each hash, and the sentinel. -/
def recipes (input : List Delivery) : List (Option ℕ) :=
  (List.range ((hashes [] input).length + 1)).map some

/-- A thread needs `rv->mutex`, and the lock is held although no call is in progress: the next
hash is in the index, so that its recipe is to be read, or the recipe of a new file is to be
written. -/
def Waits (s : State) : Prop :=
  s.shared.volume.rv.mutex = true ∧
    ((∃ d input, s.producing = true ∧ s.input = d :: input ∧ d.ret ≠ bnetError ∧
        d ≠ .signal streamEnd ∧
        (s.shared.mem_index.find (fixed 20 (readAt (d.into s.buf) 0 20))).isSome) ∨
      ∃ i c, s.consumer = .holding i ∧ s.heap[i]? = some c ∧ c.rp.is_new = .newFile)

variable {input : List Delivery} {s t : State} {sh sh' : Shared} {opened : Bool}

theorem recv_cases (h : recv s opened = some t) :
    (((∀ d ds, s.input = d :: ds → d.ret = bnetError) ∧
      t = { s with producing := false, queue := s.queue ++ [s.rp] }) ∨
    (∃ ds, s.input = .signal streamEnd :: ds ∧
      t = { ({ s with input := ds, buf := (Delivery.signal streamEnd).into s.buf } : State).push
        fresh with producing := false }) ∨
    ∃ d ds marked, s.input = d :: ds ∧ d.ret ≠ bnetError ∧ d ≠ .signal streamEnd ∧
      fileDedupMark opened { fresh with file_hash := fixed 20 (readAt (d.into s.buf) 0 20) }
        s.shared = some marked ∧
      t = ({ s with input := ds, buf := d.into s.buf, shared := marked.2.2.2 } : State).push
        marked.2.1) := by
  rw [recv] at h
  split at h
  · next hinput =>
    obtain rfl := Option.some.inj h
    exact .inl ⟨by simp [hinput], rfl⟩
  · next d ds hinput =>
    split at h
    · next hd =>
      obtain rfl := Option.some.inj h
      refine .inl ⟨fun d' ds' heq => ?_, rfl⟩
      obtain ⟨rfl, -⟩ := List.cons.inj (hinput.symm.trans heq)
      exact hd
    · next hd =>
      dsimp only at h
      split at h
      · next hend =>
        subst hend
        exact .inr (.inl ⟨ds, hinput, (Option.some.inj h).symm⟩)
      · next hend =>
        obtain ⟨marked, hmark, rfl⟩ := Option.map_eq_some_iff.mp h
        exact .inr (.inr ⟨d, ds, marked, hinput, hd, hend, hmark, rfl⟩)

theorem step_cases {e : Event} (h : step s e = some t) :
    (∃ opened, e = .recv opened ∧ s.producing = true ∧ recv s opened = some t) ∨
    (∃ p queue, e = .pop ∧ s.consumer = .waiting ∧ s.queue = p :: queue ∧ t = pop s p queue) ∨
    (∃ attr d io i c item locals shared, e = .update attr d io ∧ s.consumer = .holding i ∧
      s.heap[i]? = some c ∧ update attr d io c.rp s.locals s.shared = some (item, locals, shared) ∧
      t = { s with consumer := .updated i item, locals := locals, shared := shared }) ∨
    (∃ i item mem_index, e = .release ∧ s.consumer = .updated i item ∧
      (mem_index = s.shared.mem_index ∨
        ∃ hash offset, mem_index = indexInsert s.shared.mem_index hash offset) ∧
      t = { s.free i with
        consumer := .waiting, shared := { s.shared with mem_index := mem_index } }) ∨
    ∃ c shared, e = .other c ∧ c.run s.shared = some shared ∧ t = { s with shared := shared } := by
  cases e with
  | recv opened =>
    rw [step] at h
    split at h
    · next hs => exact .inl ⟨opened, rfl, hs, h⟩
    · cases h
  | pop =>
    rw [step] at h
    split at h
    · next hc hq => exact .inr (.inl ⟨_, _, rfl, hc, hq, (Option.some.inj h).symm⟩)
    · cases h
  | update attr d io =>
    rw [step] at h
    split at h
    · next i hc =>
      split at h
      · cases h
      · next c hcell =>
        obtain ⟨⟨item, locals, shared⟩, hupdate, rfl⟩ := Option.map_eq_some_iff.mp h
        exact .inr (.inr (.inl ⟨_, _, _, i, c, item, locals, shared, rfl, hc, hcell, hupdate, rfl⟩))
    · cases h
  | release =>
    rw [step] at h
    split at h
    · next i item hc =>
      obtain rfl := Option.some.inj h
      refine .inr (.inr (.inr (.inl ⟨i, item, _, rfl, hc, ?_, rfl⟩)))
      cases item with
      | none => exact .inl rfl
      | some item => exact .inr ⟨item.1, item.2, rfl⟩
    · cases h
  | other c =>
    rw [step] at h
    obtain ⟨shared, hrun, rfl⟩ := Option.map_eq_some_iff.mp h
    exact .inr (.inr (.inr (.inr ⟨c, shared, rfl, hrun, rfl⟩)))

/-- An upper bound for the steps of the threads that are left. -/
def measure (s : State) : ℕ :=
  (if s.producing then 4 * (s.input.length + 1) else 0) + 3 * s.queue.length +
    match s.consumer with
    | .holding _ => 2
    | .updated _ _ => 1
    | _ => 0

structure Ends (input : List Delivery) (s : State) : Prop where
  ahead : s.producing = true → streamEnded s.input = streamEnded input
  unset : ∀ c ∈ s.heap, c.rp.is_new = .unset → streamEnded input = true ∧ s.producing = false
  stopped : s.consumer = .stopped → streamEnded input = true ∧ s.producing = false

/-- Nothing that the sentinel depends on changes. -/
theorem Ends.other (h : Ends input s) {consumer : Consumer} (hc : consumer ≠ .stopped)
    (locals : Locals) (shared : Shared) :
    Ends input { s with consumer := consumer, locals := locals, shared := shared } :=
  ⟨h.ahead, h.unset, fun hstop => absurd hstop hc⟩

theorem State.mem_free {i : ℕ} {c : Cell} (hc : c ∈ (s.free i).heap) : ∃ c' ∈ s.heap, c.rp = c'.rp := by
  obtain ⟨j, hj⟩ := List.mem_iff_getElem?.mp hc
  rw [State.free, List.getElem?_modify] at hj
  obtain ⟨c', hc', rfl⟩ := Option.map_eq_some_iff.mp hj
  refine ⟨c', List.mem_of_getElem? hc', ?_⟩
  split <;> rfl

theorem Ends.free (h : Ends input s) (i : ℕ) : Ends input { s.free i with consumer := .waiting } := by
  refine ⟨h.ahead, fun c hc hunset => ?_, by simp⟩
  obtain ⟨c', hmem, hrp⟩ := State.mem_free hc
  exact h.unset c' hmem (hrp ▸ hunset)

/-- What never goes back: known hashes stay known, and nobody unlocks a mutex that is held
between the calls. -/
structure Later (sh sh' : Shared) : Prop where
  table : sh'.mem_index.WF
  known : ∀ hash, (sh.mem_index.find hash).isSome → (sh'.mem_index.find hash).isSome
  held : sh.volume.rv.mutex = true → sh'.volume.rv.mutex = true

theorem Later.refl (h : sh.mem_index.WF) : Later sh sh := ⟨h, fun _ => id, id⟩

theorem Later.lookup (h : sh.mem_index.WF) (hash : Fingerprint) {volume : Volume}
    (hv : sh.volume.rv.mutex = true → volume.rv.mutex = true) :
    Later sh ⟨hashIndex sh.mem_index hash, volume⟩ :=
  ⟨hashIndex_wf h hash, fun hash' hfound => by rwa [hashIndex_find _ h], hv⟩

theorem fileDedupMark_later (hwf : sh.mem_index.WF) {rp : Recipe}
    {marked : Bool × Recipe × List Bytes × Shared} (h : fileDedupMark opened rp sh = some marked) :
    Later sh marked.2.2.2 := by
  rw [fileDedupMark] at h
  split at h
  · next mem_index hlookup =>
    obtain rfl := Option.some.inj h
    obtain rfl : hashIndex sh.mem_index rp.file_hash = mem_index := congrArg Prod.snd hlookup
    exact .lookup hwf rp.file_hash id
  · next offset mem_index hlookup =>
    obtain rfl : hashIndex sh.mem_index rp.file_hash = mem_index := congrArg Prod.snd hlookup
    rw [readRecipeFromVol] at h
    cases hheld : sh.volume.rv.mutex with
    | true =>
      rw [hheld, if_pos rfl] at h
      cases h
    | false =>
      have hnot : ∀ volume : Volume, sh.volume.rv.mutex = true → volume.rv.mutex = true := by
        simp [hheld]
      split at h
      · cases h
      · obtain rfl := Option.some.inj h
        exact .lookup hwf rp.file_hash (hnot _)
      · obtain rfl := Option.some.inj h
        exact .lookup hwf rp.file_hash (hnot _)

/-- `write_recipe_to_vol` needs the mutex. -/
theorem writeRecipeToVol_mutex {io : VolIO} {rp : Recipe} {v : Volume} {p : Option ℕ × Volume}
    (h : writeRecipeToVol io rp v = some p) : v.rv.mutex = false := by
  rw [writeRecipeToVol] at h
  split at h
  · cases h
  · next hfree => simpa using hfree

theorem Later.insert (h : sh.mem_index.WF) (hash : Fingerprint) (offset : ℕ) :
    Later sh { sh with mem_index := indexInsert sh.mem_index hash offset } := by
  refine ⟨?_, fun hash' hfound => ?_, id⟩
  · rw [indexInsert_eq]
    exact htableInsert_wf h hash offset
  · rw [indexInsert_eq, find_htableInsert h]
    split
    · rfl
    · exact hfound

theorem Call.run_later {c : Call} (hwf : sh.mem_index.WF) (h : c.run sh = some sh') :
    Later sh sh' := by
  cases c with
  | mark opened rp =>
    obtain ⟨marked, hmark, rfl⟩ := Option.map_eq_some_iff.mp h
    exact fileDedupMark_later hwf hmark
  | write io rp =>
    obtain ⟨p, hwrite, rfl⟩ := Option.map_eq_some_iff.mp h
    exact ⟨hwf, fun _ => id, fun hheld => by simp [writeRecipeToVol_mutex hwrite] at hheld⟩
  | insert hash offset =>
    obtain rfl := Option.some.inj h
    exact .insert hwf hash offset

/-- The write of a new recipe has found the mutex free. -/
theorem update_cases {attr d : Delivery} {io : VolIO} {rp : Recipe} {l : Locals}
    {r : Option (Fingerprint × ℕ) × Locals × Shared} (h : update attr d io rp l sh = some r) :
    (rp.is_new ≠ .newFile ∧ r.2.2 = sh) ∨
      (sh.volume.rv.mutex = false ∧ ∃ volume, r.2.2 = { sh with volume := volume }) := by
  have hnew : (scanAttr attr l rp).2.2.is_new = rp.is_new := by
    rw [scanAttr_recipe]
    cases (scanUpdateAttr (cstring (attr.into []))).2 <;> rfl
  rw [update] at h
  dsimp only at h
  rw [hnew] at h
  split at h
  · obtain ⟨p, hwrite, rfl⟩ := Option.map_eq_some_iff.mp h
    exact .inr ⟨writeRecipeToVol_mutex hwrite, p.2, rfl⟩
  · next hnot =>
    obtain rfl := Option.some.inj h
    exact .inl ⟨hnot, rfl⟩

theorem recv_later (hwf : s.shared.mem_index.WF) (h : recv s opened = some t) :
    Later s.shared t.shared := by
  obtain ⟨-, rfl⟩ | ⟨ds, -, rfl⟩ | ⟨d, ds, marked, -, -, -, hmark, rfl⟩ := recv_cases h
  · exact .refl hwf
  · exact .refl hwf
  · exact fileDedupMark_later hwf hmark

/-- `pop` only touches the queue and the recipes. -/
theorem pop_eq (p : Option ℕ) (queue : List (Option ℕ)) :
    ∃ consumer heap freed, pop s p queue =
      { s with
        queue := queue, popped := s.popped ++ [p], consumer := consumer, heap := heap,
        freed := freed } := by
  unfold pop
  cases p with
  | none => exact ⟨_, _, _, rfl⟩
  | some i =>
    dsimp only
    split
    · exact ⟨_, _, _, rfl⟩
    · split
      · exact ⟨_, _, _, rfl⟩
      · split <;> exact ⟨_, _, _, rfl⟩

theorem step_later {e : Event} (hwf : s.shared.mem_index.WF) (h : step s e = some t) :
    Later s.shared t.shared := by
  obtain ⟨opened, rfl, -, hrecv⟩ | ⟨p, queue, rfl, -, -, rfl⟩ |
    ⟨attr, d, io, i, c, item, locals, shared, rfl, -, -, hupdate, rfl⟩ |
    ⟨i, item, mem_index, rfl, -, hmem, rfl⟩ | ⟨c, shared, rfl, hrun, rfl⟩ := step_cases h
  · exact recv_later hwf hrecv
  · obtain ⟨consumer, heap, freed, heq⟩ := pop_eq (s := s) p queue
    rw [heq]
    exact .refl hwf
  · rcases update_cases hupdate with ⟨-, heq⟩ | ⟨hfree, volume, heq⟩
    · obtain rfl : shared = s.shared := heq
      exact .refl hwf
    · obtain rfl : shared = { s.shared with volume := volume } := heq
      exact ⟨hwf, fun _ => id, fun hheld => by simp [hfree] at hheld⟩
  · rcases hmem with rfl | ⟨hash, offset, rfl⟩
    · exact .refl hwf
    · exact .insert hwf hash offset
  · exact Call.run_later hwf hrun

-- ════════════════════════════════════════════════════════════════════════
-- With `STREAM_END` everything is handed over
-- ════════════════════════════════════════════════════════════════════════

/-- What is freed when `k` recipes are popped, of which the `n`-th is the sentinel. -/
def ConsumerAt (n k : ℕ) (freed : List ℕ) : Consumer → Prop
  | .waiting => freed = List.range k ∧ k ≤ n
  | .holding i | .updated i _ => k = i + 1 ∧ freed = List.range i ∧ k ≤ n
  | .stopped => freed = List.range k ∧ k = n + 1
  | .faulted _ => False

/-- `k` recipes are popped, and the others wait in the queue. -/
structure Memory (input : List Delivery) (k : ℕ) (s : State) : Prop where
  producing : s.producing = true → streamEnded s.input = true ∧
    s.heap.map (fun c => c.rp.file_hash) ++ hashes s.buf s.input = hashes [] input
  finished : s.producing = false →
    s.heap.map (fun c => c.rp.file_hash) = hashes [] input ++ [fixed 20 []]
  sentinel : ∀ i c, s.heap[i]? = some c →
    (c.rp.is_new = .unset ↔ i = (hashes [] input).length)
  popped : s.popped = (List.range k).map some
  queue : s.queue = (List.range' k (s.heap.length - k)).map some
  le : k ≤ s.heap.length
  live : ∀ i c, s.heap[i]? = some c → (c.live = true ↔ i ∉ s.freed)
  freed : ∀ i ∈ s.freed, i < s.heap.length

structure Inv (input : List Delivery) (k : ℕ) (s : State) : Prop extends Memory input k s where
  consumer : ConsumerAt (hashes [] input).length k s.freed s.consumer

theorem init_inv (h : streamEnded input = true) : Inv input 0 (init input sh) := by
  refine ⟨⟨fun _ => ⟨h, rfl⟩, ?_, ?_, rfl, rfl, le_refl _, ?_, ?_⟩, ⟨rfl, Nat.zero_le _⟩⟩
  · intro hfalse
    simp [init] at hfalse
  · intro i c hc
    simp [init] at hc
  · intro i c hc
    simp [init] at hc
  · intro i hi
    simp [init] at hi

/-- The recipes allocated so far are at most those of the stream. -/
theorem Memory.length_le {k : ℕ} (h : Memory input k s) :
    s.heap.length ≤ (hashes [] input).length + 1 ∧
      (s.producing = true → s.heap.length ≤ (hashes [] input).length) ∧
      (s.producing = false → s.heap.length = (hashes [] input).length + 1) := by
  have hproducing : s.producing = true → s.heap.length ≤ (hashes [] input).length := by
    intro hp
    have hlen := congrArg List.length (h.producing hp).2
    rw [List.length_append, List.length_map] at hlen
    omega
  have hfinished : s.producing = false → s.heap.length = (hashes [] input).length + 1 := by
    intro hp
    have hlen := congrArg List.length (h.finished hp)
    simpa using hlen
  refine ⟨?_, hproducing, hfinished⟩
  cases hp : s.producing with
  | false => exact (hfinished hp).le
  | true => exact (hproducing hp).trans (Nat.le_succ _)

theorem range'_push {k m : ℕ} (h : k ≤ m) :
    (List.range' k (m + 1 - k)).map some = (List.range' k (m - k)).map some ++ [some m] := by
  rw [Nat.succ_sub h, List.range'_1_concat, List.map_append, List.map_singleton]
  congr 3
  omega

/-- A recipe is allocated and pushed. -/
theorem Memory.push {k : ℕ} (h : Memory input k s) {rp : Recipe}
    (hheap : t.heap = s.heap ++ [⟨rp, true⟩]) (hqueue : t.queue = s.queue ++ [some s.heap.length])
    (hpopped : t.popped = s.popped) (hfreed : t.freed = s.freed)
    (hproducing : t.producing = true → streamEnded t.input = true ∧
      s.heap.map (fun c => c.rp.file_hash) ++ [rp.file_hash] ++ hashes t.buf t.input =
        hashes [] input)
    (hfinished : t.producing = false →
      s.heap.map (fun c => c.rp.file_hash) ++ [rp.file_hash] = hashes [] input ++ [fixed 20 []])
    (hunset : rp.is_new = .unset ↔ s.heap.length = (hashes [] input).length) : Memory input k t := by
  have hle := h.le
  have hget : ∀ i c, t.heap[i]? = some c →
      s.heap[i]? = some c ∨ (i = s.heap.length ∧ c = ⟨rp, true⟩) := by
    intro i c hc
    rw [hheap] at hc
    rcases lt_or_ge i s.heap.length with hi | hi
    · rw [List.getElem?_append_left hi] at hc
      exact .inl hc
    · rw [List.getElem?_append_right hi] at hc
      have hzero : i - s.heap.length = 0 := by
        by_contra hne
        simp [hne] at hc
      rw [hzero] at hc
      exact .inr ⟨by omega, (Option.some.inj hc).symm⟩
  have hmap : t.heap.map (fun c => c.rp.file_hash) =
      s.heap.map (fun c => c.rp.file_hash) ++ [rp.file_hash] := by
    rw [hheap, List.map_append]
    rfl
  refine ⟨?_, ?_, ?_, ?_, ?_, ?_, ?_, ?_⟩
  · rw [hmap]
    exact hproducing
  · rw [hmap]
    exact hfinished
  · intro i c hc
    rcases hget i c hc with hold | ⟨rfl, rfl⟩
    · exact h.sentinel i c hold
    · exact hunset
  · rw [hpopped, h.popped]
  · rw [hqueue, hheap, List.length_append, List.length_singleton, range'_push hle, h.queue]
  · rw [hheap, List.length_append]
    exact hle.trans (Nat.le_add_right _ _)
  · intro i c hc
    rw [hfreed]
    rcases hget i c hc with hold | ⟨rfl, rfl⟩
    · exact h.live i c hold
    · have hnot : s.heap.length ∉ s.freed := fun hmem => (h.freed _ hmem).false
      simpa using hnot
  · intro i hi
    rw [hfreed] at hi
    rw [hheap, List.length_append]
    exact (h.freed i hi).trans_le (Nat.le_add_right _ _)

/-- The front of the queue is the `k`-th recipe, and it has not been freed. -/
theorem Memory.front {k : ℕ} (h : Memory input k s) {p : Option ℕ} {queue : List (Option ℕ)}
    (hq : s.queue = p :: queue) :
    p = some k ∧ k < s.heap.length ∧
      queue = (List.range' (k + 1) (s.heap.length - (k + 1))).map some := by
  have hqueue := h.queue
  rw [hq] at hqueue
  have hlt : k < s.heap.length := by
    by_contra hge
    rw [Nat.sub_eq_zero_of_le (by omega)] at hqueue
    simp at hqueue
  rw [show s.heap.length - k = s.heap.length - (k + 1) + 1 by omega, List.range'_succ,
    List.map_cons] at hqueue
  obtain ⟨rfl, rfl⟩ := List.cons.inj hqueue
  exact ⟨rfl, hlt, rfl⟩

theorem State.getElem?_free {i j : ℕ} {c : Cell} (hc : (s.free i).heap[j]? = some c) :
    ∃ c', s.heap[j]? = some c' ∧ c.rp = c'.rp ∧ (c.live = true ↔ c'.live = true ∧ j ≠ i) := by
  rw [State.free, List.getElem?_modify] at hc
  obtain ⟨c', hc', rfl⟩ := Option.map_eq_some_iff.mp hc
  refine ⟨c', hc', ?_⟩
  split
  · next heq => simp [heq]
  · next hne =>
    have hne' : j ≠ i := fun heq => hne heq.symm
    simp [hne']

theorem State.map_free (i : ℕ) :
    (s.free i).heap.map (fun c => c.rp.file_hash) = s.heap.map (fun c => c.rp.file_hash) := by
  refine List.ext_getElem? fun j => ?_
  rw [State.free, List.getElem?_map, List.getElem?_map, List.getElem?_modify]
  cases s.heap[j]? with
  | none => rfl
  | some c =>
    simp only [Option.map_eq_map, Option.map_some]
    split <;> rfl

theorem Memory.free {k i : ℕ} (h : Memory input k s) (hi : i < s.heap.length)
    (consumer : Consumer) : Memory input k { s.free i with consumer := consumer } := by
  have hlen : (s.free i).heap.length = s.heap.length := by simp [State.free]
  refine ⟨?_, ?_, ?_, h.popped, ?_, ?_, ?_, ?_⟩
  · dsimp only
    rw [State.map_free]
    exact h.producing
  · dsimp only
    rw [State.map_free]
    exact h.finished
  · intro j c hc
    obtain ⟨c', hc', hrp, -⟩ := State.getElem?_free hc
    rw [hrp]
    exact h.sentinel j c' hc'
  · dsimp only
    rw [hlen]
    exact h.queue
  · dsimp only
    rw [hlen]
    exact h.le
  · intro j c hc
    obtain ⟨c', hc', -, hlive⟩ := State.getElem?_free hc
    rw [hlive, h.live j c' hc']
    simp [State.free]
  · intro j hj
    dsimp only
    rw [hlen]
    rcases List.mem_append.mp hj with hj | hj
    · exact h.freed j hj
    · rwa [List.mem_singleton.mp hj]

/-- The front of the queue is taken. -/
theorem Memory.take {k : ℕ} (h : Memory input k s) {queue : List (Option ℕ)}
    (hk : k < s.heap.length)
    (hqueue : queue = (List.range' (k + 1) (s.heap.length - (k + 1))).map some)
    (consumer : Consumer) :
    Memory input (k + 1)
      { s with queue := queue, popped := s.popped ++ [some k], consumer := consumer } := by
  refine ⟨h.producing, h.finished, h.sentinel, ?_, hqueue, hk, h.live, h.freed⟩
  dsimp only
  rw [h.popped, List.range_succ, List.map_append]
  rfl

/-- The memory of the recipes does not depend on the other variables. -/
theorem Memory.other {k : ℕ} (h : Memory input k s) (consumer : Consumer) (locals : Locals)
    (shared : Shared) :
    Memory input k { s with consumer := consumer, locals := locals, shared := shared } :=
  ⟨h.producing, h.finished, h.sentinel, h.popped, h.queue, h.le, h.live, h.freed⟩

theorem fileDedupMark_none {rp : Recipe} (hheld : sh.volume.rv.mutex = true)
    (hknown : (sh.mem_index.find rp.file_hash).isSome) : fileDedupMark opened rp sh = none := by
  rw [fileDedupMark]
  split
  · next mem_index hlookup =>
    have hnot : sh.mem_index.find rp.file_hash = none := congrArg Prod.fst hlookup
    simp [hnot] at hknown
  · rw [readRecipeFromVol, if_pos hheld]

theorem Waits.after {e : Event} (h : Waits s) (hwf : s.shared.mem_index.WF)
    (hst : step s e = some t) : Waits t := by
  have hlater := step_later hwf hst
  obtain ⟨hheld, ⟨d, ds, hs, hinput, hd, hend, hknown⟩ | ⟨i, c, hc, hcell, hnew⟩⟩ := h
  · -- the producer waits, and only it takes messages
    suffices hkeep : t.producing = s.producing ∧ t.input = s.input ∧ t.buf = s.buf by
      obtain ⟨hs', hinput', hbuf⟩ := hkeep
      refine ⟨hlater.held hheld, .inl ⟨d, ds, hs'.trans hs, hinput'.trans hinput, hd, hend, ?_⟩⟩
      rw [hbuf]
      exact hlater.known _ hknown
    obtain ⟨opened, rfl, -, hrecv⟩ | ⟨p, queue, rfl, -, -, rfl⟩ |
      ⟨attr, d', io, i, c, item, locals, shared, rfl, -, -, -, rfl⟩ |
      ⟨i, item, mem_index, rfl, -, -, rfl⟩ | ⟨c, shared, rfl, -, rfl⟩ := step_cases hst
    · obtain ⟨hbroken, -⟩ | ⟨ds', hinput', -⟩ | ⟨d', ds', marked, hinput', -, -, hmark, -⟩ :=
        recv_cases hrecv
      · exact absurd (hbroken d ds hinput) hd
      · exact absurd (List.cons.inj (hinput.symm.trans hinput')).1 hend
      · obtain ⟨rfl, -⟩ := List.cons.inj (hinput.symm.trans hinput')
        rw [fileDedupMark_none hheld hknown] at hmark
        cases hmark
    · obtain ⟨consumer, heap, freed, heq⟩ := pop_eq (s := s) p queue
      rw [heq]
      exact ⟨rfl, rfl, rfl⟩
    · exact ⟨rfl, rfl, rfl⟩
    · exact ⟨rfl, rfl, rfl⟩
    · exact ⟨rfl, rfl, rfl⟩
  · -- the consumer waits, and the recipes stay where they are
    suffices hkeep : t.consumer = .holding i ∧ t.heap[i]? = some c from
      ⟨hlater.held hheld, .inr ⟨i, c, hkeep.1, hkeep.2, hnew⟩⟩
    have hpush : ∀ rp, (s.heap ++ [⟨rp, true⟩])[i]? = some c := fun rp => by
      rw [List.getElem?_append_left (List.getElem?_eq_some_iff.mp hcell).1, hcell]
    obtain ⟨opened, rfl, -, hrecv⟩ | ⟨p, queue, rfl, hc', -, rfl⟩ |
      ⟨attr, d, io, i', c', item, locals, shared, rfl, hc', hcell', hupdate, rfl⟩ |
      ⟨i', item, mem_index, rfl, hc', -, rfl⟩ | ⟨c', shared, rfl, -, rfl⟩ := step_cases hst
    · obtain ⟨-, rfl⟩ | ⟨ds, -, rfl⟩ | ⟨d, ds, marked, -, -, -, -, rfl⟩ := recv_cases hrecv
      · exact ⟨hc, hcell⟩
      · exact ⟨hc, hpush fresh⟩
      · exact ⟨hc, hpush marked.2.1⟩
    · cases hc.symm.trans hc'
    · obtain rfl := Consumer.holding.inj (hc.symm.trans hc')
      obtain rfl := Option.some.inj (hcell.symm.trans hcell')
      rcases update_cases hupdate with ⟨hnot, -⟩ | ⟨hfree, -⟩
      · exact absurd hnew hnot
      · simp [hfree] at hheld
    · cases hc.symm.trans hc'
    · exact ⟨hc, hcell⟩

/-- A step of the threads whose calls of `open` succeed. -/
def Opens : Event → Prop
  | .recv opened => opened = true
  | .update _ _ io => io.opened = true
  | .other _ => False
  | _ => True

theorem Opens.own {e : Event} (h : Opens e) : e.own = true := by
  cases e with
  | other c => exact absurd h id
  | _ => rfl

end TCBackup.Server.RecipeHandover
