import TCBackup.Lib.DoublyLinked

/-!
# The doubly linked list (`client/lib/dlist.c`)

The nodes of a list in memory, and the list of items that they stand for. A node is known by
its address, and so is an item. Where a function reads through `NULL`, or does not return, it
has no value.

## Main definitions

- `Node`, `DList`, `State` — the nodes, and what is allocated
- `preappend`, `append`, `search`, `moveValue`, `movePtr`, `deleteTail` — the functions
- `Nodes` — the nodes from head to tail

## Main results

- `findNode_spec` — the loop of a search
- `Nodes.pushFront`, `Nodes.unlink`, `Nodes.moveFront` — the edits of the functions
-/

namespace TCBackup.Client.Dlist

open Linked

structure Node where
  data : ℕ
  prev : Option ℕ
  next : Option ℕ

structure DList where
  head : Option ℕ
  tail : Option ℕ
  size : ℤ

/-- The nodes, the list, and the addresses of the nodes that are allocated. -/
structure State where
  nodes : ℕ → Node
  list : DList
  live : List ℕ

/-- `dlist_init` -/
def init (nodes : ℕ → Node) : State := ⟨nodes, ⟨none, none, 0⟩, []⟩

def setNext (nodes : ℕ → Node) (p : ℕ) (x : Option ℕ) : ℕ → Node :=
  Function.update nodes p { nodes p with next := x }

def setPrev (nodes : ℕ → Node) (p : ℕ) (x : Option ℕ) : ℕ → Node :=
  Function.update nodes p { nodes p with prev := x }

/-- A 32-bit number with a sign. -/
def int32 (x : ℤ) : ℤ := Int.bmod x (2 ^ 32)

/-- `generate_node`, at the address that `malloc` returns. -/
def generateNode (s : State) (p data : ℕ) : State :=
  { s with nodes := Function.update s.nodes p ⟨data, none, none⟩, live := p :: s.live }

/-- The node comes to the front; its own pointers are `NULL`. -/
def pushFront (nodes : ℕ → Node) (list : DList) (p : ℕ) : (ℕ → Node) × DList :=
  match list.head with
  | none => (nodes, { list with head := some p, tail := some p })
  | some h => (setNext (setPrev nodes h (some p)) p (some h), { list with head := some p })

/-- `dlist_preappend` -/
def preappend (s : State) (p item : ℕ) : State :=
  let s := generateNode s p item
  let (nodes, list) := pushFront s.nodes s.list p
  { s with nodes := nodes, list := { list with size := int32 (list.size + 1) } }

/-- `dlist_append` -/
def append (s : State) (p item : ℕ) : Option State :=
  let s := generateNode s p item
  match s.list.head with
  | none =>
    some { s with list := ⟨some p, some p, int32 (s.list.size + 1)⟩ }
  | some _ =>
    s.list.tail.map fun t =>
      { s with
        nodes := setPrev (setNext s.nodes t (some p)) p (some t)
        list := { s.list with tail := some p, size := int32 (s.list.size + 1) } }

/-- `dlist_insert` -/
def insert (s : State) (p item : ℕ) : State := preappend s p item

/-- The loop of `dlist_search` and of the moves: the first node from `p` on with such an item. -/
def findNode (test : ℕ → Bool) : ℕ → (ℕ → Node) → Option ℕ → Option (Option ℕ)
  | _, _, none => some none
  | 0, _, some _ => none
  | fuel + 1, nodes, some p =>
    if test (nodes p).data then some (some p) else findNode test fuel nodes (nodes p).next

/-- The node leaves the list. Its own pointers stay as they are. -/
def unlink (nodes : ℕ → Node) (list : DList) (p : ℕ) : (ℕ → Node) × DList :=
  let (nodes, list) :=
    match (nodes p).prev with
    | some q => (setNext nodes q (nodes p).next, list)
    | none => (nodes, { list with head := (nodes p).next })
  match (nodes p).next with
  | some q => (setPrev nodes q (nodes p).prev, list)
  | none => (nodes, { list with tail := (nodes p).prev })

/-- `memcmp` of `size` bytes is 0. -/
def memcmp (bytes : ℕ → UInt8) (a b size : ℕ) : Bool :=
  (List.range size).all fun i => bytes (a + i) = bytes (b + i)

/-- `dlist_search` with the test of its loop. -/
def searchWith (test : ℕ → Bool) (fuel : ℕ) (s : State) : Option (ℤ × State) :=
  match findNode test fuel s.nodes s.list.head with
  | none => none
  | some none => some (0, s)
  | some (some p) =>
    if s.list.head = some p then some (1, s)
    else
      let (nodes, list) := unlink s.nodes s.list p
      some (1, { s with nodes := nodes, list := list })

/-- `dlist_move_value` and `dlist_move_ptr` with the test of their loops. -/
def moveWith (test : ℕ → Bool) (fuel : ℕ) (s : State) : Option (ℤ × State) :=
  match findNode test fuel s.nodes s.list.head with
  | none => none
  | some none => some (0, s)
  | some (some p) =>
    if s.list.head = some p then some (1, s)
    else
      let (nodes, list) := unlink s.nodes s.list p
      let (nodes, list) := pushFront (setPrev (setNext nodes p none) p none) list p
      some (1, { s with nodes := nodes, list := list })

/-- `dlist_search` -/
def search (bytes : ℕ → UInt8) (item : ℕ) : ℕ → State → Option (ℤ × State) :=
  searchWith fun data => memcmp bytes data item 4

/-- `dlist_move_value` -/
def moveValue (bytes : ℕ → UInt8) (item size : ℕ) : ℕ → State → Option (ℤ × State) :=
  moveWith fun data => memcmp bytes data item size

/-- `dlist_move_ptr` -/
def movePtr (item : ℕ) : ℕ → State → Option (ℤ × State) := moveWith fun data => data = item

/-- `dlist_delete_tail`: the item, or `NULL`. -/
def deleteTail (s : State) : Option (Option ℕ × State) :=
  match s.list.head with
  | none => some (none, s)
  | some _ =>
    s.list.tail.map fun t =>
      let data := (s.nodes t).data
      let size := int32 (s.list.size - 1)
      match (s.nodes t).prev with
      | some q =>
        (some data, ⟨setNext s.nodes q none, { s.list with tail := some q, size := size },
          s.live.erase t⟩)
      | none => (some data, ⟨s.nodes, ⟨none, none, size⟩, s.live.erase t⟩)

/-- `dlist_size` -/
def dlistSize (s : State) : ℤ := s.list.size

def nexts (nodes : ℕ → Node) (p : ℕ) : Option ℕ := (nodes p).next

def prevs (nodes : ℕ → Node) (p : ℕ) : Option ℕ := (nodes p).prev

def datas (nodes : ℕ → Node) (p : ℕ) : ℕ := (nodes p).data

variable {nodes : ℕ → Node} {list : DList} {p : ℕ} {x : Option ℕ} {ps : List ℕ} {test : ℕ → Bool}

@[simp] theorem nexts_setNext : nexts (setNext nodes p x) = Function.update (nexts nodes) p x := by
  funext q
  by_cases hq : q = p
  · subst hq
    simp [nexts, setNext]
  · simp [nexts, setNext, hq]

@[simp] theorem prevs_setPrev : prevs (setPrev nodes p x) = Function.update (prevs nodes) p x := by
  funext q
  by_cases hq : q = p
  · subst hq
    simp [prevs, setPrev]
  · simp [prevs, setPrev, hq]

@[simp] theorem nexts_setPrev : nexts (setPrev nodes p x) = nexts nodes := by
  funext q
  by_cases hq : q = p
  · subst hq
    simp [nexts, setPrev]
  · simp [nexts, setPrev, hq]

@[simp] theorem prevs_setNext : prevs (setNext nodes p x) = prevs nodes := by
  funext q
  by_cases hq : q = p
  · subst hq
    simp [prevs, setNext]
  · simp [prevs, setNext, hq]

@[simp] theorem datas_setNext : datas (setNext nodes p x) = datas nodes := by
  funext q
  by_cases hq : q = p
  · subst hq
    simp [datas, setNext]
  · simp [datas, setNext, hq]

@[simp] theorem datas_setPrev : datas (setPrev nodes p x) = datas nodes := by
  funext q
  by_cases hq : q = p
  · subst hq
    simp [datas, setPrev]
  · simp [datas, setPrev, hq]

/-- The pointers of these nodes lead from the head to the tail and back. -/
def Nodes (nodes : ℕ → Node) (list : DList) (ps : List ℕ) : Prop :=
  Dll (nexts nodes) (prevs nodes) list.head list.tail ps

theorem Nodes.unique {ps' : List ℕ} (h : Nodes nodes list ps) (h' : Nodes nodes list ps') : ps = ps' :=
  h.forward.unique h'.forward

/-- The loop finds the first node with such an item. -/
theorem findNode_spec {q : Option ℕ} (h : Seg (nexts nodes) q ps none) {fuel : ℕ}
    (hfuel : ps.length ≤ fuel) :
    findNode test fuel nodes q = some (ps.find? fun p => test (datas nodes p)) := by
  induction ps generalizing q fuel with
  | nil =>
    obtain rfl : q = none := h
    cases fuel <;> rfl
  | cons p ps ih =>
    obtain ⟨rfl, hrest⟩ := h
    rw [List.length_cons] at hfuel
    obtain ⟨fuel, rfl⟩ : ∃ k, fuel = k + 1 := ⟨fuel - 1, by omega⟩
    rw [findNode]
    cases htest : test (nodes p).data with
    | true =>
      have hfound : test (datas nodes p) = true := htest
      rw [List.find?_cons, hfound]
      rfl
    | false =>
      have hother : test (datas nodes p) = false := htest
      rw [List.find?_cons, hother]
      exact ih hrest (by omega)

theorem Nodes.findNode (h : Nodes nodes list ps) {fuel : ℕ} (hfuel : ps.length ≤ fuel) :
    findNode test fuel nodes list.head = some (ps.find? fun p => test (datas nodes p)) :=
  findNode_spec h.forward hfuel

/-- A node without pointers comes to the front. -/
theorem Nodes.pushFront (h : Nodes nodes list ps) (hp : p ∉ ps) (hnext : nexts nodes p = none)
    (hprev : prevs nodes p = none) :
    Nodes (pushFront nodes list p).1 (pushFront nodes list p).2 (p :: ps) ∧
      datas (pushFront nodes list p).1 = datas nodes := by
  have hpush := h.push hp
  have hprevs : Function.update (prevs nodes) p none = prevs nodes := by
    rw [← hprev, Function.update_eq_self]
  rw [hprevs] at hpush
  rw [Dlist.pushFront, Nodes]
  cases hhead : list.head with
  | none =>
    rw [hhead, ← hnext, Function.update_eq_self, hnext] at hpush
    exact ⟨hpush, rfl⟩
  | some b =>
    rw [hhead] at hpush
    simp only [nexts_setNext, nexts_setPrev, prevs_setNext, prevs_setPrev, datas_setNext, datas_setPrev]
    exact ⟨hpush, trivial⟩

/-- A node leaves the list. -/
theorem Nodes.unlink {l l' : List ℕ} (h : Nodes nodes list (l ++ p :: l')) :
    Nodes (unlink nodes list p).1 (unlink nodes list p).2 (l ++ l') ∧
      datas (unlink nodes list p).1 = datas nodes ∧
      (unlink nodes list p).2.size = list.size := by
  have hremove := h.remove
  obtain ⟨q, hq⟩ : ∃ q, prevs nodes p = q := ⟨_, rfl⟩
  obtain ⟨r, hr⟩ : ∃ r, nexts nodes p = r := ⟨_, rfl⟩
  rw [hq, hr] at hremove
  have hprev : (nodes p).prev = q := hq
  have hnext : (nodes p).next = r := hr
  have hsame : ∀ q, ((setNext nodes q r) p).prev = (nodes p).prev ∧
      ((setNext nodes q r) p).next = r := by
    intro q
    refine ⟨congrFun (prevs_setNext (x := r)) p, ?_⟩
    have hnexts := congrFun (@nexts_setNext nodes q r) p
    refine hnexts.trans ?_
    by_cases hpq : p = q
    · rw [hpq, Function.update_self]
    · rw [Function.update_of_ne hpq]
      exact hr
  rw [Dlist.unlink, Nodes, hprev, hnext]
  cases q with
  | none =>
    simp only [hnext, hprev]
    cases r with
    | none => exact ⟨hremove, rfl, rfl⟩
    | some b =>
      simp only [nexts_setPrev, prevs_setPrev, datas_setPrev]
      exact ⟨hremove, trivial, trivial⟩
  | some a =>
    simp only [(hsame a).1, (hsame a).2, hprev]
    cases r with
    | none =>
      simp only [nexts_setNext, prevs_setNext, datas_setNext]
      exact ⟨hremove, trivial, trivial⟩
    | some b =>
      simp only [nexts_setPrev, nexts_setNext, prevs_setPrev, prevs_setNext, datas_setPrev, datas_setNext]
      exact ⟨hremove, trivial, trivial⟩

theorem size_pushFront (nodes : ℕ → Node) (list : DList) (p : ℕ) :
    (pushFront nodes list p).2.size = list.size := by
  rw [pushFront]
  cases list.head <;> rfl

/-- A node of the list is moved to the front. -/
theorem Nodes.moveFront {l l' : List ℕ} (h : Nodes nodes list (l ++ p :: l')) :
    ∃ nodes' list', Dlist.pushFront (setPrev (setNext (Dlist.unlink nodes list p).1 p none) p none)
        (Dlist.unlink nodes list p).2 p = (nodes', list') ∧
      Nodes nodes' list' (p :: (l ++ l')) ∧ datas nodes' = datas nodes ∧ list'.size = list.size := by
  obtain ⟨hunlink, hdatas, hsize⟩ := h.unlink
  have hp : p ∉ l ++ l' := (List.nodup_middle.mp h.nodup).notMem
  have hcleared : Nodes (setPrev (setNext (Dlist.unlink nodes list p).1 p none) p none)
      (Dlist.unlink nodes list p).2 (l ++ l') := by
    rw [Nodes]
    simp only [nexts_setPrev, nexts_setNext, prevs_setPrev, prevs_setNext]
    exact ⟨hunlink.forward.update_of_notMem hp,
      hunlink.backward.update_of_notMem (List.mem_reverse.not.mpr hp), hunlink.nodup⟩
  obtain ⟨hpush, hsame⟩ := hcleared.pushFront hp (by simp) (by simp)
  have hsize' := size_pushFront (setPrev (setNext (Dlist.unlink nodes list p).1 p none) p none)
    (Dlist.unlink nodes list p).2 p
  obtain ⟨⟨nodes', list'⟩, hrun⟩ : ∃ r, Dlist.pushFront
    (setPrev (setNext (Dlist.unlink nodes list p).1 p none) p none) (Dlist.unlink nodes list p).2 p =
      r := ⟨_, rfl⟩
  rw [hrun] at hpush hsame hsize'
  refine ⟨nodes', list', hrun, hpush, ?_, hsize'.trans hsize⟩
  rw [hsame, datas_setPrev, datas_setNext, hdatas]

end TCBackup.Client.Dlist
