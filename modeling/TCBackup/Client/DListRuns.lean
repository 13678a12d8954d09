import TCBackup.Client.DList
import TCBackup.Client.TableMemory

/-!
# Runs of calls on a doubly linked list (`client/lib/dlist.c`)

Calls on a list in memory against the same calls on a list of items. `dlist_search` takes what
it finds out of the list, unless it is at the head, and neither relinks nor counts it.

## Main definitions

- `Call`, `call` — the calls of the functions
- `Call.after`, `Call.answer` — what they should do to a list of items
- `IsList`, `Works` — a list in memory that is this list, and calls that keep it so
- `Fine` — calls that find nothing behind the head by a search

## Main results

- `IsList.call`, `IsList.call_not` — one call
- `dlist_works_iff` — the calls that work
-/

namespace TCBackup.Client.Dlist

open Linked
open TableMemory (Returns)

/-- A call, with the address that `malloc` returns in it and with the memory that it compares. -/
inductive Call
  | preappend (p item : ℕ)
  | append (p item : ℕ)
  | insert (p item : ℕ)
  | search (bytes : ℕ → UInt8) (item : ℕ)
  | moveValue (bytes : ℕ → UInt8) (item size : ℕ)
  | movePtr (item : ℕ)
  | deleteTail

/-- What a call returns: a number, or an item or `NULL`. -/
inductive Answer
  | done
  | int (r : ℤ)
  | item (data : Option ℕ)

def call (fuel : ℕ) (s : State) : Call → Option (Answer × State)
  | .preappend p item => some (.done, preappend s p item)
  | .append p item => (append s p item).map fun s => (.done, s)
  | .insert p item => some (.done, insert s p item)
  | .search bytes item => (search bytes item fuel s).map fun (r, s) => (.int r, s)
  | .moveValue bytes item size => (moveValue bytes item size fuel s).map fun (r, s) => (.int r, s)
  | .movePtr item => (movePtr item fuel s).map fun (r, s) => (.int r, s)
  | .deleteTail => (deleteTail s).map fun (data, s) => (.item data, s)

-- ════════════════════════════════════════════════════════════════════════
-- The list of items
-- ════════════════════════════════════════════════════════════════════════

/-- What is found comes to the front, the others keep their order. -/
def moved (test : ℕ → Bool) (l : List ℕ) : List ℕ :=
  match l.find? test with
  | none => l
  | some item => item :: l.eraseP test

def found (test : ℕ → Bool) (l : List ℕ) : ℤ := if l.any test then 1 else 0

namespace Call

def after (l : List ℕ) : Call → List ℕ
  | preappend _ item | insert _ item => item :: l
  | append _ item => l ++ [item]
  | search _ _ => l
  | moveValue bytes item size => moved (fun data => memcmp bytes data item size) l
  | movePtr item => moved (fun data => data = item) l
  | deleteTail => l.dropLast

def answer (l : List ℕ) : Call → Answer
  | preappend _ _ | append _ _ | insert _ _ => .done
  | search bytes item => .int (found (fun data => memcmp bytes data item 4) l)
  | moveValue bytes item size => .int (found (fun data => memcmp bytes data item size) l)
  | movePtr item => .int (found (fun data => data = item) l)
  | deleteTail => .item l.getLast?

/-- `malloc` returns memory that is not allocated. -/
def Allowed (s : State) : Call → Prop
  | preappend p _ | append p _ | insert p _ => p ∉ s.live
  | _ => True

/-- A search finds nothing, or the item at the head. The number of items is an `int`. -/
def Fine (l : List ℕ) : Call → Prop
  | preappend _ _ | append _ _ | insert _ _ => l.length + 1 < 2 ^ 31
  | search bytes item =>
    l.find? (fun data => memcmp bytes data item 4) = none ∨
      l.find? (fun data => memcmp bytes data item 4) = l.head?
  | _ => True

end Call

/-- The nodes `ps` are linked in both directions from head to tail and hold these items. -/
structure Holds (s : State) (ps l : List ℕ) : Prop where
  nodes : Nodes s.nodes s.list ps
  items : ps.map (datas s.nodes) = l
  size : dlistSize s = l.length
  small : dlistSize s < 2 ^ 31
  live : ∀ p ∈ ps, p ∈ s.live

def IsList (s : State) (l : List ℕ) : Prop := ∃ ps, Holds s ps l

def Allowed : State → List Call → Prop
  | _, [] => True
  | s, c :: calls =>
    c.Allowed s ∧ ∀ a s', Returns (fun fuel => call fuel s c) (a, s') → Allowed s' calls

/-- Before every call and at the end the memory is the list; every call returns what it should. -/
def Works : State → List ℕ → List Call → Prop
  | s, l, [] => IsList s l
  | s, l, c :: calls => IsList s l ∧ ∃ s',
      Returns (fun fuel => call fuel s c) (c.answer l, s') ∧ Works s' (c.after l) calls

def Fine : List ℕ → List Call → Prop
  | _, [] => True
  | l, c :: calls => c.Fine l ∧ Fine (c.after l) calls

-- ════════════════════════════════════════════════════════════════════════
-- Inserting
-- ════════════════════════════════════════════════════════════════════════

variable {s : State} {ps l : List ℕ} {p item : ℕ} {test : ℕ → Bool}

theorem int32_eq_iff (k : ℕ) : int32 k = k ↔ k < 2 ^ 31 := by
  rw [int32, Int.bmod]
  constructor
  · intro h
    split at h <;> omega
  · intro h
    split <;> omega

theorem isList_init (nodes : ℕ → Node) : IsList (init nodes) [] :=
  ⟨[], dll_nil, rfl, rfl, show (0 : ℤ) < 2 ^ 31 by decide, fun p hp => absurd hp List.not_mem_nil⟩

theorem Holds.length_eq (h : Holds s ps l) : ps.length = l.length := by
  rw [← h.items, List.length_map]

/-- A new node beside the list. -/
theorem Holds.generateNode (h : Holds s ps l) (hp : p ∉ s.live) (item : ℕ) : p ∉ ps ∧
    Nodes (generateNode s p item).nodes s.list ps ∧
    ps.map (datas (generateNode s p item).nodes) = l ∧
    nexts (generateNode s p item).nodes p = none ∧ prevs (generateNode s p item).nodes p = none ∧
    datas (generateNode s p item).nodes p = item := by
  have hnotin : p ∉ ps := fun hin => hp (h.live p hin)
  have hsame : ∀ q ∈ ps, (Dlist.generateNode s p item).nodes q = s.nodes q := by
    intro q hq
    refine Function.update_of_ne ?_ _ _
    rintro rfl
    exact hnotin hq
  have hself : (Dlist.generateNode s p item).nodes p = ⟨item, none, none⟩ := Function.update_self ..
  refine ⟨hnotin, ⟨h.nodes.forward.congr fun q hq => ?_, h.nodes.backward.congr fun q hq => ?_,
    h.nodes.nodup⟩, ?_, ?_, ?_, ?_⟩
  · exact congrArg Node.next (hsame q hq)
  · exact congrArg Node.prev (hsame q (List.mem_reverse.mp hq))
  · rw [← h.items]
    exact List.map_congr_left fun q hq => congrArg Node.data (hsame q hq)
  · rw [nexts, hself]
  · rw [prevs, hself]
  · rw [datas, hself]

/-- The nodes after an insert, whatever has become of the count. -/
theorem Holds.preappend (h : Holds s ps l) (hp : p ∉ s.live) (item : ℕ) :
    Nodes (preappend s p item).nodes (preappend s p item).list (p :: ps) ∧
      (p :: ps).map (datas (preappend s p item).nodes) = item :: l ∧
      (preappend s p item).live = p :: s.live ∧
      dlistSize (preappend s p item) = int32 ((l.length + 1 : ℕ)) := by
  obtain ⟨hnotin, hnodes, hitems, hnext, hprev, hdata⟩ := h.generateNode hp item
  obtain ⟨hpush, hdatas⟩ := hnodes.pushFront hnotin hnext hprev
  have hsize := size_pushFront (Dlist.generateNode s p item).nodes s.list p
  refine ⟨hpush, ?_, rfl, ?_⟩
  · change (p :: ps).map (datas (pushFront (Dlist.generateNode s p item).nodes s.list p).1) = _
    rw [hdatas, List.map_cons, hdata, hitems]
  · change int32 ((pushFront (Dlist.generateNode s p item).nodes s.list p).2.size + 1) = _
    have hlength : s.list.size = l.length := h.size
    rw [hsize, hlength, Int.natCast_add, Int.natCast_one]

theorem Holds.append (h : Holds s ps l) (hp : p ∉ s.live) (item : ℕ) :
    ∃ s', append s p item = some s' ∧ Nodes s'.nodes s'.list (ps ++ [p]) ∧
      (ps ++ [p]).map (datas s'.nodes) = l ++ [item] ∧ s'.live = p :: s.live ∧
      dlistSize s' = int32 ((l.length + 1 : ℕ)) := by
  obtain ⟨hnotin, hnodes, hitems, hnext, hprev, hdata⟩ := h.generateNode hp item
  have happend := hnodes.append hnotin
  have hnexts : Function.update (nexts (Dlist.generateNode s p item).nodes) p none =
      nexts (Dlist.generateNode s p item).nodes := by
    rw [← hnext, Function.update_eq_self]
  have hlength : s.list.size = l.length := h.size
  rw [hnexts] at happend
  have hhead := hnodes.head_eq
  have htail := hnodes.tail_eq
  rw [Dlist.append]
  rcases List.eq_nil_or_concat ps with rfl | ⟨ps, t, rfl⟩
  · have hnone : (Dlist.generateNode s p item).list.head = none := hhead
    have hupdate : Function.update (prevs (Dlist.generateNode s p item).nodes) p none =
        prevs (Dlist.generateNode s p item).nodes := by
      rw [← hprev, Function.update_eq_self]
    rw [htail, List.getLast?_nil, hupdate] at happend
    simp only [hnone]
    refine ⟨_, rfl, happend, ?_, rfl, ?_⟩
    · change [datas (Dlist.generateNode s p item).nodes p] = l ++ [item]
      rw [hdata, ← hitems]
      rfl
    · change int32 (s.list.size + 1) = _
      rw [hlength, Int.natCast_add, Int.natCast_one]
  · rw [List.concat_eq_append] at hhead htail happend hitems ⊢
    rw [List.getLast?_concat] at htail
    obtain ⟨b, hb⟩ : ∃ b, (Dlist.generateNode s p item).list.head = some b := by
      have hsome : ((ps ++ [t]).head?).isSome := by simp
      exact ⟨_, hhead.trans (Option.some_get hsome).symm⟩
    have ht : (Dlist.generateNode s p item).list.tail = some t := htail
    rw [htail] at happend
    simp only [hb, ht, Option.map_some]
    refine ⟨_, rfl, ?_, ?_, rfl, ?_⟩
    · rw [Nodes]
      simp only [nexts_setPrev, nexts_setNext, prevs_setPrev, prevs_setNext]
      rw [← hb]
      exact happend
    · simp only [datas_setPrev, datas_setNext]
      rw [List.map_append, hitems, List.map_singleton, hdata]
    · change int32 (s.list.size + 1) = _
      rw [hlength, Int.natCast_add, Int.natCast_one]

-- ════════════════════════════════════════════════════════════════════════
-- Searching, moving and deleting
-- ════════════════════════════════════════════════════════════════════════

/-- What a walk from the head finds: nothing, the head, or a node behind it. -/
theorem Holds.find_cases (h : Holds s ps l) (test : ℕ → Bool) :
    (ps.find? (fun p => test (datas s.nodes p)) = none ∧ l.find? test = none) ∨
      (∃ p, ps.find? (fun p => test (datas s.nodes p)) = some p ∧ s.list.head = some p ∧
        l.find? test = l.head? ∧ l.find? test ≠ none) ∨
      ∃ p ps₁ ps₂, ps.find? (fun p => test (datas s.nodes p)) = some p ∧ s.list.head ≠ some p ∧
        ps = ps₁ ++ p :: ps₂ ∧ l.find? test = some (datas s.nodes p) ∧
        l.eraseP test = (ps₁ ++ ps₂).map (datas s.nodes) ∧ l.find? test ≠ l.head? := by
  have hfind : l.find? test =
      (ps.find? fun p => test (datas s.nodes p)).map (datas s.nodes) := by
    rw [← h.items, List.find?_map]
    rfl
  have hhead := h.nodes.head_eq
  cases hps : ps.find? fun p => test (datas s.nodes p) with
  | none =>
    rw [hps] at hfind
    exact .inl ⟨rfl, hfind⟩
  | some p =>
    rw [hps, Option.map_some] at hfind
    obtain ⟨htest, ps₁, ps₂, hsplit, hbefore⟩ := List.find?_eq_some_iff_append.mp hps
    refine .inr ?_
    cases ps₁ with
    | nil =>
      refine .inl ⟨p, rfl, by rw [hhead, hsplit]; rfl, ?_, by rw [hfind]; simp⟩
      rw [hfind, ← h.items, hsplit]
      rfl
    | cons q ps₁ =>
      have hq : test (datas s.nodes q) = false := by simpa using hbefore q List.mem_cons_self
      have hne : p ≠ q := by
        rintro rfl
        rw [hq] at htest
        exact Bool.false_ne_true htest
      refine .inr ⟨p, q :: ps₁, ps₂, rfl, ?_, hsplit, hfind, ?_, ?_⟩
      · rw [hhead, hsplit, List.cons_append, List.head?_cons, ne_eq, Option.some.injEq]
        exact Ne.symm hne
      · have hnone : ∀ b ∈ (q :: ps₁).map (datas s.nodes), ¬test b = true := by
          intro b hb
          obtain ⟨r, hr, rfl⟩ := List.mem_map.mp hb
          simpa using hbefore r hr
        have hitems : l = (q :: ps₁).map (datas s.nodes) ++
            datas s.nodes p :: ps₂.map (datas s.nodes) := by
          rw [← h.items, hsplit, List.map_append]
          rfl
        rw [hitems, List.eraseP_append_right _ hnone, List.eraseP_cons_of_pos htest, ← List.map_append]
      · rw [hfind, ← h.items, hsplit, List.cons_append, List.map_cons, List.head?_cons, ne_eq,
          Option.some.injEq]
        intro heq
        rw [heq, hq] at htest
        exact Bool.false_ne_true htest

theorem found_of_find?_eq_none (h : l.find? test = none) : found test l = 0 := by
  rw [found, if_neg]
  rw [List.any_eq_true]
  rintro ⟨a, ha, htest⟩
  exact List.find?_eq_none.mp h a ha htest

theorem found_of_find?_eq_some {a : ℕ} (h : l.find? test = some a) : found test l = 1 := by
  rw [found, if_pos]
  exact List.any_eq_true.mpr ⟨a, List.mem_of_find?_eq_some h, List.find?_some h⟩

/-- A search that finds nothing, or the item at the head. -/
theorem Holds.searchWith (h : Holds s ps l)
    (hfine : l.find? test = none ∨ l.find? test = l.head?) :
    Returns (fun fuel => searchWith test fuel s) (found test l, s) := by
  refine ⟨ps.length, fun fuel hfuel => ?_⟩
  dsimp only
  rw [Dlist.searchWith, h.nodes.findNode hfuel]
  rcases h.find_cases test with ⟨hps, hl⟩ | ⟨p, hps, hhead, hl, hsome⟩ | ⟨p, -, -, -, -, -, hl, -, hne⟩
  · rw [hps, found_of_find?_eq_none hl]
  · obtain ⟨a, ha⟩ := Option.ne_none_iff_exists'.mp hsome
    simp only [hps, if_pos hhead, found_of_find?_eq_some ha]
  · rcases hfine with hnone | hhead
    · rw [hl] at hnone
      exact absurd hnone (by simp)
    · exact absurd hhead hne

/-- The node that a search finds behind the head is not in the list any more. -/
theorem Holds.searchWith_loses (h : Holds s ps l)
    (hbad : ¬(l.find? test = none ∨ l.find? test = l.head?)) :
    ∃ s', Returns (fun fuel => Dlist.searchWith test fuel s) (1, s') ∧ ¬IsList s' l := by
  rw [not_or] at hbad
  rcases h.find_cases test with ⟨-, hl⟩ | ⟨-, -, -, hl, -⟩ | ⟨p, ps₁, ps₂, hps, hne, hsplit, -, -, -⟩
  · exact absurd hl hbad.1
  · exact absurd hl hbad.2
  · have hnodes := h.nodes
    rw [hsplit] at hnodes
    obtain ⟨hunlink, -, -⟩ := hnodes.unlink
    refine ⟨{ s with
      nodes := (unlink s.nodes s.list p).1
      list := (unlink s.nodes s.list p).2 }, ⟨ps.length, fun fuel hfuel => ?_⟩, ?_⟩
    · dsimp only
      rw [Dlist.searchWith, h.nodes.findNode hfuel, hps]
      simp only [if_neg hne]
    · rintro ⟨ps', h'⟩
      obtain rfl := hunlink.unique h'.nodes
      have hlength := h'.length_eq
      rw [← h.length_eq, hsplit, List.length_append, List.length_append, List.length_cons] at hlength
      omega

/-- A move puts what it finds to the front. -/
theorem Holds.moveWith (h : Holds s ps l) (test : ℕ → Bool) :
    ∃ s', Returns (fun fuel => moveWith test fuel s) (found test l, s') ∧ IsList s' (moved test l) := by
  rcases h.find_cases test with ⟨hps, hl⟩ | ⟨p, hps, hhead, hl, hsome⟩ |
    ⟨p, ps₁, ps₂, hps, hne, hsplit, hl, herase, -⟩
  · refine ⟨s, ⟨ps.length, fun fuel hfuel => ?_⟩, ps, ?_⟩
    · dsimp only
      rw [Dlist.moveWith, h.nodes.findNode hfuel, hps, found_of_find?_eq_none hl]
    · rw [moved, hl]
      exact h
  · obtain ⟨a, ha⟩ := Option.ne_none_iff_exists'.mp hsome
    refine ⟨s, ⟨ps.length, fun fuel hfuel => ?_⟩, ps, ?_⟩
    · dsimp only
      rw [Dlist.moveWith, h.nodes.findNode hfuel, hps, found_of_find?_eq_some ha]
      simp only [if_pos hhead]
    · obtain ⟨l', rfl⟩ : ∃ l', l = a :: l' := by
        cases l with
        | nil => exact absurd (hl.symm.trans ha) (by simp)
        | cons b l' =>
          obtain rfl := Option.some.inj (hl.symm.trans ha)
          exact ⟨l', rfl⟩
      rw [moved, ha, List.eraseP_cons_of_pos (List.find?_some ha)]
      exact h
  · have hnodes := h.nodes
    rw [hsplit] at hnodes
    obtain ⟨nodes', list', hmove, hnodes', hdatas, hsize⟩ := hnodes.moveFront
    refine ⟨⟨nodes', list', s.live⟩, ⟨ps.length, fun fuel hfuel => ?_⟩, p :: (ps₁ ++ ps₂), hnodes', ?_,
      ?_, ?_, fun q hq => ?_⟩
    · dsimp only
      rw [Dlist.moveWith, h.nodes.findNode hfuel, hps, found_of_find?_eq_some hl]
      simp only [if_neg hne, hmove]
    · rw [hdatas, moved, hl, herase]
      rfl
    · have hlength := h.length_eq
      rw [hsplit, List.length_append, List.length_cons] at hlength
      rw [moved, hl, herase, List.length_cons, List.length_map, List.length_append, dlistSize, hsize]
      have hcount := h.size
      rw [dlistSize] at hcount
      omega
    · rw [dlistSize, hsize]
      exact h.small
    · refine h.live q ?_
      rw [hsplit]
      exact List.perm_middle.mem_iff.mpr hq

/-- `dlist_delete_tail` -/
theorem Holds.deleteTail (h : Holds s ps l) :
    ∃ s', deleteTail s = some (l.getLast?, s') ∧ IsList s' l.dropLast := by
  have hhead := h.nodes.head_eq
  have htail := h.nodes.tail_eq
  have hsize : s.list.size = l.length := h.size
  have hsmall : s.list.size < 2 ^ 31 := h.small
  rcases List.eq_nil_or_concat ps with rfl | ⟨ps, t, rfl⟩
  · obtain rfl : l = [] := by rw [← h.items]; rfl
    refine ⟨s, ?_, [], h⟩
    rw [Dlist.deleteTail, hhead]
    rfl
  · rw [List.concat_eq_append] at hhead htail h
    rw [List.getLast?_concat] at htail
    obtain ⟨b, hb⟩ : ∃ b, s.list.head = some b := by
      have hsome : ((ps ++ [t]).head?).isSome := by simp
      exact ⟨_, hhead.trans (Option.some_get hsome).symm⟩
    have hitems : l = ps.map (datas s.nodes) ++ [datas s.nodes t] := by
      rw [← h.items, List.map_append]
      rfl
    have hremove := h.nodes.remove
    have hprev : prevs s.nodes t = ps.getLast? := h.nodes.prev_eq
    have hnext : nexts s.nodes t = none := h.nodes.next_eq
    have hcount : int32 (s.list.size - 1) = l.dropLast.length := by
      have hpos : 0 < l.length := by
        rw [hitems, List.length_append, List.length_singleton]
        omega
      have hcast : s.list.size - 1 = (l.length - 1 : ℕ) := by omega
      rw [hcast, (int32_eq_iff _).mpr (by omega), List.length_dropLast]
    have hlive : ∀ q ∈ ps, q ∈ s.live.erase t := by
      intro q hq
      have hne : q ≠ t := by
        rintro rfl
        exact (List.nodup_middle.mp h.nodes.nodup).notMem (by simpa using hq)
      exact (List.mem_erase_of_ne hne).mpr (h.live q (List.mem_append_left _ hq))
    rw [hnext, List.append_nil] at hremove
    rw [Dlist.deleteTail]
    simp only [hb, htail, Option.map_some]
    have hlast : l.getLast? = some (datas s.nodes t) := by rw [hitems, List.getLast?_concat]
    have hdrop : l.dropLast = ps.map (datas s.nodes) := by rw [hitems, List.dropLast_concat]
    have hprevs : (s.nodes t).prev = prevs s.nodes t := rfl
    rw [hlast, hprevs]
    cases hp : prevs s.nodes t with
    | none =>
      rw [hp] at hremove hprev
      obtain rfl : ps = [] := List.getLast?_eq_none_iff.mp hprev.symm
      refine ⟨_, rfl, [], dll_nil, hdrop.symm, hcount, ?_, hlive⟩
      change int32 (s.list.size - 1) < 2 ^ 31
      rw [hcount, List.length_dropLast]
      omega
    | some q =>
      rw [hp] at hremove
      refine ⟨_, rfl, ps, ?_, ?_, hcount, ?_, hlive⟩
      · rw [Nodes]
        simp only [nexts_setNext, prevs_setNext]
        rw [← hb]
        exact hremove
      · rw [datas_setNext, hdrop]
      · change int32 (s.list.size - 1) < 2 ^ 31
        rw [hcount, List.length_dropLast]
        omega

-- ════════════════════════════════════════════════════════════════════════
-- Calls and runs
-- ════════════════════════════════════════════════════════════════════════

/-- A list with one more node is right if its count still is. -/
theorem isList_iff_of_insert {s' : State} {ps' l' : List ℕ} (hnodes : Nodes s'.nodes s'.list ps')
    (hitems : ps'.map (datas s'.nodes) = l') (hsize : dlistSize s' = int32 l'.length)
    (hlive : ∀ q ∈ ps', q ∈ s'.live) : IsList s' l' ↔ l'.length < 2 ^ 31 := by
  constructor
  · rintro ⟨ps'', h⟩
    exact (int32_eq_iff _).mp (hsize.symm.trans h.size)
  · intro hsmall
    rw [(int32_eq_iff _).mpr hsmall] at hsize
    exact ⟨ps', hnodes, hitems, hsize, by rw [hsize]; exact_mod_cast hsmall, hlive⟩

theorem Holds.preappend_iff (h : Holds s ps l) (hp : p ∉ s.live) (item : ℕ) :
    IsList (Dlist.preappend s p item) (item :: l) ↔ l.length + 1 < 2 ^ 31 := by
  obtain ⟨hnodes, hitems, hlive, hsize⟩ := h.preappend hp item
  refine isList_iff_of_insert hnodes hitems hsize fun q hq => ?_
  rw [hlive]
  exact (List.mem_cons.mp hq).elim (fun heq => heq ▸ List.mem_cons_self)
    fun hin => List.mem_cons_of_mem _ (h.live q hin)

theorem Holds.append_iff (h : Holds s ps l) (hp : p ∉ s.live) (item : ℕ) :
    ∃ s', Dlist.append s p item = some s' ∧ (IsList s' (l ++ [item]) ↔ l.length + 1 < 2 ^ 31) := by
  obtain ⟨s', hrun, hnodes, hitems, hlive, hsize⟩ := h.append hp item
  have hlength : (l ++ [item]).length = l.length + 1 := by
    rw [List.length_append, List.length_singleton]
  rw [← hlength] at hsize ⊢
  refine ⟨s', hrun, isList_iff_of_insert hnodes hitems hsize fun q hq => ?_⟩
  rw [hlive]
  rw [List.mem_append, List.mem_singleton] at hq
  exact hq.elim (fun hin => List.mem_cons_of_mem _ (h.live q hin)) fun heq => heq ▸ List.mem_cons_self

theorem returns_map {α β : Type*} {f : ℕ → Option α} {x : α} (h : Returns f x) (g : α → β) :
    Returns (fun fuel => (f fuel).map g) (g x) := by
  obtain ⟨N, h⟩ := h
  refine ⟨N, fun fuel hfuel => ?_⟩
  dsimp only
  rw [h fuel hfuel, Option.map_some]

/-- A call keeps the list if it is fine, and only then. -/
theorem IsList.call (h : IsList s l) {c : Call} (hallowed : c.Allowed s) :
    ∃ a s', Returns (fun fuel => Dlist.call fuel s c) (a, s') ∧
      (a = c.answer l ∧ IsList s' (c.after l) ↔ c.Fine l) := by
  obtain ⟨ps, h⟩ := h
  cases c with
  | preappend p item =>
    exact ⟨.done, _, ⟨0, fun _ _ => rfl⟩, (and_iff_right rfl).trans (h.preappend_iff hallowed item)⟩
  | insert p item =>
    exact ⟨.done, _, ⟨0, fun _ _ => rfl⟩, (and_iff_right rfl).trans (h.preappend_iff hallowed item)⟩
  | append p item =>
    obtain ⟨s', hrun, hiff⟩ := h.append_iff hallowed item
    refine ⟨.done, s', ⟨0, fun _ _ => ?_⟩, (and_iff_right rfl).trans hiff⟩
    change (Dlist.append s p item).map _ = _
    rw [hrun]
    rfl
  | search bytes item =>
    by_cases hfine : (Call.search bytes item).Fine l
    · exact ⟨_, s, returns_map (h.searchWith hfine) _, iff_of_true ⟨rfl, ps, h⟩ hfine⟩
    · obtain ⟨s', hrun, hlost⟩ := h.searchWith_loses hfine
      exact ⟨_, s', returns_map hrun _, iff_of_false (fun hlist => hlost hlist.2) hfine⟩
  | moveValue bytes item size =>
    obtain ⟨s', hrun, hlist⟩ := h.moveWith fun data => memcmp bytes data item size
    exact ⟨_, s', returns_map hrun _, iff_of_true ⟨rfl, hlist⟩ trivial⟩
  | movePtr item =>
    obtain ⟨s', hrun, hlist⟩ := h.moveWith fun data => data = item
    exact ⟨_, s', returns_map hrun _, iff_of_true ⟨rfl, hlist⟩ trivial⟩
  | deleteTail =>
    obtain ⟨s', hrun, hlist⟩ := h.deleteTail
    refine ⟨_, s', ⟨0, fun _ _ => ?_⟩, iff_of_true ⟨rfl, hlist⟩ trivial⟩
    change (Dlist.deleteTail s).map _ = _
    rw [hrun]
    rfl

/-- Calls on a list that is right work exactly if all of them are fine. -/
theorem IsList.works {calls : List Call} (h : IsList s l) (hallowed : Allowed s calls) :
    Works s l calls ↔ Fine l calls := by
  induction calls generalizing s l with
  | nil => exact iff_of_true h trivial
  | cons c calls ih =>
    obtain ⟨a, s', hrun, hiff⟩ := h.call hallowed.1
    constructor
    · rintro ⟨-, s'', hrun', hworks⟩
      obtain ⟨rfl, rfl⟩ := Prod.mk.inj (hrun.unique hrun')
      have hlist : IsList s' (c.after l) := by
        cases calls with
        | nil => exact hworks
        | cons c' calls => exact hworks.1
      exact ⟨hiff.mp ⟨rfl, hlist⟩, (ih hlist (hallowed.2 _ _ hrun)).mp hworks⟩
    · rintro ⟨hfine, hrest⟩
      obtain ⟨rfl, hlist⟩ := hiff.mpr hfine
      exact ⟨h, s', hrun, (ih hlist (hallowed.2 _ _ hrun)).mpr hrest⟩

/-- From `dlist_init` on, calls work exactly if no search finds an item behind the head and there
are never 2^31 items. -/
theorem dlist_works_iff (nodes : ℕ → Node) (calls : List Call) (hallowed : Allowed (init nodes) calls) :
    Works (init nodes) [] calls ↔ Fine [] calls := (isList_init nodes).works hallowed

def blankNodes : ℕ → Node := fun _ => ⟨0, none, none⟩

/-- Each byte of the memory is its own address. -/
def addressBytes (a : ℕ) : UInt8 := UInt8.ofNat a

/-- Two inserts at different addresses, and then calls that allocate nothing. -/
theorem allowed_inserts {calls : List Call} {item₀ item₁ : ℕ} (h : ∀ s, Allowed s calls) :
    Allowed (init blankNodes) (.insert 0 item₀ :: .insert 1 item₁ :: calls) := by
  refine ⟨List.not_mem_nil, fun a s' hrun => ⟨?_, fun _ _ _ => h _⟩⟩
  have hfirst : Returns (fun fuel => call fuel (init blankNodes) (.insert 0 item₀))
      (.done, preappend (init blankNodes) 0 item₀) := ⟨0, fun _ _ => rfl⟩
  obtain ⟨rfl, rfl⟩ := Prod.mk.inj (hrun.unique hfirst)
  change 1 ∉ [0]
  decide

theorem works_insert_move : Works (init blankNodes) []
    [.insert 0 0, .insert 1 4, .movePtr 0, .search addressBytes 0, .deleteTail] := by
  refine (dlist_works_iff blankNodes _ (allowed_inserts fun s => ?_)).mpr ?_
  · exact ⟨trivial, fun _ _ _ => ⟨trivial, fun _ _ _ => ⟨trivial, fun _ _ _ => trivial⟩⟩⟩
  · exact ⟨show 1 < 2 ^ 31 by decide, show 2 < 2 ^ 31 by decide, trivial,
      .inr (by decide +kernel), trivial, trivial⟩

/-- A search for the item behind the head takes it out of the list. -/
theorem search_loses_item : ¬∀ (nodes : ℕ → Node) (calls : List Call),
    Allowed (init nodes) calls → Works (init nodes) [] calls := by
  intro h
  have hallowed : Allowed (init blankNodes) [.insert 0 0, .insert 1 4, .search addressBytes 0] :=
    allowed_inserts fun _ => ⟨trivial, fun _ _ _ => trivial⟩
  obtain ⟨-, -, hsearch, -⟩ :=
    ((isList_init blankNodes).works hallowed).mp (h blankNodes _ hallowed)
  have hfind : [4, 0].find? (fun data => memcmp addressBytes data 0 4) = some 0 := by decide +kernel
  rcases hsearch with hnone | hhead
  · exact absurd (hfind.symm.trans hnone) (by decide)
  · exact absurd (hfind.symm.trans hhead) (by decide)

end TCBackup.Client.Dlist
