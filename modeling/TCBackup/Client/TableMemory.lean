import TCBackup.Client.HTable
import TCBackup.Lib.Linked

/-!
# The client's hash table in memory (`client/lib/htable.c`)

The chains of the table run through links inside of the items, and its counters have 32 bits.
An item is known by the address of its link. Where a function leaves the array of the chains,
or does not return, it has no value.

## Main definitions

- `Link`, `Table` — a link, and the fields of `htable`
- `insertWith`, `growLoop` — `insert` and `grow_table`, which call each other
- `find`, `remove` — the walks along a chain
- `first`, `next` — the walk through the table
- `Returns` — what a call returns, whatever the number of its steps
-/

namespace TCBackup.Client.TableMemory

open ByteFile

/-- `hlink` -/
structure Link (n : ℕ) where
  next : Option ℕ
  key : List.Vector UInt8 n

/-- `htable`, without what is the same for all tables. `hash` and `index` are computed anew in
every call. -/
structure Table where
  table : ℕ → Option ℕ
  num_items : ℕ
  max_items : ℕ
  buckets : ℕ
  mask : ℕ
  walkptr : Option ℕ
  walk_index : ℕ

/-- `htable::init` -/
def init (tsize : ℕ) : Table :=
  let pwr := Nat.size (tsize / 4)
  { table := fun _ => none
    num_items := 0
    max_items := word (2 ^ pwr * 4)
    buckets := 2 ^ pwr
    mask := 2 ^ pwr - 1
    walkptr := none
    walk_index := 0 }

variable {n : ℕ}

/-- `hash_index` -/
def index (t : Table) (key : List.Vector UInt8 n) : ℕ :=
  hashLoop t.buckets 0 key.toList.tail.reverse &&& t.mask

/-- `while (!walkptr && walk_index < buckets) walkptr = table[walk_index++]`, with so many
buckets to go. -/
def scan (table : ℕ → Option ℕ) : ℕ → Option ℕ → ℕ → Option ℕ × ℕ
  | 0, walkptr, walk_index => (walkptr, walk_index)
  | _ + 1, some walkptr, walk_index => (some walkptr, walk_index)
  | k + 1, none, walk_index => scan table k (table walk_index) (walk_index + 1)

/-- The loop, in `first` and in `next`. -/
def Table.seek (t : Table) (walkptr : Option ℕ) (walk_index : ℕ) : Table :=
  let (walkptr, walk_index) := scan t.table (t.buckets - walk_index) walkptr walk_index
  { t with walkptr := walkptr, walk_index := walk_index }

/-- `first`; the item that it returns is the one at `walkptr`. -/
def first (t : Table) : Table := t.seek (t.table 0) 1

/-- `next` -/
def next (m : ℕ → Link n) (t : Table) : Table :=
  t.seek (t.walkptr.bind fun p => (m p).next) t.walk_index

/-- The items from `walkptr` on, one call of `next` after the other, until one returns `NULL`. -/
def walkFrom : ℕ → (ℕ → Link n) → Table → Option (List ℕ × Table)
  | fuel, m, t =>
    match t.walkptr with
    | none => some ([], t)
    | some item =>
      match fuel with
      | 0 => none
      | fuel + 1 => (walkFrom fuel m (next m t)).map fun (items, t) => (item :: items, t)

/-- The new table of `grow_table`. -/
def bigger (t : Table) : Table :=
  { table := fun _ => none
    num_items := 0
    max_items := word (word (t.buckets * 2) * 4)
    buckets := word (t.buckets * 2)
    mask := word (t.mask * 2) ||| 1
    walkptr := none
    walk_index := 0 }

/-- The item comes to the front of its chain. -/
def link (m : ℕ → Link n) (t : Table) (key : List.Vector UInt8 n) (item : ℕ) :
    (ℕ → Link n) × Table :=
  (Function.update m item ⟨t.table (index t key), key⟩,
    { t with
      table := Function.update t.table (index t key) (some item)
      num_items := word (t.num_items + 1) })

/-- `insert`, where `grow` is `grow_table`. -/
def insertWith (grow : (ℕ → Link n) → Table → Option ((ℕ → Link n) × Table))
    (m : ℕ → Link n) (t : Table) (key : List.Vector UInt8 n) (item : ℕ) :
    Option ((ℕ → Link n) × Table) :=
  if index t key < t.buckets then
    let (m, t) := link m t key item
    if t.max_items ≤ t.num_items then grow m t else some (m, t)
  else none

/-- The loop of `grow_table` from `item` on. `insert` overwrites the link of the item, which is
therefore read before. -/
def growLoop : ℕ → (ℕ → Link n) → Table → Table → Option ℕ → Option ((ℕ → Link n) × Table)
  | _, m, _, big, none => some (m, big)
  | 0, _, _, _, some _ => none
  | fuel + 1, m, t, big, some item =>
    let ni := (m item).next
    let grow := fun m t => growLoop fuel m (first t) (bigger t) (first t).walkptr
    match insertWith grow m big (m item).key item with
    | none => none
    | some (m, big) =>
      match ni with
      | some ni => growLoop fuel m t big (some ni)
      | none =>
        let t := next m { t with walkptr := none }
        growLoop fuel m t big t.walkptr

/-- `grow_table` -/
def growTable (fuel : ℕ) (m : ℕ → Link n) (t : Table) : Option ((ℕ → Link n) × Table) :=
  growLoop fuel m (first t) (bigger t) (first t).walkptr

/-- `insert` -/
def insert (fuel : ℕ) (m : ℕ → Link n) (t : Table) (key : List.Vector UInt8 n) (item : ℕ) :
    Option ((ℕ → Link n) × Table) := insertWith (growTable fuel) m t key item

/-- The walk along a chain in `lookup`, `search` and `remove`: the pointer `pre` behind `hp`,
and the first link with the key. -/
def findLink : ℕ → (ℕ → Link n) → List.Vector UInt8 n → Option ℕ → Option ℕ →
    Option (Option ℕ × Option ℕ)
  | _, _, _, pre, none => some (pre, none)
  | 0, _, _, _, some _ => none
  | fuel + 1, m, key, pre, some hp =>
    if key = (m hp).key then some (pre, some hp)
    else findLink fuel m key (some hp) (m hp).next

/-- `lookup`; `search` returns the link instead of the item. -/
def lookup (fuel : ℕ) (m : ℕ → Link n) (t : Table) (key : List.Vector UInt8 n) :
    Option (Option ℕ) :=
  if index t key < t.buckets then
    (findLink fuel m key none (t.table (index t key))).map Prod.snd
  else none

/-- `search` -/
def search (fuel : ℕ) (m : ℕ → Link n) (t : Table) (key : List.Vector UInt8 n) :
    Option (Option ℕ) := lookup fuel m t key

/-- `remove`: the item, and what is left. -/
def remove (fuel : ℕ) (m : ℕ → Link n) (t : Table) (key : List.Vector UInt8 n) :
    Option (Option ℕ × (ℕ → Link n) × Table) :=
  if index t key < t.buckets then
    match findLink fuel m key (t.table (index t key)) (t.table (index t key)) with
    | some (some pre, some hp) =>
      let num_items := word (t.num_items + 2 ^ 32 - 1)
      if pre = hp then
        let table := Function.update t.table (index t key) (m hp).next
        some (some hp, m, { t with table := table, num_items := num_items })
      else
        let m := Function.update m pre { m pre with next := (m hp).next }
        some (some hp, m, { t with num_items := num_items })
    | some _ => some (none, m, t)
    | none => none
  else none

/-- A call returns `x`, given enough steps. -/
def Returns {α : Type*} (f : ℕ → Option α) (x : α) : Prop := ∃ N, ∀ fuel, N ≤ fuel → f fuel = some x

theorem Returns.unique {α : Type*} {f : ℕ → Option α} {x y : α} (hx : Returns f x)
    (hy : Returns f y) : x = y := by
  obtain ⟨N, hx⟩ := hx
  obtain ⟨N', hy⟩ := hy
  exact Option.some.inj ((hx _ (le_max_left N N')).symm.trans (hy _ (le_max_right N N')))

end TCBackup.Client.TableMemory
