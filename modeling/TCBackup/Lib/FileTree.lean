import TCBackup.Lib.ByteFile

/-!
# Trees of directories and regular files

Paths, and the calls that look names up and create them, where every call is permitted.
The names `.` and `..` stand for a directory itself and for the one above it.

## Main definitions

- `Tree` — what stands at every place, with directories above everything
- `place`, `Tree.locate` — where the components of a path lead
- `Tree.access`, `Tree.mkdir`, `Tree.openCreate` — the calls

## Main results

- `Tree.locate_eq_some_iff` — a path leads somewhere through directories only
- `Tree.kind_mkdir`, `Tree.kind_openCreate` — what the calls change
-/

namespace FileTree

open ByteFile

inductive Kind
  | dir
  | file
  deriving DecidableEq, Repr

/-- The names from the root on. -/
abbrev Place := List Bytes

/-- Above everything there are directories. -/
structure Tree where
  kind : Place → Option Kind
  root : kind [] = some .dir
  above : ∀ p c, kind (p ++ [c]) ≠ none → kind p = some .dir

/-- The names between the slashes. -/
def components (path : Bytes) : List Bytes := (path.splitOn 47).filter (· ≠ [])

/-- From a directory to a name in it. -/
def enter (p : Place) (c : Bytes) : Place :=
  if c = [46] then p else if c = [46, 46] then p.dropLast else p ++ [c]

/-- Where the components lead, if there are directories on the way. -/
def place (cs : List Bytes) : Place := cs.foldl enter []

namespace Tree

/-- Nothing but the root. -/
def bare : Tree where
  kind p := if p = [] then some .dir else none
  root := rfl
  above := by simp

/-- Where the components lead; every one but the last has to be a directory. -/
def locate (t : Tree) (cs : List Bytes) : Option Place :=
  cs.foldl (fun q c => q.bind fun p => if t.kind p = some .dir then some (enter p c) else none)
    (some [])

/-- A new entry of a directory. -/
def add (t : Tree) (p : Place) (k : Kind)
    (h : t.kind p = none ∧ t.kind p.dropLast = some .dir) : Tree where
  kind := Function.update t.kind p (some k)
  root := by
    rw [Function.update_of_ne, t.root]
    rintro rfl
    exact absurd (t.root.symm.trans h.1) (by simp)
  above := by
    intro q c hq
    have hdir : t.kind q = some .dir := by
      by_cases hp : q ++ [c] = p
      · rw [← hp, List.dropLast_concat] at h
        exact h.2
      · rw [Function.update_of_ne hp] at hq
        exact t.above q c hq
    rw [Function.update_of_ne, hdir]
    rintro rfl
    exact absurd (hdir.symm.trans h.1) (by simp)

/-- `access(path, F_OK) == 0` -/
def access (t : Tree) (path : Bytes) : Bool :=
  ((t.locate (components path)).bind t.kind).isSome

/-- A new entry where the path leads and nothing is. -/
def create (t : Tree) (path : Bytes) (k : Kind) : Tree :=
  match t.locate (components path) with
  | none => t
  | some p => if h : t.kind p = none ∧ t.kind p.dropLast = some .dir then t.add p k h else t

/-- `mkdir`, which fails where something is. -/
def mkdir (t : Tree) (path : Bytes) : Tree := t.create path .dir

/-- `open` with `O_CREAT|O_RDWR`: whether it succeeds, and the tree. A directory cannot be
opened for writing. -/
def openCreate (t : Tree) (path : Bytes) : Bool × Tree :=
  match (t.locate (components path)).map t.kind with
  | none | some (some .dir) => (false, t)
  | some (some .file) => (true, t)
  | some none => (true, t.create path .file)

variable {t : Tree} {cs : List Bytes} {p q : Place} {path : Bytes} {k : Kind}

@[simp] theorem place_nil : place [] = [] := rfl

theorem place_concat (cs : List Bytes) (c : Bytes) : place (cs ++ [c]) = enter (place cs) c := by
  rw [place, List.foldl_concat]
  rfl

@[simp] theorem locate_nil (t : Tree) : t.locate [] = some [] := rfl

theorem locate_concat (t : Tree) (cs : List Bytes) (c : Bytes) :
    t.locate (cs ++ [c]) =
      (t.locate cs).bind fun p => if t.kind p = some .dir then some (enter p c) else none := by
  rw [locate, List.foldl_concat]
  rfl

/-- Every proper prefix of the components names a directory. -/
def DirsAbove (t : Tree) (cs : List Bytes) : Prop :=
  ∀ ds, ds <+: cs → ds ≠ cs → t.kind (place ds) = some .dir

theorem dirsAbove_nil (t : Tree) : t.DirsAbove [] :=
  fun _ hds hne => absurd (List.prefix_nil.mp hds) hne

theorem dirsAbove_concat {c : Bytes} :
    t.DirsAbove (cs ++ [c]) ↔ t.DirsAbove cs ∧ t.kind (place cs) = some .dir := by
  constructor
  · intro h
    refine ⟨fun ds hds hne => h ds (hds.trans (List.prefix_append _ _)) ?_,
      h cs (List.prefix_append _ _) (by simp)⟩
    rintro rfl
    have hlen := hds.length_le
    simp at hlen
  · rintro ⟨habove, hdir⟩ ds hds hne
    rcases List.prefix_concat_iff.mp hds with rfl | hds
    · exact absurd rfl hne
    · by_cases hcs : ds = cs
      · rw [hcs, hdir]
      · exact habove ds hds hcs

/-- A path leads somewhere through directories only. -/
theorem locate_eq_some_iff : t.locate cs = some p ↔ t.DirsAbove cs ∧ place cs = p := by
  induction cs using List.reverseRecOn generalizing p with
  | nil => simp [dirsAbove_nil]
  | append_singleton cs c ih =>
    rw [locate_concat, Option.bind_eq_some_iff, dirsAbove_concat, place_concat]
    constructor
    · rintro ⟨q, hq, hp⟩
      obtain ⟨habove, rfl⟩ := ih.mp hq
      split at hp
      · next hdir => exact ⟨⟨habove, hdir⟩, Option.some.inj hp⟩
      · simp at hp
    · rintro ⟨⟨habove, hdir⟩, rfl⟩
      exact ⟨place cs, ih.mpr ⟨habove, rfl⟩, by rw [if_pos hdir]⟩

theorem locate_of_dirsAbove (h : t.DirsAbove cs) : t.locate cs = some (place cs) :=
  locate_eq_some_iff.mpr ⟨h, rfl⟩

theorem locate_of_not_dirsAbove (h : ¬t.DirsAbove cs) : t.locate cs = none := by
  cases hp : t.locate cs with
  | none => rfl
  | some p => exact absurd (locate_eq_some_iff.mp hp).1 h

theorem parent_of_dir (h : t.kind p = some .dir) : t.kind p.dropLast = some .dir := by
  induction p using List.reverseRecOn with
  | nil => exact h
  | append_singleton q c ih =>
    rw [List.dropLast_concat]
    exact t.above q c (by simp [h])

/-- What a path leads to lies in a directory. -/
theorem parent_of_dirsAbove (h : t.DirsAbove cs) : t.kind (place cs).dropLast = some .dir := by
  induction cs using List.reverseRecOn with
  | nil => exact t.root
  | append_singleton cs c ih =>
    obtain ⟨-, hdir⟩ := dirsAbove_concat.mp h
    rw [place_concat, enter]
    split
    · exact parent_of_dir hdir
    · split
      · exact parent_of_dir (parent_of_dir hdir)
      · rw [List.dropLast_concat, hdir]

theorem access_eq_true_iff : t.access path = true ↔
    t.DirsAbove (components path) ∧ t.kind (place (components path)) ≠ none := by
  by_cases h : t.DirsAbove (components path)
  · rw [access, locate_of_dirsAbove h, Option.bind_some, Option.isSome_iff_ne_none]
    simp [h]
  · simp [access, locate_of_not_dirsAbove h, h]

theorem kind_create (p : Place) : (t.create path k).kind p =
    if t.locate (components path) = some p ∧ t.kind p = none then some k else t.kind p := by
  rw [create]
  cases hl : t.locate (components path) with
  | none => simp
  | some q =>
    obtain ⟨habove, hq⟩ := locate_eq_some_iff.mp hl
    have hparent : t.kind q.dropLast = some .dir := hq ▸ parent_of_dirsAbove habove
    simp only [hparent, and_true, Option.some.injEq]
    by_cases hnone : t.kind q = none
    · rw [dif_pos hnone]
      by_cases hqp : q = p
      · subst hqp
        rw [if_pos ⟨rfl, hnone⟩]
        exact Function.update_self _ _ _
      · rw [if_neg fun h => hqp h.1]
        exact Function.update_of_ne (Ne.symm hqp) _ _
    · rw [dif_neg hnone, if_neg]
      rintro ⟨rfl, hp⟩
      exact hnone hp

theorem kind_mkdir (p : Place) : (t.mkdir path).kind p =
    if t.locate (components path) = some p ∧ t.kind p = none then some .dir else t.kind p :=
  kind_create p

theorem kind_openCreate (p : Place) : (t.openCreate path).2.kind p =
    if t.locate (components path) = some p ∧ t.kind p = none then some .file else t.kind p := by
  rw [openCreate]
  cases hl : t.locate (components path) with
  | none => simp
  | some q =>
    rw [Option.map_some]
    cases hk : t.kind q with
    | none => exact (kind_create p).trans (by rw [hl])
    | some k =>
      have hne : ¬(some q = some p ∧ t.kind p = none) := by
        rintro ⟨hqp, hp⟩
        obtain rfl := Option.some.inj hqp
        exact absurd (hk.symm.trans hp) (by simp)
      rw [if_neg hne]
      cases k <;> rfl

/-- Nothing that is there changes. -/
theorem kind_openCreate_of_some (h : t.kind p = some k) :
    (t.openCreate path).2.kind p = some k := by
  rw [kind_openCreate, if_neg (by simp [h]), h]

end Tree

end FileTree
