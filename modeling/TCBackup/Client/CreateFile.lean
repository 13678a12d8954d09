import TCBackup.Lib.FileTree

/-!
# The directories above a restored file (`client/src/restore.c`)

`create_file` rebuilds the path from the names that `strtok` finds, and makes a directory of
every prefix. The last name is recognised by the length of the path so far.

## Main definitions

- `createLoop`, `createFile` — the function
- `Built` — the directories above the file, the file, and nothing else

## Main results

- `Made.loop` — what the loop makes of a path
- `built_iff` — the paths and trees for which the file is built
-/

namespace TCBackup.Client

open ByteFile FileTree

/-- An absolute path that does not end in a slash and fits the buffers. -/
structure AbsolutePath where
  bytes : Bytes
  absolute : bytes.head? = some 47
  file : bytes.getLast? ≠ some 47
  cstring : 0 ∉ bytes
  short : bytes.length < 256

/-- The loop of `create_file` over the names that `strtok` gives. `ss` holds `i` bytes. -/
def createLoop (len : ℕ) : Tree → Bytes → List Bytes → Tree
  | t, _, [] => t
  | t, ss, p :: ps =>
    let ss := ss ++ [47]
    if ss.length + p.length = len then t
    else
      let ss := ss ++ p
      createLoop len (if t.access ss then t else t.mkdir ss) ss ps

/-- `create_file`: what it returns, and the file system after it. -/
def createFile (t : Tree) (path : Bytes) : Bool × Tree :=
  (createLoop path.length t [] (components path)).openCreate path

/-- The missing ones of the proper ancestors become directories, the last component becomes
a regular file, and nothing else changes. -/
structure Built (t : Tree) (path : Bytes) : Prop where
  ancestors : (createFile t path).2.DirsAbove (components path)
  only : ∀ p, (createFile t path).2.kind p = t.kind p ∨
    t.kind p = none ∧ (p = place (components path) ∨
      (createFile t path).2.kind p = some .dir ∧
        ∃ ds, ds <+: components path ∧ ds ≠ components path ∧ place ds = p)
  regular : (createFile t path).2.kind (place (components path)) = some .file

/-- A slash in front of every name. -/
def joined (cs : List Bytes) : Bytes := cs.flatMap (47 :: ·)

theorem joined_concat (cs : List Bytes) (c : Bytes) : joined (cs ++ [c]) = joined cs ++ [47] ++ c := by
  simp [joined]

theorem joined_append (cs ds : List Bytes) : joined (cs ++ ds) = joined cs ++ joined ds :=
  List.flatMap_append

theorem intercalate_nil_cons (cs : List Bytes) : [47].intercalate ([] :: cs) = joined cs := by
  induction cs with
  | nil => rfl
  | cons c cs ih =>
    cases cs with
    | nil => simp [joined, List.intercalate]
    | cons d ds =>
      simp only [joined, List.flatMap_cons, List.intercalate, List.intersperse,
        List.flatten_cons, List.nil_append] at ih ⊢
      simp [ih]

theorem notMem_splitOn {s c : Bytes} (h : c ∈ s.splitOn 47) : 47 ∉ c := by
  induction s generalizing c with
  | nil =>
    rw [List.splitOn_nil, List.mem_singleton] at h
    simp [h]
  | cons x s ih =>
    rw [List.splitOn_cons_eq_if_modifyHead] at h
    split at h
    · rcases List.mem_cons.mp h with rfl | h
      · simp
      · exact ih h
    · next hx =>
      obtain ⟨d, ds, hds⟩ := List.exists_cons_of_ne_nil (List.splitOn_ne_nil 47 s)
      rw [hds, List.modifyHead_cons] at h
      rcases List.mem_cons.mp h with rfl | h
      · have hd : 47 ∉ d := ih (by simp [hds])
        simp only [beq_iff_eq] at hx
        simp [hd, Ne.symm hx]
      · exact ih (by simp [hds, h])

/-- Names, as `strtok` gives them. -/
def PathNames (cs : List Bytes) : Prop := ∀ c ∈ cs, c ≠ [] ∧ 47 ∉ c

theorem names_components (path : Bytes) : PathNames (components path) := by
  intro c hc
  obtain ⟨hmem, hne⟩ := List.mem_filter.mp hc
  exact ⟨by simpa using hne, notMem_splitOn hmem⟩

theorem components_joined {cs : List Bytes} (h : PathNames cs) : components (joined cs) = cs := by
  have hsplit : (joined cs).splitOn 47 = [] :: cs := by
    rw [← intercalate_nil_cons]
    refine List.splitOn_intercalate 47 ?_ (by simp)
    intro c hc
    rcases List.mem_cons.mp hc with rfl | hc
    · simp
    · exact (h c hc).2
  rw [components, hsplit, List.filter_cons_of_neg (by simp), List.filter_eq_self]
  intro c hc
  simpa using (h c hc).1

/-- Empty pieces are missing in the length. -/
theorem length_joined_filter (ps : List Bytes) :
    (joined (ps.filter (· ≠ []))).length + ps.count [] = (joined ps).length := by
  induction ps with
  | nil => rfl
  | cons p ps ih =>
    by_cases hp : p = []
    · subst hp
      rw [List.filter_cons_of_neg (by simp), List.count_cons_self]
      simp only [joined, List.flatMap_cons, List.length_append, List.length_cons,
        List.length_nil] at ih ⊢
      omega
    · rw [List.filter_cons_of_pos (by simpa using hp), List.count_cons_of_ne (by simpa using hp)]
      simp only [joined, List.flatMap_cons, List.length_append, List.length_cons] at ih ⊢
      omega

namespace AbsolutePath

variable (path : AbsolutePath)

/-- What stands between the slashes, the empty pieces included. -/
def pieces : List Bytes := path.bytes.tail.splitOn 47

theorem bytes_eq : path.bytes = 47 :: path.bytes.tail :=
  (List.cons_head?_tail path.absolute).symm

theorem components_eq : components path.bytes = path.pieces.filter (· ≠ []) := by
  have hsplit : path.bytes.splitOn 47 = [] :: path.pieces := by
    conv_lhs => rw [path.bytes_eq]
    rw [List.splitOn_cons_eq_if_modifyHead]
    rfl
  rw [components, hsplit, List.filter_cons_of_neg (by simp)]

theorem joined_pieces : joined path.pieces = path.bytes := by
  have hbytes : [47].intercalate ([] :: path.pieces) = 47 :: [47].intercalate path.pieces := by
    obtain ⟨p, ps, hps⟩ := List.exists_cons_of_ne_nil (List.splitOn_ne_nil 47 path.bytes.tail)
    rw [pieces, hps]
    simp [List.intercalate]
  rw [← intercalate_nil_cons, hbytes, pieces, List.intercalate_splitOn, ← path.bytes_eq]

/-- Two slashes in a row. -/
def RepeatedSlash : Prop := [47, 47] <:+: path.bytes

theorem repeatedSlash_iff : path.RepeatedSlash ↔ [] ∈ path.pieces := by
  constructor
  · rintro ⟨a, b, hab⟩
    have hsplit : path.bytes.splitOn 47 = a.splitOn 47 ++ [] :: b.splitOn 47 := by
      rw [← hab, List.append_assoc]
      change (a ++ 47 :: 47 :: b).splitOn 47 = _
      rw [List.splitOn_append_cons_self, List.splitOn_cons_eq_if_modifyHead]
      rfl
    have hpieces : path.pieces = (path.bytes.splitOn 47).tail := by
      conv_rhs => rw [path.bytes_eq, List.splitOn_cons_eq_if_modifyHead]
      rfl
    obtain ⟨d, ds, hds⟩ := List.exists_cons_of_ne_nil (List.splitOn_ne_nil 47 a)
    rw [hpieces, hsplit, hds]
    simp
  · intro hmem
    obtain ⟨xs, ys, hxy⟩ := List.append_of_mem hmem
    have hbytes := path.joined_pieces
    rw [hxy, joined_append] at hbytes
    cases ys with
    | nil =>
      refine absurd ?_ path.file
      rw [← hbytes]
      simp [joined]
    | cons y ys =>
      rw [RepeatedSlash, ← hbytes]
      exact ⟨joined xs, y ++ joined ys, by simp [joined]⟩

theorem length_joined_components : (joined (components path.bytes)).length + path.pieces.count [] =
    path.bytes.length := by
  rw [path.components_eq, length_joined_filter, path.joined_pieces]

theorem components_ne_nil : components path.bytes ≠ [] := by
  intro hnil
  have hall : ∀ p ∈ path.pieces, p = [] := by
    intro p hp
    by_contra hne
    have hmem : p ∈ components path.bytes := by
      rw [path.components_eq]
      exact List.mem_filter.mpr ⟨hp, by simpa using hne⟩
    simp [hnil] at hmem
  refine path.file ?_
  obtain ⟨ps, p, hps⟩ := List.eq_nil_or_concat path.pieces |>.resolve_left (List.splitOn_ne_nil _ _)
  rw [← path.joined_pieces, hps, List.concat_eq_append, joined_concat,
    hall p (by simp [hps])]
  simp

end AbsolutePath

variable {t u : Tree} {cs ds rest : List Bytes} {c : Bytes}

/-- The tree `u` is `t` with directories along `cs`. -/
structure Made (t u : Tree) (cs : List Bytes) : Prop where
  kept : ∀ p k, t.kind p = some k → u.kind p = some k
  new : ∀ p, t.kind p = none →
    u.kind p = none ∨ u.kind p = some .dir ∧ ∃ ds, ds <+: cs ∧ place ds = p
  dirs : ∀ ds, ds <+: cs → (∀ es, es <+: ds → t.kind (place es) ≠ some .file) →
    u.kind (place ds) = some .dir

theorem Made.start (t : Tree) : Made t t [] := by
  refine ⟨fun _ _ => id, fun _ h => .inl h, fun ds hds _ => ?_⟩
  rw [List.prefix_nil.mp hds]
  exact t.root

/-- `mkdir` where `access` finds nothing. -/
theorem kind_access_mkdir (h : PathNames cs) (p : Place) :
    (if u.access (joined cs) then u else u.mkdir (joined cs)).kind p =
      if u.locate cs = some p ∧ u.kind p = none then some .dir else u.kind p := by
  split
  · next haccess =>
    obtain ⟨habove, hsome⟩ := Tree.access_eq_true_iff.mp haccess
    rw [components_joined h] at habove hsome
    rw [if_neg]
    rintro ⟨hp, hnone⟩
    obtain ⟨-, rfl⟩ := Tree.locate_eq_some_iff.mp hp
    exact hsome hnone
  · rw [Tree.kind_mkdir, components_joined h]

theorem Made.step (h : Made t u cs) (hnames : PathNames (cs ++ [c])) :
    Made t (if u.access (joined (cs ++ [c])) then u else u.mkdir (joined (cs ++ [c])))
      (cs ++ [c]) := by
  have hkind := kind_access_mkdir (u := u) hnames
  have hpre : ∀ ds, ds <+: cs → ds <+: cs ++ [c] := fun ds hds => hds.trans (List.prefix_append _ _)
  refine ⟨?_, ?_, ?_⟩
  · intro p k hp
    rw [hkind, if_neg (by simp [h.kept _ _ hp]), h.kept _ _ hp]
  · intro p hp
    rw [hkind]
    split
    · next hnew =>
      exact .inr ⟨rfl, cs ++ [c], List.prefix_refl _, (Tree.locate_eq_some_iff.mp hnew.1).2⟩
    · refine (h.new p hp).imp_right ?_
      rintro ⟨hdir, ds, hds, hplace⟩
      exact ⟨hdir, ds, hpre ds hds, hplace⟩
  · intro ds hds hfiles
    rw [hkind]
    rcases List.prefix_concat_iff.mp hds with rfl | hds
    · have hold : ∀ es, es <+: cs → u.kind (place es) = some .dir := fun es hes =>
        h.dirs es hes fun es' hes' => hfiles es' (hes'.trans (hpre es hes))
      have habove : u.DirsAbove (cs ++ [c]) :=
        Tree.dirsAbove_concat.mpr ⟨fun es hes _ => hold es hes, hold cs (List.prefix_refl _)⟩
      rw [Tree.locate_of_dirsAbove habove]
      cases hk : t.kind (place (cs ++ [c])) with
      | none =>
        rcases h.new _ hk with hnone | ⟨hdir, -⟩
        · rw [if_pos ⟨rfl, hnone⟩]
        · rw [if_neg (by simp [hdir]), hdir]
      | some k =>
        have hdir : k = .dir := by
          cases k with
          | dir => rfl
          | file => exact absurd hk (hfiles _ (List.prefix_refl _))
        subst hdir
        rw [if_neg (by simp [h.kept _ _ hk]), h.kept _ _ hk]
    · have hold := h.dirs ds hds hfiles
      rw [if_neg (by simp [hold]), hold]

/-- As long as the path is not complete, the loop makes a directory for every name. -/
theorem Made.loop {len : ℕ} (h : Made t u cs) (hnames : PathNames (cs ++ ds))
    (hlen : (joined (cs ++ ds)).length < len) (hrest : rest = [] ∨ ∃ c, rest = [c] ∧
      (joined (cs ++ ds ++ [c])).length = len) :
    Made t (createLoop len u (joined cs) (ds ++ rest)) (cs ++ ds) := by
  induction ds generalizing u cs with
  | nil =>
    rw [List.append_nil, List.nil_append]
    rcases hrest with rfl | ⟨c, rfl, hc⟩
    · exact h
    · rw [createLoop, if_pos]
      · exact h
      · rw [List.append_nil, joined_concat] at hc
        rw [← hc]
        simp only [List.length_append]
  | cons d ds ih =>
    have hassoc : cs ++ d :: ds = cs ++ [d] ++ ds := by simp
    have hshort : ¬((joined cs ++ [47]).length + d.length = len) := by
      rw [hassoc, joined_append, joined_concat] at hlen
      simp only [List.length_append] at hlen ⊢
      omega
    rw [List.cons_append, createLoop]
    simp only [hshort, if_false]
    rw [hassoc] at hnames hlen hrest ⊢
    rw [← joined_concat]
    exact ih (h.step fun c hc => hnames c (List.mem_append_left _ hc)) hnames hlen hrest

variable (path : AbsolutePath)

/-- The last component is recognised. -/
theorem made_of_not_repeated (t : Tree) (h : ¬path.RepeatedSlash) :
    Made t (createLoop path.bytes.length t [] (components path.bytes))
      (components path.bytes).dropLast := by
  have hlast := List.dropLast_append_getLast path.components_ne_nil
  have hlen := path.length_joined_components
  rw [List.count_eq_zero_of_not_mem (mt path.repeatedSlash_iff.mpr h), Nat.add_zero] at hlen
  have hshort : (joined ([] ++ (components path.bytes).dropLast)).length < path.bytes.length := by
    rw [← hlen, ← hlast, joined_concat, hlast]
    simp only [List.nil_append, List.length_append, List.length_singleton]
    omega
  have hloop := (Made.start t).loop
    (fun c hc => names_components path.bytes c (List.mem_of_mem_dropLast hc)) hshort
    (.inr ⟨_, rfl, by rw [List.nil_append, hlast, hlen]⟩)
  rwa [hlast] at hloop

/-- The last component is taken for a directory. -/
theorem made_of_repeated (t : Tree) (h : path.RepeatedSlash) :
    Made t (createLoop path.bytes.length t [] (components path.bytes)) (components path.bytes) := by
  have hlen := path.length_joined_components
  have hcount := List.count_pos_iff.mpr (path.repeatedSlash_iff.mp h)
  have hnames : PathNames ([] ++ components path.bytes) := names_components path.bytes
  have hshort : (joined ([] ++ components path.bytes)).length < path.bytes.length := by
    rw [List.nil_append]
    omega
  have hloop := (Made.start t).loop hnames hshort (.inl rfl)
  rwa [List.append_nil] at hloop

variable {path}

/-- What is there stays. -/
theorem kind_createFile_of_some {p : Place} {k : Kind} (h : t.kind p = some k) :
    (createFile t path.bytes).2.kind p = some k := by
  refine Tree.kind_openCreate_of_some ?_
  by_cases hrepeated : path.RepeatedSlash
  · exact (made_of_repeated path t hrepeated).kept p k h
  · exact (made_of_not_repeated path t hrepeated).kept p k h

/-- Where the file cannot be built: a regular file above it, an ancestor in its place, or a
directory, or two slashes in a row in a path that does not lead to a file yet. -/
theorem Built.requires (h : Built t path.bytes) :
    (∀ ds, ds <+: components path.bytes → ds ≠ components path.bytes →
      t.kind (place ds) ≠ some .file ∧ place ds ≠ place (components path.bytes)) ∧
      t.kind (place (components path.bytes)) ≠ some .dir ∧
      (path.RepeatedSlash → t.kind (place (components path.bytes)) = some .file) := by
  have habove : ∀ ds, ds <+: components path.bytes → ds ≠ components path.bytes →
      t.kind (place ds) ≠ some .file := by
    intro ds hds hne hfile
    have hdir := h.ancestors ds hds hne
    rw [kind_createFile_of_some hfile] at hdir
    simp at hdir
  refine ⟨fun ds hds hne => ⟨habove ds hds hne, fun heq => ?_⟩, fun hdir => ?_, fun hrepeated => ?_⟩
  · have hdir := h.ancestors ds hds hne
    rw [heq, h.regular] at hdir
    simp at hdir
  · have hfile := h.regular
    rw [kind_createFile_of_some hdir] at hfile
    simp at hfile
  · by_contra hnone
    have hmade := (made_of_repeated path t hrepeated).dirs _ (List.prefix_refl _) fun ds hds => by
      by_cases hne : ds = components path.bytes
      · rwa [hne]
      · exact habove ds hds hne
    have hfile := h.regular
    rw [createFile, Tree.kind_openCreate_of_some hmade] at hfile
    simp at hfile

/-- Opening the file behind the directories that the loop has made. -/
theorem Made.built {u : Tree} {cs : List Bytes}
    (hu : u = createLoop path.bytes.length t [] (components path.bytes)) (h : Made t u cs)
    (hcs : ∀ ds, ds <+: cs → ds <+: components path.bytes)
    (hproper : ∀ ds, ds <+: components path.bytes → ds ≠ components path.bytes → ds <+: cs)
    (habove : ∀ ds, ds <+: components path.bytes → ds ≠ components path.bytes →
      t.kind (place ds) ≠ some .file)
    (hlast : u.kind (place (components path.bytes)) = none ∨
      u.kind (place (components path.bytes)) = some .file) : Built t path.bytes := by
  have hresult : (createFile t path.bytes).2 = (u.openCreate path.bytes).2 := by rw [createFile, hu]
  have hdirs : u.DirsAbove (components path.bytes) := by
    intro ds hds hne
    refine h.dirs ds (hproper ds hds hne) fun es hes => habove es (hes.trans hds) ?_
    rintro rfl
    exact hne (hds.eq_of_length_le hes.length_le)
  have hlocate := Tree.locate_of_dirsAbove hdirs
  refine ⟨fun ds hds hne => ?_, fun p => ?_, ?_⟩
  · rw [hresult]
    exact Tree.kind_openCreate_of_some (hdirs ds hds hne)
  · rw [hresult, Tree.kind_openCreate, hlocate]
    cases hp : t.kind p with
    | some k => exact .inl (by rw [if_neg (by simp [h.kept p k hp]), h.kept p k hp])
    | none =>
      by_cases heq : p = place (components path.bytes)
      · exact .inr ⟨rfl, .inl heq⟩
      · rw [if_neg fun hnew => heq (Option.some.inj hnew.1).symm]
        rcases h.new p hp with hnone | ⟨hdir, ds, hds, hplace⟩
        · exact .inl hnone
        · refine .inr ⟨rfl, .inr ⟨hdir, ds, hcs ds hds, ?_, hplace⟩⟩
          rintro rfl
          exact heq hplace.symm
  · rw [hresult, Tree.kind_openCreate, hlocate]
    rcases hlast with hnone | hfile
    · rw [if_pos ⟨rfl, hnone⟩]
    · rw [if_neg (by simp [hfile]), hfile]

theorem built_of_not_repeated (h : ¬path.RepeatedSlash)
    (habove : ∀ ds, ds <+: components path.bytes → ds ≠ components path.bytes →
      t.kind (place ds) ≠ some .file ∧ place ds ≠ place (components path.bytes))
    (hlast : t.kind (place (components path.bytes)) ≠ some .dir) : Built t path.bytes := by
  have hmade := made_of_not_repeated path t h
  have hne := path.components_ne_nil
  have hproper : ∀ ds, ds <+: (components path.bytes).dropLast → ds ≠ components path.bytes := by
    rintro _ hds rfl
    have hlen := hds.length_le
    have hpos := List.length_pos_iff.mpr hne
    rw [List.length_dropLast] at hlen
    omega
  refine hmade.built rfl (fun ds hds => hds.trans (List.dropLast_prefix _)) (fun ds hds hds' => ?_)
    (fun ds hds hds' => (habove ds hds hds').1) ?_
  · have hsplit := List.dropLast_append_getLast hne
    rw [← hsplit] at hds
    rcases List.prefix_concat_iff.mp hds with rfl | hds
    · exact absurd hsplit hds'
    · exact hds
  · cases hk : t.kind (place (components path.bytes)) with
    | some k =>
      have hfile : k = .file := by
        cases k with
        | dir => exact absurd hk hlast
        | file => rfl
      subst hfile
      exact .inr (hmade.kept _ _ hk)
    | none =>
      refine .inl ((hmade.new _ hk).resolve_right ?_)
      rintro ⟨-, ds, hds, hplace⟩
      exact (habove ds (hds.trans (List.dropLast_prefix _)) (hproper ds hds)).2 hplace

theorem built_of_file
    (habove : ∀ ds, ds <+: components path.bytes → ds ≠ components path.bytes →
      t.kind (place ds) ≠ some .file ∧ place ds ≠ place (components path.bytes))
    (hfile : t.kind (place (components path.bytes)) = some .file)
    (h : path.RepeatedSlash) : Built t path.bytes :=
  have hmade := made_of_repeated path t h
  hmade.built rfl (fun _ hds => hds) (fun _ hds _ => hds)
    (fun ds hds hne => (habove ds hds hne).1) (.inr (hmade.kept _ _ hfile))

/-- The exact condition: no regular file above the file and no ancestor in its place, no
directory there, and no two slashes in a row, unless the path leads to a regular file. -/
theorem built_iff (path : AbsolutePath) (t : Tree) : Built t path.bytes ↔
    (∀ ds, ds <+: components path.bytes → ds ≠ components path.bytes →
      t.kind (place ds) ≠ some .file ∧ place ds ≠ place (components path.bytes)) ∧
      t.kind (place (components path.bytes)) ≠ some .dir ∧
      (path.RepeatedSlash → t.kind (place (components path.bytes)) = some .file) := by
  refine ⟨Built.requires, fun ⟨habove, hlast, hfile⟩ => ?_⟩
  by_cases hrepeated : path.RepeatedSlash
  · exact built_of_file habove (hfile hrepeated) hrepeated
  · exact built_of_not_repeated hrepeated habove hlast

/-- `/a//b` -/
def slashedPath : AbsolutePath :=
  ⟨[47, 97, 47, 47, 98], by decide, by decide, by decide, by decide⟩

theorem slashed_path_not_built :
    (∀ ds, ds <+: components slashedPath.bytes → Tree.bare.kind (place ds) ≠ some .file) ∧
      ¬Built Tree.bare slashedPath.bytes := by
  refine ⟨fun ds _ => ?_, fun h => absurd h.regular (by decide +kernel)⟩
  rw [Tree.bare]
  dsimp only
  split <;> simp

end TCBackup.Client
