import TCBackup.Client.CreateFile
import TCBackup.Client.RestoreClient

/-!
# Restored files in a file system

`construct_file` makes the directories above a file, opens it without truncating it, and writes the
chunks from its beginning on.

## Main definitions

- `FileSystem` — a tree whose regular files have bytes
- `writeOutput` — what `construct_file` does for one file
- `RoomFor`, `FilesPut` — a file system before and after files have been put there

## Main results

- `FilesPut.write` — one file
- `FilesPut.outputs` — all files
-/

namespace TCBackup.Client

open ByteFile FileTree

structure FileSystem where
  tree : Tree
  bytes : Place → Bytes

/-- The `write` calls for one file, from `pos` on. -/
def writeAll : Bytes → ℕ → List Bytes → Bytes
  | file, _, [] => file
  | file, pos, data :: rest => writeAll (writeAt file pos data) (pos + data.length) rest

/-- `create_file`, `open` with `O_RDWR | O_CREAT`, and the `write` calls; `none` where
`construct_file` gives up. -/
def writeOutput (fs : FileSystem) (out : Output) : Option FileSystem :=
  let created := createFile fs.tree out.path
  if created.1 = false then none
  else
    let opened := created.2.openCreate out.path
    if opened.1 = false then none
    else
      (opened.2.locate (components out.path)).map fun p =>
        ⟨opened.2, Function.update fs.bytes p
          (writeAll (if fs.tree.kind p = some .file then fs.bytes p else []) 0 out.data)⟩

/-- A name of a directory entry, other than `.` and `..`. -/
structure EntryName (c : Bytes) : Prop where
  nonempty : c ≠ []
  slash : 47 ∉ c
  nul : 0 ∉ c
  dot : c ≠ [46]
  dots : c ≠ [46, 46]

/-- No file stands above another one. -/
def NoneAbove (files : Set (Place × Bytes)) : Prop := ∀ f ∈ files, ∀ g ∈ files, f.1 <+: g.1 → f = g

/-- The files can be put there: no directory is in the place of one, no longer file either, and no
file above it. -/
structure RoomFor (fs : FileSystem) (files : Set (Place × Bytes)) : Prop where
  dir : ∀ f ∈ files, fs.tree.kind f.1 ≠ some .dir
  longer : ∀ f ∈ files, fs.tree.kind f.1 = some .file → (fs.bytes f.1).length ≤ f.2.length
  above : ∀ f ∈ files, ∀ p, p <+: f.1 → p ≠ f.1 → fs.tree.kind p ≠ some .file

/-- The files are there, and nothing else is new but directories above them. -/
structure FilesPut (fs₀ : FileSystem) (files : Set (Place × Bytes)) (fs : FileSystem) : Prop where
  there : ∀ f ∈ files, fs.tree.kind f.1 = some .file ∧ fs.bytes f.1 = f.2
  others : ∀ p, (∀ f ∈ files, p ≠ f.1) →
    fs.tree.kind p = fs₀.tree.kind p ∧ fs.bytes p = fs₀.bytes p ∨
      fs₀.tree.kind p = none ∧ fs.tree.kind p = some .dir ∧ ∃ f ∈ files, p <+: f.1 ∧ p ≠ f.1

variable {fs fs₀ : FileSystem} {all files : Set (Place × Bytes)} {f : Place × Bytes} {cs : List Bytes}
  {out : Output} {outs : List Output}

theorem writeAt_front (front rest data : Bytes) :
    writeAt (front ++ rest) front.length data = front ++ data ++ rest.drop data.length := by
  rw [writeAt, List.take_left, List.length_append, Nat.sub_eq_zero_of_le (Nat.le_add_right _ _),
    List.replicate_zero, List.append_nil, ← List.drop_drop, List.drop_left]

theorem writeAll_front (front rest : Bytes) (data : List Bytes) :
    writeAll (front ++ rest) front.length data =
      front ++ data.flatten ++ rest.drop data.flatten.length := by
  induction data generalizing front rest with
  | nil => simp [writeAll]
  | cons d data ih =>
    rw [writeAll, writeAt_front, ← List.length_append, ih, List.drop_drop, List.flatten_cons,
      List.append_assoc front d, List.length_append]

/-- Shorter contents are replaced. -/
theorem writeAll_shorter {file : Bytes} {data : List Bytes} (h : file.length ≤ data.flatten.length) :
    writeAll file 0 data = data.flatten := by
  have hall := writeAll_front [] file data
  rw [List.drop_eq_nil_of_le h, List.append_nil] at hall
  exact hall

theorem pathNames_of_entryNames (h : ∀ c ∈ cs, EntryName c) : PathNames cs :=
  fun c hc => ⟨(h c hc).nonempty, (h c hc).slash⟩

/-- Without `.` and `..` a path leads where its names say. -/
theorem place_of_entryNames (h : ∀ c ∈ cs, EntryName c) : FileTree.place cs = cs := by
  induction cs using List.reverseRecOn with
  | nil => rfl
  | append_singleton cs c ih =>
    have hc := h c (by simp)
    rw [Tree.place_concat, FileTree.enter, if_neg hc.dot, if_neg hc.dots,
      ih fun d hd => h d (List.mem_append_left _ hd)]

theorem joined_inj {ds : List Bytes} (hcs : ∀ c ∈ cs, EntryName c) (hds : ∀ c ∈ ds, EntryName c)
    (h : joined cs = joined ds) : cs = ds := by
  rw [← components_joined (pathNames_of_entryNames hcs), h,
    components_joined (pathNames_of_entryNames hds)]

theorem getLast?_joined (h : ∀ c ∈ cs, EntryName c) : (joined cs).getLast? ≠ some 47 := by
  induction cs using List.reverseRecOn with
  | nil => simp [joined]
  | append_singleton cs c _ =>
    have hc := h c (by simp)
    rw [joined_concat, List.getLast?_append_of_ne_nil _ hc.nonempty]
    exact fun hlast => hc.slash (List.mem_of_getLast? hlast)

theorem notMem_joined (h : ∀ c ∈ cs, EntryName c) : 0 ∉ joined cs := by
  intro hmem
  obtain ⟨c, hc, hzero⟩ := List.mem_flatMap.mp hmem
  rcases List.mem_cons.mp hzero with hbad | hzero
  · cases hbad
  · exact (h c hc).nul hzero

/-- The path of some names. -/
def namedPath (cs : List Bytes) (h : ∀ c ∈ cs, EntryName c) (hne : cs ≠ [])
    (hshort : (joined cs).length < 256) : AbsolutePath where
  bytes := joined cs
  absolute := by
    obtain ⟨c, rest, rfl⟩ := List.exists_cons_of_ne_nil hne
    rfl
  file := getLast?_joined h
  cstring := notMem_joined h
  short := hshort

theorem namedPath_not_repeated (h : ∀ c ∈ cs, EntryName c) (hne : cs ≠ [])
    (hshort : (joined cs).length < 256) : ¬(namedPath cs h hne hshort).RepeatedSlash := by
  have hlength := (namedPath cs h hne hshort).length_joined_components
  rw [AbsolutePath.repeatedSlash_iff, ← List.count_pos_iff]
  change (joined (components (joined cs))).length + _ = (joined cs).length at hlength
  rw [components_joined (pathNames_of_entryNames h)] at hlength
  omega

theorem opened_of_file {t : Tree} {path : Bytes} (habove : (t.openCreate path).2.DirsAbove (components path))
    (hfile : (t.openCreate path).2.kind (FileTree.place (components path)) = some .file) :
    (t.openCreate path).1 = true := by
  rw [Tree.openCreate] at habove hfile ⊢
  cases hlocate : t.locate (components path) with
  | none =>
    rw [hlocate] at habove
    have hsome := Tree.locate_of_dirsAbove (t := t) habove
    rw [hlocate] at hsome
    cases hsome
  | some p =>
    rw [Option.map_some]
    cases hkind : t.kind p with
    | none => rfl
    | some k =>
      cases k with
      | file => rfl
      | dir =>
        rw [hlocate, Option.map_some, hkind] at hfile
        obtain ⟨-, rfl⟩ := Tree.locate_eq_some_iff.mp hlocate
        exact absurd (hkind.symm.trans hfile) (by simp)

/-- A file that is there is only opened. -/
theorem openCreate_of_file {t : Tree} {path : Bytes} (habove : t.DirsAbove (components path))
    (hfile : t.kind (FileTree.place (components path)) = some .file) : t.openCreate path = (true, t) := by
  rw [Tree.openCreate, Tree.locate_of_dirsAbove habove, Option.map_some, hfile]

/-- What `construct_file` does where the file can be built. -/
theorem writeOutput_built {path : AbsolutePath} (hpath : out.path = path.bytes)
    (h : Built fs.tree path.bytes) :
    writeOutput fs out = some ⟨(createFile fs.tree path.bytes).2,
      Function.update fs.bytes (FileTree.place (components path.bytes))
        (writeAll (if fs.tree.kind (FileTree.place (components path.bytes)) = some .file then
          fs.bytes (FileTree.place (components path.bytes)) else []) 0 out.data)⟩ := by
  have hcreated : (createFile fs.tree path.bytes).1 = true := opened_of_file h.ancestors h.regular
  have hopened := openCreate_of_file h.ancestors h.regular
  rw [writeOutput, hpath]
  dsimp only
  rw [hcreated, hopened, if_neg (by simp), if_neg (by simp), Tree.locate_of_dirsAbove h.ancestors,
    Option.map_some]

/-- One more file. -/
theorem FilesPut.write (h : FilesPut fs₀ files fs) (hfresh : RoomFor fs₀ all) (hall : NoneAbove all)
    (hfiles : files ⊆ all) (hf : f ∈ all) (hnames : ∀ c ∈ f.1, EntryName c) (hne : f.1 ≠ [])
    (hshort : (joined f.1).length < 256) (hpath : out.path = joined f.1) (hdata : out.data.flatten = f.2) :
    ∃ fs', writeOutput fs out = some fs' ∧ FilesPut fs₀ (insert f files) fs' := by
  obtain ⟨path, hbytes⟩ : ∃ path : AbsolutePath, path = namedPath f.1 hnames hne hshort := ⟨_, rfl⟩
  have hrepeated : ¬path.RepeatedSlash := hbytes ▸ namedPath_not_repeated hnames hne hshort
  have hjoined : path.bytes = joined f.1 := by rw [hbytes, namedPath]
  have hcomponents : components path.bytes = f.1 := by
    rw [hjoined, components_joined (pathNames_of_entryNames hnames)]
  have hplace : FileTree.place (components path.bytes) = f.1 := by
    rw [hcomponents, place_of_entryNames hnames]
  -- no other file is above this one
  have hother : ∀ p, p <+: f.1 → p ≠ f.1 → ∀ g ∈ files, p ≠ g.1 := by
    rintro p hp hpf g hg rfl
    exact hpf (congrArg Prod.fst (hall g (hfiles hg) f hf hp))
  have habove : ∀ p, p <+: f.1 → p ≠ f.1 → fs.tree.kind p ≠ some .file := by
    intro p hp hpf
    rcases h.others p (hother p hp hpf) with ⟨hkind, -⟩ | ⟨-, hdir, -⟩
    · rw [hkind]
      exact hfresh.above f hf p hp hpf
    · rw [hdir]
      simp
  -- what is in its place
  have hhere : fs.tree.kind f.1 ≠ some .dir ∧
      (fs.tree.kind f.1 = some .file → (fs.bytes f.1).length ≤ f.2.length) := by
    by_cases hin : f ∈ files
    · rw [(h.there f hin).1, (h.there f hin).2]
      simp
    · have hnot : ∀ g ∈ files, f.1 ≠ g.1 := by
        intro g hg heq
        obtain rfl := hall f hf g (hfiles hg) (heq ▸ List.prefix_refl _)
        exact hin hg
      rcases h.others f.1 hnot with ⟨hkind, hbytes⟩ | ⟨-, -, g, hg, hprefix, hne⟩
      · rw [hkind, hbytes]
        exact ⟨hfresh.dir f hf, hfresh.longer f hf⟩
      · exact absurd (congrArg Prod.fst (hall f hf g (hfiles hg) hprefix)) hne
  have hbuilt : Built fs.tree path.bytes := by
    refine (built_iff path fs.tree).mpr ⟨fun ds hds hds' => ?_, ?_, fun hbad => absurd hbad hrepeated⟩
    · rw [hcomponents] at hds hds'
      have hproper : FileTree.place ds = ds := place_of_entryNames fun c hc => hnames c (hds.subset hc)
      rw [hplace, hproper]
      exact ⟨habove ds hds hds', hds'⟩
    · rw [hplace]
      exact hhere.1
  have hwritten := writeOutput_built (hpath.trans hjoined.symm) hbuilt
  rw [hplace] at hwritten
  have hnew : (writeAll (if fs.tree.kind f.1 = some .file then fs.bytes f.1 else []) 0 out.data) = f.2 := by
    rw [← hdata]
    refine writeAll_shorter ?_
    split
    · next hfile => exact hdata ▸ hhere.2 hfile
    · simp
  rw [hnew] at hwritten
  refine ⟨_, hwritten, ?_, ?_⟩
  · rintro g (rfl | hg)
    · refine ⟨?_, Function.update_self _ _ _⟩
      have hregular := hbuilt.regular
      rwa [hplace] at hregular
    · refine ⟨kind_createFile_of_some (h.there g hg).1, ?_⟩
      by_cases hsame : g.1 = f.1
      · obtain rfl := hall g (hfiles hg) f hf (hsame ▸ List.prefix_refl _)
        exact Function.update_self _ _ _
      · dsimp only
        rw [Function.update_of_ne hsame, (h.there g hg).2]
  · intro p hp
    have hpf : p ≠ f.1 := hp f (.inl rfl)
    have hold := h.others p fun g hg => hp g (.inr hg)
    dsimp only
    rw [Function.update_of_ne hpf]
    rcases hbuilt.only p with hkind | ⟨hnone, hbad | ⟨hdir, ds, hds, hds', hat⟩⟩
    · rw [hkind]
      exact hold.imp_right fun ⟨hnone, hdir, g, hg, hprefix⟩ => ⟨hnone, hdir, g, .inr hg, hprefix⟩
    · rw [hplace] at hbad
      exact absurd hbad hpf
    · rw [hcomponents] at hds hds'
      have hproper : FileTree.place ds = ds := place_of_entryNames fun c hc => hnames c (hds.subset hc)
      rw [hproper] at hat
      subst hat
      rcases hold with ⟨hkind, -⟩ | ⟨-, hbad, -⟩
      · exact .inr ⟨hkind ▸ hnone, hdir, f, .inl rfl, hds, hds'⟩
      · rw [hnone] at hbad
        cases hbad

/-- All files, one after the other. -/
theorem FilesPut.outputs (h : FilesPut fs₀ files fs) (hfresh : RoomFor fs₀ all) (hall : NoneAbove all)
    (hfiles : files ⊆ all) (hnames : ∀ f ∈ all, (∀ c ∈ f.1, EntryName c) ∧ f.1 ≠ [])
    (houts : ∀ out ∈ outs, out.path.length < 256 ∧ ∃ f ∈ all, out.path = joined f.1 ∧ out.data.flatten = f.2) :
    ∃ fs' files', outs.foldlM writeOutput fs = some fs' ∧ FilesPut fs₀ files' fs' ∧ files ⊆ files' ∧
      files' ⊆ all ∧ ∀ out ∈ outs, ∃ f ∈ files', out.path = joined f.1 := by
  induction outs generalizing fs files with
  | nil => exact ⟨fs, files, rfl, h, subset_rfl, hfiles, by simp⟩
  | cons out outs ih =>
    obtain ⟨hshort, f, hf, hpath, hdata⟩ := houts out List.mem_cons_self
    obtain ⟨fs₁, hwrite, hrestored⟩ := h.write hfresh hall hfiles hf (hnames f hf).1 (hnames f hf).2
      (hpath ▸ hshort) hpath hdata
    obtain ⟨fs', files', hrest, hrestored', hsub, hwithin, hpaths⟩ :=
      ih hrestored (Set.insert_subset hf hfiles) fun o ho => houts o (List.mem_cons_of_mem _ ho)
    refine ⟨fs', files', ?_, hrestored', (Set.subset_insert _ _).trans hsub, hwithin, fun o ho => ?_⟩
    · rw [List.foldlM_cons, hwrite]
      exact hrest
    · rcases List.mem_cons.mp ho with rfl | ho
      · exact ⟨f, hsub (Set.mem_insert _ _), hpath⟩
      · exact hpaths o ho

end TCBackup.Client
