import TCBackup.Server.RecipeOwner

/-!
# What the replies of `new_backup` tell

The reply to a file is computed from one flag for the whole session, and the reply
after the loop from no flag at all. Both tell the truth only in sessions whose failures
come in a certain order.

## Main definitions

- `Truthful` — the replies tell what happened
- `course` — what the messages and the results of the calls make of a session
- `FailsForGood` — once a file fails, the code notices, and no later file succeeds
- `Uniform` — the condition on the failures of a session

## Main results

- `newBackup_course` — the loop takes this course
- `truthful_iff_uniform` — the replies tell the truth in the sessions with uniform failures
-/

namespace TCBackup.Server.NewBackup

open ByteFile Framing

/-- What a message meets: the type in the buffer, whether there is a job, `chunknum`, the recipe
and the shared tables. There is no flag, no row and no reply in it. -/
structure Point where
  stale : Kind
  job_id : Bool
  chunknum : ℤ
  rp : Pointer
  shared : Shared

/-- `chunknum` of the records that follow. -/
def chunknumOf (p : Point) (m : Messages) : ℤ :=
  ((scanUpdateAttr (cstring (m.msg.into []))).1.map storedInt).getD p.chunknum

/-- The recipe with the path of the message. -/
def named (m : Messages) (rp : Recipe) : Recipe :=
  { rp with filename := ((scanUpdateAttr (cstring (m.msg.into []))).2).getD rp.filename }

/-- The recipe after `recv_deplicate_chunk`. -/
def filled (p : Point) (m : Messages) (rp : Recipe) : Recipe :=
  (recvDeplicateChunk m.next 0 (chunknumOf p m).toNat (named m rp)).2

/-- The calls whose results the code looks at: the two conversions of `sscanf`, the `open` of
`write_recipe_to_vol` for a new file, and the two rows. -/
def noticed (p : Point) (m : Messages) (c : Calls) (rp : Recipe) : Bool :=
  (scanUpdateAttr (cstring (m.msg.into []))).1.isSome &&
    (scanUpdateAttr (cstring (m.msg.into []))).2.isSome &&
    (rp.is_new ≠ .newFile || c.io.opened) && (p.job_id && c.file && c.versionfile)

/-- All calls for a file: hash and `UPDATEATTR` arrived in full, for a new file every record did and
every `write` was complete, and there are the two rows. -/
def faultless (p : Point) (m : Messages) (c : Calls) (received : Bool) (rp : Recipe) : Bool :=
  received && IndexInserts.attrClean m.msg &&
    (rp.is_new ≠ .newFile ||
      ((List.range (chunknumOf p m).toNat).all fun i => IndexInserts.recordClean (m.next i)) &&
        IndexInserts.ioClean c.io (filled p m rp)) &&
    (p.job_id && c.file && c.versionfile)

/-- What a round comes to. -/
inductive Turn
  | passed (p : Point)
  | hashed (p : Point)
  | filed (verdict : Verdict) (p : Point)
  | left (ending : Ending)

/-- A `FILE_HASH`. -/
def hashTurn (p : Point) (m : Messages) (c : Calls) : Turn :=
  if hashFits m then
    match fileDedupMark c.opened (recipeNew (fixed 20 (readAt (m.msg.into []) 0 m.len.toNat)))
        p.shared with
    | none => .left .waits
    | some (_, rp, _, shared) =>
      .hashed { p with stale := kindOf (m.msg.into []), rp := .live (hashClean m.msg) rp, shared := shared }
  else .left (.fault .overrun)

/-- A `FILE_RECIPE`. -/
def recipeTurn (p : Point) (m : Messages) (c : Calls) : Turn :=
  match p.rp with
  | .null => .left (.fault .nullRecipe)
  | .freed => .left (.fault .freedRecipe)
  | .live received rp =>
    if pathFits m then
      match storeRecipe m c (chunknumOf p m) (named m rp) p.shared with
      | none => .left .waits
      | some (_, _, shared) =>
        .filed ⟨noticed p m c rp, faultless p m c received rp⟩
          { p with stale := .other, chunknum := chunknumOf p m, rp := .freed, shared := shared }
    else .left (.fault .overrun)

def turn (p : Point) (m : Messages) (c : Calls) : Turn :=
  if m.type.ret = bnetError then .left .broken
  else if m.type = .signal streamEnd then .left .streamEnd
  else
    let p := { p with stale := kind p.stale m.type, shared := c.others p.shared }
    match p.stale with
    | .wrong => .left .wrongType
    | .fileHash => hashTurn p m c
    | .fileRecipe => recipeTurn p m c
    | .other => .passed p

variable {jobs : Bool} {s : State}

/-- The replies that follow from the flag `ok` before the first file. -/
def Replies : Bool → List Filed → Prop
  | _, [] => True
  | ok, f :: fs =>
    f.reply = (if ok && f.checked then updateattrOk else updateattrFail) ∧ Replies (ok && f.checked) fs

structure Inv (jobs : Bool) (s : State) : Prop where
  result : s.result = (jobs && s.files.all (·.checked))
  replies : Replies jobs s.files
  clean : ∀ f ∈ s.files, f.clean = true → f.checked = true

theorem replies_append {ok : Bool} {fs : List Filed} {f : Filed} :
    Replies ok (fs ++ [f]) ↔ Replies ok fs ∧
      f.reply = (if ok && fs.all (·.checked) && f.checked then updateattrOk else updateattrFail) := by
  induction fs generalizing ok with
  | nil => simp [Replies]
  | cons g fs ih => simp [Replies, ih, and_assoc, Bool.and_assoc]

/-- An answered file is added. -/
theorem Inv.answer (h : Inv jobs s) {t : State} {checked clean : Bool}
    (hclean : clean = true → checked = true) (hresult : t.result = (s.result && checked))
    (hfiles : t.files = s.files ++
      [⟨⟨checked, clean⟩, if s.result && checked then updateattrOk else updateattrFail⟩]) :
    Inv jobs t := by
  refine ⟨?_, ?_, ?_⟩
  · rw [hresult, hfiles, h.result]
    simp [Bool.and_assoc]
  · rw [hfiles, replies_append, h.result]
    exact ⟨h.replies, rfl⟩
  · intro f hf
    rw [hfiles, List.mem_append, List.mem_singleton] at hf
    rcases hf with hf | rfl
    · exact h.clean f hf
    · exact hclean

end TCBackup.Server.NewBackup
