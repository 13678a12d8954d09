import TCBackup.Client.Capping
import TCBackup.Lib.Linked

/-!
# Sorting the segments (`sort_segments` in `client/src/capping.c`)

The segments of the table are threaded through their `link` fields, the longest first, while
the table is walked. Then the list is followed, and all behind the first `max_refer_count` are
removed from the table.

## Main definitions

- `linkBehind`, `linkSegment`, `dropSegments` — the loops of `sort_segments`, link by link
- `sortSegmentsLinked` — `sort_segments`

## Main results

- `sortSegmentsLinked_eq` — the links spell the list of `sortSegments`
- `linkSegments_before` — a segment comes before those that are shorter, or as long and later
  in the table
- `sortSegments_kept` — the table holds the first `max_refer_count` of that list
-/

namespace TCBackup.Client

open ByteFile Linked

/-- A `RefNode` is known by what the table has of it. Its `link` is kept aside. -/
abbrev RefNode := Chunkaddress × ℤ

abbrev Links := RefNode → Option RefNode

/-- The inner loop: `rn` comes behind `p` or further back. It is `none` if the loop does not end
within so many rounds. -/
def linkBehind (rn : RefNode) : ℕ → RefNode → Links → Option Links
  | 0, _, _ => none
  | fuel + 1, p, link =>
    match link p with
    | some q =>
      if q.2 < rn.2 then some (Function.update (Function.update link rn (some q)) p (some rn))
      else linkBehind rn fuel q link
    | none => some (Function.update (Function.update link p (some rn)) rn none)

/-- A round of the outer loop, with the head of the list. -/
def linkSegment (fuel : ℕ) (p : RefNode × Links) (rn : RefNode) : Option (RefNode × Links) :=
  if p.1.2 < rn.2 then some (rn, Function.update p.2 rn (some p.1))
  else (linkBehind rn fuel p.1 p.2).map fun link => (p.1, link)

/-- The last loop, in its round `i`. -/
def dropSegments (max_refer_count : ℕ) (link : Links) :
    ℕ → ℕ → Option RefNode → HTable 64 ℤ → Option (HTable 64 ℤ)
  | 0, _, _, _ => none
  | _ + 1, _, none, segments => some segments
  | fuel + 1, i, some p, segments =>
    if max_refer_count < i then
      dropSegments max_refer_count link fuel (i + 1) (link p) (segments.remove p.1)
    else dropSegments max_refer_count link fuel (i + 1) (link p) segments

/-- `sort_segments` with links as they happen to be. A table without segments is `none`: its
`first` is `NULL`. -/
def sortSegmentsLinked (fuel max_refer_count : ℕ) (segments : HTable 64 ℤ) (link : Links) :
    Option (Bool × HTable 64 ℤ) :=
  match segments.walk with
  | [] => none
  | rn :: rest =>
    (rest.foldlM (linkSegment fuel) (rn, Function.update link rn none)).bind fun q =>
      (dropSegments max_refer_count q.2 fuel 1 (some q.1) segments).map fun segments =>
        (decide (segments.size = max_refer_count), segments)

variable {rn p : RefNode} {link : Links} {l l' : List RefNode} {fuel max_refer_count : ℕ}
  {segments : HTable 64 ℤ}

/-- `sort_segments` puts the first segment in front of the second. -/
abbrev Longer (a b : RefNode) : Prop := b.2 < a.2

theorem linkBehind_spec (hseg : Seg link (some p) (p :: l) none) (hnodup : (p :: l).Nodup)
    (hrn : rn ∉ p :: l) (hfuel : l.length < fuel) :
    ∃ link', linkBehind rn fuel p link = some link' ∧
      Seg link' (some p) (p :: l.orderedInsert Longer rn) none ∧
      ∀ b, b ≠ rn → b ∉ p :: l → link' b = link b := by
  induction l generalizing fuel p with
  | nil =>
    obtain ⟨fuel, rfl⟩ := Nat.exists_eq_add_one_of_ne_zero hfuel.ne'
    have hnone : link p = none := hseg.2
    have hne : p ≠ rn := fun heq => hrn (by simp [heq])
    refine ⟨_, by rw [linkBehind, hnone], ⟨rfl, ?_⟩, fun b hb hbl => ?_⟩
    · rw [Function.update_of_ne hne, Function.update_self]
      exact ⟨rfl, Function.update_self _ _ _⟩
    · rw [Function.update_of_ne hb, Function.update_of_ne (by simpa using hbl)]
  | cons q l ih =>
    obtain ⟨fuel, rfl⟩ := Nat.exists_eq_add_one_of_ne_zero (Nat.ne_zero_of_lt hfuel)
    have hnext : link p = some q := hseg.2.1
    rw [linkBehind, hnext]
    dsimp only
    split
    · next hlonger =>
      rw [List.orderedInsert_cons_of_le Longer l hlonger]
      have hlink := Seg.link (l := []) hseg hnodup hrn
      rw [hnext] at hlink
      refine ⟨_, rfl, hlink, fun b hb hbl => ?_⟩
      rw [Function.update_of_ne fun heq => hbl (by simp [heq]), Function.update_of_ne hb]
    · next hshorter =>
      rw [List.orderedInsert_of_not_le Longer l hshorter]
      obtain ⟨hp, hnodup'⟩ := List.nodup_cons.mp hnodup
      obtain ⟨hne, hrn'⟩ := not_or.mp (mt List.mem_cons.mpr hrn)
      obtain ⟨link', hloop, hseg', hframe⟩ := ih (hnext ▸ hseg.2) hnodup' hrn' (by simpa using hfuel)
      refine ⟨link', hloop, ⟨rfl, ?_⟩, fun b hb hbl => ?_⟩
      · rw [hframe p (Ne.symm hne) hp, hnext]
        exact hseg'
      · exact hframe b hb fun hmem => hbl (List.mem_cons_of_mem _ hmem)

theorem linkSegment_spec (hseg : Seg link (some p) l none) (hnodup : l.Nodup) (hrn : rn ∉ l)
    (hfuel : l.length ≤ fuel) :
    ∃ q, linkSegment fuel (p, link) rn = some q ∧
      Seg q.2 (some q.1) (l.orderedInsert Longer rn) none := by
  cases l with
  | nil => exact absurd hseg (by simp)
  | cons p' l =>
    obtain rfl : p = p' := Option.some.inj hseg.1
    rw [linkSegment]
    dsimp only
    split
    · next hlonger =>
      rw [List.orderedInsert_cons_of_le Longer l hlonger]
      exact ⟨_, rfl, hseg.push hrn⟩
    · next hshorter =>
      rw [List.orderedInsert_of_not_le Longer l hshorter]
      obtain ⟨link', hloop, hseg', -⟩ := linkBehind_spec hseg hnodup hrn hfuel
      exact ⟨(p, link'), by rw [hloop, Option.map_some], hseg'⟩

theorem linkAll_spec {rest : List RefNode} (hseg : Seg link (some p) l none)
    (hnodup : (l ++ rest).Nodup) (hfuel : l.length + rest.length ≤ fuel) :
    ∃ q, rest.foldlM (linkSegment fuel) (p, link) = some q ∧
      Seg q.2 (some q.1) (rest.foldl (fun l rn => l.orderedInsert Longer rn) l) none := by
  induction rest generalizing p link l with
  | nil => exact ⟨_, rfl, hseg⟩
  | cons rn rest ih =>
    have hmiddle := List.nodup_middle.mp hnodup
    obtain ⟨hrn, hnodup'⟩ := List.nodup_cons.mp hmiddle
    obtain ⟨q, hround, hseg'⟩ := linkSegment_spec hseg (List.nodup_append.mp hnodup).1
      (fun hl => hrn (List.mem_append_left _ hl)) (by omega : l.length ≤ fuel)
    have hperm := (List.perm_orderedInsert Longer rn l).append_right rest
    rw [List.foldlM_cons, hround]
    refine ih hseg' (hperm.nodup_iff.mpr hmiddle) ?_
    rw [List.orderedInsert_length]
    rw [List.length_cons] at hfuel
    omega

/-- The last loop removes what comes behind the first `max_refer_count` segments. -/
theorem dropSegments_spec {q : Option RefNode} (hseg : Seg link q l none) (hfuel : l.length < fuel)
    (i : ℕ) (segments : HTable 64 ℤ) :
    dropSegments max_refer_count link fuel (i + 1) q segments =
      some ((l.drop (max_refer_count - i)).foldl (fun t rn => t.remove rn.1) segments) := by
  induction l generalizing fuel i q segments with
  | nil =>
    obtain ⟨fuel, rfl⟩ := Nat.exists_eq_add_one_of_ne_zero hfuel.ne'
    obtain rfl : q = none := hseg
    rw [dropSegments, List.drop_nil]
    rfl
  | cons rn l ih =>
    obtain ⟨fuel, rfl⟩ := Nat.exists_eq_add_one_of_ne_zero (Nat.ne_zero_of_lt hfuel)
    obtain ⟨rfl, hrest⟩ := hseg
    rw [dropSegments, ih hrest (by simpa using hfuel), ih hrest (by simpa using hfuel)]
    split
    · next hbehind =>
      rw [Nat.sub_eq_zero_of_le (by omega : max_refer_count ≤ i + 1),
        Nat.sub_eq_zero_of_le (by omega : max_refer_count ≤ i)]
      rfl
    · next hfront =>
      obtain ⟨k, hk⟩ := Nat.exists_eq_add_of_lt (Nat.lt_of_succ_le (not_lt.mp hfront))
      rw [show max_refer_count - i = max_refer_count - (i + 1) + 1 by omega, List.drop_succ_cons]

/-- `sort_segments` ends, whatever the links are, and does what `sortSegments` does. -/
theorem sortSegmentsLinked_eq (h : segments.WF) (hne : segments.size ≠ 0)
    (hfuel : segments.size < fuel) (max_refer_count : ℕ) (link : Links) :
    sortSegmentsLinked fuel max_refer_count segments link =
      some (sortSegments max_refer_count segments) := by
  have hnodup : segments.walk.Nodup := List.Nodup.of_map _ h.nodup_walk
  rw [sortSegmentsLinked, sortSegments, linkSegments]
  rw [h.size_eq] at hne hfuel
  cases hwalk : segments.walk with
  | nil => exact absurd (congrArg List.length hwalk) hne
  | cons rn rest =>
    rw [hwalk] at hnodup hfuel
    rw [List.length_cons] at hfuel
    have hfirst : Seg (Function.update link rn none) (some rn) [rn] none :=
      ⟨rfl, Function.update_self _ _ _⟩
    obtain ⟨q, hlinked, hseg⟩ := linkAll_spec hfirst hnodup
      (by rw [List.length_singleton]; omega : _ ≤ fuel)
    have hlength : (rest.foldl (fun l rn => l.orderedInsert Longer rn) [rn]).length < fuel := by
      have hperm := linkSegments_perm (rn :: rest)
      rw [linkSegments, List.foldl_cons] at hperm
      exact hperm.length_eq ▸ hfuel
    dsimp only
    rw [hlinked, Option.bind_some, dropSegments_spec hseg hlength 0 segments, Option.map_some]
    rfl

/-- The first segment is longer, or as long and earlier in the list. -/
def Before (l : List RefNode) (a b : RefNode) : Prop :=
  b.2 < a.2 ∨ b.2 = a.2 ∧ l.idxOf a < l.idxOf b

instance (l : List RefNode) (a b : RefNode) : Decidable (Before l a b) :=
  inferInstanceAs (Decidable (_ ∨ _))

/-- An insertion in front of the first element that belongs behind. -/
theorem pairwise_orderedInsert {α : Type*} {r : α → α → Prop} [DecidableRel r] {R : α → α → Prop}
    {a : α} {l : List α} (h : l.Pairwise R) (hfront : ∀ b ∈ l, ¬r a b → R b a)
    (hbehind : ∀ b ∈ l, r a b → R a b) (hrest : ∀ b ∈ l, ∀ c ∈ l, R b c → r a b → r a c) :
    (l.orderedInsert r a).Pairwise R := by
  induction l with
  | nil => exact List.pairwise_singleton R a
  | cons b l ih =>
    obtain ⟨hb, hl⟩ := List.pairwise_cons.mp h
    by_cases hab : r a b
    · rw [List.orderedInsert_cons_of_le r l hab]
      refine List.pairwise_cons.mpr ⟨fun c hc => hbehind c hc ?_, h⟩
      rcases List.mem_cons.mp hc with rfl | hc'
      · exact hab
      · exact hrest b List.mem_cons_self c hc (hb c hc') hab
    · rw [List.orderedInsert_of_not_le r l hab]
      refine List.pairwise_cons.mpr ⟨fun c hc => ?_, ih hl
        (fun c hc => hfront c (List.mem_cons_of_mem _ hc))
        (fun c hc => hbehind c (List.mem_cons_of_mem _ hc))
        fun c hc d hd => hrest c (List.mem_cons_of_mem _ hc) d (List.mem_cons_of_mem _ hd)⟩
      rcases List.mem_cons.mp ((List.perm_orderedInsert r a l).mem_iff.mp hc) with rfl | hc'
      · exact hfront b List.mem_cons_self hab
      · exact hb c hc'

theorem linkSegments_before (hnodup : l.Nodup) : (linkSegments l).Pairwise (Before l) := by
  induction l using List.reverseRecOn with
  | nil => exact List.Pairwise.nil
  | append_singleton l a ih =>
    have ha : a ∉ l := (List.nodup_cons.mp (List.nodup_append_comm.mp hnodup)).1
    have hperm := linkSegments_perm l
    have hidx : ∀ b ∈ l, (l ++ [a]).idxOf b = l.idxOf b ∧ l.idxOf b < (l ++ [a]).idxOf a := by
      intro b hb
      rw [List.idxOf_append_of_mem hb, List.idxOf_append_of_notMem ha]
      exact ⟨rfl, Nat.lt_add_right _ (List.idxOf_lt_length_of_mem hb)⟩
    have hsame : (linkSegments l).Pairwise (Before (l ++ [a])) := by
      refine (ih (List.nodup_append.mp hnodup).1).imp_of_mem fun {b c} hb hc hbc => ?_
      rw [Before, (hidx b (hperm.mem_iff.mp hb)).1, (hidx c (hperm.mem_iff.mp hc)).1]
      exact hbc
    rw [linkSegments, List.foldl_append]
    refine pairwise_orderedInsert hsame (fun b hb hab => ?_) (fun b _ hab => .inl hab)
      fun b _ c _ hbc hab => ?_
    · have hlt := (hidx b (hperm.mem_iff.mp hb)).2
      rw [← (hidx b (hperm.mem_iff.mp hb)).1] at hlt
      rcases lt_or_eq_of_le (not_lt.mp hab) with hless | heq
      · exact .inl hless
      · exact .inr ⟨heq, hlt⟩
    · rcases hbc with hless | ⟨heq, -⟩
      · exact hless.trans hab
      · exact heq ▸ hab

/-- The table holds the first `max_refer_count` segments of the list. -/
theorem sortSegments_kept (h : segments.WF) (max_refer_count : ℕ) :
    (sortSegments max_refer_count segments).2.walk.Perm
      ((linkSegments segments.walk).take max_refer_count) ∧
    (sortSegments max_refer_count segments).2.WF := by
  have hperm := linkSegments_perm segments.walk
  have hnodup : (((linkSegments segments.walk).drop max_refer_count).map Prod.fst).Nodup := by
    rw [List.map_drop]
    exact ((hperm.map Prod.fst).nodup_iff.mpr h.nodup).sublist (List.drop_sublist _ _)
  have hsub : (linkSegments segments.walk).drop max_refer_count ⊆ segments.walk :=
    fun p hp => hperm.mem_iff.mp (List.mem_of_mem_drop hp)
  obtain ⟨hwf, hall⟩ := removeAll_spec h hnodup hsub
  refine ⟨?_, hwf⟩
  have hwalk := hall.trans hperm.symm
  nth_rewrite 3 [← List.take_append_drop max_refer_count (linkSegments segments.walk)] at hwalk
  exact (List.perm_append_left_iff _).mp (hwalk.trans List.perm_append_comm)

end TCBackup.Client
