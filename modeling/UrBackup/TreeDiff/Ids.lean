import UrBackup.TreeDiff.Matching

namespace urbackup.treediff

theorem mem_sortIds (x : Nat) (ids : List Nat) : x ∈ sortIds ids ↔ x ∈ ids :=
  (List.perm_insertionSort (· ≤ ·) ids).mem_iff

theorem sortIds_sorted (ids : List Nat) : (sortIds ids).Pairwise (· ≤ ·) :=
  List.pairwise_insertionSort (· ≤ ·) ids

theorem sortIds_strict {ids : List Nat} (h : ids.Nodup) : (sortIds ids).Pairwise (· < ·) :=
  ((sortIds_sorted ids).and ((List.perm_insertionSort (· ≤ ·) ids).nodup_iff.mpr h)).imp
    fun h => lt_of_le_of_ne h.1 h.2

/-- The lines of a forest. -/
abbrev ids (ts : List TreeNode) : List Nat :=
  (flatten ts).map TreeNode.getId

section Level

variable {cfg : DiffConfig} {c1 c2 : TreeNode} {c1s c2s : List TreeNode}

theorem nodeEffect_sublist
    (hbelow : ∀ c1s, (levelEffect cfg c1s c2.children).diffs.Sublist (ids c2.children) ∧
      (levelEffect cfg c1s c2.children).modified.Sublist (ids c2.children) ∧
      (levelEffect cfg c1s c2.children).dirDiffs.Sublist (ids c2.children)) :
    (nodeEffect cfg c1s c2).diffs.Sublist (c2.getId :: ids c2.children) ∧
      (nodeEffect cfg c1s c2).modified.Sublist (c2.getId :: ids c2.children) ∧
      (nodeEffect cfg c1s c2).dirDiffs.Sublist (c2.getId :: ids c2.children) := by
  cases hc : counterpart c1s c2 with
  | none => simp [nodeEffect_none cfg hc]
  | some c1 =>
    by_cases hpair : Pairs c1 c2
    · obtain ⟨hdiffs, hmodified, hdir⟩ := hbelow c1.children
      rw [nodeEffect_pair hc hpair]
      simp only [pairEffect, Effect.append_diffs, Effect.append_modified, Effect.append_dirDiffs, List.nil_append,
        List.append_nil]
      refine ⟨hdiffs.cons _, hmodified.cons _, ?_⟩
      split
      · exact hdir.cons _
      · exact hdir.cons_cons _
    · simp [nodeEffect_modified hc hpair, modifiedEffect]

/-- The ids of new nodes come in the order of the new list. -/
theorem levelEffect_sublist (cfg : DiffConfig) (c1s c2s : List TreeNode) :
    (levelEffect cfg c1s c2s).diffs.Sublist (ids c2s) ∧ (levelEffect cfg c1s c2s).modified.Sublist (ids c2s) ∧
      (levelEffect cfg c1s c2s).dirDiffs.Sublist (ids c2s) := by
  induction c2s using TreeNode.forest_induct generalizing c1s with
  | nil => simp
  | cons c2 rest ihc ihr =>
    obtain ⟨hdiffs, hmodified, hdir⟩ := @nodeEffect_sublist cfg c2 c1s ihc
    obtain ⟨rdiffs, rmodified, rdir⟩ := ihr c1s
    simp only [levelEffect_cons, ids, flatten_cons, List.map_append, List.map_cons, Effect.append_diffs,
      Effect.append_modified, Effect.append_dirDiffs]
    exact ⟨hdiffs.append rdiffs, hmodified.append rmodified, hdir.append rdir⟩

theorem counterpart_skip {pre post : List TreeNode} (h : ¬ c1.SameKey c2) :
    counterpart (pre ++ c1 :: post) c2 = counterpart (pre ++ post) c2 := by
  simp [counterpart, List.find?_append, h]

theorem levelEffect_skip {pre post : List TreeNode} (h : ∀ c2 ∈ c2s, ¬ c1.SameKey c2) :
    levelEffect cfg (pre ++ c1 :: post) c2s = levelEffect cfg (pre ++ post) c2s := by
  induction c2s with
  | nil => simp
  | cons c2 c2s ih =>
    obtain ⟨hc2, hrest⟩ := List.forall_mem_cons.mp h
    have hnode : nodeEffect cfg (pre ++ c1 :: post) c2 = nodeEffect cfg (pre ++ post) c2 := by
      cases c2
      simp only [nodeEffect, counterpart_skip hc2]
    rw [levelEffect_cons, levelEffect_cons, hnode, ih hrest]

/-- Every old node has one counterpart at most, so its id is listed once. -/
theorem levelEffect_deletedInplace_subperm (hd : Distinct c2s) (hs : SortedBelow c2s) :
    (levelEffect cfg c1s c2s).deletedInplace.Subperm (ids c1s) := by
  induction c2s using TreeNode.forest_induct generalizing c1s with
  | nil => simp
  | cons c2 rest ihc ihr =>
    obtain ⟨hkeys, hunique⟩ := List.pairwise_cons.mp hd.unique
    have hdrest : Distinct rest := ⟨(List.forall_mem_cons.mp hd.entries).2, hunique⟩
    have hsrest : SortedBelow rest := by cases hs; assumption
    obtain ⟨hord, hbelow⟩ := hs.of_mem (t := c2) (by simp)
    rw [levelEffect_cons, Effect.append_deletedInplace]
    cases hc : counterpart c1s c2 with
    | none => simpa [nodeEffect_none cfg hc] using ihr hdrest hsrest
    | some c1 =>
      obtain ⟨pre, post, rfl⟩ := List.append_of_mem (counterpart_mem hc)
      rw [levelEffect_skip fun d2 hd2 hkey => hkeys d2 hd2 ((counterpart_sameKey hc).symm.trans hkey)]
      have hnode : (nodeEffect cfg (pre ++ c1 :: post) c2).deletedInplace.Subperm (c1.getId :: ids c1.children) := by
        by_cases hpair : Pairs c1 c2
        · rw [nodeEffect_pair hc hpair]
          simpa [pairEffect] using (ihc hord.distinct hbelow).cons_right c1.getId
        · rw [nodeEffect_modified hc hpair, modifiedEffect]
          split
          · exact (List.singleton_sublist.mpr (by simp)).subperm
          · exact List.nil_subperm
      refine (hnode.append (ihr hdrest hsrest)).trans (List.Perm.subperm ?_)
      simp only [ids, flatten_append, flatten_cons, List.map_append, List.map_cons]
      grind

end Level

theorem gatherDeletes_eq (mapped1 : Nat → Option Nat) (t : TreeNode) :
    gatherDeletes mapped1 t = gatherDeletesLoop mapped1 t.children := by
  cases t
  funext deleted_ids
  simp [gatherDeletes]

/-- `gatherDeletes` lists the unmapped nodes of the old tree. -/
theorem gatherDeletesLoop_eq (mapped1 : Nat → Option Nat) (c1s : List TreeNode) (acc : List Nat) :
    gatherDeletesLoop mapped1 c1s acc =
      acc ++ ((flatten c1s).filter fun c1 => (mapped1 c1.ptr).isNone).map TreeNode.getId := by
  induction c1s using TreeNode.forest_induct generalizing acc with
  | nil => simp [gatherDeletesLoop]
  | cons c1 rest ihc ihr =>
    rw [gatherDeletesLoop, gatherDeletes_eq, ihr, ihc, flatten_cons, List.filter_append, List.filter_cons]
    cases mapped1 c1.ptr with
    | none => simp
    | some _ => simp

theorem gatherLargeUnchangedSubtrees_eq (st : DiffState) (t : TreeNode) :
    gatherLargeUnchangedSubtrees st t = gatherLargeLoop st t.children := by
  cases t
  funext large
  simp [gatherLargeUnchangedSubtrees]

theorem gatherLargeLoop_sublist (st : DiffState) (c2s : List TreeNode) (acc : List Nat) :
    ∃ large, large.Sublist (ids c2s) ∧ gatherLargeLoop st c2s acc = acc ++ large := by
  induction c2s using TreeNode.forest_induct generalizing acc with
  | nil => exact ⟨[], by simp, by simp [gatherLargeLoop]⟩
  | cons c2 rest ihc ihr =>
    rw [gatherLargeLoop, gatherLargeUnchangedSubtrees_eq, ids, flatten_cons, List.map_append, List.map_cons]
    split
    · obtain ⟨large, hsub, heq⟩ := ihr (acc ++ [c2.getId])
      refine ⟨[c2.getId] ++ large, ((List.nil_sublist _).cons_cons _).append hsub, ?_⟩
      rw [heq, List.append_assoc]
    · obtain ⟨below, hbelow, heq⟩ := ihc acc
      obtain ⟨large, hsub, heq'⟩ := ihr (acc ++ below)
      refine ⟨below ++ large, (hbelow.cons _).append hsub, ?_⟩
      rw [heq, heq', List.append_assoc]

end urbackup.treediff
