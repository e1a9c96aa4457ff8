import UrBackup.TreeDiff.Ids

namespace urbackup.treediff

/-- Below a matched parent with old children `c1s`, the new node is either
unknown there or a file whose record changed. -/
def NewOrModified (c1s : List TreeNode) (c2 : TreeNode) : Prop :=
  (∀ c1 ∈ c1s, ¬ c1.SameKey c2) ∨
    (c2.getType = .file ∧ ∃ c1 ∈ c1s, c1.SameKey c2 ∧ c1.getData ≠ c2.getData)

/-- The node is a file and the old level has a file of that name. -/
def HasOldFile (c1s : List TreeNode) (c2 : TreeNode) : Prop :=
  c2.getType = .file ∧ ∃ c1 ∈ c1s, c1.SameKey c2

section Own

variable {cfg : DiffConfig} {c1s : List TreeNode} {c2 : TreeNode}

theorem file_of_not_pairs {c1 : TreeNode} (hkey : c1.SameKey c2) (hc2 : c2.IsEntry)
    (hpair : ¬ Pairs c1 c2) : c2.getType = .file ∧ c1.getData ≠ c2.getData := by
  have hdata : c1.getData ≠ c2.getData := fun h => hpair ⟨hkey, Or.inr h⟩
  have hdir : c2.getType ≠ .dir := fun h => hpair ⟨hkey, Or.inl h⟩
  refine ⟨?_, hdata⟩
  unfold TreeNode.IsEntry at hc2
  cases h : c2.getType <;> simp_all

theorem mem_ownEffect_diffs (hd : Distinct c1s) (hc2 : c2.IsEntry) (x : Nat) :
    x ∈ (ownEffect cfg c1s c2).diffs ↔ c2.getId = x ∧ NewOrModified c1s c2 := by
  unfold ownEffect
  cases hc : counterpart c1s c2 with
  | none =>
    have hnew : NewOrModified c1s c2 := Or.inl (counterpart_eq_none.mp hc)
    simp [hnew, eq_comm]
  | some c1 =>
    have hmem := counterpart_mem hc
    have hkey := counterpart_sameKey hc
    by_cases hpair : Pairs c1 c2
    · have hnot : ¬ NewOrModified c1s c2 := by
        rintro (hnew | ⟨hfile, d1, hd1, hdkey, hdata⟩)
        · exact hnew c1 hmem hkey
        · have heq := hd.eq_of_sameKey hd1 hmem (hdkey.trans hkey.symm)
          subst heq
          rcases hpair.2 with hdir | heq
          · rw [hfile] at hdir
            cases hdir
          · exact hdata heq
      simp [hpair, pairEffect, hnot]
    · obtain ⟨hfile, hdata⟩ := file_of_not_pairs hkey hc2 hpair
      have hmod : NewOrModified c1s c2 := Or.inr ⟨hfile, c1, hmem, hkey, hdata⟩
      simp [hpair, modifiedEffect, hmod, eq_comm]

theorem mem_ownEffect_modified (hd : Distinct c1s) (hc2 : c2.IsEntry) (x : Nat) :
    x ∈ (ownEffect cfg c1s c2).modified ↔ c2.getId = x ∧ NewOrModified c1s c2 ∧ HasOldFile c1s c2 := by
  unfold ownEffect
  cases hc : counterpart c1s c2 with
  | none =>
    have hnot : ¬ HasOldFile c1s c2 := fun ⟨_, c1, h1, hkey⟩ => counterpart_eq_none.mp hc c1 h1 hkey
    simp [hnot]
  | some c1 =>
    have hmem := counterpart_mem hc
    have hkey := counterpart_sameKey hc
    by_cases hpair : Pairs c1 c2
    · have hnone : c2.getId ∈ (ownEffect cfg c1s c2).diffs ↔ _ := mem_ownEffect_diffs hd hc2 c2.getId
      simp [ownEffect, hc, hpair, pairEffect] at hnone
      simp [hpair, pairEffect, hnone]
    · obtain ⟨hfile, hdata⟩ := file_of_not_pairs hkey hc2 hpair
      have hmod : NewOrModified c1s c2 := Or.inr ⟨hfile, c1, hmem, hkey, hdata⟩
      have hold : HasOldFile c1s c2 := ⟨hfile, c1, hmem, hkey⟩
      simp [hpair, modifiedEffect, hmod, hold, eq_comm]

theorem mem_ownEffect_dirDiffs (hd : Distinct c1s) (x : Nat) :
    x ∈ (ownEffect cfg c1s c2).dirDiffs ↔
      c2.getId = x ∧ c2.getType = .dir ∧ ∃ c1 ∈ c1s, Pairs c1 c2 ∧ c1.getData ≠ c2.getData := by
  unfold ownEffect
  cases hc : counterpart c1s c2 with
  | none =>
    have hno := counterpart_eq_none.mp hc
    simp only [List.not_mem_nil, false_iff, not_and, not_exists]
    exact fun _ _ c1 h1 hp _ => hno c1 h1 hp.1
  | some c1 =>
    have hmem := counterpart_mem hc
    have hkey := counterpart_sameKey hc
    have honly : ∀ d1 ∈ c1s, Pairs d1 c2 → d1 = c1 := fun d1 h1 hp =>
      hd.eq_of_sameKey h1 hmem (hp.1.trans hkey.symm)
    by_cases hpair : Pairs c1 c2
    · by_cases hdata : c1.getData = c2.getData
      · simp only [if_pos hpair, pairEffect, if_pos hdata, Effect.append_dirDiffs, List.append_nil,
          List.not_mem_nil, false_iff, not_and, not_exists]
        exact fun _ _ d1 h1 hp hne => hne (honly d1 h1 hp ▸ hdata)
      · have hdir : c2.getType = .dir := hpair.2.resolve_right hdata
        simp only [if_pos hpair, pairEffect, if_neg hdata, Effect.append_dirDiffs, List.append_nil,
          List.mem_singleton]
        exact ⟨fun h => ⟨h.symm, hdir, c1, hmem, hpair, hdata⟩, fun h => h.1.symm⟩
    · simp only [if_neg hpair, modifiedEffect, List.not_mem_nil, false_iff, not_and, not_exists]
      exact fun _ _ d1 h1 hp _ => hpair (honly d1 h1 hp ▸ hp)

theorem mem_ownEffect_maps (hd : Distinct c1s) (p : Nat × Nat) :
    p ∈ (ownEffect cfg c1s c2).maps ↔ ∃ c1 ∈ c1s, Pairs c1 c2 ∧ p = (c1.ptr, c2.ptr) := by
  unfold ownEffect
  cases hc : counterpart c1s c2 with
  | none =>
    have hno := counterpart_eq_none.mp hc
    simp only [List.not_mem_nil, false_iff, not_exists, not_and]
    exact fun c1 h1 hp _ => hno c1 h1 hp.1
  | some c1 =>
    have hmem := counterpart_mem hc
    have hkey := counterpart_sameKey hc
    have honly : ∀ d1 ∈ c1s, Pairs d1 c2 → d1 = c1 := fun d1 h1 hp =>
      hd.eq_of_sameKey h1 hmem (hp.1.trans hkey.symm)
    by_cases hpair : Pairs c1 c2
    · simp only [if_pos hpair, pairEffect, Effect.append_maps, List.nil_append, List.mem_singleton]
      constructor
      · exact fun h => ⟨c1, hmem, hpair, h⟩
      · rintro ⟨d1, h1, hp, h⟩
        exact honly d1 h1 hp ▸ h
    · simp only [if_neg hpair, modifiedEffect, List.not_mem_nil, false_iff, not_exists, not_and]
      exact fun d1 h1 hp _ => hpair (honly d1 h1 hp ▸ hp)

end Own

theorem FileTree.eq_of_ptr_eq (t : FileTree) {c d : TreeNode} (hc : c ∈ flatten t.root.children)
    (hd : d ∈ flatten t.root.children) (h : c.ptr = d.ptr) : c = d := by
  have hnodup := (List.nodup_cons.mp t.addresses).2
  rw [ptrs_eq_map_flatten] at hnodup
  exact List.inj_on_of_nodup_map hnodup hc hd h

theorem FileTree.eq_of_id_eq (t : FileTree) {c d : TreeNode} (hc : c ∈ flatten t.root.children)
    (hd : d ∈ flatten t.root.children) (h : c.getId = d.getId) : c = d :=
  List.inj_on_of_nodup_map t.lines hc hd h

section Trees

variable (cfg : DiffConfig) (t1 t2 : FileTree)

/-- The levels matched from the two roots. -/
abbrev FileTree.LevelMatched (c1s c2s : List TreeNode) : Prop :=
  MatchedLevel t1.root.children t2.root.children c1s c2s

/-- The nodes matched from the two roots. -/
abbrev FileTree.NodeMatched (c1 c2 : TreeNode) : Prop :=
  Matched t1.root.children t2.root.children c1 c2

theorem mem_levelEffect_maps (p : Nat × Nat) :
    p ∈ (levelEffect cfg t1.root.children t2.root.children).maps ↔
      ∃ c1 c2, t1.NodeMatched t2 c1 c2 ∧ p = (c1.ptr, c2.ptr) := by
  rw [mem_levelEffect_iff Effect.maps (fun _ _ => rfl) rfl cfg _ _ t1.distinct t1.sorted]
  constructor
  · rintro ⟨c1s, c2s, hlevel, c2, h2, hp⟩
    obtain ⟨c1, h1, hpair, rfl⟩ := (mem_ownEffect_maps (hlevel.distinct t1.distinct t1.sorted).1 p).mp hp
    exact ⟨c1, c2, ⟨c1s, c2s, hlevel, h1, h2, hpair⟩, rfl⟩
  · rintro ⟨c1, c2, ⟨c1s, c2s, hlevel, h1, h2, hpair⟩, rfl⟩
    exact ⟨c1s, c2s, hlevel, c2, h2,
      (mem_ownEffect_maps (hlevel.distinct t1.distinct t1.sorted).1 _).mpr ⟨c1, h1, hpair, rfl⟩⟩

/-- An old node stays unmapped exactly when no new node matches it. -/
theorem unmapped_iff {flag : Prop} {st st' : DiffState} (hstart : ∀ p, st.mapped1 p = none)
    (happ : Applied [t2.root.ptr] (levelEffect cfg t1.root.children t2.root.children) flag st st')
    {c1 : TreeNode} (hc1 : c1 ∈ flatten t1.root.children) :
    st'.mapped1 c1.ptr = none ↔ ∀ c2, ¬ t1.NodeMatched t2 c1 c2 := by
  rw [happ.mapped1, applyMaps1_eq_none]
  simp only [hstart, true_and]
  constructor
  · intro h c2 hmatch
    exact h (c1.ptr, c2.ptr) ((mem_levelEffect_maps cfg t1 t2 _).mpr ⟨c1, c2, hmatch, rfl⟩) rfl
  · intro h p hp heq
    obtain ⟨d1, d2, hmatch, rfl⟩ := (mem_levelEffect_maps cfg t1 t2 p).mp hp
    obtain ⟨c1s, c2s, hlevel, h1, _⟩ := id hmatch
    rw [t1.eq_of_ptr_eq (hlevel.flatten_subset.1 (mem_flatten_of_mem h1)) hc1 heq] at hmatch
    exact h d2 hmatch

/-- `diffTrees` with every optional result requested into an empty vector, as
the incremental backup calls it. -/
def FileTree.diff : DiffResult :=
  diffTrees cfg t1.root t2.root (some []) (some []) (some []) [] (some [])

/-- The tree diff is exact. The merge over sorted siblings, the search on the
unsorted root level and the two ends of the lists together report precisely the
new and modified nodes below matched parents, the matched directories with a
changed record, the files modified in place and the old nodes without match. All
six lists ascend, no id comes twice. -/
theorem diffTrees_exact :
    (∀ x, x ∈ (t1.diff cfg t2).diffs ↔
      ∃ c1s c2s c2, t1.LevelMatched t2 c1s c2s ∧ c2 ∈ c2s ∧ c2.getId = x ∧ NewOrModified c1s c2) ∧
    (∀ x, x ∈ (t1.diff cfg t2).dir_diffs ↔
      ∃ c1 c2, t1.NodeMatched t2 c1 c2 ∧ c2.getType = .dir ∧ c1.getData ≠ c2.getData ∧ c2.getId = x) ∧
    (∃ modified, (t1.diff cfg t2).modified_inplace_ids = some modified ∧ modified.Pairwise (· < ·) ∧
      ∀ x, x ∈ modified ↔ ∃ c1s c2s c2, t1.LevelMatched t2 c1s c2s ∧ c2 ∈ c2s ∧ c2.getId = x ∧
        NewOrModified c1s c2 ∧ HasOldFile c1s c2) ∧
    (∃ deleted, (t1.diff cfg t2).deleted_ids = some deleted ∧ deleted.Pairwise (· < ·) ∧
      ∀ x, x ∈ deleted ↔ ∃ c1 ∈ flatten t1.root.children, c1.getId = x ∧
        ∀ c2, ¬ t1.NodeMatched t2 c1 c2) ∧
    (t1.diff cfg t2).diffs.Pairwise (· < ·) ∧ (t1.diff cfg t2).dir_diffs.Pairwise (· < ·) ∧
    (∃ large, (t1.diff cfg t2).large_unchanged_subtrees = some large ∧ large.Pairwise (· < ·)) ∧
    ∃ deleted, (t1.diff cfg t2).deleted_inplace_ids = some deleted ∧ deleted.Pairwise (· < ·) := by
  obtain ⟨flag, happ⟩ := gatherDiffs_root cfg t1 t2 (some []) [] (some [])
  have hentry : ∀ c1s c2s c2, t1.LevelMatched t2 c1s c2s → c2 ∈ c2s → c2.IsEntry := by
    intro c1s c2s c2 hlevel h2
    exact (hlevel.distinct_right t2.distinct t2.sorted).1.entries c2 h2
  have hold : ∀ c1s c2s, t1.LevelMatched t2 c1s c2s → Distinct c1s := fun c1s c2s hlevel =>
    (hlevel.distinct t1.distinct t1.sorted).1
  obtain ⟨hdiffs, hmodified, hdir⟩ := levelEffect_sublist cfg t1.root.children t2.root.children
  unfold FileTree.diff diffTrees
  simp only [Option.map_some, gatherDeletes_eq, gatherDeletesLoop_eq, gatherLargeUnchangedSubtrees_eq, List.nil_append]
  refine ⟨fun x => ?_, fun x => ?_,
    ⟨_, by rw [happ.modified]; rfl, sortIds_strict (hmodified.nodup t2.lines), fun x => ?_⟩,
    ⟨_, rfl, sortIds_strict ((List.filter_sublist.map _).nodup t1.lines), fun x => ?_⟩,
    sortIds_strict (happ.diffs ▸ hdiffs.nodup t2.lines), sortIds_strict (happ.dir_diffs ▸ hdir.nodup t2.lines),
    ⟨_, rfl, ?_⟩, ⟨_, by rw [happ.deleted]; rfl, ?_⟩⟩
  · rw [mem_sortIds, happ.diffs, DiffState.start, List.nil_append,
      mem_levelEffect_iff Effect.diffs (fun _ _ => rfl) rfl cfg _ _ t1.distinct t1.sorted]
    constructor
    · rintro ⟨c1s, c2s, hlevel, c2, h2, hx⟩
      obtain ⟨hid, hnew⟩ := (mem_ownEffect_diffs (hold _ _ hlevel) (hentry _ _ _ hlevel h2) x).mp hx
      exact ⟨c1s, c2s, c2, hlevel, h2, hid, hnew⟩
    · rintro ⟨c1s, c2s, c2, hlevel, h2, hid, hnew⟩
      exact ⟨c1s, c2s, hlevel, c2, h2,
        (mem_ownEffect_diffs (hold _ _ hlevel) (hentry _ _ _ hlevel h2) x).mpr ⟨hid, hnew⟩⟩
  · rw [mem_sortIds, happ.dir_diffs, DiffState.start, List.nil_append,
      mem_levelEffect_iff Effect.dirDiffs (fun _ _ => rfl) rfl cfg _ _ t1.distinct t1.sorted]
    constructor
    · rintro ⟨c1s, c2s, hlevel, c2, h2, hx⟩
      obtain ⟨hid, hdir, c1, h1, hpair, hdata⟩ := (mem_ownEffect_dirDiffs (hold _ _ hlevel) x).mp hx
      exact ⟨c1, c2, ⟨c1s, c2s, hlevel, h1, h2, hpair⟩, hdir, hdata, hid⟩
    · rintro ⟨c1, c2, ⟨c1s, c2s, hlevel, h1, h2, hpair⟩, hdir, hdata, hid⟩
      exact ⟨c1s, c2s, hlevel, c2, h2,
        (mem_ownEffect_dirDiffs (hold _ _ hlevel) x).mpr ⟨hid, hdir, c1, h1, hpair, hdata⟩⟩
  · simp only [mem_sortIds]
    rw [mem_levelEffect_iff Effect.modified (fun _ _ => rfl) rfl cfg _ _ t1.distinct t1.sorted]
    constructor
    · rintro ⟨c1s, c2s, hlevel, c2, h2, hx⟩
      obtain ⟨hid, hmod⟩ := (mem_ownEffect_modified (hold _ _ hlevel) (hentry _ _ _ hlevel h2) x).mp hx
      exact ⟨c1s, c2s, c2, hlevel, h2, hid, hmod⟩
    · rintro ⟨c1s, c2s, c2, hlevel, h2, hid, hmod⟩
      exact ⟨c1s, c2s, hlevel, c2, h2,
        (mem_ownEffect_modified (hold _ _ hlevel) (hentry _ _ _ hlevel h2) x).mpr ⟨hid, hmod⟩⟩
  · rw [mem_sortIds, List.mem_map]
    simp only [List.mem_filter, Option.isNone_iff_eq_none]
    constructor
    · rintro ⟨c1, ⟨h1, hnone⟩, hid⟩
      exact ⟨c1, h1, hid, (unmapped_iff cfg t1 t2 (fun _ => rfl) happ h1).mp hnone⟩
    · rintro ⟨c1, h1, hid, hno⟩
      exact ⟨c1, ⟨h1, (unmapped_iff cfg t1 t2 (fun _ => rfl) happ h1).mpr hno⟩, hid⟩
  · obtain ⟨large, hsub, heq⟩ := gatherLargeLoop_sublist _ t2.root.children []
    exact sortIds_strict (heq ▸ hsub.nodup t2.lines)
  · obtain ⟨deleted, hperm, hsub⟩ := @levelEffect_deletedInplace_subperm cfg _ _ t2.distinct t2.sorted
    exact sortIds_strict (hperm.nodup_iff.mp (hsub.nodup t1.lines))

end Trees

end urbackup.treediff
