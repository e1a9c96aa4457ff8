import UrBackup.TreeDiff.Exact

namespace urbackup.treediff

/-- Two levels are identical: the same entries with the same records, and below
each of them identical levels again. -/
inductive SameForest : List TreeNode → List TreeNode → Prop where
  | nil : SameForest [] []
  | cons {c1 c2 : TreeNode} {c1s c2s : List TreeNode} (hkey : c1.SameKey c2)
      (hdata : c1.getData = c2.getData) (hchildren : SameForest c1.children c2.children)
      (hrest : SameForest c1s c2s) : SameForest (c1 :: c1s) (c2 :: c2s)

theorem SameForest.length_eq {c1s c2s : List TreeNode} (h : SameForest c1s c2s) :
    (flatten c1s).length = (flatten c2s).length := by
  induction h with
  | nil => rfl
  | cons _ _ _ _ ihc ihr => simp [ihc, ihr]

theorem SameForest.child {c1s c2s : List TreeNode} (h : SameForest c1s c2s) {c2 : TreeNode}
    (h2 : c2 ∈ c2s) : ∃ c1 ∈ c1s, c1.SameKey c2 ∧ SameForest c1.children c2.children := by
  induction h with
  | nil => simp at h2
  | @cons d1 d2 d1s d2s hkey _ hchildren _ _ ih =>
    rcases List.mem_cons.mp h2 with rfl | h2
    · exact ⟨d1, by simp, hkey, hchildren⟩
    · obtain ⟨c1, h1, hk, hc⟩ := ih h2
      exact ⟨c1, by simp [h1], hk, hc⟩

theorem SameForest.pair {c1s c2s : List TreeNode} (h : SameForest c1s c2s) (hd : Distinct c1s)
    {c1 c2 : TreeNode} (h1 : c1 ∈ c1s) (h2 : c2 ∈ c2s) (hpair : Pairs c1 c2) :
    SameForest c1.children c2.children := by
  obtain ⟨d1, hd1, hkey, hchildren⟩ := h.child h2
  rwa [hd.eq_of_sameKey h1 hd1 (hpair.1.trans hkey.symm)]

/-- Below identical levels every matched pair is identical. -/
theorem SameForest.matched {r1 r2 : List TreeNode} (h : SameForest r1 r2) (hd : Distinct r1)
    (hs : SortedBelow r1) {c1 c2 : TreeNode} (hmatch : Matched r1 r2 c1 c2) :
    SameForest c1.children c2.children := by
  obtain ⟨c1s, c2s, hlevel, h1, h2, hpair⟩ := hmatch
  have hsame : SameForest c1s c2s := by
    clear h1 h2
    induction hlevel with
    | root => exact h
    | child hlevel' hm1 hm2 hp ih => exact ih.pair (hlevel'.distinct hd hs).1 hm1 hm2 hp
  exact hsame.pair (hlevel.distinct hd hs).1 h1 h2 hpair

/-- A level that looks unchanged has at most as many nodes as the old one, and
is identical to it if it has as many. -/
theorem looksUnchanged_count {cfg : DiffConfig} {c2s : List TreeNode} :
    ∀ c1s, looksUnchanged cfg c2s c1s = true → (flatten c2s).length ≤ (flatten c1s).length ∧
      ((flatten c1s).length ≤ (flatten c2s).length → SameForest c1s c2s) := by
  induction c2s using TreeNode.forest_induct with
  | nil =>
    intro c1s _
    refine ⟨by simp, fun hle => ?_⟩
    cases c1s with
    | nil => exact .nil
    | cons c1 c1s => simp at hle
  | cons c2 rest ihc ihr =>
    intro c1s hlook
    cases c1s with
    | nil => simp at hlook
    | cons c1 c1s =>
      rw [looksUnchanged_cons] at hlook
      obtain ⟨hkey, hdata, _, hchildren, hrest⟩ := hlook
      obtain ⟨hlec, hsamec⟩ := ihc c1.children hchildren
      obtain ⟨hler, hsamer⟩ := ihr c1s hrest
      simp only [flatten_cons, List.length_append, List.length_cons]
      exact ⟨by omega, fun hle => .cons hkey hdata (hsamec (by omega)) (hsamer (by omega))⟩

/-- The number of nodes of a subtree. -/
def numNodes (t : TreeNode) : Nat :=
  (flatten t.children).length + 1

theorem getTreesize_eq (limit : Nat) (t : TreeNode) : getTreesize limit t = getTreesizeLoop limit t.children 1 := by
  cases t
  simp [getTreesize]

theorem getTreesizeLoop_spec (limit : Nat) (cs : List TreeNode) :
    ∀ acc, (limit < getTreesizeLoop limit cs acc ↔ limit < acc + (flatten cs).length) ∧
      (getTreesizeLoop limit cs acc ≤ limit → getTreesizeLoop limit cs acc = acc + (flatten cs).length) := by
  induction cs using TreeNode.forest_induct with
  | nil => simp [getTreesizeLoop]
  | cons c rest ihc ihr =>
    intro acc
    obtain ⟨hlt, hexact⟩ := ihc 1
    simp only [getTreesizeLoop, flatten_cons, List.length_append, List.length_cons]
    rw [← getTreesize_eq] at hlt hexact
    generalize getTreesize limit c = treesize at *
    split
    · constructor <;> omega
    · have := ihr (acc + treesize)
      constructor <;> omega

/-- Giving up early does not change the answer to "more than `limit` nodes?". -/
theorem limit_lt_getTreesize (limit : Nat) (t : TreeNode) :
    limit < getTreesize limit t ↔ limit < numNodes t := by
  rw [getTreesize_eq, (getTreesizeLoop_spec limit t.children 1).1, numNodes, Nat.add_comm]

/-- The test `gatherLargeUnchangedSubtrees` makes on a node. -/
def Qualifies (st : DiffState) (c2 : TreeNode) : Prop :=
  st.changed c2.ptr = false ∧ st.mapped2 c2.ptr ≠ none ∧ 10 < numNodes c2

/-- The topmost qualifying nodes. -/
inductive Reported (st : DiffState) : List TreeNode → TreeNode → Prop where
  | here {c2s : List TreeNode} {c2 : TreeNode} (hmem : c2 ∈ c2s) (hq : Qualifies st c2) :
      Reported st c2s c2
  | deeper {c2s : List TreeNode} {c2 d2 : TreeNode} (hmem : c2 ∈ c2s) (hq : ¬ Qualifies st c2)
      (hrest : Reported st c2.children d2) : Reported st c2s d2

theorem Reported.mono {st : DiffState} {c2s d2s : List TreeNode} {c2 : TreeNode}
    (h : Reported st c2s c2) (hsub : c2s ⊆ d2s) : Reported st d2s c2 := by
  cases h with
  | here hmem hq => exact .here (hsub hmem) hq
  | deeper hmem hq hrest => exact .deeper (hsub hmem) hq hrest

theorem reported_cons {st : DiffState} {c2 d2 : TreeNode} {c2s : List TreeNode} :
    Reported st (c2 :: c2s) d2 ↔
      (d2 = c2 ∧ Qualifies st c2) ∨ (¬ Qualifies st c2 ∧ Reported st c2.children d2) ∨ Reported st c2s d2 := by
  constructor
  · intro h
    cases h with
    | here hmem hq =>
      rcases List.mem_cons.mp hmem with rfl | hmem
      · exact Or.inl ⟨rfl, hq⟩
      · exact Or.inr (Or.inr (.here hmem hq))
    | deeper hmem hq hrest =>
      rcases List.mem_cons.mp hmem with rfl | hmem
      · exact Or.inr (Or.inl ⟨hq, hrest⟩)
      · exact Or.inr (Or.inr (.deeper hmem hq hrest))
  · rintro (⟨rfl, hq⟩ | ⟨hq, hrest⟩ | h)
    · exact .here (by simp) hq
    · exact .deeper (by simp) hq hrest
    · exact h.mono (List.subset_cons_self _ _)

theorem Reported.mem_flatten {st : DiffState} {c2s : List TreeNode} {c2 : TreeNode}
    (h : Reported st c2s c2) : c2 ∈ flatten c2s ∧ Qualifies st c2 := by
  induction h with
  | here hmem hq => exact ⟨mem_flatten_of_mem hmem, hq⟩
  | deeper hmem _ _ ih => exact ⟨flatten_children_subset hmem ih.1, ih.2⟩

theorem mem_gatherLargeLoop (st : DiffState) (c2s : List TreeNode) (acc : List Nat) (x : Nat) :
    x ∈ gatherLargeLoop st c2s acc ↔ x ∈ acc ∨ ∃ c2, Reported st c2s c2 ∧ c2.getId = x := by
  induction c2s using TreeNode.forest_induct generalizing acc with
  | nil =>
    simp only [gatherLargeLoop, iff_self_or]
    rintro ⟨c2, h, _⟩
    simpa using h.mem_flatten.1
  | cons c2 rest ihc ihr =>
    have htest : (!st.changed c2.ptr && (st.mapped2 c2.ptr).isSome && decide (getTreesize 10 c2 > 10)) = true ↔
        Qualifies st c2 := by
      simp [Qualifies, limit_lt_getTreesize, Option.isSome_iff_ne_none, and_assoc]
    simp only [gatherLargeLoop, gatherLargeUnchangedSubtrees_eq, reported_cons]
    by_cases hq : Qualifies st c2
    · rw [if_pos (htest.mpr hq), ihr]
      simp only [List.mem_append, List.mem_singleton, hq, not_true, false_and, false_or, and_true]
      grind
    · rw [if_neg (mt htest.mp hq), ihr, ihc]
      simp only [hq, and_false, not_false_eq_true, true_and, false_or]
      grind

theorem mem_ownEffect_flagged {cfg : DiffConfig} {c1s : List TreeNode} {c2 : TreeNode}
    (hd : Distinct c1s) (p : Nat) :
    p ∈ (ownEffect cfg c1s c2).flagged ↔
      ∃ c1 ∈ c1s, Pairs c1 c2 ∧ looksUnchanged cfg c2.children c1.children = false ∧ p = c2.ptr := by
  unfold ownEffect
  cases hc : counterpart c1s c2 with
  | none =>
    have hno := counterpart_eq_none.mp hc
    simp only [List.not_mem_nil, false_iff, not_exists, not_and]
    exact fun c1 h1 hp _ _ => hno c1 h1 hp.1
  | some c1 =>
    have hmem := counterpart_mem hc
    have honly : ∀ d1 ∈ c1s, Pairs d1 c2 → d1 = c1 := fun d1 h1 hp =>
      hd.eq_of_sameKey h1 hmem (hp.1.trans (counterpart_sameKey hc).symm)
    by_cases hpair : Pairs c1 c2
    · simp only [if_pos hpair, pairEffect, Effect.append_flagged, List.nil_append, List.append_nil]
      cases hl : looksUnchanged cfg c2.children c1.children with
      | true =>
        simp only [if_true, List.not_mem_nil, false_iff, not_exists, not_and]
        intro d1 h1 hp hfalse
        simp [honly d1 h1 hp, hl] at hfalse
      | false =>
        simp only [Bool.false_eq_true, if_false, List.mem_singleton]
        constructor
        · exact fun h => ⟨c1, hmem, hpair, hl, h⟩
        · rintro ⟨_, _, _, _, h⟩
          exact h
    · simp only [if_neg hpair, modifiedEffect, List.not_mem_nil, false_iff, not_exists, not_and]
      exact fun d1 h1 hp _ _ => hpair (honly d1 h1 hp ▸ hp)

theorem Matched.ptr_mem {r1 r2 : List TreeNode} {c1 c2 : TreeNode} (h : Matched r1 r2 c1 c2) :
    c2.ptr ∈ ptrs r2 := by
  obtain ⟨_, _, hlevel, _, h2, _⟩ := h
  rw [ptrs_eq_map_flatten]
  exact List.mem_map_of_mem (hlevel.flatten_subset.2 (mem_flatten_of_mem h2))

theorem ptr_notMem_children {ts : List TreeNode} (hnodup : (ptrs ts).Nodup) {c e : TreeNode}
    (hc : c ∈ ts) (he : e ∈ ts) : c.ptr ∉ ptrs e.children := by
  by_cases hce : c = e
  · subst hce
    obtain ⟨pre, post, rfl⟩ := List.append_of_mem hc
    rw [ptrs_append, ptrs_cons] at hnodup
    exact (List.nodup_cons.mp hnodup.of_append_right.of_append_left).1
  · exact fun h => ptr_notMem_of_ne hnodup hc he hce (List.mem_cons_of_mem _ h)

theorem eq_of_common_ptr {ts : List TreeNode} (hnodup : (ptrs ts).Nodup) {e f : TreeNode}
    (he : e ∈ ts) (hf : f ∈ ts) {p : Nat} (hpe : p ∈ ptrs e.children) (hpf : p ∈ ptrs f.children) :
    e = f := by
  by_contra hne
  obtain ⟨pre, post, rfl⟩ := List.append_of_mem he
  rw [ptrs_append, ptrs_cons] at hnodup
  have hpe' : p ∈ e.ptr :: ptrs e.children := List.mem_cons_of_mem _ hpe
  rcases List.mem_append.mp hf with hf | hf
  · exact List.disjoint_of_nodup_append hnodup (ptrs_children_subset hf hpf) (List.mem_append_left _ hpe')
  · have hf := (List.mem_cons.mp hf).resolve_left (Ne.symm hne)
    exact List.disjoint_of_nodup_append hnodup.of_append_right hpe' (ptrs_children_subset hf hpf)

/-- A new node has at most one old node mapped to it. -/
theorem Matched.unique {r2 : List TreeNode} : ∀ {r1 : List TreeNode}, Distinct r1 → SortedBelow r1 →
    (ptrs r2).Nodup → ∀ {c1 d1 c2 : TreeNode}, Matched r1 r2 c1 c2 → Matched r1 r2 d1 c2 → c1 = d1 := by
  induction r2 using TreeNode.level_induct with
  | level r2 ih =>
    intro r1 hd1 hs1 hnodup c1 d1 c2 hc hd
    rcases matched_iff.mp hc with ⟨hc1, hc2, hcp⟩ | ⟨e1, he1, e2, he2, hep, hce⟩ <;>
      rcases matched_iff.mp hd with ⟨hd1', hd2, hdp⟩ | ⟨f1, hf1, f2, hf2, hfp, hdf⟩
    · exact hd1.eq_of_sameKey hc1 hd1' (hcp.1.trans hdp.1.symm)
    · exact absurd hdf.ptr_mem (ptr_notMem_children hnodup hc2 hf2)
    · exact absurd hce.ptr_mem (ptr_notMem_children hnodup hd2 he2)
    · have heq2 : e2 = f2 := eq_of_common_ptr hnodup he2 hf2 hce.ptr_mem hdf.ptr_mem
      subst heq2
      have heq1 : e1 = f1 := hd1.eq_of_sameKey he1 hf1 (hep.1.trans hfp.1.symm)
      subst heq1
      obtain ⟨hord, hbelow⟩ := hs1.of_mem he1
      exact ih e2 he2 hord.distinct hbelow (nodup_ptrs_children he2 hnodup) hce hdf

section Trees

variable {cfg : DiffConfig} {t1 t2 : FileTree} {flag : Prop} {st st' : DiffState}

/-- The test on a node, read off the two trees. -/
theorem qualifies_iff (hmapped : ∀ p, st.mapped2 p = none) (hchanged : ∀ p, st.changed p = false)
    (happ : Applied [t2.root.ptr] (levelEffect cfg t1.root.children t2.root.children) flag st st')
    {c2 : TreeNode} (h2 : c2 ∈ flatten t2.root.children) :
    Qualifies st' c2 ↔ ∃ c1, t1.NodeMatched t2 c1 c2 ∧
      looksUnchanged cfg c2.children c1.children = true ∧ 10 < numNodes c2 := by
  have hroot : c2.ptr ∉ [t2.root.ptr] := by
    intro h
    apply (List.nodup_cons.mp t2.addresses).1
    rw [← List.mem_singleton.mp h, ptrs_eq_map_flatten]
    exact List.mem_map_of_mem h2
  have hm : st'.mapped2 c2.ptr ≠ none ↔ ∃ c1, t1.NodeMatched t2 c1 c2 := by
    rw [happ.mapped2, ne_eq, applyMaps2_eq_none]
    simp only [hmapped, true_and, not_forall, not_not]
    constructor
    · rintro ⟨p, hp, heq⟩
      obtain ⟨d1, d2, hmatch, rfl⟩ := (mem_levelEffect_maps cfg t1 t2 p).mp hp
      obtain ⟨_, _, hlevel, _, hd2, _⟩ := id hmatch
      rw [t2.eq_of_ptr_eq (hlevel.flatten_subset.2 (mem_flatten_of_mem hd2)) h2 heq] at hmatch
      exact ⟨d1, hmatch⟩
    · rintro ⟨c1, hmatch⟩
      exact ⟨(c1.ptr, c2.ptr), (mem_levelEffect_maps cfg t1 t2 _).mpr ⟨c1, c2, hmatch, rfl⟩, rfl⟩
  have hc : ∀ c1, t1.NodeMatched t2 c1 c2 →
      (st'.changed c2.ptr = true ↔ looksUnchanged cfg c2.children c1.children = false) := by
    intro c1 hmatch
    rw [happ.outside _ hroot]
    simp only [hchanged, Bool.false_eq_true, false_or]
    rw [mem_levelEffect_iff Effect.flagged (fun _ _ => rfl) rfl cfg _ _ t1.distinct t1.sorted]
    constructor
    · rintro ⟨c1s, c2s, hlevel, d2, hd2, hp⟩
      obtain ⟨d1, hd1, hpair, hlook, heq⟩ :=
        (mem_ownEffect_flagged (hlevel.distinct t1.distinct t1.sorted).1 _).mp hp
      have hd : t1.NodeMatched t2 d1 d2 := ⟨c1s, c2s, hlevel, hd1, hd2, hpair⟩
      have heq2 := t2.eq_of_ptr_eq h2 (hlevel.flatten_subset.2 (mem_flatten_of_mem hd2)) heq
      subst heq2
      rwa [hmatch.unique t1.distinct t1.sorted (List.nodup_cons.mp t2.addresses).2 hd]
    · intro hlook
      obtain ⟨c1s, c2s, hlevel, hc1, hc2, hpair⟩ := hmatch
      exact ⟨c1s, c2s, hlevel, c2, hc2,
        (mem_ownEffect_flagged (hlevel.distinct t1.distinct t1.sorted).1 _).mpr ⟨c1, hc1, hpair, hlook, rfl⟩⟩
  unfold Qualifies
  rw [hm]
  constructor
  · rintro ⟨hch, ⟨c1, hmatch⟩, hsize⟩
    refine ⟨c1, hmatch, ?_, hsize⟩
    rw [← Bool.not_eq_false, ← hc c1 hmatch, hch]
    simp
  · rintro ⟨c1, hmatch, hlook, hsize⟩
    refine ⟨?_, ⟨c1, hmatch⟩, hsize⟩
    rw [← Bool.not_eq_true, hc c1 hmatch, hlook]
    simp

end Trees

/-- Every reported id belongs to a directory of the new tree that is mapped to
an old directory with an identical subtree. -/
def LargeUnchangedSound (cfg : DiffConfig) (t1 t2 : FileTree) : Prop :=
  ∀ ids, (t1.diff cfg t2).large_unchanged_subtrees = some ids → ∀ x ∈ ids,
    ∃ c1 c2, t1.NodeMatched t2 c1 c2 ∧ c2.getId = x ∧ c1.getType = .dir ∧ c2.getType = .dir ∧
      SameForest c1.children c2.children

/-- The new directory is the old one with entries missing at the ends of child
lists and nothing else different: no record changed, nothing added, nothing
removed before a remaining sibling, no symbolic link. -/
def ProperTruncation (cfg : DiffConfig) (c1 c2 : TreeNode) : Prop :=
  looksUnchanged cfg c2.children c1.children = true ∧
    (flatten c2.children).length < (flatten c1.children).length

/-- If every reported node is identical to its counterpart, so is every large
node that looks unchanged, reported or hidden below a reported one. -/
theorem sameForest_of_reported (cfg : DiffConfig) {st : DiffState} {r2 : List TreeNode} :
    ∀ {r1 : List TreeNode}, Distinct r1 → SortedBelow r1 →
      (∀ c1 c2, Matched r1 r2 c1 c2 → looksUnchanged cfg c2.children c1.children = true →
        10 < numNodes c2 → Qualifies st c2) →
      (∀ c1 c2, Reported st r2 c2 → Matched r1 r2 c1 c2 → SameForest c1.children c2.children) →
      ∀ c1 c2, Matched r1 r2 c1 c2 → looksUnchanged cfg c2.children c1.children = true →
        10 < numNodes c2 → SameForest c1.children c2.children := by
  induction r2 using TreeNode.level_induct with
  | level r2 ih =>
    intro r1 hd1 hs1 hq hrep c1 c2 hmatch hlook hsize
    rcases matched_iff.mp hmatch with ⟨_, h2, _⟩ | ⟨e1, he1, e2, he2, hep, hin⟩
    · exact hrep c1 c2 (.here h2 (hq c1 c2 hmatch hlook hsize)) hmatch
    · have hlift : ∀ d1 d2, Matched e1.children e2.children d1 d2 → Matched r1 r2 d1 d2 :=
        fun d1 d2 h => matched_iff.mpr (Or.inr ⟨e1, he1, e2, he2, hep, h⟩)
      obtain ⟨hord, hbelow⟩ := hs1.of_mem he1
      by_cases hqe : Qualifies st e2
      · have hsame := hrep e1 e2 (.here he2 hqe) (matched_iff.mpr (Or.inl ⟨he1, he2, hep⟩))
        exact hsame.matched hord.distinct hbelow hin
      · exact ih e2 he2 hord.distinct hbelow (fun d1 d2 h => hq d1 d2 (hlift d1 d2 h))
          (fun d1 d2 hr h => hrep d1 d2 (.deeper he2 hqe hr) (hlift d1 d2 h)) c1 c2 hin hlook hsize

/-- The reported subtrees are sound exactly when no matched directory of more
than ten nodes is a proper truncation of the old one: the loop ends with the
new children, so entries missing at the end of a list raise no flag. -/
theorem largeUnchangedSound_iff (cfg : DiffConfig) (t1 t2 : FileTree) :
    LargeUnchangedSound cfg t1 t2 ↔
      ∀ c1 c2, t1.NodeMatched t2 c1 c2 → 10 < numNodes c2 → ¬ ProperTruncation cfg c1 c2 := by
  obtain ⟨flag, happ⟩ := gatherDiffs_root cfg t1 t2 (some []) [] (some [])
  have hq : ∀ c2 ∈ flatten t2.root.children, Qualifies _ c2 ↔ _ := fun c2 h2 =>
    qualifies_iff (fun _ => rfl) (fun _ => rfl) happ h2
  have hnode : ∀ c1 c2, t1.NodeMatched t2 c1 c2 → c2 ∈ flatten t2.root.children := by
    rintro c1 c2 ⟨_, _, hlevel, _, h2, _⟩
    exact hlevel.flatten_subset.2 (mem_flatten_of_mem h2)
  have hids : ∀ x, (∃ ids, (t1.diff cfg t2).large_unchanged_subtrees = some ids ∧ x ∈ ids) ↔
      ∃ c2, Reported (gatherDiffs cfg t1.root t2.root 0 [] (DiffState.start (some []) [] (some [])))
        t2.root.children c2 ∧ c2.getId = x := by
    intro x
    simp [FileTree.diff, diffTrees, mem_sortIds, gatherLargeUnchangedSubtrees_eq, mem_gatherLargeLoop]
  constructor
  · intro hsound c1 c2 hmatch hsize htrunc
    have hsame := sameForest_of_reported cfg t1.distinct t1.sorted
      (fun d1 d2 hm hl hs => (hq d2 (hnode d1 d2 hm)).mpr ⟨d1, hm, hl, hs⟩)
      (fun d1 d2 hr hm => by
        obtain ⟨ids, hresult, hmem⟩ := (hids d2.getId).mpr ⟨d2, hr, rfl⟩
        obtain ⟨e1, e2, he, hid, _, _, hsame⟩ := hsound ids hresult _ hmem
        have heq := t2.eq_of_id_eq (hnode e1 e2 he) (hnode d1 d2 hm) hid
        subst heq
        rwa [hm.unique t1.distinct t1.sorted (List.nodup_cons.mp t2.addresses).2 he])
      c1 c2 hmatch htrunc.1 hsize
    have := hsame.length_eq
    have := htrunc.2
    omega
  · intro hcond ids hresult x hx
    obtain ⟨c2, hr, hid⟩ := (hids x).mp ⟨ids, hresult, hx⟩
    obtain ⟨h2, hqual⟩ := hr.mem_flatten
    obtain ⟨c1, hmatch, hlook, hsize⟩ := (hq c2 h2).mp hqual
    obtain ⟨hle, hsame⟩ := looksUnchanged_count c1.children hlook
    obtain ⟨c1s, c2s, hlevel, hm1, hm2, hpair⟩ := id hmatch
    have hdir : c2.getType = .dir := by
      have hentry := (hlevel.distinct_right t2.distinct t2.sorted).1.entries c2 hm2
      unfold TreeNode.IsEntry at hentry
      cases htype : c2.getType with
      | root => exact absurd htype hentry
      | file =>
        have := t2.leaves c2 h2 htype
        simp [numNodes, this] at hsize
      | dir => rfl
    refine ⟨c1, c2, hmatch, hid, by rw [hpair.1.1, hdir], hdir, hsame ?_⟩
    by_contra hlt
    exact hcond c1 c2 hmatch hsize ⟨hlook, by omega⟩

theorem sortedBelow_of_leaves {ts : List TreeNode} (h : ∀ t ∈ ts, t.children = []) : SortedBelow ts := by
  induction ts with
  | nil => exact .nil
  | cons t ts ih =>
    obtain ⟨ht, hts⟩ := List.forall_mem_cons.mp h
    refine .cons ?_ ?_ (ih hts)
    · rw [ht]
      exact ⟨by simp, .nil⟩
    · rw [ht]
      exact .nil

/-- The names "a" to "k". -/
def sampleNames : List CString :=
  [⟨[97], by decide⟩, ⟨[98], by decide⟩, ⟨[99], by decide⟩, ⟨[100], by decide⟩, ⟨[101], by decide⟩,
    ⟨[102], by decide⟩, ⟨[103], by decide⟩, ⟨[104], by decide⟩, ⟨[105], by decide⟩, ⟨[106], by decide⟩,
    ⟨[107], by decide⟩]

def sampleFiles (n : Nat) : List TreeNode :=
  (sampleNames.take n).zipIdx.map fun p => .mk (p.2 + 2) (p.2 + 1) p.1 (.file 5 6) []

/-- A root with the directory "d", which holds the first `n` sample files. -/
def sampleRoot (n : Nat) : TreeNode :=
  .mk 0 0 ⟨[114, 111, 111, 116], by decide⟩ .root [.mk 1 0 ⟨[100], by decide⟩ (.dir 7) (sampleFiles n)]

theorem sampleRoot_sorted {n : Nat} (h : Ordered (sampleFiles n)) : SortedBelow (sampleRoot n).children :=
  .cons h (sortedBelow_of_leaves (by
    intro t ht
    obtain ⟨p, _, rfl⟩ := List.mem_map.mp ht
    rfl)) .nil

/-- Eleven files before the backup. -/
def truncationOld : FileTree where
  root := sampleRoot 11
  distinct := ⟨by decide, by decide⟩
  sorted := sampleRoot_sorted ⟨by decide, by decide⟩
  addresses := by decide
  lines := by decide
  leaves := by decide

/-- The last of them was deleted. -/
def truncationNew : FileTree where
  root := sampleRoot 10
  distinct := ⟨by decide, by decide⟩
  sorted := sampleRoot_sorted ⟨by decide, by decide⟩
  addresses := by decide
  lines := by decide
  leaves := by decide

/-- The deletion of the last file of a directory goes unnoticed: the directory
is reported as unchanged although the old one has a file more. -/
theorem largeUnchanged_keeps_deleted_file :
    ¬ LargeUnchangedSound ⟨true, false, false⟩ truncationOld truncationNew := by
  intro h
  have hresult : (truncationOld.diff ⟨true, false, false⟩ truncationNew).large_unchanged_subtrees = some [0] := by
    decide +kernel
  obtain ⟨c1, c2, ⟨_, _, hlevel, h1, h2, _⟩, _, hdir1, hdir2, hsame⟩ := h [0] hresult 0 (by simp)
  have hold : ∀ c ∈ flatten truncationOld.root.children, c.getType = .dir → (flatten c.children).length = 11 := by
    decide
  have hnew : ∀ c ∈ flatten truncationNew.root.children, c.getType = .dir → (flatten c.children).length = 10 := by
    decide
  have hlength := hsame.length_eq
  rw [hold c1 (hlevel.flatten_subset.1 (mem_flatten_of_mem h1)) hdir1,
    hnew c2 (hlevel.flatten_subset.2 (mem_flatten_of_mem h2)) hdir2] at hlength
  simp at hlength

end urbackup.treediff
