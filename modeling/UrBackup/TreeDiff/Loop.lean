import UrBackup.TreeDiff.Merge

namespace urbackup.treediff

/-- Every level strictly below a forest is ordered. -/
inductive SortedBelow : List TreeNode → Prop where
  | nil : SortedBelow []
  | cons {t : TreeNode} {ts : List TreeNode} (hord : Ordered t.children)
      (hchildren : SortedBelow t.children) (hrest : SortedBelow ts) : SortedBelow (t :: ts)

theorem SortedBelow.of_mem {t : TreeNode} {ts : List TreeNode} (h : SortedBelow ts) (ht : t ∈ ts) :
    Ordered t.children ∧ SortedBelow t.children := by
  induction h with
  | nil => simp at ht
  | cons hord hchildren _ _ ih =>
    rcases List.mem_cons.mp ht with rfl | ht
    · exact ⟨hord, hchildren⟩
    · exact ih ht

/-- The only trace of the cursor's movement is the flag on the parents, set
below the root exactly when something was skipped. -/
theorem advance_applied (depth : Nat) (siblings : List TreeNode) {parents : List Nat} (c2 : TreeNode)
    (c1s : List TreeNode) (st : DiffState) (hclosed : UpClosed parents st.changed) :
    ∃ flag, Applied parents {} flag st (advance depth siblings parents c2 c1s st).2.2 ∧
      (depth ≠ 0 → (flag ↔ ∃ c1 rest, c1s = c1 :: rest ∧ c1.Precedes c2)) := by
  induction c1s generalizing st with
  | nil =>
    refine ⟨False, ?_, by simp⟩
    unfold advance
    split <;> exact Applied.refl parents st
  | cons c1 rest ih =>
    unfold advance
    simp only
    split
    · next sn hsn =>
      refine ⟨False, Applied.refl parents st, fun hdepth => ?_⟩
      simp [hdepth] at hsn
    · split
      · next hlt =>
        have hstep := DiffState.subtreeChanged_applied hclosed
        obtain ⟨flag, hrest, _⟩ := ih (st.subtreeChanged parents) (hstep.upClosed hclosed)
        refine ⟨True, by simpa using hstep.trans hrest, fun _ => ?_⟩
        simpa using show c1.Precedes c2 from hlt
      · next hge =>
        refine ⟨False, Applied.refl parents st, fun _ => ?_⟩
        simpa [TreeNode.Precedes] using hge

/-- The branch of the loop for two nodes in the same place. -/
def visitPair (cfg : DiffConfig) (depth : Nat) (parents : List Nat) (c1 c2 : TreeNode) (st : DiffState) :
    DiffState :=
  let equal_dir := c1.getType == .dir && c2.getType == .dir
  let data_equals := c1.dataEquals c2
  let st := if equal_dir && !data_equals then st.dirDiff parents c2 else st
  let st :=
    if equal_dir || data_equals then
      (gatherDiffs cfg c1 c2 (depth + 1) parents st).setMapped c1 c2
    else st.modifiedFile cfg parents c1 c2
  st.symlinkGuard cfg parents c2

theorem gatherDiffsLoop_cons (cfg : DiffConfig) (siblings : List TreeNode) (depth : Nat)
    (parents : List Nat) (c2 : TreeNode) (c2s c1s : List TreeNode) (st : DiffState) :
    gatherDiffsLoop cfg siblings depth parents (c2 :: c2s) c1s st =
      match advance depth siblings parents c2 c1s st with
      | (_, [], st) => gatherDiffsLoop cfg siblings depth parents c2s [] (st.inserted parents c2)
      | (cmp, c1 :: rest, st) =>
        if cmp = 0 then
          gatherDiffsLoop cfg siblings depth parents c2s rest (visitPair cfg depth parents c1 c2 st)
        else gatherDiffsLoop cfg siblings depth parents c2s (c1 :: rest) (st.inserted parents c2) := by
  rw [gatherDiffsLoop]
  rfl

theorem gatherDiffs_eq (cfg : DiffConfig) (t1 t2 : TreeNode) (depth : Nat) (parents : List Nat)
    (st : DiffState) :
    gatherDiffs cfg t1 t2 depth parents st =
      gatherDiffsLoop cfg t1.children depth (t2.ptr :: parents) t2.children t1.children st := by
  cases t2
  simp [gatherDiffs]

theorem pairs_iff_of_sameKey {c1 c2 : TreeNode} (hkey : c1.SameKey c2) :
    (c1.getType == .dir && c2.getType == .dir || c1.dataEquals c2) = true ↔ Pairs c1 c2 := by
  simp only [Pairs, hkey, true_and, hkey.1, Bool.and_self, Bool.or_eq_true, beq_iff_eq,
    TreeNode.dataEquals]

/-- Visiting a pair, given what visiting the children does. -/
theorem visitPair_applied (cfg : DiffConfig) (depth : Nat) {parents : List Nat} {c1 c2 : TreeNode}
    {st : DiffState} {siblings : List TreeNode} (hcounter : counterpart siblings c2 = some c1)
    (hclosed : UpClosed parents st.changed) (hp : c2.ptr ∉ parents) (hfresh : c2.ptr ∉ ptrs c2.children)
    (hchildren : ∀ st' : DiffState, Applied parents {
          dirDiffs := if c1.getData = c2.getData then [] else [c2.getId] } (c1.getData ≠ c2.getData) st st' →
        Applied (c2.ptr :: parents) (levelEffect cfg c1.children c2.children)
          (looksUnchanged cfg c2.children c1.children = false) st'
          (gatherDiffs cfg c1 c2 (depth + 1) parents st')) :
    Applied parents (nodeEffect cfg siblings c2)
      (c1.getData ≠ c2.getData ∨ looksUnchanged cfg c2.children c1.children = false ∧ Pairs c1 c2 ∨
        guarded cfg c2 = true) st (visitPair cfg depth parents c1 c2 st) := by
  have hkey := counterpart_sameKey hcounter
  unfold visitPair
  by_cases hpair : Pairs c1 c2
  · rw [nodeEffect_pair hcounter hpair]
    simp only [(pairs_iff_of_sameKey hkey).mpr hpair, if_true]
    -- the directory's own record first, so that the children start from a reported change
    have hdir : Applied parents { dirDiffs := if c1.getData = c2.getData then [] else [c2.getId] }
        (c1.getData ≠ c2.getData) st
        (if c1.getType == .dir && c2.getType == .dir && !c1.dataEquals c2 then st.dirDiff parents c2
          else st) := by
      by_cases hdata : c1.getData = c2.getData
      · simpa [hdata, TreeNode.dataEquals] using Applied.refl parents st
      · have hdirs : c2.getType = .dir := hpair.2.resolve_right hdata
        simpa [hdata, TreeNode.dataEquals, hkey.1, hdirs] using DiffState.dirDiff_applied c2 hclosed
    have hlevel := (hchildren _ hdir).leave hp
      fun hmem => hfresh (levelEffect_flagged_subset cfg c1.children c2.children hmem)
    have hmapped := (hdir.trans hlevel).trans (DiffState.setMapped_applied parents
      (gatherDiffs cfg c1 c2 (depth + 1) parents _) c1 c2)
    have hall := hmapped.trans (DiffState.symlinkGuard_applied cfg c2 (hmapped.upClosed hclosed))
    have heffect : pairEffect cfg c1 c2 (levelEffect cfg c1.children c2.children) =
        { dirDiffs := if c1.getData = c2.getData then [] else [c2.getId] } ++
          ({ flagged := if looksUnchanged cfg c2.children c1.children = false then [c2.ptr] else [] } ++
            levelEffect cfg c1.children c2.children) ++ { maps := [(c1.ptr, c2.ptr)] } ++ ({} : Effect) := by
      unfold pairEffect
      cases looksUnchanged cfg c2.children c1.children <;> simp
    rw [heffect]
    exact hall.congr (by simp [hpair, or_assoc])
  · have hdata : c1.getData ≠ c2.getData := fun h => hpair ⟨hkey, Or.inr h⟩
    have hnotdir : ¬ c2.getType = .dir := fun h => hpair ⟨hkey, Or.inl h⟩
    rw [nodeEffect_modified hcounter hpair]
    have hmod := DiffState.modifiedFile_applied cfg hkey.1 hclosed
    have hall := hmod.trans (DiffState.symlinkGuard_applied cfg c2 (hmod.upClosed hclosed))
    simpa [hdata, hnotdir, TreeNode.dataEquals] using hall

theorem nodeEffect_flagged_subset (cfg : DiffConfig) (c1s : List TreeNode) (c2 : TreeNode) :
    (nodeEffect cfg c1s c2).flagged ⊆ c2.ptr :: ptrs c2.children := by
  simpa using levelEffect_flagged_subset cfg c1s [c2]

theorem nodeEffect_maps_subset (cfg : DiffConfig) {c1s : List TreeNode} {c1 c2 : TreeNode}
    (h : counterpart c1s c2 = some c1) :
    ∀ p ∈ (nodeEffect cfg c1s c2).maps, p.1 ∈ c1.ptr :: ptrs c1.children := by
  have hone : counterpart [c1] c2 = some c1 := by
    simp [counterpart, counterpart_sameKey h]
  have heq : nodeEffect cfg c1s c2 = nodeEffect cfg [c1] c2 := by
    by_cases hpair : Pairs c1 c2
    · rw [nodeEffect_pair h hpair, nodeEffect_pair hone hpair]
    · rw [nodeEffect_modified h hpair, nodeEffect_modified hone hpair]
  intro p hp
  rw [heq] at hp
  simpa using (levelEffect_maps_subset cfg [c1] [c2] p (by simpa using hp)).1

theorem ptr_notMem_of_ne {ts : List TreeNode} (hnodup : (ptrs ts).Nodup) {c c1 : TreeNode}
    (hc : c ∈ ts) (hc1 : c1 ∈ ts) (hne : c ≠ c1) : c.ptr ∉ c1.ptr :: ptrs c1.children := by
  obtain ⟨pre, post, rfl⟩ := List.append_of_mem hc1
  simp only [ptrs_append, ptrs_cons] at hnodup
  have hside : c ∈ pre ∨ c ∈ post := by
    rcases List.mem_append.mp hc with h | h
    · exact Or.inl h
    · exact Or.inr ((List.mem_cons.mp h).resolve_left hne)
  intro hmem
  rcases hside with h | h
  · exact List.disjoint_of_nodup_append hnodup (ptr_mem_ptrs h) (List.mem_append_left _ hmem)
  · exact List.disjoint_of_nodup_append hnodup.of_append_right hmem (ptr_mem_ptrs h)

/-- Below the root the cursor only moves by flagging. -/
theorem advance_unmoved {depth : Nat} (hdepth : depth ≠ 0) {siblings : List TreeNode}
    {parents : List Nat} {c2 : TreeNode} {c1s : List TreeNode} {st : DiffState}
    (h : ¬ ∃ c1 rest, c1s = c1 :: rest ∧ c1.Precedes c2) :
    (advance depth siblings parents c2 c1s st).2.1 = c1s := by
  obtain ⟨skipped, hsplit, hskipped, _⟩ :=
    advance_below hdepth siblings parents c2 c1s st
  cases skipped with
  | nil => exact hsplit.symm
  | cons c1 skipped => exact absurd ⟨c1, _, hsplit, hskipped c1 (by simp)⟩ h

theorem looksUnchanged_eq_false_of_precedes {cfg : DiffConfig} {c1s c2s : List TreeNode}
    {c2 : TreeNode} (h1 : ∀ c ∈ c1s, c.IsEntry) (h2 : c2.IsEntry)
    (h : ∃ c1 rest, c1s = c1 :: rest ∧ c1.Precedes c2) : looksUnchanged cfg (c2 :: c2s) c1s = false := by
  obtain ⟨c1, rest, rfl, hlt⟩ := h
  rw [← Bool.not_eq_true, looksUnchanged_cons]
  exact fun hlook => not_sameKey_of_precedes (h1 c1 (by simp)) h2 hlt hlook.1

/-- The flags raised around a pair add up to its share of `looksUnchanged`. -/
theorem looksUnchanged_pair_iff {cfg : DiffConfig} {c1 c2 : TreeNode} (hkey : c1.SameKey c2)
    (rest c2s : List TreeNode) :
    ((c1.getData ≠ c2.getData ∨ looksUnchanged cfg c2.children c1.children = false ∧ Pairs c1 c2 ∨
        guarded cfg c2 = true) ∨ looksUnchanged cfg c2s rest = false) ↔
      looksUnchanged cfg (c2 :: c2s) (c1 :: rest) = false := by
  rw [← Bool.not_eq_true (looksUnchanged cfg (c2 :: c2s) (c1 :: rest)), looksUnchanged_cons]
  by_cases hdata : c1.getData = c2.getData
  · have hpair : Pairs c1 c2 := ⟨hkey, Or.inr hdata⟩
    cases guarded cfg c2 <;> cases looksUnchanged cfg c2.children c1.children <;> simp [hdata, hkey, hpair]
  · simp [hdata]

theorem cursorOk_start {depth : Nat} {c1s c2s : List TreeNode} {mapped1 : Nat → Option Nat}
    (h1 : Ordered c1s) (h2 : Ordered c2s) : CursorOk (depth + 1) c1s c1s c2s mapped1 := by
  rw [CursorOk, if_neg (Nat.succ_ne_zero depth)]
  exact ⟨h1, h2, [], by simp⟩

/-- The merge loop computes the order-free effect of its level, flags its
parents exactly when the new level does not look like a prefix of the old one
(below the root), and does so from any state that has not seen these nodes. -/
theorem gatherDiffsLoop_applied (cfg : DiffConfig) (c2s : List TreeNode) :
    ∀ (siblings : List TreeNode) (depth : Nat) (parents : List Nat) (c1s : List TreeNode) (st : DiffState),
      Distinct siblings → Distinct c2s → SortedBelow siblings → SortedBelow c2s →
      (ptrs siblings).Nodup → (ptrs c2s).Nodup → CursorOk depth siblings c1s c2s st.mapped1 →
      UpClosed parents st.changed → (∀ p ∈ ptrs c2s, p ∉ parents ∧ st.changed p = false) →
      ∃ flag, Applied parents (levelEffect cfg siblings c2s) flag st
          (gatherDiffsLoop cfg siblings depth parents c2s c1s st) ∧
        (depth ≠ 0 → (flag ↔ looksUnchanged cfg c2s c1s = false)) := by
  induction c2s using TreeNode.forest_induct with
  | nil =>
    intro siblings depth parents c1s st _ _ _ _ _ _ _ _ _
    exact ⟨False, by simpa [gatherDiffsLoop] using Applied.refl parents st, by simp⟩
  | cons c2 c2s ihc ihr =>
    intro siblings depth parents c1s st hsib hc2s hbelow1 hbelow2 hnodup1 hnodup2 hcur hclosed hfresh
    rw [ptrs_cons, List.cons_append, List.nodup_cons] at hnodup2
    obtain ⟨hptr, hnodup2⟩ := hnodup2
    rw [List.mem_append, not_or] at hptr
    have hdisj := List.disjoint_of_nodup_append hnodup2
    have hc2e : c2.IsEntry := hc2s.entries c2 (by simp)
    have hrest : Distinct c2s := ⟨fun t ht => hc2s.entries t (by simp [ht]), (List.pairwise_cons.mp hc2s.unique).2⟩
    have hbelow2' : SortedBelow c2s := by cases hbelow2; assumption
    obtain ⟨hord2, hdeep2⟩ := hbelow2.of_mem (List.mem_cons_self ..)
    have hp : c2.ptr ∉ parents := (hfresh c2.ptr (by simp)).1
    obtain ⟨hadv, hcurNe, hcurEq⟩ := advance_cursor parents hsib hc2s hcur
    obtain ⟨flag0, happ0, hflag0⟩ := advance_applied depth siblings c2 c1s st hclosed
    have hunmoved : depth ≠ 0 → ¬ flag0 → (advance depth siblings parents c2 c1s st).2.1 = c1s :=
      fun hdepth hnot => advance_unmoved hdepth (mt (hflag0 hdepth).mpr hnot)
    have hc1s : depth ≠ 0 → ∀ c ∈ c1s, c.IsEntry := by
      intro hdepth c hc
      simp only [CursorOk, if_neg hdepth] at hcur
      obtain ⟨hord, _, passed, hsplit, _⟩ := hcur
      exact hord.1 c (by rw [hsplit]; simp [hc])
    have hskip : depth ≠ 0 → flag0 → looksUnchanged cfg (c2 :: c2s) c1s = false := fun hdepth hflag =>
      looksUnchanged_eq_false_of_precedes (hc1s hdepth) hc2e ((hflag0 hdepth).mp hflag)
    rw [gatherDiffsLoop_cons]
    generalize advance depth siblings parents c2 c1s st = adv at *
    obtain ⟨cmp, c1s', st'⟩ := adv
    simp only at hadv hcurNe hcurEq happ0 hunmoved ⊢
    have hmapped0 : st'.mapped1 = st.mapped1 := by simpa [applyMaps1] using happ0.mapped1
    -- once the node is done, the remaining children start from an equally fresh state
    have continue_with : ∀ (flagN : Prop) (c1s1 : List TreeNode) (st1 : DiffState),
        Applied parents (nodeEffect cfg siblings c2) flagN st st1 →
        CursorOk depth siblings c1s1 c2s st1.mapped1 →
        (depth ≠ 0 → (flagN ∨ looksUnchanged cfg c2s c1s1 = false ↔
          looksUnchanged cfg (c2 :: c2s) c1s = false)) →
        ∃ flag, Applied parents (levelEffect cfg siblings (c2 :: c2s)) flag st
            (gatherDiffsLoop cfg siblings depth parents c2s c1s1 st1) ∧
          (depth ≠ 0 → (flag ↔ looksUnchanged cfg (c2 :: c2s) c1s = false)) := by
      intro flagN c1s1 st1 happ hcur1 hlook
      have hfresh1 : ∀ p ∈ ptrs c2s, p ∉ parents ∧ st1.changed p = false := by
        intro p hmem
        obtain ⟨hpar, hch⟩ := hfresh p (by simp [hmem])
        refine ⟨hpar, ?_⟩
        rw [← Bool.not_eq_true, happ.outside p hpar]
        rintro (hold | hflagged)
        · simp [hch] at hold
        · rcases List.mem_cons.mp (nodeEffect_flagged_subset cfg siblings c2 hflagged) with rfl | hin
          · exact hptr.2 hmem
          · exact hdisj hin hmem
      obtain ⟨flagR, happR, hflagR⟩ := ihr siblings depth parents c1s1 st1 hsib hrest hbelow1 hbelow2'
        hnodup1 hnodup2.of_append_right hcur1 (happ.upClosed hclosed) hfresh1
      refine ⟨flagN ∨ flagR, by simpa using happ.trans happR, fun hdepth => ?_⟩
      rw [hflagR hdepth]
      exact hlook hdepth
    -- a node without counterpart is reported and flags its parents
    have insert_with : cmp ≠ 0 → ∃ flag, Applied parents (levelEffect cfg siblings (c2 :: c2s)) flag st
          (gatherDiffsLoop cfg siblings depth parents c2s c1s' (st'.inserted parents c2)) ∧
        (depth ≠ 0 → (flag ↔ looksUnchanged cfg (c2 :: c2s) c1s = false)) := by
      intro hcmp
      have hnone := hadv.missing hcmp
      have hins := happ0.trans (DiffState.inserted_applied c2 (happ0.upClosed hclosed))
      rw [Effect.empty_append, ← nodeEffect_none cfg hnone] at hins
      have hcur1 := hcurNe hcmp
      refine continue_with _ _ _ hins ?_ fun hdepth => ?_
      · simpa [DiffState.inserted, DiffState.subtreeChanged, hmapped0] using hcur1
      · by_cases hflag : flag0
        · simp [hskip hdepth hflag]
        · rw [← hunmoved hdepth hflag]
          simp only [CursorOk, if_neg hdepth] at hcur1
          obtain ⟨_, _, passed, hsplit, _⟩ := hcur1
          cases c1s' with
          | nil => simp
          | cons c1 rest =>
            have hkey := counterpart_eq_none.mp hnone c1 (by rw [hsplit]; simp)
            have hfalse : looksUnchanged cfg (c2 :: c2s) (c1 :: rest) = false := by
              rw [← Bool.not_eq_true, looksUnchanged_cons]
              exact fun hlook => hkey hlook.1
            simp [hfalse]
    cases c1s' with
    | nil =>
      refine insert_with fun hcmp => ?_
      obtain ⟨c1, rest, heq, _⟩ := hadv.found hcmp
      cases heq
    | cons c1 rest =>
      by_cases hcmp : cmp = 0
      · simp only [if_pos hcmp]
        obtain ⟨c1', rest', heq, hkey, hmem⟩ := hadv.found hcmp
        cases heq
        have hcounter := hsib.counterpart_eq hmem hkey
        obtain ⟨hord1, hdeep1⟩ := hbelow1.of_mem hmem
        have hvisit := visitPair_applied cfg depth hcounter (happ0.upClosed hclosed) hp hptr.1
          (by
            intro st'' happ''
            have hall := happ0.trans happ''
            have hunflagged : ∀ p ∈ c2.ptr :: ptrs c2.children, p ∉ parents ∧ st''.changed p = false := by
              intro p hmem
              obtain ⟨hpar, hch⟩ := hfresh p (by
                rw [ptrs_cons]
                exact List.mem_append_left _ hmem)
              refine ⟨hpar, ?_⟩
              rw [← Bool.not_eq_true, hall.outside p hpar]
              simp [hch]
            obtain ⟨flag, happ, hflag⟩ := ihc c1.children (depth + 1) (c2.ptr :: parents) c1.children st''
              hord1.distinct hord2.distinct hdeep1 hdeep2 (nodup_ptrs_children hmem hnodup1)
              hnodup2.of_append_left
              (cursorOk_start hord1 hord2)
              ⟨hp, fun h => by simp [(hunflagged c2.ptr (by simp)).2] at h, hall.upClosed hclosed⟩
              (by
                intro p hmem
                obtain ⟨hpar, hch⟩ := hunflagged p (List.mem_cons_of_mem _ hmem)
                refine ⟨fun h => ?_, hch⟩
                rcases List.mem_cons.mp h with rfl | h
                · exact hptr.1 hmem
                · exact hpar h)
            rw [gatherDiffs_eq]
            exact happ.congr (hflag (by omega)))
        have hstep := happ0.trans hvisit
        rw [Effect.empty_append] at hstep
        refine continue_with _ _ _ hstep (hcurEq c1 rest hcmp rfl _ fun c hc hne => ?_) fun hdepth => ?_
        · rw [hstep.mapped1]
          apply applyMaps1_of_notMem
          intro p hmaps heq
          exact ptr_notMem_of_ne hnodup1 hc hmem hne (heq ▸ nodeEffect_maps_subset cfg hcounter p hmaps)
        · by_cases hflag : flag0
          · simp [hflag, hskip hdepth hflag]
          · rw [← hunmoved hdepth hflag, ← looksUnchanged_pair_iff hkey]
            simp [hflag]
      · simp only [if_neg hcmp]
        exact insert_with hcmp

end urbackup.treediff
