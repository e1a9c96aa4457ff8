import UrBackup.TreeDiff.Unchanged

namespace urbackup.treediff

/-- The nodes above one of the nodes of a forest, innermost first. -/
inductive PathTo : List TreeNode → List TreeNode → TreeNode → Prop where
  | here {ts : List TreeNode} {c : TreeNode} (hc : c ∈ ts) : PathTo ts [] c
  | deeper {ts above : List TreeNode} {p c : TreeNode} (hp : p ∈ ts) (hc : PathTo p.children above c) :
      PathTo ts (above ++ [p]) c

section Paths

variable {ts us above : List TreeNode} {c d : TreeNode}

theorem PathTo.mono (h : PathTo ts above c) (hsub : ts ⊆ us) : PathTo us above c := by
  cases h with
  | here hc => exact .here (hsub hc)
  | deeper hp hc => exact .deeper (hsub hp) hc

theorem PathTo.mem_flatten (h : PathTo ts above c) : c ∈ flatten ts ∧ ∀ a ∈ above, a ∈ flatten ts := by
  induction h with
  | here hc => exact ⟨mem_flatten_of_mem hc, by simp⟩
  | deeper hp _ ih =>
    refine ⟨flatten_children_subset hp ih.1, fun a ha => ?_⟩
    obtain ha | ha := List.mem_append.mp ha
    · exact flatten_children_subset hp (ih.2 a ha)
    · rw [List.mem_singleton.mp ha]
      exact mem_flatten_of_mem hp

theorem pathTo_cons (h : PathTo (c :: ts) above d) :
    above = [] ∧ d = c ∨ (∃ inner, PathTo c.children inner d ∧ above = inner ++ [c]) ∨ PathTo ts above d := by
  cases h with
  | here hd =>
    obtain rfl | hd := List.mem_cons.mp hd
    · exact Or.inl ⟨rfl, rfl⟩
    · exact Or.inr (Or.inr (.here hd))
  | @deeper _ inner p _ hp hd =>
    obtain rfl | hp := List.mem_cons.mp hp
    · exact Or.inr (Or.inl ⟨inner, hd, rfl⟩)
    · exact Or.inr (Or.inr (.deeper hp hd))

theorem exists_pathTo (h : c ∈ flatten ts) : ∃ above, PathTo ts above c := by
  induction ts using TreeNode.forest_induct with
  | nil => simp at h
  | cons t rest ihc ihr =>
    rw [flatten_cons, List.cons_append, List.mem_cons, List.mem_append] at h
    obtain rfl | hc | hr := h
    · exact ⟨[], .here (by simp)⟩
    · obtain ⟨above, hpath⟩ := ihc hc
      exact ⟨_, .deeper (List.mem_cons_self) hpath⟩
    · obtain ⟨above, hpath⟩ := ihr hr
      exact ⟨above, hpath.mono (List.subset_cons_self _ _)⟩

end Paths

/-- A node with the id is in the forest, and all above it are flagged. -/
def UnderFlagged (parents : List Nat) (ts : List TreeNode) (st : DiffState) (x : Nat) : Prop :=
  (∀ p ∈ parents, st.changed p = true) ∧
    ∃ above c, PathTo ts above c ∧ c.getId = x ∧ ∀ a ∈ above, st.changed a.ptr = true

/-- What a part of the loop over the forest below the chain `parents` does to the flags
and the reported ids. -/
structure Grows (parents : List Nat) (ts : List TreeNode) (st st' : DiffState) : Prop where
  kept : ∀ p, st.changed p = true → st'.changed p = true
  outside : ∀ p, p ∉ parents → p ∉ ptrs ts → st'.changed p = st.changed p
  chain : (∀ p ∈ parents, st'.changed p = st.changed p) ∨ ∀ p ∈ parents, st'.changed p = true
  reported : ∀ x ∈ st'.diffs, x ∈ st.diffs ∨ UnderFlagged parents ts st' x

section Grows

variable {cfg : DiffConfig} {parents : List Nat} {ts us : List TreeNode} {st st' st'' : DiffState}

theorem Grows.of_same (hchanged : st'.changed = st.changed) (hdiffs : st'.diffs = st.diffs) : Grows parents ts st st' where
  kept p hp := by rwa [hchanged]
  outside p _ _ := by rw [hchanged]
  chain := Or.inl fun p _ => by rw [hchanged]
  reported x hx := Or.inl (hdiffs ▸ hx)

theorem Grows.mono (h : Grows parents ts st st') (hsub : ts ⊆ us) (hptrs : ptrs ts ⊆ ptrs us) : Grows parents us st st' where
  kept := h.kept
  outside p hp hus := h.outside p hp fun hts => hus (hptrs hts)
  chain := h.chain
  reported x hx := by
    obtain hold | ⟨hparents, above, c, hpath, hid, habove⟩ := h.reported x hx
    · exact Or.inl hold
    · exact Or.inr ⟨hparents, above, c, hpath.mono hsub, hid, habove⟩

theorem Grows.trans (h : Grows parents ts st st') (h' : Grows parents ts st' st'') : Grows parents ts st st'' where
  kept p hp := h'.kept p (h.kept p hp)
  outside p hp hts := (h'.outside p hp hts).trans (h.outside p hp hts)
  chain := by
    obtain hsame' | hall' := h'.chain
    · obtain hsame | hall := h.chain
      · exact Or.inl fun p hp => (hsame' p hp).trans (hsame p hp)
      · exact Or.inr fun p hp => h'.kept p (hall p hp)
    · exact Or.inr hall'
  reported x hx := by
    obtain hmid | hnew := h'.reported x hx
    · obtain hold | ⟨hparents, above, c, hpath, hid, habove⟩ := h.reported x hmid
      · exact Or.inl hold
      · exact Or.inr ⟨fun p hp => h'.kept p (hparents p hp), above, c, hpath, hid, fun a ha => h'.kept _ (habove a ha)⟩
    · exact Or.inr hnew

section Closed

variable (hclosed : UpClosed parents st.changed)

include hclosed

/-- The chain stays closed. -/
theorem Grows.upClosed (h : Grows parents ts st st') :
    UpClosed parents st'.changed := by
  obtain hsame | hall := h.chain
  · clear h
    induction parents with
    | nil => trivial
    | cons p parents ih =>
      obtain ⟨hnot, hup, hrest⟩ := hclosed
      refine ⟨hnot, fun hp q hq => ?_, ih hrest fun q hq => hsame q (List.mem_cons_of_mem _ hq)⟩
      rw [hsame q (List.mem_cons_of_mem _ hq)]
      exact hup (hsame p List.mem_cons_self ▸ hp) q hq
  · clear h
    induction parents with
    | nil => trivial
    | cons p parents ih =>
      exact ⟨hclosed.1, fun _ q hq => hall q (List.mem_cons_of_mem _ hq),
        ih hclosed.2.2 fun q hq => hall q (List.mem_cons_of_mem _ hq)⟩

/-- The chain is flagged, and what was added to the ids is in the forest. -/
theorem Grows.of_subtreeChanged (hchanged : st'.changed = st.changed)
    (hdiffs : ∀ x ∈ st'.diffs, x ∈ st.diffs ∨ ∃ c ∈ ts, c.getId = x) : Grows parents ts st (st'.subtreeChanged parents) := by
  have hiff : ∀ q, (st'.subtreeChanged parents).changed q = true ↔ st.changed q = true ∨ q ∈ parents := by
    intro q
    rw [DiffState.subtreeChanged, hchanged]
    exact subtreeChangedParent_iff hclosed q
  refine ⟨fun p hp => (hiff p).mpr (Or.inl hp), fun p hp _ => ?_, Or.inr fun p hp => (hiff p).mpr (Or.inr hp), fun x hx => ?_⟩
  · rw [Bool.eq_iff_iff, hiff]
    simp [hp]
  · obtain hold | ⟨c, hc, hid⟩ := hdiffs x hx
    · exact Or.inl hold
    · exact Or.inr ⟨fun p hp => (hiff p).mpr (Or.inr hp), [], c, .here hc, hid, by simp⟩

theorem subtreeChanged_grows : Grows parents ts st (st.subtreeChanged parents) :=
  .of_subtreeChanged hclosed rfl fun _ hx => Or.inl hx

theorem inserted_grows {c2 : TreeNode} (hc2 : c2 ∈ ts) :
    Grows parents ts st (st.inserted parents c2) := by
  refine .of_subtreeChanged hclosed rfl fun x hx => ?_
  obtain hold | rfl := by simpa using hx
  · exact Or.inl hold
  · exact Or.inr ⟨c2, hc2, rfl⟩

theorem dirDiff_grows (c2 : TreeNode) : Grows parents ts st (st.dirDiff parents c2) :=
  .of_subtreeChanged hclosed rfl fun _ hx => Or.inl hx

theorem modifiedFile_grows {c1 c2 : TreeNode} (hc2 : c2 ∈ ts) :
    Grows parents ts st (st.modifiedFile cfg parents c1 c2) := by
  unfold DiffState.modifiedFile
  refine .of_subtreeChanged hclosed ?_ fun x hx => ?_
  · split_ifs <;> rfl
  · have hx' : x ∈ st.diffs ∨ x = c2.getId := by
      split_ifs at hx <;> simpa using hx
    obtain hold | rfl := hx'
    · exact Or.inl hold
    · exact Or.inr ⟨c2, hc2, rfl⟩

theorem symlinkGuard_grows (c2 : TreeNode) :
    Grows parents ts st (st.symlinkGuard cfg parents c2) := by
  unfold DiffState.symlinkGuard
  split
  · exact subtreeChanged_grows hclosed
  · exact .of_same rfl rfl

theorem advance_grows (depth : Nat) (siblings : List TreeNode) (c2 : TreeNode) (c1s : List TreeNode) : Grows parents ts st (advance depth siblings parents c2 c1s st).2.2 := by
  induction c1s generalizing st with
  | nil =>
    unfold advance
    split <;> exact .of_same rfl rfl
  | cons c1 rest ih =>
    unfold advance
    simp only
    split
    · exact .of_same rfl rfl
    · split
      · have hstep := @subtreeChanged_grows _ ts _ hclosed
        exact hstep.trans (ih (hstep.upClosed hclosed))
      · exact .of_same rfl rfl

end Closed

/-- What is done below a node of the forest. -/
theorem Grows.leave {c : TreeNode} (h : Grows (c.ptr :: parents) c.children st st') (hc : c ∈ ts) : Grows parents ts st st' where
  kept := h.kept
  outside p hp hts := by
    refine h.outside p ?_ fun hin => hts (ptrs_children_subset hc hin)
    rw [List.mem_cons, not_or]
    exact ⟨fun heq => hts (heq ▸ ptr_mem_ptrs hc), hp⟩
  chain := h.chain.imp (fun hsame p hp => hsame p (List.mem_cons_of_mem _ hp)) (fun hall p hp => hall p (List.mem_cons_of_mem _ hp))
  reported x hx := by
    obtain hold | ⟨hparents, above, d, hpath, hid, habove⟩ := h.reported x hx
    · exact Or.inl hold
    · refine Or.inr ⟨fun p hp => hparents p (List.mem_cons_of_mem _ hp), above ++ [c], d, .deeper hc hpath, hid, fun a ha => ?_⟩
      obtain ha | ha := List.mem_append.mp ha
      · exact habove a ha
      · rw [List.mem_singleton.mp ha]
        exact hparents _ List.mem_cons_self

/-- The nodes are not flagged yet, nor are they above themselves. -/
def Fresh (parents : List Nat) (ts : List TreeNode) (st : DiffState) : Prop :=
  (ptrs ts).Nodup ∧ ∀ p ∈ ptrs ts, p ∉ parents ∧ st.changed p = false

theorem Fresh.children {c : TreeNode} (h : Fresh parents ts st) (hc : c ∈ ts) (hclosed : UpClosed parents st.changed) :
    Fresh (c.ptr :: parents) c.children st ∧ UpClosed (c.ptr :: parents) st.changed := by
  obtain ⟨hnodup, hfresh⟩ := h
  obtain ⟨hnot, hfalse⟩ := hfresh c.ptr (ptr_mem_ptrs hc)
  refine ⟨⟨nodup_ptrs_children hc hnodup, fun p hp => ?_⟩, hnot, by simp [hfalse], hclosed⟩
  obtain ⟨hp', hunset⟩ := hfresh p (ptrs_children_subset hc hp)
  refine ⟨?_, hunset⟩
  rw [List.mem_cons, not_or]
  exact ⟨fun heq => ptr_notMem_children hnodup hc hc (heq ▸ hp), hp'⟩

theorem Fresh.rest {c : TreeNode} (h : Fresh parents (c :: ts) st) (hgrows : Grows parents [c] st st') : Fresh parents ts st' := by
  obtain ⟨hnodup, hfresh⟩ := h
  rw [ptrs_cons] at hnodup hfresh
  refine ⟨hnodup.of_append_right, fun p hp => ?_⟩
  obtain ⟨hnot, hunset⟩ := hfresh p (List.mem_append_right _ hp)
  refine ⟨hnot, (hgrows.outside p hnot fun hin => ?_).trans hunset⟩
  exact List.disjoint_of_nodup_append hnodup (by simpa using hin) hp

theorem Fresh.same (h : Fresh parents ts st) (hgrows : Grows parents [] st st') : Fresh parents ts st' := by
  refine ⟨h.1, fun p hp => ?_⟩
  obtain ⟨hnot, hunset⟩ := h.2 p hp
  exact ⟨hnot, (hgrows.outside p hnot (by simp)).trans hunset⟩

theorem visitPair_grows {depth : Nat} {c1 c2 : TreeNode} (hc2 : c2 ∈ ts) (hfresh : Fresh parents ts st) (hclosed : UpClosed parents st.changed)
    (hbelow : ∀ (siblings c1s : List TreeNode) (st' : DiffState), Fresh (c2.ptr :: parents) c2.children st' →
      UpClosed (c2.ptr :: parents) st'.changed →
      Grows (c2.ptr :: parents) c2.children st' (gatherDiffsLoop cfg siblings (depth + 1) (c2.ptr :: parents) c2.children c1s st')) :
    Grows parents [c2] st (visitPair cfg depth parents c1 c2 st) := by
  have hone : c2 ∈ [c2] := by simp
  have hdir : Grows parents [] st
      (if c1.getType == .dir && c2.getType == .dir && !c1.dataEquals c2 then st.dirDiff parents c2 else st) := by
    split
    · exact dirDiff_grows hclosed c2
    · exact .of_same rfl rfl
  unfold visitPair
  simp only
  generalize (if c1.getType == .dir && c2.getType == .dir && !c1.dataEquals c2 then st.dirDiff parents c2 else st) = st1 at hdir ⊢
  have hclosed1 := hdir.upClosed hclosed
  have hpair : Grows parents [c2] st1
      (if c1.getType == .dir && c2.getType == .dir || c1.dataEquals c2 then
        (gatherDiffs cfg c1 c2 (depth + 1) parents st1).setMapped c1 c2
      else st1.modifiedFile cfg parents c1 c2) := by
    split
    · obtain ⟨hfreshc, hclosedc⟩ := (hfresh.same hdir).children hc2 hclosed1
      rw [gatherDiffs_eq]
      exact ((hbelow _ _ _ hfreshc hclosedc).leave hone).trans (.of_same rfl rfl)
    · exact modifiedFile_grows hclosed1 hone
  refine (hdir.mono (by simp) (by simp)).trans (hpair.trans ?_)
  exact symlinkGuard_grows (hpair.upClosed hclosed1) c2

/-- The loop flags whatever is above a node that it reports. -/
theorem gatherDiffsLoop_grows (cfg : DiffConfig) (ts : List TreeNode) :
    ∀ (siblings : List TreeNode) (depth : Nat) (parents : List Nat) (c1s : List TreeNode) (st : DiffState),
      Fresh parents ts st → UpClosed parents st.changed →
        Grows parents ts st (gatherDiffsLoop cfg siblings depth parents ts c1s st) := by
  induction ts using TreeNode.forest_induct with
  | nil =>
    intro siblings depth parents c1s st _ _
    rw [gatherDiffsLoop]
    exact .of_same rfl rfl
  | cons c2 rest ihc ihr =>
    intro siblings depth parents c1s st hfresh hclosed
    have hone : [c2] ⊆ c2 :: rest := by simp
    have honeptrs : ptrs [c2] ⊆ ptrs (c2 :: rest) := by
      rw [ptrs_cons c2 rest]
      exact fun p hp => List.mem_append_left _ (by simpa using hp)
    have hall : ∀ st' (siblings c1s : List TreeNode), Grows parents [c2] st st' →
        Grows parents (c2 :: rest) st (gatherDiffsLoop cfg siblings depth parents rest c1s st') := by
      intro st' siblings c1s hfirst
      have hrest := ihr siblings depth parents c1s st' (hfresh.rest hfirst) (hfirst.upClosed hclosed)
      refine (hfirst.mono hone honeptrs).trans (hrest.mono (List.subset_cons_self _ _) ?_)
      rw [ptrs_cons]
      exact List.subset_append_right _ _
    have hadvance := @advance_grows _ [] _ hclosed depth siblings c2 c1s
    rw [gatherDiffsLoop_cons]
    generalize advance depth siblings parents c2 c1s st = next at hadvance
    obtain ⟨cmp, cursor, st1⟩ := next
    have hclosed1 := hadvance.upClosed hclosed
    have hmoved : Grows parents [c2] st st1 := hadvance.mono (by simp) (by simp)
    have hinsert := hmoved.trans (@inserted_grows _ [c2] _ hclosed1 c2 (by simp))
    cases cursor with
    | nil => exact hall _ siblings [] hinsert
    | cons c1 c1s =>
      simp only
      split
      · refine hall _ siblings c1s (hmoved.trans (visitPair_grows List.mem_cons_self (hfresh.same hadvance) hclosed1 ?_))
        exact fun siblings' c1s' st' => ihc siblings' (depth + 1) (c2.ptr :: parents) c1s' st'
      · exact hall _ siblings (c1 :: c1s) hinsert

end Grows

section Results

variable {cfg : DiffConfig} {t1 t2 : TreeNode}
  {deleted_ids large_unchanged_subtrees modified_inplace_ids deleted_inplace_ids : Option (List Nat)} {dir_diffs : List Nat}

/-- What is reported is in the new tree, and above it nothing counts as unchanged. -/
theorem diffTrees_reported (haddresses : (t2.ptr :: ptrs t2.children).Nodup)
    (hlines : ∀ a ∈ flatten t2.children, ∀ b ∈ flatten t2.children, a.getId = b.getId → a.ptr = b.ptr)
    (hempty : ∀ ids, large_unchanged_subtrees = some ids → ids = []) {r : DiffResult}
    (hr : diffTrees cfg t1 t2 deleted_ids large_unchanged_subtrees modified_inplace_ids dir_diffs deleted_inplace_ids = r)
    {x : Nat} (hx : x ∈ r.diffs) :
    ∃ above c, PathTo t2.children above c ∧ c.getId = x ∧
      ∀ ids, r.large_unchanged_subtrees = some ids → ∀ a ∈ above, a.getId ∉ ids := by
  subst hr
  obtain ⟨hroot, hnodup⟩ := List.nodup_cons.mp haddresses
  have hfresh : Fresh [t2.ptr] t2.children (.start modified_inplace_ids dir_diffs deleted_inplace_ids) := by
    refine ⟨hnodup, fun p hp => ⟨fun heq => ?_, rfl⟩⟩
    exact hroot (List.mem_singleton.mp heq ▸ hp)
  have hclosed : UpClosed [t2.ptr] (DiffState.start modified_inplace_ids dir_diffs deleted_inplace_ids).changed :=
    ⟨by simp, by simp, trivial⟩
  have hgrows := gatherDiffsLoop_grows cfg t2.children t1.children 0 [t2.ptr] t1.children _ hfresh hclosed
  rw [← gatherDiffs_eq] at hgrows
  simp only [diffTrees, mem_sortIds] at hx
  obtain hold | ⟨_, above, c, hpath, hid, hflagged⟩ := hgrows.reported x hx
  · simp [DiffState.start] at hold
  refine ⟨above, c, hpath, hid, ?_⟩
  intro ids hids a ha hin
  obtain ⟨start, hstart, rfl⟩ := Option.map_eq_some_iff.mp hids
  obtain rfl := hempty start hstart
  rw [mem_sortIds, gatherLargeUnchangedSubtrees_eq, mem_gatherLargeLoop] at hin
  obtain hin | ⟨d, hreported, hd⟩ := hin
  · simp at hin
  · obtain ⟨hmem, hunset, _⟩ := hreported.mem_flatten
    rw [hlines d hmem a (hpath.mem_flatten.2 a ha) hd, hflagged a ha] at hunset
    exact absurd hunset (by simp)

end Results

end urbackup.treediff
