import UrBackup.TreeDiff.Loop

namespace urbackup.treediff

mutual

def nodeFlatten : TreeNode → List TreeNode
  | .mk ptr id name data cs => .mk ptr id name data cs :: flatten cs

/-- All nodes of a forest, in the order of the node vector. -/
def flatten : List TreeNode → List TreeNode
  | [] => []
  | t :: ts => nodeFlatten t ++ flatten ts

end

@[simp] theorem flatten_nil : flatten [] = [] := by simp [flatten]

@[simp] theorem flatten_cons (t : TreeNode) (ts : List TreeNode) :
    flatten (t :: ts) = t :: flatten t.children ++ flatten ts := by
  cases t
  simp [flatten, nodeFlatten]

theorem ptrs_eq_map_flatten (ts : List TreeNode) : ptrs ts = (flatten ts).map TreeNode.ptr := by
  induction ts using TreeNode.forest_induct with
  | nil => simp
  | cons t rest ihc ihr => simp [ihc, ihr]

theorem flatten_append (ts us : List TreeNode) : flatten (ts ++ us) = flatten ts ++ flatten us := by
  induction ts with
  | nil => simp
  | cons t ts ih => simp [ih]

theorem mem_flatten_of_mem {t : TreeNode} {ts : List TreeNode} (h : t ∈ ts) : t ∈ flatten ts := by
  obtain ⟨pre, post, rfl⟩ := List.append_of_mem h
  simp [flatten_append]

theorem flatten_children_subset {t : TreeNode} {ts : List TreeNode} (h : t ∈ ts) :
    flatten t.children ⊆ flatten ts := by
  obtain ⟨pre, post, rfl⟩ := List.append_of_mem h
  intro x hx
  simp [flatten_append, hx]

/-- A file tree as the list reader builds it: siblings distinct by type and
name, every level below the root ordered, the root level in any order; nodes at
distinct addresses and from distinct lines; only directories have children. -/
structure FileTree where
  root : TreeNode
  distinct : Distinct root.children
  sorted : SortedBelow root.children
  addresses : (root.ptr :: ptrs root.children).Nodup
  lines : ((flatten root.children).map TreeNode.getId).Nodup
  leaves : ∀ t ∈ flatten root.children, t.getType = .file → t.children = []

/-- The child levels of two nodes that are mapped onto each other, the roots
being mapped from the start. -/
inductive MatchedLevel (r1 r2 : List TreeNode) : List TreeNode → List TreeNode → Prop where
  | root : MatchedLevel r1 r2 r1 r2
  | child {c1s c2s : List TreeNode} {c1 c2 : TreeNode} (hlevel : MatchedLevel r1 r2 c1s c2s)
      (h1 : c1 ∈ c1s) (h2 : c2 ∈ c2s) (hpair : Pairs c1 c2) :
      MatchedLevel r1 r2 c1.children c2.children

/-- The new node `c2` is mapped to the old node `c1`. -/
def Matched (r1 r2 : List TreeNode) (c1 c2 : TreeNode) : Prop :=
  ∃ c1s c2s, MatchedLevel r1 r2 c1s c2s ∧ c1 ∈ c1s ∧ c2 ∈ c2s ∧ Pairs c1 c2

/-- Matching goes on below the first pair as it would from there. -/
theorem matchedLevel_iff {r1 r2 c1s c2s : List TreeNode} :
    MatchedLevel r1 r2 c1s c2s ↔ (c1s = r1 ∧ c2s = r2) ∨
      ∃ c1 ∈ r1, ∃ c2 ∈ r2, Pairs c1 c2 ∧ MatchedLevel c1.children c2.children c1s c2s := by
  constructor
  · intro h
    induction h with
    | root => exact Or.inl ⟨rfl, rfl⟩
    | @child c1s c2s c1 c2 _ h1 h2 hpair ih =>
      refine Or.inr ?_
      rcases ih with ⟨rfl, rfl⟩ | ⟨d1, hd1, d2, hd2, hd, hrest⟩
      · exact ⟨c1, h1, c2, h2, hpair, .root⟩
      · exact ⟨d1, hd1, d2, hd2, hd, hrest.child h1 h2 hpair⟩
  · rintro (⟨rfl, rfl⟩ | ⟨d1, hd1, d2, hd2, hd, hrest⟩)
    · exact .root
    · induction hrest with
      | root => exact MatchedLevel.child .root hd1 hd2 hd
      | child _ h1 h2 hpair ih => exact ih.child h1 h2 hpair

theorem matched_iff {r1 r2 : List TreeNode} {c1 c2 : TreeNode} :
    Matched r1 r2 c1 c2 ↔ (c1 ∈ r1 ∧ c2 ∈ r2 ∧ Pairs c1 c2) ∨
      ∃ d1 ∈ r1, ∃ d2 ∈ r2, Pairs d1 d2 ∧ Matched d1.children d2.children c1 c2 := by
  constructor
  · rintro ⟨c1s, c2s, hlevel, h1, h2, hpair⟩
    rcases matchedLevel_iff.mp hlevel with ⟨rfl, rfl⟩ | ⟨d1, hd1, d2, hd2, hd, hrest⟩
    · exact Or.inl ⟨h1, h2, hpair⟩
    · exact Or.inr ⟨d1, hd1, d2, hd2, hd, c1s, c2s, hrest, h1, h2, hpair⟩
  · rintro (⟨h1, h2, hpair⟩ | ⟨d1, hd1, d2, hd2, hd, c1s, c2s, hrest, h1, h2, hpair⟩)
    · exact ⟨r1, r2, .root, h1, h2, hpair⟩
    · exact ⟨c1s, c2s, matchedLevel_iff.mpr (Or.inr ⟨d1, hd1, d2, hd2, hd, hrest⟩), h1, h2, hpair⟩

theorem MatchedLevel.flatten_subset {r1 r2 c1s c2s : List TreeNode} (h : MatchedLevel r1 r2 c1s c2s) :
    flatten c1s ⊆ flatten r1 ∧ flatten c2s ⊆ flatten r2 := by
  induction h with
  | root => exact ⟨fun _ h => h, fun _ h => h⟩
  | child _ h1 h2 _ ih =>
    exact ⟨fun _ h => ih.1 (flatten_children_subset h1 h), fun _ h => ih.2 (flatten_children_subset h2 h)⟩

/-- Matched levels keep what is known of both trees. -/
theorem MatchedLevel.distinct {r1 r2 c1s c2s : List TreeNode} (h : MatchedLevel r1 r2 c1s c2s)
    (hd1 : Distinct r1) (hs1 : SortedBelow r1) :
    Distinct c1s ∧ SortedBelow c1s := by
  induction h with
  | root => exact ⟨hd1, hs1⟩
  | child _ h1 _ _ ih =>
    obtain ⟨hord, hbelow⟩ := ih.2.of_mem h1
    exact ⟨hord.distinct, hbelow⟩

theorem MatchedLevel.distinct_right {r1 r2 c1s c2s : List TreeNode} (h : MatchedLevel r1 r2 c1s c2s)
    (hd2 : Distinct r2) (hs2 : SortedBelow r2) :
    Distinct c2s ∧ SortedBelow c2s := by
  induction h with
  | root => exact ⟨hd2, hs2⟩
  | child _ _ h2 _ ih =>
    obtain ⟨hord, hbelow⟩ := ih.2.of_mem h2
    exact ⟨hord.distinct, hbelow⟩

/-- What a new node contributes itself, without the level below it. -/
def ownEffect (cfg : DiffConfig) (c1s : List TreeNode) (c2 : TreeNode) : Effect :=
  match counterpart c1s c2 with
  | none => { diffs := [c2.getId] }
  | some c1 => if Pairs c1 c2 then pairEffect cfg c1 c2 {} else modifiedEffect cfg c1 c2

/-- Any list of the effect collects the nodes' own contributions over all
matched levels. `field` stands for one of the projections. -/
theorem mem_levelEffect_iff {α : Type} (field : Effect → List α)
    (happend : ∀ e e', field (e ++ e') = field e ++ field e') (hempty : field {} = [])
    (cfg : DiffConfig) {x : α} (r2 : List TreeNode) :
    ∀ r1, Distinct r1 → SortedBelow r1 → (x ∈ field (levelEffect cfg r1 r2) ↔
      ∃ c1s c2s, MatchedLevel r1 r2 c1s c2s ∧ ∃ c2 ∈ c2s, x ∈ field (ownEffect cfg c1s c2)) := by
  induction r2 using TreeNode.forest_induct with
  | nil =>
    intro r1 _ _
    simp only [levelEffect_nil, hempty, List.not_mem_nil, false_iff]
    rintro ⟨c1s, c2s, hlevel, c2, hc2, _⟩
    have := hlevel.flatten_subset.2 (mem_flatten_of_mem hc2)
    simp at this
  | cons c2 rest ihc ihr =>
    intro r1 hd1 hs1
    -- the node's share: its own contribution or one from below its counterpart
    have hnode : x ∈ field (nodeEffect cfg r1 c2) ↔ x ∈ field (ownEffect cfg r1 c2) ∨
        ∃ c1 ∈ r1, Pairs c1 c2 ∧ x ∈ field (levelEffect cfg c1.children c2.children) := by
      cases hc : counterpart r1 c2 with
      | none =>
        have hno := counterpart_eq_none.mp hc
        rw [nodeEffect_none cfg hc]
        simp only [ownEffect, hc]
        exact ⟨Or.inl, fun h => h.resolve_right fun ⟨c1, h1, hp, _⟩ => hno c1 h1 hp.1⟩
      | some c1 =>
        have honly : ∀ d1 ∈ r1, Pairs d1 c2 → d1 = c1 := fun d1 hd hp =>
          hd1.eq_of_sameKey hd (counterpart_mem hc) (hp.1.trans (counterpart_sameKey hc).symm)
        by_cases hpair : Pairs c1 c2
        · rw [nodeEffect_pair hc hpair]
          simp only [ownEffect, hc, if_pos hpair, pairEffect, happend, hempty, List.append_nil,
            List.mem_append]
          constructor
          · rintro ((h | h | h) | h)
            · exact Or.inl (Or.inl (Or.inl h))
            · exact Or.inl (Or.inl (Or.inr h))
            · exact Or.inr ⟨c1, counterpart_mem hc, hpair, h⟩
            · exact Or.inl (Or.inr h)
          · rintro (((h | h) | h) | ⟨d1, hd, hp, h⟩)
            · exact Or.inl (Or.inl h)
            · exact Or.inl (Or.inr (Or.inl h))
            · exact Or.inr h
            · rw [honly d1 hd hp] at h
              exact Or.inl (Or.inr (Or.inr h))
        · rw [nodeEffect_modified hc hpair]
          simp only [ownEffect, hc, if_neg hpair]
          exact ⟨Or.inl, fun h => h.resolve_right fun ⟨d1, hd, hp, _⟩ => hpair (honly d1 hd hp ▸ hp)⟩
    rw [levelEffect_cons, happend, List.mem_append, hnode, ihr r1 hd1 hs1]
    constructor
    · rintro ((h | ⟨c1, h1, hp, h⟩) | ⟨c1s, c2s, hlevel, d2, hd2, h⟩)
      · exact ⟨r1, _, .root, c2, by simp, h⟩
      · obtain ⟨hord, hbelow⟩ := hs1.of_mem h1
        obtain ⟨c1s, c2s, hlevel, d2, hd2, h⟩ := (ihc c1.children hord.distinct hbelow).mp h
        exact ⟨c1s, c2s, matchedLevel_iff.mpr (Or.inr ⟨c1, h1, c2, by simp, hp, hlevel⟩), d2, hd2, h⟩
      · rcases matchedLevel_iff.mp hlevel with ⟨rfl, rfl⟩ | ⟨e1, he1, e2, he2, he, hrest⟩
        · exact ⟨_, _, .root, d2, by simp [hd2], h⟩
        · exact ⟨c1s, c2s, matchedLevel_iff.mpr (Or.inr ⟨e1, he1, e2, by simp [he2], he, hrest⟩), d2, hd2, h⟩
    · rintro ⟨c1s, c2s, hlevel, d2, hd2, h⟩
      rcases matchedLevel_iff.mp hlevel with ⟨rfl, rfl⟩ | ⟨e1, he1, e2, he2, he, hrest⟩
      · rcases List.mem_cons.mp hd2 with rfl | hd2
        · exact Or.inl (Or.inl h)
        · exact Or.inr ⟨_, _, .root, d2, hd2, h⟩
      · rcases List.mem_cons.mp he2 with rfl | he2
        · obtain ⟨hord, hbelow⟩ := hs1.of_mem he1
          exact Or.inl (Or.inr ⟨e1, he1, he,
            (ihc e1.children hord.distinct hbelow).mpr ⟨c1s, c2s, hrest, d2, hd2, h⟩⟩)
        · exact Or.inr ⟨c1s, c2s, matchedLevel_iff.mpr (Or.inr ⟨e1, he1, e2, he2, he, hrest⟩), d2, hd2, h⟩

/-- The state `gatherDiffs` leaves behind for two file trees: the order-free
effect of the root levels, apart from the flag of the root itself. -/
theorem gatherDiffs_root (cfg : DiffConfig) (t1 t2 : FileTree) (modified : Option (List Nat))
    (dir_diffs : List Nat) (deleted : Option (List Nat)) :
    ∃ flag, Applied [t2.root.ptr] (levelEffect cfg t1.root.children t2.root.children) flag
      (DiffState.start modified dir_diffs deleted)
      (gatherDiffs cfg t1.root t2.root 0 [] (DiffState.start modified dir_diffs deleted)) := by
  obtain ⟨hroot, hnodup⟩ := List.nodup_cons.mp t2.addresses
  rw [gatherDiffs_eq]
  obtain ⟨flag, happ, _⟩ := gatherDiffsLoop_applied cfg t2.root.children t1.root.children 0 [t2.root.ptr]
    t1.root.children (DiffState.start modified dir_diffs deleted) t1.distinct t2.distinct t1.sorted t2.sorted
    (List.nodup_cons.mp t1.addresses).2 hnodup
    (by simp [CursorOk, DiffState.start]) (by simp [UpClosed])
    (fun p hp => ⟨fun h => hroot (List.mem_singleton.mp h ▸ hp), rfl⟩)
  exact ⟨flag, happ⟩

end urbackup.treediff
