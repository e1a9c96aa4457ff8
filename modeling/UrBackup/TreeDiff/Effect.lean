import UrBackup.TreeDiff.GatherDiffs

namespace urbackup.treediff

/-- Induction over a sibling list and, at every node, over its children. -/
theorem TreeNode.forest_induct {P : List TreeNode → Prop} (nil : P [])
    (cons : ∀ t rest, P t.children → P rest → P (t :: rest)) (ts : List TreeNode) : P ts :=
  @TreeNode.rec_1 (fun t => P t.children) P (fun _ _ _ _ _ h => h) nil cons ts

/-- Induction from the levels below a list of siblings to the list itself. -/
theorem TreeNode.level_induct {P : List TreeNode → Prop}
    (level : ∀ ts, (∀ t ∈ ts, P t.children) → P ts) (ts : List TreeNode) : P ts := by
  apply level
  induction ts using TreeNode.forest_induct with
  | nil => simp
  | cons t rest ihc ihr => exact List.forall_mem_cons.mpr ⟨level t.children ihc, ihr⟩

mutual

def nodePtrs : TreeNode → List Nat
  | .mk ptr _ _ _ cs => ptr :: ptrs cs

/-- The addresses of a forest, in the order of the node vector. -/
def ptrs : List TreeNode → List Nat
  | [] => []
  | t :: ts => nodePtrs t ++ ptrs ts

end

theorem nodePtrs_eq (t : TreeNode) : nodePtrs t = t.ptr :: ptrs t.children := by
  cases t
  simp [nodePtrs]

@[simp] theorem ptrs_nil : ptrs [] = [] := by simp [ptrs]

@[simp] theorem ptrs_cons (t : TreeNode) (ts : List TreeNode) :
    ptrs (t :: ts) = t.ptr :: ptrs t.children ++ ptrs ts := by
  simp [ptrs, nodePtrs_eq]

theorem ptrs_append (ts us : List TreeNode) : ptrs (ts ++ us) = ptrs ts ++ ptrs us := by
  induction ts with
  | nil => simp
  | cons t ts ih => simp [ih]

theorem ptr_mem_ptrs {t : TreeNode} {ts : List TreeNode} (h : t ∈ ts) : t.ptr ∈ ptrs ts := by
  obtain ⟨pre, post, rfl⟩ := List.append_of_mem h
  simp [ptrs_append]

theorem ptrs_children_subset {t : TreeNode} {ts : List TreeNode} (h : t ∈ ts) :
    ptrs t.children ⊆ ptrs ts := by
  obtain ⟨pre, post, rfl⟩ := List.append_of_mem h
  simp only [ptrs_append, ptrs_cons]
  intro p hp
  simp [hp]

theorem nodup_ptrs_children {t : TreeNode} {ts : List TreeNode} (h : t ∈ ts)
    (hnodup : (ptrs ts).Nodup) : (ptrs t.children).Nodup := by
  obtain ⟨pre, post, rfl⟩ := List.append_of_mem h
  simp only [ptrs_append, ptrs_cons] at hnodup
  exact (hnodup.of_append_right.of_append_left).of_cons

/-- The old child that occupies the place of `c2`. -/
def counterpart (c1s : List TreeNode) (c2 : TreeNode) : Option TreeNode :=
  c1s.find? fun c1 => decide (c1.SameKey c2)

theorem counterpart_mem {c1s : List TreeNode} {c1 c2 : TreeNode} (h : counterpart c1s c2 = some c1) :
    c1 ∈ c1s :=
  List.mem_of_find?_eq_some h

theorem counterpart_sameKey {c1s : List TreeNode} {c1 c2 : TreeNode}
    (h : counterpart c1s c2 = some c1) : c1.SameKey c2 := by
  simpa using List.find?_some h

theorem counterpart_eq_none {c1s : List TreeNode} {c2 : TreeNode} :
    counterpart c1s c2 = none ↔ ∀ c1 ∈ c1s, ¬ c1.SameKey c2 := by
  simp [counterpart, List.find?_eq_none]

/-- Old and new node are mapped onto each other: a pair of directories, or two
files with equal data, in the same place. -/
def Pairs (c1 c2 : TreeNode) : Prop :=
  c1.SameKey c2 ∧ (c2.getType = .dir ∨ c1.getData = c2.getData)

instance (c1 c2 : TreeNode) : Decidable (Pairs c1 c2) :=
  inferInstanceAs (Decidable (_ ∧ _))

/-- Whether a node counts as changed for being a symbolic link. -/
def guarded (cfg : DiffConfig) (c2 : TreeNode) : Bool :=
  !cfg.win32 && isSymlink cfg c2

mutual

def looksUnchangedNode (cfg : DiffConfig) (c1 : TreeNode) : TreeNode → Bool
  | .mk ptr id name data cs =>
    decide (c1.SameKey (.mk ptr id name data cs)) && c1.getData == data
      && !guarded cfg (.mk ptr id name data cs) && looksUnchanged cfg cs c1.children

/-- The new children are a prefix of the old ones, with equal records and no
symbolic link anywhere: the old list may only have lost entries at its end. -/
def looksUnchanged (cfg : DiffConfig) : List TreeNode → List TreeNode → Bool
  | [], _ => true
  | _ :: _, [] => false
  | c2 :: c2s, c1 :: c1s => looksUnchangedNode cfg c1 c2 && looksUnchanged cfg c2s c1s

end

@[simp] theorem looksUnchanged_nil (cfg : DiffConfig) (c1s : List TreeNode) :
    looksUnchanged cfg [] c1s = true := by
  simp [looksUnchanged]

@[simp] theorem looksUnchanged_cons_nil (cfg : DiffConfig) (c2 : TreeNode) (c2s : List TreeNode) :
    looksUnchanged cfg (c2 :: c2s) [] = false := by
  simp [looksUnchanged]

theorem looksUnchanged_cons (cfg : DiffConfig) (c1 c2 : TreeNode) (c1s c2s : List TreeNode) :
    looksUnchanged cfg (c2 :: c2s) (c1 :: c1s) = true ↔
      c1.SameKey c2 ∧ c1.getData = c2.getData ∧ guarded cfg c2 = false ∧
        looksUnchanged cfg c2.children c1.children = true ∧ looksUnchanged cfg c2s c1s = true := by
  cases c2
  simp [looksUnchanged, looksUnchangedNode, and_assoc]

/-- What visiting a level adds to the state, one list per field. -/
@[ext]
structure Effect where
  diffs : List Nat := []
  modified : List Nat := []
  dirDiffs : List Nat := []
  deletedInplace : List Nat := []
  maps : List (Nat × Nat) := []
  flagged : List Nat := []

instance : Append Effect where
  append e e' :=
    { diffs := e.diffs ++ e'.diffs
      modified := e.modified ++ e'.modified
      dirDiffs := e.dirDiffs ++ e'.dirDiffs
      deletedInplace := e.deletedInplace ++ e'.deletedInplace
      maps := e.maps ++ e'.maps
      flagged := e.flagged ++ e'.flagged }

@[simp] theorem Effect.append_diffs (e e' : Effect) : (e ++ e').diffs = e.diffs ++ e'.diffs := rfl
@[simp] theorem Effect.append_modified (e e' : Effect) :
    (e ++ e').modified = e.modified ++ e'.modified := rfl
@[simp] theorem Effect.append_dirDiffs (e e' : Effect) :
    (e ++ e').dirDiffs = e.dirDiffs ++ e'.dirDiffs := rfl
@[simp] theorem Effect.append_deletedInplace (e e' : Effect) :
    (e ++ e').deletedInplace = e.deletedInplace ++ e'.deletedInplace := rfl
@[simp] theorem Effect.append_maps (e e' : Effect) : (e ++ e').maps = e.maps ++ e'.maps := rfl
@[simp] theorem Effect.append_flagged (e e' : Effect) :
    (e ++ e').flagged = e.flagged ++ e'.flagged := rfl

@[simp] theorem Effect.append_empty (e : Effect) : e ++ ({} : Effect) = e := by
  ext1 <;> simp

@[simp] theorem Effect.empty_append (e : Effect) : ({} : Effect) ++ e = e := by
  ext1 <;> simp

/-- The contribution of a modified file. -/
def modifiedEffect (cfg : DiffConfig) (c1 c2 : TreeNode) : Effect :=
  { diffs := [c2.getId]
    modified := [c2.getId]
    deletedInplace := if isSymlink cfg c1 = isSymlink cfg c2 then [c1.getId] else [] }

/-- The contribution of a mapped pair around that of its children. -/
def pairEffect (cfg : DiffConfig) (c1 c2 : TreeNode) (below : Effect) : Effect :=
  { dirDiffs := if c1.getData = c2.getData then [] else [c2.getId] } ++
    ({ flagged := if looksUnchanged cfg c2.children c1.children then [] else [c2.ptr] } ++ below) ++
    { maps := [(c1.ptr, c2.ptr)] }

mutual

/-- The contribution of one new node below the old level `c1s`. -/
def nodeEffect (cfg : DiffConfig) (c1s : List TreeNode) : TreeNode → Effect
  | .mk ptr id name data cs =>
    match counterpart c1s (.mk ptr id name data cs) with
    | none => { diffs := [id] }
    | some c1 =>
      if Pairs c1 (.mk ptr id name data cs) then
        pairEffect cfg c1 (.mk ptr id name data cs) (levelEffect cfg c1.children cs)
      else modifiedEffect cfg c1 (.mk ptr id name data cs)

/-- The contribution of the new level `c2s` matched against the old one by type
and name, without reference to the order of either. -/
def levelEffect (cfg : DiffConfig) (c1s : List TreeNode) : List TreeNode → Effect
  | [] => {}
  | c2 :: c2s => nodeEffect cfg c1s c2 ++ levelEffect cfg c1s c2s

end

@[simp] theorem levelEffect_nil (cfg : DiffConfig) (c1s : List TreeNode) :
    levelEffect cfg c1s [] = {} := by
  simp [levelEffect]

@[simp] theorem levelEffect_cons (cfg : DiffConfig) (c1s : List TreeNode) (c2 : TreeNode)
    (c2s : List TreeNode) :
    levelEffect cfg c1s (c2 :: c2s) = nodeEffect cfg c1s c2 ++ levelEffect cfg c1s c2s := by
  simp [levelEffect]

theorem nodeEffect_none (cfg : DiffConfig) {c1s : List TreeNode} {c2 : TreeNode}
    (h : counterpart c1s c2 = none) : nodeEffect cfg c1s c2 = { diffs := [c2.getId] } := by
  cases c2
  simp [nodeEffect, h]

theorem nodeEffect_pair {cfg : DiffConfig} {c1s : List TreeNode} {c1 c2 : TreeNode}
    (h : counterpart c1s c2 = some c1) (hpair : Pairs c1 c2) :
    nodeEffect cfg c1s c2 = pairEffect cfg c1 c2 (levelEffect cfg c1.children c2.children) := by
  cases c2
  simp [nodeEffect, h, hpair]

theorem nodeEffect_modified {cfg : DiffConfig} {c1s : List TreeNode} {c1 c2 : TreeNode}
    (h : counterpart c1s c2 = some c1) (hpair : ¬ Pairs c1 c2) :
    nodeEffect cfg c1s c2 = modifiedEffect cfg c1 c2 := by
  cases c2
  simp [nodeEffect, h, hpair]

/-- Only nodes of the new level and below are flagged. -/
theorem levelEffect_flagged_subset (cfg : DiffConfig) (c1s c2s : List TreeNode) :
    (levelEffect cfg c1s c2s).flagged ⊆ ptrs c2s := by
  induction c2s using TreeNode.forest_induct generalizing c1s with
  | nil => simp
  | cons c2 rest ihc ihr =>
    have hnode : (nodeEffect cfg c1s c2).flagged ⊆ c2.ptr :: ptrs c2.children := by
      cases hc : counterpart c1s c2 with
      | none => simp [nodeEffect_none cfg hc]
      | some c1 =>
        by_cases hpair : Pairs c1 c2
        · rw [nodeEffect_pair hc hpair]
          intro p hp
          simp only [pairEffect, Effect.append_flagged, List.nil_append, List.append_nil, List.mem_append] at hp
          rcases hp with hp | hp
          · cases hl : looksUnchanged cfg c2.children c1.children <;> simp_all
          · exact List.mem_cons_of_mem _ (ihc c1.children hp)
        · simp [nodeEffect_modified hc hpair, modifiedEffect]
    intro p hp
    simp only [levelEffect_cons, Effect.append_flagged, List.mem_append] at hp
    simp only [ptrs_cons, List.mem_append]
    rcases hp with hp | hp
    · exact Or.inl (hnode hp)
    · exact Or.inr (ihr c1s hp)

/-- A node below `c1s` maps only old nodes at or below its counterpart. -/
theorem levelEffect_maps_subset (cfg : DiffConfig) (c1s c2s : List TreeNode) :
    ∀ p ∈ (levelEffect cfg c1s c2s).maps, p.1 ∈ ptrs c1s ∧ p.2 ∈ ptrs c2s := by
  induction c2s using TreeNode.forest_induct generalizing c1s with
  | nil => simp
  | cons c2 rest ihc ihr =>
    intro p hp
    simp only [levelEffect_cons, Effect.append_maps, List.mem_append] at hp
    simp only [ptrs_cons, List.mem_append]
    rcases hp with hp | hp
    · cases hc : counterpart c1s c2 with
      | none => simp [nodeEffect_none cfg hc] at hp
      | some c1 =>
        by_cases hpair : Pairs c1 c2
        · rw [nodeEffect_pair hc hpair] at hp
          simp only [pairEffect, Effect.append_maps, List.nil_append, List.mem_append, List.mem_singleton] at hp
          rcases hp with hp | rfl
          · obtain ⟨h1, h2⟩ := ihc c1.children p hp
            exact ⟨ptrs_children_subset (counterpart_mem hc) h1, Or.inl (List.mem_cons_of_mem _ h2)⟩
          · exact ⟨ptr_mem_ptrs (counterpart_mem hc), by simp⟩
        · simp [nodeEffect_modified hc hpair, modifiedEffect] at hp
    · obtain ⟨h1, h2⟩ := ihr c1s p hp
      exact ⟨h1, Or.inr h2⟩

end urbackup.treediff
