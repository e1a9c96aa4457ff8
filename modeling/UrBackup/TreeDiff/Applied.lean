import UrBackup.TreeDiff.Effect

namespace urbackup.treediff

/-- Along a chain of parent pointers a flagged node has only flagged ancestors,
which is what lets `subtreeChangedParent` stop early. -/
def UpClosed : List Nat → (Nat → Bool) → Prop
  | [], _ => True
  | p :: parents, changed =>
    p ∉ parents ∧ (changed p = true → ∀ q ∈ parents, changed q = true) ∧ UpClosed parents changed

theorem UpClosed.update {parents : List Nat} {changed : Nat → Bool} {p : Nat}
    (h : UpClosed parents changed) (hp : p ∉ parents) :
    UpClosed parents (Function.update changed p true) := by
  induction parents with
  | nil => trivial
  | cons q parents ih =>
    simp only [List.mem_cons, not_or] at hp
    obtain ⟨hnot, hup, hrest⟩ := h
    refine ⟨hnot, ?_, ih hrest hp.2⟩
    intro hq r hr
    rw [Function.update_of_ne (Ne.symm hp.1)] at hq
    by_cases hrp : r = p
    · simp [hrp]
    · rw [Function.update_of_ne hrp]
      exact hup hq r hr

/-- On a closed chain the early exit is invisible: every ancestor ends up
flagged and nothing else changes. -/
theorem subtreeChangedParent_iff {parents : List Nat} {changed : Nat → Bool}
    (h : UpClosed parents changed) (q : Nat) :
    subtreeChangedParent parents changed q = true ↔ changed q = true ∨ q ∈ parents := by
  induction parents generalizing changed with
  | nil => simp [subtreeChangedParent]
  | cons p parents ih =>
    obtain ⟨hnot, hup, hrest⟩ := h
    unfold subtreeChangedParent
    by_cases hp : changed p = true
    · rw [if_pos hp]
      constructor
      · exact Or.inl
      · rintro (hq | hq)
        · exact hq
        · rcases List.mem_cons.mp hq with rfl | hq
          · exact hp
          · exact hup hp q hq
    · rw [if_neg hp, ih (hrest.update hnot)]
      by_cases hqp : q = p
      · simp [hqp]
      · rw [Function.update_of_ne hqp]
        simp [hqp]

def applyMaps1 (maps : List (Nat × Nat)) (mapped : Nat → Option Nat) : Nat → Option Nat :=
  maps.foldl (fun m p => Function.update m p.1 (some p.2)) mapped

def applyMaps2 (maps : List (Nat × Nat)) (mapped : Nat → Option Nat) : Nat → Option Nat :=
  maps.foldl (fun m p => Function.update m p.2 (some p.1)) mapped

theorem foldl_update_eq_none {key val : Nat × Nat → Nat} {maps : List (Nat × Nat)} {mapped : Nat → Option Nat} {q : Nat} :
    maps.foldl (fun m p => Function.update m (key p) (some (val p))) mapped q = none ↔
      mapped q = none ∧ ∀ p ∈ maps, key p ≠ q := by
  induction maps generalizing mapped with
  | nil => simp
  | cons p maps ih =>
    rw [List.foldl_cons, ih]
    by_cases hp : q = key p
    · subst hp
      simp
    · rw [Function.update_of_ne hp]
      simp only [List.forall_mem_cons, ne_eq]
      exact ⟨fun ⟨h1, h2⟩ => ⟨h1, Ne.symm hp, h2⟩, fun ⟨h1, _, h2⟩ => ⟨h1, h2⟩⟩

theorem applyMaps1_eq_none {maps : List (Nat × Nat)} {mapped : Nat → Option Nat} {q : Nat} :
    applyMaps1 maps mapped q = none ↔ mapped q = none ∧ ∀ p ∈ maps, p.1 ≠ q :=
  @foldl_update_eq_none Prod.fst Prod.snd maps mapped q

theorem applyMaps2_eq_none {maps : List (Nat × Nat)} {mapped : Nat → Option Nat} {q : Nat} :
    applyMaps2 maps mapped q = none ↔ mapped q = none ∧ ∀ p ∈ maps, p.2 ≠ q :=
  @foldl_update_eq_none Prod.snd Prod.fst maps mapped q

theorem applyMaps1_of_notMem {maps : List (Nat × Nat)} {mapped : Nat → Option Nat} {q : Nat}
    (h : ∀ p ∈ maps, p.1 ≠ q) : applyMaps1 maps mapped q = mapped q := by
  induction maps generalizing mapped with
  | nil => rfl
  | cons p maps ih =>
    obtain ⟨hp, hrest⟩ := List.forall_mem_cons.mp h
    have hstep := @ih (Function.update mapped p.1 (some p.2)) hrest
    rwa [Function.update_of_ne (Ne.symm hp)] at hstep

/-- From `st` to `st'` exactly the effect `e` happened, and the chain `parents`
was flagged if and only if `flag` holds. -/
structure Applied (parents : List Nat) (e : Effect) (flag : Prop) (st st' : DiffState) : Prop where
  diffs : st'.diffs = st.diffs ++ e.diffs
  modified : st'.modified_inplace_ids = st.modified_inplace_ids.map (· ++ e.modified)
  dir_diffs : st'.dir_diffs = st.dir_diffs ++ e.dirDiffs
  deleted : st'.deleted_inplace_ids = st.deleted_inplace_ids.map (· ++ e.deletedInplace)
  mapped1 : st'.mapped1 = applyMaps1 e.maps st.mapped1
  mapped2 : st'.mapped2 = applyMaps2 e.maps st.mapped2
  outside : ∀ p, p ∉ parents → (st'.changed p = true ↔ st.changed p = true ∨ p ∈ e.flagged)
  inside : ∀ p ∈ parents, (st'.changed p = true ↔ st.changed p = true ∨ flag)

theorem Applied.refl (parents : List Nat) (st : DiffState) : Applied parents {} False st st := by
  constructor <;> simp [applyMaps1, applyMaps2]

theorem Applied.trans {parents : List Nat} {e e' : Effect} {flag flag' : Prop}
    {st st' st'' : DiffState} (h : Applied parents e flag st st')
    (h' : Applied parents e' flag' st' st'') :
    Applied parents (e ++ e') (flag ∨ flag') st st'' where
  diffs := by simp [h'.diffs, h.diffs]
  modified := by
    rw [h'.modified, h.modified]
    cases st.modified_inplace_ids <;> simp
  dir_diffs := by simp [h'.dir_diffs, h.dir_diffs]
  deleted := by
    rw [h'.deleted, h.deleted]
    cases st.deleted_inplace_ids <;> simp
  mapped1 := by simp [h'.mapped1, h.mapped1, applyMaps1]
  mapped2 := by simp [h'.mapped2, h.mapped2, applyMaps2]
  outside := by
    intro p hp
    rw [h'.outside p hp, h.outside p hp]
    simp [or_assoc]
  inside := by
    intro p hp
    rw [h'.inside p hp, h.inside p hp, or_assoc]

theorem Applied.congr {parents : List Nat} {e : Effect} {flag flag' : Prop} {st st' : DiffState}
    (h : Applied parents e flag st st') (hflag : flag ↔ flag') : Applied parents e flag' st st' := by
  rwa [← propext hflag]

theorem Applied.upClosed {parents : List Nat} {e : Effect} {flag : Prop} {st st' : DiffState}
    (h : Applied parents e flag st st') (hclosed : UpClosed parents st.changed) :
    UpClosed parents st'.changed := by
  have hinside := h.inside
  clear h
  induction parents with
  | nil => trivial
  | cons p parents ih =>
    obtain ⟨hnot, hup, hrest⟩ := hclosed
    refine ⟨hnot, ?_, ih hrest fun q hq => hinside q (List.mem_cons_of_mem _ hq)⟩
    intro hp q hq
    rw [hinside q (List.mem_cons_of_mem _ hq)]
    rcases (hinside p (by simp)).mp hp with hp | hflag
    · exact Or.inl (hup hp q hq)
    · exact Or.inr hflag

theorem DiffState.subtreeChanged_applied {parents : List Nat} {st : DiffState}
    (h : UpClosed parents st.changed) : Applied parents {} True st (st.subtreeChanged parents) := by
  constructor <;> simp [DiffState.subtreeChanged, applyMaps1, applyMaps2]
  · intro p hp
    simpa [hp] using subtreeChangedParent_iff h p
  · intro p hp
    exact (subtreeChangedParent_iff h p).mpr (Or.inr hp)

theorem DiffState.inserted_applied {parents : List Nat} {st : DiffState} (c2 : TreeNode)
    (h : UpClosed parents st.changed) :
    Applied parents { diffs := [c2.getId] } True st (st.inserted parents c2) := by
  have hst : Applied parents { diffs := [c2.getId] } False st { st with diffs := st.diffs ++ [c2.getId] } := by
    constructor <;> simp [applyMaps1, applyMaps2]
  simpa [DiffState.inserted] using hst.trans (DiffState.subtreeChanged_applied (hst.upClosed h))

theorem DiffState.dirDiff_applied {parents : List Nat} {st : DiffState} (c2 : TreeNode)
    (h : UpClosed parents st.changed) :
    Applied parents { dirDiffs := [c2.getId] } True st (st.dirDiff parents c2) := by
  have hst : Applied parents { dirDiffs := [c2.getId] } False st
      { st with dir_diffs := st.dir_diffs ++ [c2.getId] } := by
    constructor <;> simp [applyMaps1, applyMaps2]
  simpa [DiffState.dirDiff] using hst.trans (DiffState.subtreeChanged_applied (hst.upClosed h))

theorem DiffState.modifiedFile_applied {parents : List Nat} {st : DiffState} (cfg : DiffConfig)
    {c1 c2 : TreeNode} (htype : c1.getType = c2.getType) (h : UpClosed parents st.changed) :
    Applied parents (modifiedEffect cfg c1 c2) True st (st.modifiedFile cfg parents c1 c2) := by
  unfold DiffState.modifiedFile modifiedEffect
  simp only [htype, true_and, if_true]
  split
  · have hst : Applied parents
        { diffs := [c2.getId], modified := [c2.getId], deletedInplace := [c1.getId] } False st
        { st with
          modified_inplace_ids := pushBack st.modified_inplace_ids c2.getId
          deleted_inplace_ids := pushBack st.deleted_inplace_ids c1.getId
          diffs := st.diffs ++ [c2.getId] } := by
      constructor <;> simp [applyMaps1, applyMaps2, pushBack]
    simpa using hst.trans (DiffState.subtreeChanged_applied (hst.upClosed h))
  · have hst : Applied parents { diffs := [c2.getId], modified := [c2.getId] } False st
        { st with
          modified_inplace_ids := pushBack st.modified_inplace_ids c2.getId
          diffs := st.diffs ++ [c2.getId] } := by
      constructor <;> simp [applyMaps1, applyMaps2, pushBack]
    simpa using hst.trans (DiffState.subtreeChanged_applied (hst.upClosed h))

theorem DiffState.setMapped_applied (parents : List Nat) (st : DiffState) (c1 c2 : TreeNode) :
    Applied parents { maps := [(c1.ptr, c2.ptr)] } False st (st.setMapped c1 c2) := by
  constructor <;> simp [DiffState.setMapped, applyMaps1, applyMaps2]

theorem DiffState.symlinkGuard_applied {parents : List Nat} {st : DiffState} (cfg : DiffConfig)
    (c2 : TreeNode) (h : UpClosed parents st.changed) :
    Applied parents {} (guarded cfg c2 = true) st (st.symlinkGuard cfg parents c2) := by
  unfold DiffState.symlinkGuard guarded
  split
  · next hguard => simpa [hguard] using DiffState.subtreeChanged_applied h
  · next hguard => simpa [hguard] using Applied.refl parents st

/-- The effect of a child level on its own chain, seen from the parents: the
child itself is one of the flagged nodes. -/
theorem Applied.leave {parents : List Nat} {e : Effect} {flag : Prop} [Decidable flag] {p : Nat}
    {st st' : DiffState} (h : Applied (p :: parents) e flag st st') (hp : p ∉ parents)
    (hfresh : p ∉ e.flagged) :
    Applied parents ({ flagged := if flag then [p] else [] } ++ e) flag st st' where
  diffs := h.diffs
  modified := h.modified
  dir_diffs := h.dir_diffs
  deleted := h.deleted
  mapped1 := h.mapped1
  mapped2 := h.mapped2
  outside := by
    intro q hq
    by_cases hqp : q = p
    · subst hqp
      rw [h.inside q (by simp)]
      by_cases hf : flag <;> simp [hf, hfresh]
    · rw [h.outside q (by simp [hqp, hq])]
      by_cases hf : flag <;> simp [hf, hqp]
  inside := fun q hq => h.inside q (List.mem_cons_of_mem _ hq)

end urbackup.treediff
