import Mathlib.Data.List.Pairwise
import UrBackup.TreeDiff.Applied

namespace urbackup.treediff

/-- What a level of a file list looks like: entries only, no two of them with
the same type and name. -/
structure Distinct (ts : List TreeNode) : Prop where
  entries : ∀ t ∈ ts, t.IsEntry
  unique : ts.Pairwise fun a b => ¬ a.SameKey b

/-- A level below the root also lists files before directories, by name. -/
def Ordered (ts : List TreeNode) : Prop :=
  (∀ t ∈ ts, t.IsEntry) ∧ ts.Pairwise TreeNode.Precedes

theorem not_sameKey_of_precedes {a b : TreeNode} (ha : a.IsEntry) (hb : b.IsEntry)
    (h : a.Precedes b) : ¬ a.SameKey b := by
  intro hkey
  have := (TreeNode.siblingCompare_eq_zero ha hb).mpr hkey
  unfold TreeNode.Precedes at h
  omega

theorem not_sameKey_of_follows {a b : TreeNode} (ha : a.IsEntry) (hb : b.IsEntry)
    (h : b.Precedes a) : ¬ a.SameKey b :=
  fun hkey => not_sameKey_of_precedes hb ha h hkey.symm

theorem Ordered.distinct {ts : List TreeNode} (h : Ordered ts) : Distinct ts :=
  ⟨h.1, h.2.imp_of_mem fun ha hb => not_sameKey_of_precedes (h.1 _ ha) (h.1 _ hb)⟩

theorem Distinct.eq_of_sameKey {ts : List TreeNode} (h : Distinct ts) {a b : TreeNode} (ha : a ∈ ts)
    (hb : b ∈ ts) (hkey : a.SameKey b) : a = b := by
  by_contra hne
  have : Std.Symm fun x y : TreeNode => ¬ x.SameKey y := ⟨fun _ _ hn hk => hn hk.symm⟩
  exact h.unique.forall ha hb hne hkey

theorem Distinct.counterpart_eq {ts : List TreeNode} (h : Distinct ts) {c1 c2 : TreeNode}
    (hmem : c1 ∈ ts) (hkey : c1.SameKey c2) : counterpart ts c2 = some c1 := by
  cases hc : counterpart ts c2 with
  | none => exact absurd hkey (counterpart_eq_none.mp hc c1 hmem)
  | some c =>
    rw [h.eq_of_sameKey (counterpart_mem hc) hmem ((counterpart_sameKey hc).trans hkey.symm)]

/-- Where the old cursor may stand before the new children `c2s` are visited:
below the root everything behind it is useless for them; on the unsorted root
level every old child they could be mapped to is still unmapped. -/
def CursorOk (depth : Nat) (siblings c1s c2s : List TreeNode) (mapped1 : Nat → Option Nat) : Prop :=
  if depth = 0 then
    c1s ⊆ siblings ∧ ∀ c1 ∈ siblings, ∀ c2 ∈ c2s, c1.SameKey c2 → mapped1 c1.ptr = none
  else
    Ordered siblings ∧ Ordered c2s ∧
      ∃ passed, siblings = passed ++ c1s ∧ ∀ c1 ∈ passed, ∀ c2 ∈ c2s, ¬ c1.SameKey c2

theorem findUnmapped_some {mapped1 : Nat → Option Nat} {c2 : TreeNode} {siblings c1s : List TreeNode}
    (h : findUnmapped mapped1 c2 siblings = some c1s) :
    ∃ c1 rest, c1s = c1 :: rest ∧ c1s ⊆ siblings ∧ c1.SameKey c2 := by
  induction siblings with
  | nil => simp [findUnmapped] at h
  | cons sn siblings ih =>
    unfold findUnmapped at h
    split at h
    · next hsn =>
      cases h
      exact ⟨sn, siblings, rfl, fun _ hx => hx, hsn.1.symm, (TreeNode.nameEquals_iff.mp hsn.2.1).symm⟩
    · obtain ⟨c1, rest, heq, hsub, hkey⟩ := ih h
      exact ⟨c1, rest, heq, fun _ hx => List.mem_cons_of_mem _ (hsub hx), hkey⟩

theorem findUnmapped_none {mapped1 : Nat → Option Nat} {c2 : TreeNode} {siblings : List TreeNode}
    (hfree : ∀ c1 ∈ siblings, c1.SameKey c2 → mapped1 c1.ptr = none)
    (h : findUnmapped mapped1 c2 siblings = none) : counterpart siblings c2 = none := by
  rw [counterpart_eq_none]
  induction siblings with
  | nil => simp
  | cons sn siblings ih =>
    unfold findUnmapped at h
    split at h
    · cases h
    · next hsn =>
      intro c1 hc1 hkey
      rcases List.mem_cons.mp hc1 with rfl | hc1
      · exact hsn ⟨hkey.1.symm, TreeNode.nameEquals_iff.mpr hkey.2.symm, hfree c1 (by simp) hkey⟩
      · exact ih (fun c hc => hfree c (List.mem_cons_of_mem _ hc)) h c1 hc1 hkey

/-- What `advance` guarantees about the cursor it stops at. -/
structure Advanced (depth : Nat) (siblings : List TreeNode) (c2 : TreeNode) (cmp : Int)
    (c1s : List TreeNode) : Prop where
  found : cmp = 0 → ∃ c1 rest, c1s = c1 :: rest ∧ c1.SameKey c2 ∧ c1 ∈ siblings
  missing : cmp ≠ 0 → counterpart siblings c2 = none

/-- On the root level `advance` finds the counterpart wherever it stands. -/
theorem advance_root {siblings : List TreeNode} (parents : List Nat) {c2 : TreeNode}
    (hsib : Distinct siblings) (hc2 : c2.IsEntry) (c1s : List TreeNode) (st : DiffState)
    (hsub : c1s ⊆ siblings) (hfree : ∀ c1 ∈ siblings, c1.SameKey c2 → st.mapped1 c1.ptr = none) :
    Advanced 0 siblings c2 (advance 0 siblings parents c2 c1s st).1
        (advance 0 siblings parents c2 c1s st).2.1 ∧
      (advance 0 siblings parents c2 c1s st).2.1 ⊆ siblings := by
  induction c1s generalizing st with
  | nil =>
    unfold advance
    simp only [if_true]
    split
    · next sn hsn =>
      obtain ⟨c1, rest, rfl, hsub', hkey⟩ := findUnmapped_some hsn
      exact ⟨⟨fun _ => ⟨c1, rest, rfl, hkey, hsub' (by simp)⟩, by simp⟩, hsub'⟩
    · next hnone => exact ⟨⟨by simp, fun _ => findUnmapped_none hfree hnone⟩, by simp⟩
  | cons c1 rest ih =>
    have hc1 : c1 ∈ siblings := hsub (by simp)
    unfold advance
    simp only [and_true]
    split
    · next sn hsn =>
      rw [ite_eq_iff] at hsn
      rcases hsn with ⟨_, hsn⟩ | ⟨_, hsn⟩
      · obtain ⟨c1', rest', rfl, hsub', hkey⟩ := findUnmapped_some hsn
        exact ⟨⟨fun _ => ⟨c1', rest', rfl, hkey, hsub' (by simp)⟩, by simp⟩, hsub'⟩
      · cases hsn
    · next hnone =>
      split
      · exact ih _ (fun _ hx => hsub (List.mem_cons_of_mem _ hx)) hfree
      · refine ⟨⟨fun hcmp => ⟨c1, rest, rfl, ?_, hc1⟩, fun hcmp => ?_⟩, hsub⟩
        · exact (TreeNode.siblingCompare_eq_zero (hsib.entries _ hc1) hc2).mp hcmp
        · rw [if_pos hcmp] at hnone
          exact findUnmapped_none hfree hnone

/-- Below the root `advance` skips a run of smaller old children. -/
theorem advance_below {depth : Nat} (hdepth : depth ≠ 0) (siblings : List TreeNode)
    (parents : List Nat) (c2 : TreeNode) (c1s : List TreeNode) (st : DiffState) :
    ∃ skipped, c1s = skipped ++ (advance depth siblings parents c2 c1s st).2.1 ∧
      (∀ c1 ∈ skipped, c1.Precedes c2) ∧
      match (advance depth siblings parents c2 c1s st).2.1 with
      | [] => (advance depth siblings parents c2 c1s st).1 = 1
      | c1 :: _ => (advance depth siblings parents c2 c1s st).1 = c1.siblingCompare c2 ∧
          ¬ c1.Precedes c2 := by
  induction c1s generalizing st with
  | nil => exact ⟨[], by simp [advance, hdepth]⟩
  | cons c1 rest ih =>
    unfold advance
    simp only [hdepth, and_false, if_false]
    split
    · next hlt =>
      obtain ⟨skipped, hsplit, hskipped, hstop⟩ := ih (st.subtreeChanged parents)
      refine ⟨c1 :: skipped, by simpa using hsplit, ?_, hstop⟩
      exact List.forall_mem_cons.mpr ⟨hlt, hskipped⟩
    · next hge => exact ⟨[], by simp, by simp, rfl, hge⟩

theorem Ordered.of_append_right {ts us : List TreeNode} (h : Ordered (ts ++ us)) : Ordered us :=
  ⟨fun t ht => h.1 t (by simp [ht]), (List.pairwise_append.mp h.2).2.1⟩

theorem Ordered.of_cons {t : TreeNode} {ts : List TreeNode} (h : Ordered (t :: ts)) : Ordered ts :=
  ⟨fun u hu => h.1 u (by simp [hu]), (List.pairwise_cons.mp h.2).2⟩

theorem Ordered.precedes_trans {a b c : TreeNode} {ts : List TreeNode} (h : Ordered (b :: ts))
    (ha : a.IsEntry) (hab : a.Precedes b) (hc : c ∈ b :: ts) : a.Precedes c := by
  rcases List.mem_cons.mp hc with rfl | hc'
  · exact hab
  · exact hab.trans ha (h.1 b (by simp)) (h.1 c hc) ((List.pairwise_cons.mp h.2).1 c hc')

/-- One round of the loop keeps the cursor usable for the remaining children,
whichever way the comparison goes. -/
theorem advance_cursor {depth : Nat} {siblings c1s c2s : List TreeNode} (parents : List Nat)
    {c2 : TreeNode} {st : DiffState} (hsib : Distinct siblings) (hc2s : Distinct (c2 :: c2s))
    (hcur : CursorOk depth siblings c1s (c2 :: c2s) st.mapped1) :
    Advanced depth siblings c2 (advance depth siblings parents c2 c1s st).1
        (advance depth siblings parents c2 c1s st).2.1 ∧
      ((advance depth siblings parents c2 c1s st).1 ≠ 0 →
        CursorOk depth siblings (advance depth siblings parents c2 c1s st).2.1 c2s st.mapped1) ∧
      (∀ c1 rest, (advance depth siblings parents c2 c1s st).1 = 0 →
        (advance depth siblings parents c2 c1s st).2.1 = c1 :: rest →
        ∀ mapped1' : Nat → Option Nat,
          (∀ c ∈ siblings, c ≠ c1 → mapped1' c.ptr = st.mapped1 c.ptr) →
          CursorOk depth siblings rest c2s mapped1') := by
  have hc2 : c2.IsEntry := hc2s.entries c2 (by simp)
  by_cases hdepth : depth = 0
  · subst hdepth
    simp only [CursorOk, if_true] at hcur ⊢
    obtain ⟨hsub, hfree⟩ := hcur
    obtain ⟨hadv, hsub'⟩ := advance_root parents hsib hc2 c1s st hsub
      (fun c1 hc1 => hfree c1 hc1 c2 (by simp))
    refine ⟨hadv, fun _ => ⟨hsub', fun c1 hc1 c hc => hfree c1 hc1 c (by simp [hc])⟩, ?_⟩
    intro c1 rest hcmp heq mapped1' hmapped
    obtain ⟨c1', rest', heq', hkey, hmem⟩ := hadv.found hcmp
    rw [heq] at heq' hsub'
    cases heq'
    refine ⟨fun _ hx => hsub' (List.mem_cons_of_mem _ hx), fun c hc d hd hcd => ?_⟩
    have hne : c ≠ c1 := by
      rintro rfl
      exact (List.pairwise_cons.mp hc2s.unique).1 d hd (hkey.symm.trans hcd)
    rw [hmapped c hc hne]
    exact hfree c hc d (by simp [hd]) hcd
  · simp only [CursorOk, if_neg hdepth] at hcur ⊢
    obtain ⟨hord1, hord2, passed, hsplit, hpassed⟩ := hcur
    obtain ⟨skipped, hskip, hskipped, hstop⟩ :=
      advance_below hdepth siblings parents c2 c1s st
    have hskippedKey : ∀ c1 ∈ skipped, ∀ c ∈ c2 :: c2s, ¬ c1.SameKey c := by
      intro c1 hc1 c hc
      have he : c1.IsEntry := hord1.1 c1 (by rw [hsplit, hskip]; simp [hc1])
      exact not_sameKey_of_precedes he (hord2.1 c hc) (hord2.precedes_trans he (hskipped c1 hc1) hc)
    have hbefore : ∀ c1 ∈ passed ++ skipped, ∀ c ∈ c2 :: c2s, ¬ c1.SameKey c := by
      intro c1 hc1
      rcases List.mem_append.mp hc1 with hc1 | hc1
      · exact hpassed c1 hc1
      · exact hskippedKey c1 hc1
    generalize hadv : advance depth siblings parents c2 c1s st = adv at hskip hstop ⊢
    obtain ⟨cmp, c1s', st'⟩ := adv
    simp only at hskip hstop ⊢
    have hsplit' : siblings = (passed ++ skipped) ++ c1s' := by rw [hsplit, hskip]; simp
    refine ⟨⟨?_, ?_⟩, ?_, ?_⟩
    · intro hcmp
      cases c1s' with
      | nil => omega
      | cons c1 rest =>
        have hmem : c1 ∈ siblings := by rw [hsplit']; simp
        exact ⟨c1, rest, rfl,
          (TreeNode.siblingCompare_eq_zero (hord1.1 c1 hmem) hc2).mp (hstop.1 ▸ hcmp), hmem⟩
    · intro hcmp
      rw [counterpart_eq_none, hsplit']
      intro c1 hc1
      rcases List.mem_append.mp hc1 with hc1 | hc1
      · exact hbefore c1 hc1 c2 (by simp)
      · cases c1s' with
        | nil => simp at hc1
        | cons d rest =>
          have hordd : Ordered (d :: rest) := by rw [hsplit'] at hord1; exact hord1.of_append_right
          have hde := hordd.1 d (by simp)
          have hlt : c2.Precedes d := by
            have hswap := TreeNode.siblingCompare_swap hde hc2
            unfold TreeNode.Precedes at hstop ⊢
            omega
          exact not_sameKey_of_follows (hordd.1 c1 hc1) hc2 (hordd.precedes_trans hc2 hlt hc1)
    · intro _
      exact ⟨hord1, hord2.of_cons, passed ++ skipped, hsplit',
        fun c1 hc1 c hc => hbefore c1 hc1 c (by simp [hc])⟩
    · intro c1 rest hcmp heq mapped1' _
      subst heq
      refine ⟨hord1, hord2.of_cons, passed ++ skipped ++ [c1], by rw [hsplit']; simp, ?_⟩
      intro c hc d hd
      rcases List.mem_append.mp hc with hc | hc
      · exact hbefore c hc d (by simp [hd])
      · rw [List.mem_singleton.mp hc]
        have hmem : c1 ∈ siblings := by rw [hsplit']; simp
        have hkey := (TreeNode.siblingCompare_eq_zero (hord1.1 c1 hmem) hc2).mp (hstop.1 ▸ hcmp)
        exact fun hcd => (List.pairwise_cons.mp hc2s.unique).1 d hd (hkey.symm.trans hcd)

end urbackup.treediff
