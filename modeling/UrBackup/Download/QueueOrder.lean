import UrBackup.Download.ServerDownloadThread

namespace urbackup.serverdownload

namespace SQueueItem

variable (it : SQueueItem)

/-- What the queue does not change of an entry. -/
def core : SQueueItem :=
  { it with fileclient := .Full, queued := false, patch_dl_files := none, switched := false }

/-- The entry is that of a file, not of the end of a script. -/
def isDownload : Bool :=
  it.action = .Fileclient && (it.switched || !(it.script_end && it.fileclient = .Full))

def isStart : Bool :=
  it.action = .StartShadowcopy

end SQueueItem

section Order

/-- Requested full items stand before those that were not requested. -/
def Requested (q : List SQueueItem) : Prop :=
  q.Pairwise fun x y => x.isFullUnqueued = true → y.isFullQueued = false

/-- Two entries stand as they were queued where a file and the start, stop or quit
entry around it are concerned. -/
def Kept (x y : SQueueItem) : Prop :=
  (x.isQuitStop = true → y.isDownload = true → x.seq < y.seq) ∧
    (x.isDownload = true → y.isStart = true → x.seq < y.seq)

theorem kept_quitStop {x y : SQueueItem} (hy : y.isQuitStop = true) : Kept x y := by
  have haction : y.action = .Quit ∨ y.action = .StopShadowcopy := by simpa [SQueueItem.isQuitStop] using hy
  constructor
  · intro _ hdownload
    simp only [SQueueItem.isDownload, Bool.and_eq_true, decide_eq_true_eq] at hdownload
    rw [hdownload.1] at haction
    simp at haction
  · intro _ hstart
    simp only [SQueueItem.isStart, decide_eq_true_eq] at hstart
    rw [hstart] at haction
    simp at haction

theorem not_fullQueued_of_not_full {it : SQueueItem} (h : it.isFull = false) : it.isFullQueued = false := by
  simp [SQueueItem.isFullQueued, h]

theorem not_fullQueued_of_not_queued {it : SQueueItem} (h : it.queued = false) : it.isFullQueued = false := by
  simp [SQueueItem.isFullQueued, h]

end Order

section Insert

/-- The place is one in the queue, the index is that of the item or one too much,
and no requested item is behind it. -/
structure Earliest.Fits (e : Earliest) (q : List SQueueItem) : Prop where
  pos : e.pos ≤ q.length
  ret : e.ret = e.pos ∨ e.ret = e.pos + 1
  behind : Requested q → ∀ x ∈ q.drop e.pos, x.isFullQueued = false

theorem searchEarliest_fits (id : Nat) (after_switched : Bool) (before : List SQueueItem)
    {rest : List SQueueItem} {earliest_other : Option Nat} {no_queued : Bool} (needs_postpone : Bool)
    (hother : ∀ j, earliest_other = some j → j ≤ before.length ∧ ∀ x ∈ before.drop j, x.isFullQueued = false)
    (hnone : no_queued = true → ∀ x ∈ before, x.isFullQueued = false) :
    (searchEarliest id after_switched rest before.length earliest_other no_queued needs_postpone).Fits
      (before ++ rest) := by
  induction rest generalizing before earliest_other no_queued needs_postpone with
  | nil =>
    rw [searchEarliest, List.append_nil]
    split
    · next hqueued => exact ⟨Nat.zero_le _, Or.inl rfl, fun _ x hx => hnone hqueued x hx⟩
    · refine ⟨Nat.le_refl _, Or.inr rfl, fun _ x hx => ?_⟩
      rw [List.drop_length] at hx
      cases hx
  | cons it rest ih =>
    have hassoc : before ++ it :: rest = (before ++ [it]) ++ rest := by simp
    have hlength : before.length + 1 = (before ++ [it]).length := by simp
    have hbehind : it.isFullUnqueued = true → Requested (before ++ it :: rest) → ∀ j, j ≤ before.length →
        (∀ x ∈ before.drop j, x.isFullQueued = false) → ∀ x ∈ (before ++ it :: rest).drop j, x.isFullQueued = false := by
      intro hunqueued hrequested j hj hdrop x hx
      rw [List.drop_append_of_le_length hj] at hx
      rcases List.mem_append.mp hx with hx | hx
      · exact hdrop x hx
      · rcases List.mem_cons.mp hx with rfl | hx
        · apply not_fullQueued_of_not_queued
          simpa using (Bool.and_eq_true_iff.mp hunqueued).2
        · exact (List.pairwise_cons.mp (List.pairwise_append.mp hrequested).2.1).1 x hx hunqueued
    have hsnoc : ∀ {j}, j ≤ before.length → (∀ x ∈ before.drop j, x.isFullQueued = false) → it.isFullQueued = false →
        j ≤ (before ++ [it]).length ∧ ∀ x ∈ (before ++ [it]).drop j, x.isFullQueued = false := by
      intro j hj hdrop hit
      refine ⟨by simp; omega, fun x hx => ?_⟩
      rw [List.drop_append_of_le_length hj] at hx
      rcases List.mem_append.mp hx with hx | hx
      · exact hdrop x hx
      · rw [List.mem_singleton.mp hx]
        exact hit
    have hnone' : it.isFullQueued = false → no_queued = true → ∀ x ∈ before ++ [it], x.isFullQueued = false := by
      intro hit hqueued x hx
      rcases List.mem_append.mp hx with hx | hx
      · exact hnone hqueued x hx
      · rw [List.mem_singleton.mp hx]
        exact hit
    unfold searchEarliest
    split
    · next hfull =>
      split
      · next hnot =>
        have hunqueued : it.isFullUnqueued = true := by
          simp only [SQueueItem.isFullUnqueued, hfull, hnot, Bool.and_self]
        have hit : it.isFullQueued = false := not_fullQueued_of_not_queued (by simpa using hnot)
        split
        · cases earliest_other with
          | some j =>
            obtain ⟨hj, hdrop⟩ := hother j rfl
            exact ⟨by simp; omega, Or.inl rfl, fun hrequested => hbehind hunqueued hrequested j hj hdrop⟩
          | none =>
            refine ⟨by simp, Or.inl rfl, fun hrequested => hbehind hunqueued hrequested _ (Nat.le_refl _) ?_⟩
            intro x hx
            rw [List.drop_length] at hx
            cases hx
        · rw [hassoc, hlength]
          apply ih
          · intro j hj
            split at hj
            · cases hj
            · obtain rfl := Option.some.inj hj
              refine ⟨Nat.le_refl _, fun x hx => ?_⟩
              rw [List.drop_length] at hx
              cases hx
          · exact hnone' hit
      · rw [hassoc, hlength]
        apply ih
        · intro j hj
          cases hj
        · intro hqueued
          cases hqueued
    · next hfull =>
      have hit : it.isFullQueued = false := not_fullQueued_of_not_full (by simpa using hfull)
      rw [hassoc, hlength]
      apply ih
      · intro j hj
        cases earliest_other with
        | some i =>
          obtain rfl := Option.some.inj hj
          obtain ⟨hi, hdrop⟩ := hother i rfl
          exact hsnoc hi hdrop hit
        | none =>
          obtain rfl := Option.some.inj hj
          apply hsnoc (Nat.le_refl _) ?_ hit
          intro x hx
          rw [List.drop_length] at hx
          cases hx
      · exact hnone' hit

/-- The new item stands between two parts of the queue, and all requested items
are in front of it. -/
theorem insertFullQueueEarliest_spec (ni : SQueueItem) (after_switched : Bool) (q : List SQueueItem) (c : DlCounts) :
    ∃ l r k, q = l ++ r ∧ (k = 0 ∨ k = 1) ∧ (insertFullQueueEarliest ni after_switched q c).1 = l ++ ni :: r ∧
      (insertFullQueueEarliest ni after_switched q c).2.1 = l.length + k ∧
      (Requested q → ∀ x ∈ r, x.isFullQueued = false) := by
  have hfits : (searchEarliest ni.id after_switched q 0 none true false).Fits q :=
    searchEarliest_fits ni.id after_switched [] false (fun j hj => nomatch hj) (fun _ x hx => nomatch hx)
  obtain ⟨hpos, hret, hbehind⟩ := hfits
  have hlength : (q.take (searchEarliest ni.id after_switched q 0 none true false).pos).length =
      (searchEarliest ni.id after_switched q 0 none true false).pos := List.length_take_of_le hpos
  rcases hret with hret | hret
  · exact ⟨_, _, 0, (List.take_append_drop _ q).symm, Or.inl rfl, rfl, by rw [hlength]; exact hret, hbehind⟩
  · exact ⟨_, _, 1, (List.take_append_drop _ q).symm, Or.inr rfl, rfl, by rw [hlength]; exact hret, hbehind⟩

theorem takeQuitStop_none {n : Nat} {q : List SQueueItem} (h : ∀ x ∈ q.take n, x.isQuitStop = false) :
    takeQuitStop n q = none := by
  induction q generalizing n with
  | nil => cases n <;> rfl
  | cons it q ih =>
    cases n with
    | zero => rfl
    | succ n =>
      rw [List.take_succ_cons] at h
      rw [takeQuitStop, if_neg (by simp [h it List.mem_cons_self]), ih fun x hx => h x (List.mem_cons_of_mem _ hx)]

theorem takeQuitStop_some {n : Nat} {a b : List SQueueItem} {s : SQueueItem} (ha : ∀ x ∈ a, x.isQuitStop = false)
    (hs : s.isQuitStop = true) (hn : a.length < n) : takeQuitStop n (a ++ s :: b) = some (s, a ++ b) := by
  induction a generalizing n with
  | nil =>
    obtain ⟨m, rfl⟩ : ∃ m, n = m + 1 := ⟨n - 1, by simp at hn; omega⟩
    rw [List.nil_append, takeQuitStop, if_pos hs, List.nil_append]
  | cons it a ih =>
    obtain ⟨m, rfl⟩ : ∃ m, n = m + 1 := ⟨n - 1, by simp at hn; omega⟩
    rw [List.cons_append, takeQuitStop, if_neg (by simp [ha it List.mem_cons_self]),
      ih (fun x hx => ha x (List.mem_cons_of_mem _ hx)) (by simpa using hn)]
    rfl

/-- An entry that may stand behind every other one can be moved back. -/
theorem pairwise_move {α : Type} {P : α → α → Prop} {s : α} (hs : ∀ x, P x s) {a b c : List α}
    (h : (a ++ s :: (b ++ c)).Pairwise P) : (a ++ b ++ s :: c).Pairwise P := by
  obtain ⟨ha, hrest, hcross⟩ := List.pairwise_append.mp h
  obtain ⟨hsc, hbc⟩ := List.pairwise_cons.mp hrest
  obtain ⟨hb, hc, hbcross⟩ := List.pairwise_append.mp hbc
  have hac : ∀ x ∈ a, ∀ y ∈ b ++ c, P x y := fun x hx y hy => hcross x hx y (List.mem_cons_of_mem _ hy)
  refine List.pairwise_append.mpr ⟨List.pairwise_append.mpr ⟨ha, hb, ?_⟩, List.pairwise_cons.mpr ⟨?_, hc⟩, ?_⟩
  · exact fun x hx y hy => hac x hx y (List.mem_append_left _ hy)
  · exact fun y hy => hsc y (List.mem_append_right _ hy)
  · intro x hx y hy
    rcases List.mem_cons.mp hy with rfl | hy
    · exact hs x
    · rcases List.mem_append.mp hx with hx | hx
      · exact hac x hx y (List.mem_append_right _ hy)
      · exact hbcross x hx y hy

/-- The quit and stop entries in front of `ni` end up behind it, and the others
stay. -/
theorem postponeQuitStop_spec {ni : SQueueItem} (hni : ni.isQuitStop = false) (n : Nat) {l r : List SQueueItem} {k : Nat}
    (hn : l.length = n) (hk : k = 0 ∨ k = 1) :
    ∃ r', postponeQuitStop (l.length + k) (l ++ ni :: r) = l.filter (fun x => !x.isQuitStop) ++ ni :: r' ∧
      r'.Perm (l.filter SQueueItem.isQuitStop ++ r) ∧
      ∀ {P : SQueueItem → SQueueItem → Prop}, (∀ x s, s.isQuitStop = true → P x s) → (l ++ r).Pairwise P →
        (l.filter (fun x => !x.isQuitStop) ++ r').Pairwise P := by
  induction n generalizing l r with
  | zero =>
    obtain rfl := List.eq_nil_of_length_eq_zero hn
    refine ⟨r, ?_, List.Perm.refl _, fun _ h => h⟩
    rcases hk with rfl | rfl
    · rfl
    · change postponeQuitStop 1 (ni :: r) = ni :: r
      rw [postponeQuitStop, takeQuitStop_none]
      intro x hx
      obtain rfl : x = ni := by simpa using hx
      exact hni
  | succ n ih =>
    obtain ⟨m, hm⟩ : ∃ m, l.length + k = m + 1 := ⟨n + k, by omega⟩
    by_cases hstop : ∃ s ∈ l, s.isQuitStop = true
    · -- the first such entry goes behind `ni`
      obtain ⟨s, a, b, rfl, hs, ha⟩ : ∃ s a b, l = a ++ s :: b ∧ s.isQuitStop = true ∧ ∀ x ∈ a, x.isQuitStop = false := by
        obtain ⟨s, hfind⟩ := Option.isSome_iff_exists.mp (List.find?_isSome.mpr hstop)
        obtain ⟨hs, a, b, hl, ha⟩ := List.find?_eq_some_iff_append.mp hfind
        exact ⟨s, a, b, hl, hs, fun x hx => by simpa using ha x hx⟩
      have hlen : (a ++ b).length = n := by
        simp only [List.length_append, List.length_cons] at hn ⊢
        omega
      have hidx : m = (a ++ b).length + k := by
        simp only [List.length_append, List.length_cons] at hm hn ⊢
        omega
      have hinsert : insertAt (m + 1) s (a ++ b ++ ni :: r) = a ++ b ++ ni :: (r.take k ++ s :: r.drop k) := by
        unfold insertAt
        rw [hidx, Nat.add_assoc, Nat.add_comm k 1, List.take_length_add_append, List.drop_length_add_append,
          Nat.add_comm 1 k, List.take_succ_cons, List.drop_succ_cons]
        simp
      obtain ⟨r', heq, hperm, hpairs⟩ := ih (l := a ++ b) (r := r.take k ++ s :: r.drop k) hlen
      have hfilter : (a ++ s :: b).filter (fun x => !x.isQuitStop) = (a ++ b).filter fun x => !x.isQuitStop := by
        rw [List.filter_append, List.filter_cons_of_neg (by simp [hs]), ← List.filter_append]
      refine ⟨r', ?_, ?_, ?_⟩
      · rw [hm, postponeQuitStop, List.append_assoc, List.cons_append, takeQuitStop_some ha hs (by simp at hm; omega)]
        dsimp only
        rw [← List.append_assoc, hinsert, hidx, heq, hfilter]
      · have hback : (r.take k ++ s :: r.drop k).Perm (s :: r) := by
          have hmiddle : (r.take k ++ s :: r.drop k).Perm (s :: (r.take k ++ r.drop k)) := List.perm_middle
          rwa [List.take_append_drop] at hmiddle
        rw [List.filter_append, List.filter_cons_of_pos hs, List.append_assoc, List.cons_append]
        rw [List.filter_append] at hperm
        calc
          r'.Perm _ := hperm
          List.Perm _ (a.filter SQueueItem.isQuitStop ++ b.filter SQueueItem.isQuitStop ++ s :: r) := hback.append_left _
          List.Perm _ _ := by
            rw [List.append_assoc]
            exact List.perm_middle.append_left _
      · intro P hP hpairwise
        rw [hfilter]
        apply hpairs hP
        have hmoved := pairwise_move (fun x => hP x s hs) (a := a) (b := b ++ r.take k) (c := r.drop k) (by
          rw [List.append_assoc b, List.take_append_drop]
          simpa using hpairwise)
        simpa using hmoved
    · have hnone : ∀ x ∈ l, x.isQuitStop = false := by
        intro x hx
        by_contra hx'
        exact hstop ⟨x, hx, by simpa using hx'⟩
      have hkeep : l.filter (fun x => !x.isQuitStop) = l := by
        apply List.filter_eq_self.mpr
        intro x hx
        simp [hnone x hx]
      have hempty : l.filter SQueueItem.isQuitStop = [] := by
        apply List.filter_eq_nil_iff.mpr
        intro x hx
        simp [hnone x hx]
      refine ⟨r, ?_, by rw [hempty]; exact List.Perm.refl _, fun _ h => by rw [hkeep]; exact h⟩
      rw [hm, postponeQuitStop, ← hm, hkeep, takeQuitStop_none]
      intro x hx
      rw [List.take_length_add_append] at hx
      rcases List.mem_append.mp hx with hx | hx
      · exact hnone x hx
      · rcases hk with rfl | rfl
        · cases hx
        · obtain rfl : x = ni := by simpa using hx
          exact hni

end Insert

end urbackup.serverdownload
