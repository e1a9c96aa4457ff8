import Mathlib.Algebra.Ring.Nat
import Mathlib.Algebra.BigOperators.Group.List.Basic
import UrBackup.Download.QueueOrder

namespace urbackup.serverdownload

open filebackup

section Weight

/-- What an entry adds to `queue_size`. -/
def SQueueItem.weight (it : SQueueItem) : Nat :=
  if it.isFull then queue_items_full else if it.isChunked then queue_items_chunked else 0

/-- The weights of the file items of a queue. -/
def weight (q : List SQueueItem) : Nat :=
  (q.map SQueueItem.weight).sum

/-- The counter is the weight, as far as it fits. -/
def Counted (q : List SQueueItem) (c : DlCounts) : Prop :=
  c.queue_size = weight q % 2 ^ 64

@[simp] theorem weight_nil : weight [] = 0 :=
  rfl

@[simp] theorem weight_cons (it : SQueueItem) (q : List SQueueItem) : weight (it :: q) = it.weight + weight q :=
  rfl

@[simp] theorem weight_append (q q' : List SQueueItem) : weight (q ++ q') = weight q + weight q' := by
  simp [weight]

theorem weight_perm {q q' : List SQueueItem} (h : q.Perm q') : weight q = weight q' :=
  (h.map _).sum_eq

theorem weight_of_chunked {it : SQueueItem} (h : it.isChunked = true) : it.weight = queue_items_chunked := by
  have hfull : it.isFull = false := by
    simp only [SQueueItem.isChunked, Bool.and_eq_true, decide_eq_true_eq] at h
    simp [SQueueItem.isFull, h.2]
  simp [SQueueItem.weight, hfull, h]

theorem weight_switch {it : SQueueItem} (h : it.isChunked = true) : it.switch.weight = queue_items_full := by
  simp only [SQueueItem.isChunked, Bool.and_eq_true, decide_eq_true_eq] at h
  simp [SQueueItem.weight, SQueueItem.isFull, SQueueItem.switch, h.1]

/-- The weight of an entry depends on what is done with it alone. -/
theorem weight_congr {it it' : SQueueItem} (haction : it'.action = it.action) (hclient : it'.fileclient = it.fileclient) :
    it'.weight = it.weight := by
  cases it
  cases it'
  cases haction
  cases hclient
  rfl

end Weight

section Counts

variable {q q' : List SQueueItem} {c : DlCounts}

theorem Counted.congr (h : Counted q c) {c' : DlCounts} (hsize : c'.queue_size = c.queue_size) (hweight : weight q' = weight q) :
    Counted q' c' := by
  rw [Counted, hsize, hweight]
  exact h

theorem Counted.add (h : Counted q c) {n : Nat} (hweight : weight q' = weight q + n) : Counted q' (c.add n) := by
  unfold Counted at h ⊢
  simp only [DlCounts.add, h, hweight]
  omega

theorem Counted.sub (h : Counted q c) {n : Nat} (hn : n < 2 ^ 64) (hweight : weight q = weight q' + n) :
    Counted q' (c.sub n) := by
  unfold Counted at h ⊢
  simp only [DlCounts.sub, h, hweight]
  omega

/-- An entry is changed, not what is done with it. -/
theorem Counted.replace {before rest : List SQueueItem} {it : SQueueItem} (h : Counted (before ++ it :: rest) c)
    (it' : SQueueItem) (haction : it'.action = it.action) (hclient : it'.fileclient = it.fileclient) :
    Counted (before ++ it' :: rest) c := by
  refine h.congr rfl ?_
  rw [weight_append, weight_append, weight_cons, weight_cons, weight_congr haction hclient]

theorem Counted.eq (h : Counted q c) (hfits : weight q < 2 ^ 64) : c.queue_size = weight q :=
  h.trans (Nat.mod_eq_of_lt hfits)

@[simp] theorem queue_size_postpone (c : DlCounts) (needs_postpone : Bool) (id : Nat) :
    (c.postpone needs_postpone id).queue_size = c.queue_size := by
  unfold DlCounts.postpone
  split <;> rfl

end Counts

section Insert

theorem insertAt_perm (pos : Nat) (it : SQueueItem) (q : List SQueueItem) : (insertAt pos it q).Perm (it :: q) := by
  have hmiddle : (insertAt pos it q).Perm (it :: (q.take pos ++ q.drop pos)) := List.perm_middle
  rwa [List.take_append_drop] at hmiddle

theorem takeQuitStop_perm {n : Nat} {q q' : List SQueueItem} {s : SQueueItem} (h : takeQuitStop n q = some (s, q')) :
    q.Perm (s :: q') := by
  induction q generalizing n q' with
  | nil => cases n <;> cases h
  | cons it q ih =>
    cases n with
    | zero => cases h
    | succ n =>
      rw [takeQuitStop] at h
      split at h
      · cases h
        exact List.Perm.refl _
      · split at h
        · next s' r heq =>
          cases h
          exact ((ih heq).cons it).trans (List.Perm.swap _ _ _)
        · cases h

theorem postponeQuitStop_perm (n : Nat) (q : List SQueueItem) : (postponeQuitStop n q).Perm q := by
  induction n generalizing q with
  | zero => exact List.Perm.refl _
  | succ n ih =>
    rw [postponeQuitStop]
    split
    · exact List.Perm.refl _
    · next s r heq => exact (ih _).trans ((insertAt_perm _ _ _).trans (takeQuitStop_perm heq).symm)

theorem weight_insertFullQueueEarliest (ni : SQueueItem) (after_switched : Bool) (q : List SQueueItem) (c : DlCounts) :
    weight (insertFullQueueEarliest ni after_switched q c).1 = ni.weight + weight q :=
  weight_perm (insertAt_perm _ _ _)

theorem queue_size_insertFullQueueEarliest (ni : SQueueItem) (after_switched : Bool) (q : List SQueueItem) (c : DlCounts) :
    (insertFullQueueEarliest ni after_switched q c).2.2.queue_size = c.queue_size :=
  queue_size_postpone _ _ _

theorem weight_insertSwitched (ni : SQueueItem) (q : List SQueueItem) (c : DlCounts) :
    weight (insertSwitched ni q c).1 = ni.weight + weight q :=
  (weight_perm (postponeQuitStop_perm _ _)).trans (weight_insertFullQueueEarliest ni true q c)

theorem queue_size_insertSwitched (ni : SQueueItem) (q : List SQueueItem) (c : DlCounts) :
    (insertSwitched ni q c).2.queue_size = c.queue_size :=
  queue_size_insertFullQueueEarliest ni true q c

end Insert

section Operations

variable {c : DlCounts} {it : SQueueItem} {before rest q : List SQueueItem}

/-- What a chunked item has less once it is a full one. -/
theorem switched_lt : queue_items_chunked - queue_items_full < 2 ^ 64 := by
  decide

theorem Counted.switchItem (hchunked : it.isChunked = true) {it' : SQueueItem} (hit : it'.weight = it.weight)
    (h : Counted (before ++ it' :: rest) c) :
    Counted (switchItem it (before ++ rest) c).1 (switchItem it (before ++ rest) c).2 := by
  have hinsert : Counted (it' :: (before ++ rest)) (insertSwitched it.switch (before ++ rest) c).2 :=
    h.congr (queue_size_insertSwitched _ _ _) (weight_perm List.perm_middle).symm
  refine hinsert.sub switched_lt ?_
  rw [serverdownload.switchItem, weight_insertSwitched, weight_cons, hit, weight_of_chunked hchunked, weight_switch hchunked]
  simp only [queue_items_chunked, queue_items_full]
  omega

theorem Counted.switchInPlace (hchunked : it.isChunked = true) {it' : SQueueItem} (hit' : it'.weight = it.switch.weight)
    (h : Counted (before ++ it :: rest) c) :
    Counted (before ++ it' :: rest) (c.sub (queue_items_chunked - queue_items_full)) := by
  refine h.sub switched_lt ?_
  simp only [weight_append, weight_cons, hit', weight_of_chunked hchunked, weight_switch hchunked, queue_items_chunked,
    queue_items_full]
  omega

theorem weight_queueFirstFull (q : List SQueueItem) : weight (queueFirstFull q).2 = weight q := by
  induction q with
  | nil => rfl
  | cons it q ih =>
    rw [queueFirstFull]
    split
    · rfl
    · exact congrArg (it.weight + ·) ih

theorem Counted.queueFull (prepare : SQueueItem → Prepared) (h : Counted (before ++ rest) c) :
    Counted (queueFull prepare c before rest).2.1 (queueFull prepare c before rest).2.2 := by
  induction rest generalizing before with
  | nil =>
    rw [List.append_nil] at h
    exact h
  | cons it rest ih =>
    rw [serverdownload.queueFull]
    split
    · next hprepare =>
      have hchunked : it.isChunked = true := by
        simp only [Bool.and_eq_true] at hprepare
        exact hprepare.1.1
      have hprepared := h.replace { it with patch_dl_files := some (prepare it) } rfl rfl
      dsimp only
      split
      · split
        · have hswitched := @Counted.switchItem _ { it with patch_dl_files := some (prepare it) } _ _ hchunked _ rfl hprepared
          exact hswitched.congr rfl (weight_queueFirstFull _)
        · exact @Counted.switchInPlace _ { it with patch_dl_files := some (prepare it) } _ _ hchunked _ (weight_congr rfl rfl) hprepared
      · refine hprepared.congr rfl ?_
        simp only [weight_append, weight_cons, weight_queueFirstFull]
    · split
      · exact h.replace _ rfl rfl
      · refine ih ?_
        rwa [List.append_assoc, List.singleton_append]

theorem Counted.queueChunked (prepare : SQueueItem → Prepared) (h : Counted (before ++ rest) c) :
    Counted (queueChunked prepare c before rest).2.1 (queueChunked prepare c before rest).2.2 := by
  induction rest generalizing before c with
  | nil =>
    rw [List.append_nil] at h
    exact h
  | cons it rest ih =>
    have hnext : ∀ {it' : SQueueItem} {c' : DlCounts}, Counted (before ++ it' :: rest) c' →
        Counted (serverdownload.queueChunked prepare c' (before ++ [it']) rest).2.1
          (serverdownload.queueChunked prepare c' (before ++ [it']) rest).2.2 := by
      intro it' c' h'
      refine ih ?_
      rwa [List.append_assoc, List.singleton_append]
    rw [serverdownload.queueChunked]
    split
    · next hunqueued =>
      have hchunked : it.isChunked = true := by
        simp only [Bool.and_eq_true] at hunqueued
        exact hunqueued.1
      have hprepared := h.replace { it with patch_dl_files := some (prepare it) } rfl rfl
      split
      · exact h.replace _ rfl rfl
      · exact hnext h
      · dsimp only
        split
        · exact h.replace _ rfl rfl
        · split
          · exact Counted.switchItem hchunked rfl hprepared
          · exact hnext (@Counted.switchInPlace _ { it with patch_dl_files := some (prepare it) } _ _ hchunked _ rfl hprepared)
        · exact hnext hprepared
    · exact hnext h

theorem Counted.retryChunked (prepare : SQueueItem → Prepared) (fuel : Nat) (h : Counted q c) :
    Counted (retryChunked prepare fuel q c).2.1 (retryChunked prepare fuel q c).2.2 := by
  induction fuel generalizing q c with
  | zero => exact h
  | succ fuel ih =>
    have hqueued := @Counted.queueChunked _ [] _ prepare h
    rw [serverdownload.retryChunked]
    split
    · next heq =>
      rw [heq] at hqueued
      exact hqueued
    · next heq =>
      rw [heq] at hqueued
      exact ih hqueued

end Operations

end urbackup.serverdownload
