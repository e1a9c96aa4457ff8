import UrBackup.Download.QueueOrder

namespace urbackup.serverdownload

/-- The requested full items, in their order. -/
def requests (q : List SQueueItem) : List SQueueItem :=
  (q.filter SQueueItem.isFullQueued).map SQueueItem.core

/-- An operation on the queue: the entries `new` come to it, and `asked` are
requested. -/
structure QueueKeeps (new asked q q' : List SQueueItem) : Prop where
  cores : (q'.map SQueueItem.core).Perm (q.map SQueueItem.core ++ new.map SQueueItem.core)
  requested : Requested q → Requested q'
  requests : Requested q → requests q' = requests q ++ asked.map SQueueItem.core
  placed : Requested q → q.Pairwise Kept → q'.Pairwise Kept

section Lists

theorem requests_append (a b : List SQueueItem) : requests (a ++ b) = requests a ++ requests b := by
  simp [requests]

theorem requests_eq_nil {q : List SQueueItem} (h : ∀ x ∈ q, x.isFullQueued = false) : requests q = [] := by
  unfold requests
  rw [List.map_eq_nil_iff, List.filter_eq_nil_iff]
  intro x hx
  simp [h x hx]

theorem requests_cons_of_not {it : SQueueItem} (h : it.isFullQueued = false) (q : List SQueueItem) :
    requests (it :: q) = requests q := by
  simp [requests, h]

theorem not_fullQueued_of_quitStop {x : SQueueItem} (h : x.isQuitStop = true) : x.isFullQueued = false := by
  apply not_fullQueued_of_not_full
  have haction : x.action = .Quit ∨ x.action = .StopShadowcopy := by simpa [SQueueItem.isQuitStop] using h
  rcases haction with haction | haction
  · simp [SQueueItem.isFull, haction]
  · simp [SQueueItem.isFull, haction]

theorem not_start_of_quitStop {x : SQueueItem} (h : x.isQuitStop = true) : x.isStart = false := by
  have haction : x.action = .Quit ∨ x.action = .StopShadowcopy := by simpa [SQueueItem.isQuitStop] using h
  rcases haction with haction | haction
  · simp [SQueueItem.isStart, haction]
  · simp [SQueueItem.isStart, haction]

theorem not_quitStop_of_fileclient {x : SQueueItem} (h : x.action = .Fileclient) : x.isQuitStop = false := by
  simp [SQueueItem.isQuitStop, h]

theorem requests_filter (l : List SQueueItem) : requests (l.filter fun x => !x.isQuitStop) = requests l := by
  unfold requests
  rw [List.filter_filter]
  congr 1
  apply List.filter_congr
  intro x _
  cases hstop : x.isQuitStop with
  | true => simp [not_fullQueued_of_quitStop hstop]
  | false => simp

end Lists

section Insert

variable {ni : SQueueItem} {q : List SQueueItem}

/-- A requested item stays behind the requested ones where a new one comes in. -/
theorem requested_insert {l r : List SQueueItem} (hni : ni.isFullQueued = false) (hl : Requested l)
    (hr : ∀ x ∈ r, x.isFullQueued = false) : Requested (l ++ ni :: r) := by
  refine List.pairwise_append.mpr ⟨hl, List.pairwise_cons.mpr ⟨fun y hy _ => hr y hy, ?_⟩, ?_⟩
  · exact List.pairwise_of_forall_mem_list fun x _ y hy _ => hr y hy
  · intro x _ y hy _
    rcases List.mem_cons.mp hy with rfl | hy
    · exact hni
    · exact hr y hy

/-- A download comes in behind the requested items. It must not be older than a
start entry that is still behind these. -/
structure Switches (ni : SQueueItem) (q q' : List SQueueItem) : Prop where
  cores : (q'.map SQueueItem.core).Perm (q.map SQueueItem.core ++ [ni.core])
  requested : Requested q → Requested q'
  requests : Requested q → requests q' = requests q
  placed : Requested q → q.Pairwise Kept →
    (∀ r, r <:+ q → (∀ x ∈ r, x.isFullQueued = false) → ∀ y ∈ r, y.isStart = true → ni.seq < y.seq) → q'.Pairwise Kept

theorem insertSwitched_switches (c : DlCounts) (haction : ni.action = .Fileclient) (hqueued : ni.queued = false) :
    Switches ni q (insertSwitched ni q c).1 := by
  obtain ⟨l, r, k, rfl, hk, hinsert, hidx, hbehind⟩ := insertFullQueueEarliest_spec ni true q c
  have hni := not_quitStop_of_fileclient haction
  have hnot : ni.isFullQueued = false := not_fullQueued_of_not_queued hqueued
  obtain ⟨r', heq, hperm, hpairs⟩ := postponeQuitStop_spec hni l.length (r := r) rfl hk
  have hresult : (insertSwitched ni (l ++ r) c).1 = l.filter (fun x => !x.isQuitStop) ++ ni :: r' := by
    rw [← heq, ← hinsert, ← hidx]
    rfl
  have hr' : Requested (l ++ r) → ∀ x ∈ r', x.isFullQueued = false := by
    intro hrequested x hx
    rcases List.mem_append.mp (hperm.mem_iff.mp hx) with hx | hx
    · exact not_fullQueued_of_quitStop (List.mem_filter.mp hx).2
    · exact hbehind hrequested x hx
  rw [hresult]
  exact
    { cores := by
        have hparts : (l.filter (fun x => !x.isQuitStop) ++ ni :: r').Perm (l ++ r ++ [ni]) := by
          calc
            List.Perm _ (ni :: (l.filter (fun x => !x.isQuitStop) ++ r')) := List.perm_middle
            List.Perm _ (ni :: (l.filter (fun x => !x.isQuitStop) ++ (l.filter SQueueItem.isQuitStop ++ r))) :=
              (hperm.append_left _).cons ni
            List.Perm _ (ni :: (l ++ r)) := by
              rw [← List.append_assoc]
              exact ((List.perm_append_comm.trans (List.filter_append_perm _ l)).append_right r).cons ni
            List.Perm _ (l ++ r ++ [ni]) := (List.perm_append_singleton ni (l ++ r)).symm
        simpa using hparts.map SQueueItem.core
      requested := fun hrequested => by
        apply requested_insert hnot ?_ (hr' hrequested)
        exact (List.pairwise_append.mp hrequested).1.sublist List.filter_sublist
      requests := fun hrequested => by
        rw [requests_append, requests_cons_of_not hnot, requests_eq_nil (hr' hrequested), requests_filter,
          requests_append, requests_eq_nil (hbehind hrequested)]
      placed := fun hrequested hplaced hstart => by
        have hrest := hpairs (fun x s hs => kept_quitStop hs) hplaced
        obtain ⟨hl, hr, hcross⟩ := List.pairwise_append.mp hrest
        refine List.pairwise_append.mpr ⟨hl, List.pairwise_cons.mpr ⟨?_, hr⟩, ?_⟩
        · intro y hy
          refine ⟨fun hstop => absurd hstop (by simp [hni]), fun _ hy' => ?_⟩
          rcases List.mem_append.mp (hperm.mem_iff.mp hy) with hmem | hmem
          · exact absurd hy' (by simp [not_start_of_quitStop (List.mem_filter.mp hmem).2])
          · exact hstart r (List.suffix_append _ _) (hbehind hrequested) y hmem hy'
        · intro x hx y hy
          rcases List.mem_cons.mp hy with rfl | hy
          · have hx' : x.isQuitStop = false := by simpa using (List.mem_filter.mp hx).2
            exact ⟨fun hstop => absurd hstop (by simp [hx']), fun _ hs => absurd hs (by simp [SQueueItem.isStart, haction])⟩
          · exact hcross x hx y hy }

theorem insertScriptEnd_keeps (c : DlCounts) (haction : ni.action = .Fileclient) (hqueued : ni.queued = false)
    (hend : ni.isDownload = false) : QueueKeeps [ni] [] q (insertFullQueueEarliest ni false q c).1 := by
  obtain ⟨l, r, k, rfl, hk, hinsert, hidx, hbehind⟩ := insertFullQueueEarliest_spec ni false q c
  have hni := not_quitStop_of_fileclient haction
  have hnot : ni.isFullQueued = false := not_fullQueued_of_not_queued hqueued
  rw [hinsert]
  exact
    { cores := by
        have hparts : (l ++ ni :: r).Perm (l ++ r ++ [ni]) :=
          List.perm_middle.trans (List.perm_append_singleton ni (l ++ r)).symm
        simpa using hparts.map SQueueItem.core
      requested := fun hrequested =>
        requested_insert hnot (List.pairwise_append.mp hrequested).1 (hbehind hrequested)
      requests := fun _ => by
        rw [requests_append, requests_cons_of_not hnot, ← requests_append, List.map_nil, List.append_nil]
      placed := fun _ hplaced => by
        obtain ⟨hl, hr, hcross⟩ := List.pairwise_append.mp hplaced
        refine List.pairwise_append.mpr ⟨hl, List.pairwise_cons.mpr ⟨?_, hr⟩, ?_⟩
        · intro y _
          exact ⟨fun hstop => absurd hstop (by simp [hni]), fun hd => absurd hd (by simp [hend])⟩
        · intro x hx y hy
          rcases List.mem_cons.mp hy with rfl | hy
          · exact ⟨fun _ hd => absurd hd (by simp [hend]), fun _ hs => absurd hs (by simp [SQueueItem.isStart, haction])⟩
          · exact hcross x hx y hy }

end Insert

section Request

variable {a b : List SQueueItem} {it it' : SQueueItem}

/-- The order of the queue sees only this of an entry. -/
structure SQueueItem.SamePlace (it it' : SQueueItem) : Prop where
  core : it'.core = it.core
  download : it'.isDownload = it.isDownload

theorem SQueueItem.SamePlace.seq (h : it.SamePlace it') : it'.seq = it.seq := by
  have hseq : it'.core.seq = it.core.seq := by rw [h.core]
  exact hseq

theorem SQueueItem.SamePlace.action (h : it.SamePlace it') : it'.action = it.action := by
  have haction : it'.core.action = it.core.action := by rw [h.core]
  exact haction

theorem SQueueItem.SamePlace.kept_left (h : it.SamePlace it') (y : SQueueItem) : Kept it' y ↔ Kept it y := by
  unfold Kept SQueueItem.isQuitStop
  rw [h.seq, h.download, h.action]

theorem SQueueItem.SamePlace.kept_right (h : it.SamePlace it') (x : SQueueItem) : Kept x it' ↔ Kept x it := by
  unfold Kept SQueueItem.isStart
  rw [h.seq, h.download, h.action]

theorem kept_replace (h : it.SamePlace it') (hplaced : (a ++ it :: b).Pairwise Kept) : (a ++ it' :: b).Pairwise Kept := by
  obtain ⟨ha, hb, hcross⟩ := List.pairwise_append.mp hplaced
  obtain ⟨hit, hb⟩ := List.pairwise_cons.mp hb
  refine List.pairwise_append.mpr ⟨ha, List.pairwise_cons.mpr ⟨?_, hb⟩, ?_⟩
  · exact fun y hy => (h.kept_left y).mpr (hit y hy)
  · intro x hx y hy
    rcases List.mem_cons.mp hy with rfl | hy
    · exact (h.kept_right x).mpr (hcross x hx it List.mem_cons_self)
    · exact hcross x hx y (List.mem_cons_of_mem _ hy)

/-- The first full item that was not requested is requested. -/
theorem requested_first (ha : ∀ x ∈ a, x.isFullUnqueued = false) (hb : ∀ x ∈ b, x.isFullQueued = false) :
    Requested (a ++ it' :: b) := by
  refine List.pairwise_append.mpr ⟨?_, List.pairwise_cons.mpr ⟨fun y hy _ => hb y hy, ?_⟩, ?_⟩
  · exact List.pairwise_of_forall_mem_list fun x hx y _ hx' => absurd hx' (by simp [ha x hx])
  · exact List.pairwise_of_forall_mem_list fun x _ y hy _ => hb y hy
  · exact fun x hx y _ hx' => absurd hx' (by simp [ha x hx])

theorem request_keeps {asked : SQueueItem} (hasked : asked.core = it.core) (hsame : it.SamePlace it') (hit : it.isFullQueued = false) (hit' : it'.isFullQueued = true)
    (ha : ∀ x ∈ a, x.isFullUnqueued = false) (hb : Requested (a ++ it :: b) → ∀ x ∈ b, x.isFullQueued = false) :
    QueueKeeps [] [asked] (a ++ it :: b) (a ++ it' :: b) where
  cores := by
    simp [hsame.core]
  requested hrequested := requested_first ha (hb hrequested)
  requests hrequested := by
    rw [requests_append, requests_append, requests_cons_of_not hit]
    rw [requests_eq_nil (hb hrequested)]
    have hone : requests (it' :: b) = it'.core :: requests b := by simp [requests, hit']
    rw [hone, requests_eq_nil (hb hrequested), hsame.core, List.append_nil, List.map_cons, hasked]
    rfl
  placed _ hplaced := kept_replace hsame hplaced

/-- An entry is changed that is not requested before or after. -/
theorem change_keeps (hsame : it.SamePlace it') (hit : it.isFullQueued = false) (hit' : it'.isFullQueued = false)
    (hunqueued : it'.isFullUnqueued = true → it.isFullUnqueued = true ∨ ∀ x ∈ b, x.isFullQueued = false) :
    QueueKeeps [] [] (a ++ it :: b) (a ++ it' :: b) where
  cores := by
    simp [hsame.core]
  requested hrequested := by
    obtain ⟨ha, hb, hcross⟩ := List.pairwise_append.mp hrequested
    obtain ⟨hfirst, hb⟩ := List.pairwise_cons.mp hb
    refine List.pairwise_append.mpr ⟨ha, List.pairwise_cons.mpr ⟨?_, hb⟩, ?_⟩
    · intro y hy hx
      rcases hunqueued hx with hold | hnone
      · exact hfirst y hy hold
      · exact hnone y hy
    · intro x hx y hy hx'
      rcases List.mem_cons.mp hy with rfl | hy
      · exact hit'
      · exact hcross x hx y (List.mem_cons_of_mem _ hy) hx'
  requests _ := by
    rw [requests_append, requests_append, requests_cons_of_not hit, requests_cons_of_not hit', List.map_nil, List.append_nil]
  placed _ hplaced := kept_replace hsame hplaced

theorem QueueKeeps.trans {asked q q₁ q₂ : List SQueueItem} (h₁ : QueueKeeps [] [] q q₁) (h₂ : QueueKeeps [] asked q₁ q₂) :
    QueueKeeps [] asked q q₂ where
  cores := by
    have hcores := h₁.cores
    rw [List.map_nil, List.append_nil] at hcores
    exact h₂.cores.trans (hcores.append_right _)
  requested h := h₂.requested (h₁.requested h)
  requests h := by
    rw [h₂.requests (h₁.requested h), h₁.requests h, List.map_nil, List.append_nil]
  placed h hplaced := h₂.placed (h₁.requested h) (h₁.placed h hplaced)

theorem QueueKeeps.refl (q : List SQueueItem) : QueueKeeps [] [] q q where
  cores := by
    rw [List.map_nil, List.append_nil]
  requested h := h
  requests _ := by
    rw [List.map_nil, List.append_nil]
  placed _ h := h

theorem download_of_chunked (h : it.isChunked = true) : it.isDownload = true := by
  simp only [SQueueItem.isChunked, Bool.and_eq_true, decide_eq_true_eq] at h
  simp [SQueueItem.isDownload, h.1, h.2]

theorem not_full_of_chunked (h : it.isChunked = true) : it.isFull = false := by
  simp only [SQueueItem.isChunked, Bool.and_eq_true, decide_eq_true_eq] at h
  simp [SQueueItem.isFull, h.2]

theorem samePlace_switch (h : it.isChunked = true) (p : Option Prepared) :
    it.SamePlace { it with patch_dl_files := p }.switch where
  core := rfl
  download := by
    have haction : it.action = .Fileclient := by
      simp only [SQueueItem.isChunked, Bool.and_eq_true, decide_eq_true_eq] at h
      exact h.1
    rw [download_of_chunked h]
    simp [SQueueItem.isDownload, SQueueItem.switch, haction]

theorem switchItem_keeps (c : DlCounts) (hchunked : it.isChunked = true) (hqueued : it.queued = false) (p : Option Prepared)
    (hafter : hasFullQueuedAfter b = true) :
    QueueKeeps [] [] (a ++ it :: b) (switchItem { it with patch_dl_files := p } (a ++ b) c).1 := by
  have hsame := samePlace_switch hchunked p
  have haction : it.action = .Fileclient := by
    simp only [SQueueItem.isChunked, Bool.and_eq_true, decide_eq_true_eq] at hchunked
    exact hchunked.1
  have hswitches : Switches { it with patch_dl_files := p }.switch (a ++ b)
      (switchItem { it with patch_dl_files := p } (a ++ b) c).1 :=
    insertSwitched_switches c haction hqueued
  have hnot : it.isFullQueued = false := not_fullQueued_of_not_queued hqueued
  have hless : Requested (a ++ it :: b) → Requested (a ++ b) := fun h =>
    h.sublist (List.Sublist.append_left (List.sublist_cons_self _ _) _)
  exact
    { cores := by
        have hperm : ((a ++ b).map SQueueItem.core ++ [it.core]).Perm ((a ++ it :: b).map SQueueItem.core) := by
          have hmiddle : (a ++ b ++ [it]).Perm (a ++ it :: b) :=
            (List.perm_append_singleton it (a ++ b)).trans List.perm_middle.symm
          simpa using hmiddle.map SQueueItem.core
        rw [List.map_nil, List.append_nil]
        exact hswitches.cores.trans (by rw [hsame.core]; exact hperm)
      requested := fun h => hswitches.requested (hless h)
      requests := fun h => by
        rw [hswitches.requests (hless h), requests_append, requests_append, requests_cons_of_not hnot, List.map_nil,
          List.append_nil]
      placed := fun h hplaced => by
        apply hswitches.placed (hless h) (hplaced.sublist (List.Sublist.append_left (List.sublist_cons_self _ _) _))
        intro r hr hnone y hy hstart
        -- the requested item behind `it` is in front of `r`
        have hsuffix : r <:+ b := by
          rcases List.suffix_or_suffix_of_suffix hr (List.suffix_append a b) with h | h
          · exact h
          · obtain ⟨f, hf, hfq⟩ := List.any_eq_true.mp hafter
            have := hnone f (h.mem hf)
            rw [hfq] at this
            cases this
        have hkept := (List.pairwise_cons.mp (List.pairwise_append.mp hplaced).2.1).1 y (hsuffix.mem hy)
        rw [hsame.seq]
        exact hkept.2 (download_of_chunked hchunked) hstart }

theorem askFirst_keeps (hunqueued : it.isFullUnqueued = true) (h : ∀ x ∈ a, x.isFullUnqueued = false) :
    QueueKeeps [] [it] (a ++ it :: b) (a ++ { it with queued := true } :: b) := by
  obtain ⟨hfull, hnot⟩ := Bool.and_eq_true_iff.mp hunqueued
  have hsame : it.SamePlace { it with queued := true } := ⟨rfl, rfl⟩
  have hqueued : SQueueItem.isFullQueued { it with queued := true } = true := by
    simp only [SQueueItem.isFullQueued, Bool.and_true]
    exact hfull
  refine request_keeps rfl hsame (not_fullQueued_of_not_queued (by simpa using hnot)) hqueued h ?_
  intro hrequested x hx
  exact (List.pairwise_cons.mp (List.pairwise_append.mp hrequested).2.1).1 x hx hunqueued

theorem snoc_unqueued (h : ∀ x ∈ a, x.isFullUnqueued = false) (hit : it.isFullUnqueued = false) :
    ∀ x ∈ a ++ [it], x.isFullUnqueued = false := by
  intro x hx
  rcases List.mem_append.mp hx with hx | hx
  · exact h x hx
  · rw [List.mem_singleton.mp hx]
    exact hit

/-- Whatever was found is requested, and no full item before it was not. -/
theorem queueFirstFull_keeps (h : ∀ x ∈ a, x.isFullUnqueued = false) :
    QueueKeeps [] (queueFirstFull b).1.toList (a ++ b) (a ++ (queueFirstFull b).2) := by
  induction b generalizing a with
  | nil => exact QueueKeeps.refl _
  | cons it b ih =>
    rw [queueFirstFull]
    split
    · next hunqueued => exact askFirst_keeps hunqueued h
    · next hunqueued =>
      have hkeeps := ih (snoc_unqueued h (by simpa using hunqueued))
      simpa using hkeeps

theorem not_fullQueued_of_after (h : hasFullQueuedAfter b = false) : ∀ x ∈ b, x.isFullQueued = false := by
  intro x hx
  by_contra hne
  exact absurd (List.any_eq_true.mpr ⟨x, hx, by simpa using hne⟩) (by simpa [hasFullQueuedAfter] using h)

/-- The preparation of a chunked item alone changes nothing here. -/
theorem prepared_keeps (hchunked : it.isChunked = true) (p : Option Prepared) :
    QueueKeeps [] [] (a ++ it :: b) (a ++ { it with patch_dl_files := p } :: b) := by
  have hsame : it.SamePlace { it with patch_dl_files := p } := ⟨rfl, rfl⟩
  have hnot : it.isFullQueued = false := not_fullQueued_of_not_full (not_full_of_chunked hchunked)
  exact change_keeps hsame hnot hnot Or.inl

theorem not_fullUnqueued_of_chunked (h : it.isChunked = true) : it.isFullUnqueued = false := by
  simp [SQueueItem.isFullUnqueued, not_full_of_chunked h]

theorem switched_isFull (h : it.isChunked = true) (p : Option Prepared) :
    SQueueItem.isFull { it with patch_dl_files := p }.switch = true := by
  simp only [SQueueItem.isChunked, Bool.and_eq_true, decide_eq_true_eq] at h
  simp [SQueueItem.isFull, SQueueItem.switch, h.1]

theorem queueFull_keeps (prepare : SQueueItem → Prepared) (c : DlCounts) (h : ∀ x ∈ a, x.isFullUnqueued = false) :
    QueueKeeps [] (queueFull prepare c a b).1.toList (a ++ b) (queueFull prepare c a b).2.1 := by
  induction b generalizing a with
  | nil =>
    rw [List.append_nil]
    exact QueueKeeps.refl _
  | cons it b ih =>
    rw [queueFull]
    split
    · next hprepare =>
      simp only [Bool.and_eq_true, Bool.not_eq_true'] at hprepare
      obtain ⟨⟨hchunked, hqueued⟩, -⟩ := hprepare
      have hnot : it.isFullQueued = false := not_fullQueued_of_not_queued hqueued
      dsimp only
      split
      · split
        · next hafter =>
          have hswitch := switchItem_keeps (a := a) c hchunked hqueued (some (prepare it)) hafter
          have hfirst := queueFirstFull_keeps (a := []) (fun x hx => nomatch hx)
            (b := (switchItem { it with patch_dl_files := some (prepare it) } (a ++ b) c).1)
          exact hswitch.trans hfirst
        · next hafter =>
          have hsame : it.SamePlace { ({ it with patch_dl_files := some (prepare it) } : SQueueItem).switch with queued := true } :=
            ⟨rfl, (samePlace_switch hchunked (some (prepare it))).download⟩
          refine request_keeps rfl hsame hnot ?_ h fun _ => not_fullQueued_of_after (by simpa using hafter)
          have hfull := switched_isFull hchunked (some (prepare it))
          simpa [SQueueItem.isFullQueued, SQueueItem.isFull] using hfull
      · have hprepared := prepared_keeps (a := a) (b := b) hchunked (some (prepare it))
        have hunqueued : SQueueItem.isFullUnqueued { it with patch_dl_files := some (prepare it) } = false :=
          not_fullUnqueued_of_chunked hchunked
        have hfirst := queueFirstFull_keeps (b := b) (snoc_unqueued h hunqueued)
        simpa using hprepared.trans (by simpa using hfirst)
    · split
      · next hunqueued => exact askFirst_keeps hunqueued h
      · next hunqueued =>
        have hkeeps := ih (snoc_unqueued h (by simpa using hunqueued))
        simpa using hkeeps

theorem queuedChunked_keeps (hchunked : it.isChunked = true) (p : Option Prepared) :
    QueueKeeps [] [] (a ++ it :: b) (a ++ { it with patch_dl_files := p, queued := true } :: b) := by
  have hsame : it.SamePlace { it with patch_dl_files := p, queued := true } := ⟨rfl, rfl⟩
  have hchunked' : SQueueItem.isChunked { it with patch_dl_files := p, queued := true } = true := hchunked
  refine change_keeps hsame (not_fullQueued_of_not_full (not_full_of_chunked hchunked))
    (not_fullQueued_of_not_full (not_full_of_chunked hchunked')) fun hunqueued => ?_
  rw [not_fullUnqueued_of_chunked hchunked'] at hunqueued
  cases hunqueued

theorem queueChunked_keeps (prepare : SQueueItem → Prepared) (c : DlCounts) :
    QueueKeeps [] [] (a ++ b) (queueChunked prepare c a b).2.1 := by
  induction b generalizing a c with
  | nil =>
    rw [List.append_nil]
    exact QueueKeeps.refl _
  | cons it b ih =>
    have hassoc : ∀ x : SQueueItem, a ++ x :: b = a ++ [x] ++ b := fun x => by simp
    unfold queueChunked
    split
    · next hchunked =>
      simp only [Bool.and_eq_true, Bool.not_eq_true'] at hchunked
      obtain ⟨hchunked, hqueued⟩ := hchunked
      have hnot : it.isFullQueued = false := not_fullQueued_of_not_queued hqueued
      split
      · exact queuedChunked_keeps hchunked it.patch_dl_files
      · rw [hassoc]
        exact ih _
      · dsimp only
        split
        · exact queuedChunked_keeps hchunked (some (prepare it))
        · split
          · next hafter => exact switchItem_keeps c hchunked hqueued (some (prepare it)) hafter
          · next hafter =>
            have hsame := samePlace_switch hchunked (some (prepare it))
            have hnot' : SQueueItem.isFullQueued ({ it with patch_dl_files := some (prepare it) } : SQueueItem).switch = false :=
              not_fullQueued_of_not_queued hqueued
            have hswitch : QueueKeeps [] [] (a ++ it :: b)
                (a ++ ({ it with patch_dl_files := some (prepare it) } : SQueueItem).switch :: b) :=
              change_keeps hsame hnot hnot' fun _ => Or.inr (not_fullQueued_of_after (by simpa using hafter))
            apply hswitch.trans
            rw [hassoc]
            exact ih _
        · apply (prepared_keeps hchunked (some (prepare it))).trans
          rw [hassoc]
          exact ih _
    · rw [hassoc]
      exact ih _

theorem retryChunked_keeps (prepare : SQueueItem → Prepared) (fuel : Nat) (q : List SQueueItem) (c : DlCounts) :
    QueueKeeps [] [] q (retryChunked prepare fuel q c).2.1 := by
  induction fuel generalizing q c with
  | zero => exact QueueKeeps.refl q
  | succ fuel ih =>
    have hkeeps := queueChunked_keeps (a := []) (b := q) prepare c
    rw [retryChunked]
    split
    · next hfound =>
      rw [hfound] at hkeeps
      exact hkeeps
    · next hretry =>
      rw [hretry] at hkeeps
      exact hkeeps.trans (ih _ _)

end Request

end urbackup.serverdownload
