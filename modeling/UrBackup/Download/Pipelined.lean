import Mathlib.Data.List.Forall2
import Mathlib.Data.List.Nodup
import UrBackup.Download.QueueKeeps

namespace urbackup.serverdownload

section SameEntries

theorem cores_of_forall₂ {q q' : List SQueueItem} (h : List.Forall₂ SQueueItem.SamePlace q q') :
    q'.map SQueueItem.core = q.map SQueueItem.core := by
  induction h with
  | nil => rfl
  | cons hsame _ ih => rw [List.map_cons, List.map_cons, hsame.core, ih]

theorem mem_of_forall₂ {R : SQueueItem → SQueueItem → Prop} {q q' : List SQueueItem} (h : List.Forall₂ R q q')
    {y' : SQueueItem} (hy' : y' ∈ q') : ∃ y ∈ q, R y y' := by
  induction h with
  | nil => cases hy'
  | cons hsame _ ih =>
    rcases List.mem_cons.mp hy' with rfl | hy'
    · exact ⟨_, List.mem_cons_self, hsame⟩
    · obtain ⟨y, hy, hyy⟩ := ih hy'
      exact ⟨y, List.mem_cons_of_mem _ hy, hyy⟩

theorem placed_of_forall₂ {q q' : List SQueueItem} (h : List.Forall₂ SQueueItem.SamePlace q q') (hplaced : q.Pairwise Kept) :
    q'.Pairwise Kept := by
  induction h with
  | nil => exact List.Pairwise.nil
  | cons hsame hrest ih =>
    obtain ⟨hfirst, hplaced⟩ := List.pairwise_cons.mp hplaced
    refine List.pairwise_cons.mpr ⟨?_, ih hplaced⟩
    intro y' hy'
    obtain ⟨y, hy, hyy⟩ := mem_of_forall₂ hrest hy'
    exact (hsame.kept_left _).mpr ((hyy.kept_right _).mpr (hfirst y hy))

theorem sameEntries_refl (q : List SQueueItem) : List.Forall₂ SQueueItem.SamePlace q q :=
  List.forall₂_same.mpr fun _ _ => ⟨rfl, rfl⟩

theorem sameEntries_trans {q q₁ q₂ : List SQueueItem} (h₁ : List.Forall₂ SQueueItem.SamePlace q q₁)
    (h₂ : List.Forall₂ SQueueItem.SamePlace q₁ q₂) : List.Forall₂ SQueueItem.SamePlace q q₂ := by
  induction h₁ generalizing q₂ with
  | nil => exact h₂
  | cons hsame _ ih =>
    cases h₂ with
    | cons hsame' hrest' =>
      exact List.Forall₂.cons ⟨hsame'.core.trans hsame.core, hsame'.download.trans hsame.download⟩ (ih hrest')

/-- One entry that meets the condition is changed. -/
theorem unqueueFirst_forall₂ {R : SQueueItem → SQueueItem → Prop} {p : SQueueItem → Bool} (hrefl : ∀ it, R it it)
    (hchange : ∀ it, p it = true → R it { it with queued := false }) (q : List SQueueItem) :
    List.Forall₂ R q (ServerDownloadThread.unqueueFirst p q) := by
  induction q with
  | nil => exact List.Forall₂.nil
  | cons it q ih =>
    rw [ServerDownloadThread.unqueueFirst]
    split
    · next hp => exact List.Forall₂.cons (hchange it (Bool.and_eq_true_iff.mp hp).2) (List.forall₂_same.mpr fun x _ => hrefl x)
    · exact List.Forall₂.cons (hrefl it) ih

theorem unqueueFirst_same (p : SQueueItem → Bool) (q : List SQueueItem) :
    List.Forall₂ SQueueItem.SamePlace q (ServerDownloadThread.unqueueFirst p q) :=
  unqueueFirst_forall₂ (fun _ => ⟨rfl, rfl⟩) (fun _ _ => ⟨rfl, rfl⟩) q

/-- An entry that is not changed where requests of full items are concerned. -/
structure SQueueItem.SameRequest (it it' : SQueueItem) : Prop where
  place : it.SamePlace it'
  queued : it'.isFullQueued = it.isFullQueued
  unqueued : it'.isFullUnqueued = it.isFullUnqueued

theorem SQueueItem.SameRequest.refl (it : SQueueItem) : it.SameRequest it :=
  ⟨⟨rfl, rfl⟩, rfl, rfl⟩

theorem sameRequest_of_chunked {it : SQueueItem} (h : it.isChunked = true) (queued : Bool) :
    it.SameRequest { it with queued := queued } := by
  have hchunked : SQueueItem.isChunked { it with queued := queued } = true := h
  refine ⟨⟨rfl, rfl⟩, ?_, ?_⟩
  · rw [not_fullQueued_of_not_full (not_full_of_chunked h), not_fullQueued_of_not_full (not_full_of_chunked hchunked)]
  · rw [not_fullUnqueued_of_chunked h, not_fullUnqueued_of_chunked hchunked]

theorem requests_of_sameRequests {q q' : List SQueueItem} (h : List.Forall₂ SQueueItem.SameRequest q q') :
    requests q' = requests q := by
  induction h with
  | nil => rfl
  | cons hit _ ih =>
    unfold requests at ih ⊢
    rw [List.filter_cons, List.filter_cons, hit.queued]
    split
    · rw [List.map_cons, List.map_cons, hit.place.core, ih]
    · exact ih

theorem sameRequests_keeps {q q' : List SQueueItem} (h : List.Forall₂ SQueueItem.SameRequest q q') : QueueKeeps [] [] q q' := by
  have hsame : List.Forall₂ SQueueItem.SamePlace q q' := h.imp fun _ _ hit => hit.place
  refine ⟨by rw [cores_of_forall₂ hsame, List.map_nil, List.append_nil], ?_, ?_, fun _ => placed_of_forall₂ hsame⟩
  · intro hrequested
    induction h with
    | nil => exact List.Pairwise.nil
    | cons hit hrest ih =>
      obtain ⟨hfirst, hrequested⟩ := List.pairwise_cons.mp hrequested
      refine List.pairwise_cons.mpr ⟨?_, ih (hrest.imp fun _ _ hit => hit.place) hrequested⟩
      intro y' hy' hunqueued
      obtain ⟨y, hy, hyy⟩ := mem_of_forall₂ hrest hy'
      rw [hyy.queued]
      exact hfirst y hy (hit.unqueued ▸ hunqueued)
  · intro _
    rw [List.map_nil, List.append_nil]
    exact requests_of_sameRequests h

end SameEntries

namespace Trace

/-- The entry the worker is done with. -/
def taken : Trace → Option SQueueItem
  | .start_shadowcopy it => some it
  | .stop_shadowcopy it => some it
  | .load _ => none
  | .done it => some it

end Trace

namespace ServerDownloadThread

def taken (t : ServerDownloadThread) : List SQueueItem :=
  t.trace.filterMap Trace.taken

def inHand (t : ServerDownloadThread) : List SQueueItem :=
  match t.worker with
  | .loading curr => [curr]
  | _ => []

/-- The thread still loads files, and its connection is not about to be made again. -/
def loadsOn (t : ServerDownloadThread) : Bool :=
  !t.fc.send_failed && !t.is_offline && !t.skipping

def toQueued (t : ServerDownloadThread) (it : SQueueItem) : QueuedFile :=
  ⟨t.getDLPath it, it.script_end⟩

/-- The queue and the requests of the file client fit together. -/
structure Sound (t : ServerDownloadThread) : Prop where
  token : t.server_token ≠ ""
  asserts : t.fc.assert_failed = false
  requested : t.fc.send_failed = false → Requested t.dl_queue
  order : t.loadsOn = true → (requests t.dl_queue).map t.toQueued = t.fc.queued
  cores : ((t.taken ++ t.inHand ++ t.dl_queue).map SQueueItem.core).Perm (t.issued.map SQueueItem.core)
  seqs : ∀ it ∈ t.issued, it.seq < t.seqs
  distinct : (t.issued.map SQueueItem.seq).Nodup
  placed : t.dl_queue.Pairwise Kept
  failed : t.fc.send_failed = true → (t.is_offline = true ∧ t.inHand = []) ∨
    ∃ curr, t.worker = .loading curr ∧ curr.fileclient = .Full ∧ curr.script_end = false

variable {t : ServerDownloadThread}

theorem sound_new {server_token : String} (h : server_token ≠ "") (incremental_num : Nat) :
    (new server_token incremental_num).Sound where
  token := h
  asserts := rfl
  requested _ := List.Pairwise.nil
  order _ := rfl
  cores := List.Perm.refl _
  seqs _ hit := nomatch hit
  distinct := List.nodup_nil
  placed := List.Pairwise.nil
  failed h := nomatch h

theorem getDLPath_ne (h : t.server_token ≠ "") (it : SQueueItem) : t.getDLPath it ≠ "" := by
  unfold getDLPath
  split
  · simp [String.append_eq_empty_iff]
  · simp [String.append_eq_empty_iff]

/-- Every entry of the queue was queued before the next one is. -/
theorem Sound.seq_lt (h : t.Sound) {it : SQueueItem} (hit : it ∈ t.dl_queue) : it.seq < t.seqs := by
  have hmem : it.core ∈ t.issued.map SQueueItem.core :=
    h.cores.mem_iff.mp (List.mem_map_of_mem (List.mem_append_right _ hit))
  obtain ⟨x, hx, heq⟩ := List.mem_map.mp hmem
  have hseq : x.core.seq = it.core.seq := by rw [heq]
  change x.seq = it.seq at hseq
  rw [← hseq]
  exact h.seqs x hx

theorem Sound.issue (h : t.Sound) {it : SQueueItem} (hseq : it.seq = t.seqs) :
    (∀ x ∈ t.issued ++ [it], x.seq < t.seqs + 1) ∧ ((t.issued ++ [it]).map SQueueItem.seq).Nodup := by
  constructor
  · intro x hx
    rcases List.mem_append.mp hx with hx | hx
    · exact Nat.lt_succ_of_lt (h.seqs x hx)
    · rw [List.mem_singleton.mp hx, hseq]
      exact Nat.lt_succ_self _
  · rw [List.map_append, List.map_singleton]
    refine List.nodup_append.mpr ⟨h.distinct, List.nodup_singleton _, ?_⟩
    intro a ha b hb
    obtain ⟨x, hx, rfl⟩ := List.mem_map.mp ha
    rw [List.mem_singleton.mp hb, hseq]
    exact Nat.ne_of_lt (h.seqs x hx)

theorem Sound.push_back (h : t.Sound) {it : SQueueItem} (hseq : it.seq = t.seqs) (hqueued : it.queued = false) :
    (t.push_back it).Sound where
  token := h.token
  asserts := h.asserts
  requested hfailed := by
    have hnot := not_fullQueued_of_not_queued hqueued
    exact requested_insert hnot (h.requested hfailed) (fun x hx => nomatch hx)
  order hloads := by
    change (requests (t.dl_queue ++ [it])).map t.toQueued = t.fc.queued
    rw [requests_append, requests_cons_of_not (not_fullQueued_of_not_queued hqueued)]
    simpa [requests] using h.order hloads
  cores := by
    have hcores := h.cores.append_right [it.core]
    simpa [ServerDownloadThread.push_back, taken, inHand] using hcores
  seqs := (h.issue hseq).1
  distinct := (h.issue hseq).2
  placed := by
    refine List.pairwise_append.mpr ⟨h.placed, List.pairwise_singleton _ _, ?_⟩
    intro x hx y hy
    have hlt : x.seq < it.seq := by
      rw [hseq]
      exact h.seq_lt hx
    rw [List.mem_singleton.mp hy]
    exact ⟨fun _ _ => hlt, fun _ _ => hlt⟩
  failed := h.failed

/-- A new entry comes in among the others. -/
theorem Sound.insert (h : t.Sound) (hfailed : t.fc.send_failed = false) {ni : SQueueItem} {q : List SQueueItem}
    (hseq : ni.seq = t.seqs) (hkeeps : QueueKeeps [ni] [] t.dl_queue q) (counts : DlCounts) :
    Sound { t with dl_queue := q, counts := counts, seqs := t.seqs + 1, issued := t.issued ++ [ni] } where
  token := h.token
  asserts := h.asserts
  requested _ := hkeeps.requested (h.requested hfailed)
  order hloads := by
    change (requests q).map t.toQueued = t.fc.queued
    rw [hkeeps.requests (h.requested hfailed), List.map_nil, List.append_nil]
    exact h.order hloads
  cores := by
    change ((t.taken ++ t.inHand ++ q).map SQueueItem.core).Perm ((t.issued ++ [ni]).map SQueueItem.core)
    have hissued : (t.issued ++ [ni]).map SQueueItem.core = t.issued.map SQueueItem.core ++ [ni].map SQueueItem.core :=
      List.map_append
    rw [List.map_append, hissued]
    refine List.Perm.trans (hkeeps.cores.append_left _) ?_
    rw [← List.append_assoc, ← List.map_append]
    exact h.cores.append_right _
  seqs := (h.issue hseq).1
  distinct := (h.issue hseq).2
  placed := hkeeps.placed (h.requested hfailed) h.placed
  failed hnot := absurd hnot (by simp [hfailed])

theorem Sound.queueSkip (h : t.Sound) : t.queueSkip.Sound where
  token := h.token
  asserts := h.asserts
  requested hfailed := List.pairwise_cons.mpr ⟨(fun _ _ hx => nomatch hx), h.requested hfailed⟩
  order := h.order
  cores := by
    change ((t.taken ++ t.inHand ++ _ :: t.dl_queue).map SQueueItem.core).Perm ((t.issued ++ [_]).map SQueueItem.core)
    refine List.Perm.trans (List.perm_middle.map _) ?_
    have hissued : ∀ ni, (t.issued ++ [ni]).map SQueueItem.core = t.issued.map SQueueItem.core ++ [ni.core] :=
      fun _ => List.map_append
    rw [List.map_cons, hissued]
    exact (h.cores.cons _).trans (List.perm_append_singleton _ _).symm
  seqs := (h.issue rfl).1
  distinct := (h.issue rfl).2
  placed := List.pairwise_cons.mpr ⟨fun _ _ => ⟨(fun hx => nomatch hx), (fun hx => nomatch hx)⟩, h.placed⟩
  failed := h.failed

/-- An operation on the queue, with the requests it leads to. -/
theorem Sound.keeps (h : t.Sound) (hfailed : t.fc.send_failed = false) {asked q : List SQueueItem}
    (hkeeps : QueueKeeps [] asked t.dl_queue q) (counts : DlCounts) :
    Sound { t with
      dl_queue := q
      counts := counts
      fc := { t.fc with queued := t.fc.queued ++ asked.map t.toQueued } } where
  token := h.token
  asserts := h.asserts
  requested _ := hkeeps.requested (h.requested hfailed)
  order hloads := by
    change (requests q).map t.toQueued = t.fc.queued ++ asked.map t.toQueued
    rw [hkeeps.requests (h.requested hfailed), List.map_append, h.order hloads, List.map_map]
    rfl
  cores := by
    have hcores := hkeeps.cores
    rw [List.map_nil, List.append_nil] at hcores
    change ((t.taken ++ t.inHand ++ q).map SQueueItem.core).Perm _
    rw [List.map_append]
    refine List.Perm.trans (hcores.append_left _) ?_
    rw [← List.map_append]
    exact h.cores
  seqs := h.seqs
  distinct := h.distinct
  placed := hkeeps.placed (h.requested hfailed) h.placed
  failed hnot := absurd hnot (by simp [hfailed])

theorem Sound.keeps_nil (h : t.Sound) (hfailed : t.fc.send_failed = false) {q : List SQueueItem}
    (hkeeps : QueueKeeps [] [] t.dl_queue q) (counts : DlCounts) : Sound { t with dl_queue := q, counts := counts } := by
  have hsound := h.keeps hfailed hkeeps counts
  rw [List.map_nil, List.append_nil] at hsound
  exact hsound

/-- A request could not be sent. -/
theorem Sound.sendFailed (h : t.Sound) {q : List SQueueItem} (counts : DlCounts)
    (hcores : (q.map SQueueItem.core).Perm (t.dl_queue.map SQueueItem.core)) (hplaced : q.Pairwise Kept)
    {curr : SQueueItem} (hworker : t.worker = .loading curr) (hcurr : curr.fileclient = .Full ∧ curr.script_end = false) :
    (ServerDownloadThread.sendFailed { t with dl_queue := q, counts := counts }).Sound where
  token := h.token
  asserts := h.asserts
  requested hnot := nomatch hnot
  order hnot := by
    simp [loadsOn, ServerDownloadThread.sendFailed] at hnot
  cores := by
    change ((t.taken ++ t.inHand ++ q).map SQueueItem.core).Perm _
    rw [List.map_append]
    refine List.Perm.trans (hcores.append_left _) ?_
    rw [← List.map_append]
    exact h.cores
  seqs := h.seqs
  distinct := h.distinct
  placed := hplaced
  failed _ := Or.inr ⟨curr, hworker, hcurr⟩

theorem unqueueAll_same (fs : List QueuedFile) (t : ServerDownloadThread) :
    ∃ q, unqueueAll fs t = { t with dl_queue := q } ∧ List.Forall₂ SQueueItem.SamePlace t.dl_queue q := by
  induction fs generalizing t with
  | nil => exact ⟨t.dl_queue, rfl, sameEntries_refl _⟩
  | cons f fs ih =>
    obtain ⟨q, heq, hsame⟩ := ih (t.unqueueFileFull f)
    refine ⟨q, ?_, sameEntries_trans (unqueueFirst_same _ _) hsame⟩
    rw [unqueueAll, heq]
    rfl

theorem Sound.flushFailed (h : t.Sound) {curr : SQueueItem} (hworker : t.worker = .loading curr)
    (hcurr : curr.fileclient = .Full ∧ curr.script_end = false) (n : Nat) : (t.flushFailed n).Sound := by
  obtain ⟨q, heq, hsame⟩ := unqueueAll_same (t.fc.queued.drop (t.fc.queued.length - n)) t
  unfold ServerDownloadThread.flushFailed
  rw [heq]
  refine h.sendFailed t.counts ?_ (placed_of_forall₂ hsame h.placed) hworker hcurr
  rw [cores_of_forall₂ hsame]

theorem Sound.fillQueue (h : t.Sound) {curr : SQueueItem} (hworker : t.worker = .loading curr)
    (hcurr : curr.fileclient = .Full ∧ curr.script_end = false) (hfailed : t.fc.send_failed = false) (prepare : SQueueItem → Prepared)
    (failed : Option Nat) : (t.fillQueue prepare failed).Sound := by
  have hkeeps := queueFull_keeps (a := []) (b := t.dl_queue) prepare t.counts (fun x hx => nomatch hx)
  rw [List.nil_append] at hkeeps
  unfold ServerDownloadThread.fillQueue getQueuedFileFull
  dsimp only
  cases hfound : (queueFull prepare t.counts [] t.dl_queue).1 with
  | none =>
    rw [hfound] at hkeeps
    exact h.keeps_nil hfailed hkeeps _
  | some it =>
    rw [hfound] at hkeeps
    dsimp only
    split
    · next hempty => exact absurd hempty (getDLPath_ne h.token it)
    cases failed with
    | none => exact h.keeps hfailed hkeeps _
    | some n =>
      dsimp only
      obtain ⟨q, heq, hsame⟩ := unqueueAll_same (t.fc.queued.drop (t.fc.queued.length - n) ++ [⟨t.getDLPath it, it.script_end⟩])
        { t with dl_queue := (queueFull prepare t.counts [] t.dl_queue).2.1, counts := (queueFull prepare t.counts [] t.dl_queue).2.2 }
      have hcores := hkeeps.cores
      rw [List.map_nil, List.append_nil] at hcores
      have hplaced := placed_of_forall₂ hsame (hkeeps.placed (h.requested hfailed) h.placed)
      have hsound := h.sendFailed (queueFull prepare t.counts [] t.dl_queue).2.2 (q := q)
        (by rw [cores_of_forall₂ hsame]; exact hcores) hplaced hworker hcurr
      have hstate : unqueueAll (t.fc.queued.drop (t.fc.queued.length - n) ++ [⟨t.getDLPath it, it.script_end⟩])
          { t with
            dl_queue := (queueFull prepare t.counts [] t.dl_queue).2.1
            counts := (queueFull prepare t.counts [] t.dl_queue).2.2 } =
          { t with dl_queue := q, counts := (queueFull prepare t.counts [] t.dl_queue).2.2 } := heq
      rw [← hstate] at hsound
      exact hsound

theorem Sound.Reconnect (h : t.Sound) : t.Reconnect.Sound := by
  have hnone : ∀ x ∈ t.Reconnect.dl_queue, x.isFullQueued = false := by
    intro x hx
    obtain ⟨y, -, rfl⟩ := List.mem_map.mp hx
    split
    · exact not_fullQueued_of_not_queued rfl
    · next hfull => exact not_fullQueued_of_not_full (by simpa using hfull)
  have hsame : List.Forall₂ SQueueItem.SamePlace t.dl_queue t.Reconnect.dl_queue := by
    apply List.forall₂_map_right_iff.mpr
    apply List.forall₂_same.mpr
    intro x _
    split
    · exact ⟨rfl, rfl⟩
    · exact ⟨rfl, rfl⟩
  exact
    { token := h.token
      asserts := h.asserts
      requested := fun _ => List.pairwise_of_forall_mem_list fun x _ y hy _ => hnone y hy
      order := fun _ => by
        rw [requests_eq_nil hnone]
        rfl
      cores := by
        change ((t.taken ++ t.inHand ++ t.Reconnect.dl_queue).map SQueueItem.core).Perm _
        rw [List.map_append, cores_of_forall₂ hsame, ← List.map_append]
        exact h.cores
      seqs := h.seqs
      distinct := h.distinct
      placed := placed_of_forall₂ hsame h.placed
      failed := fun hnot => nomatch hnot }

/-- The requests of the chunked items are marked or taken back. -/
theorem Sound.sameRequests (h : t.Sound) {q : List SQueueItem} (hsame : List.Forall₂ SQueueItem.SameRequest t.dl_queue q) :
    Sound { t with dl_queue := q } := by
  have hkeeps := sameRequests_keeps hsame
  cases hfailed : t.fc.send_failed with
  | false => exact h.keeps_nil hfailed hkeeps t.counts
  | true =>
    have hplaces : List.Forall₂ SQueueItem.SamePlace t.dl_queue q := hsame.imp fun _ _ hit => hit.place
    exact
      { token := h.token
        asserts := h.asserts
        requested := fun hnot => absurd hnot (by simp [hfailed])
        order := fun hnot => by simp [loadsOn, hfailed] at hnot
        cores := by
          change ((t.taken ++ t.inHand ++ q).map SQueueItem.core).Perm _
          rw [List.map_append, cores_of_forall₂ hplaces, ← List.map_append]
          exact h.cores
        seqs := h.seqs
        distinct := h.distinct
        placed := placed_of_forall₂ hplaces h.placed
        failed := h.failed }

section Take

variable {curr : SQueueItem} {q : List SQueueItem}

theorem requested_tail (h : t.Sound) (hq : t.dl_queue = curr :: q) (hfailed : t.fc.send_failed = false) : Requested q := by
  have hrequested := h.requested hfailed
  rw [hq] at hrequested
  exact (List.pairwise_cons.mp hrequested).2

theorem placed_tail (h : t.Sound) (hq : t.dl_queue = curr :: q) : q.Pairwise Kept := by
  have hplaced := h.placed
  rw [hq] at hplaced
  exact (List.pairwise_cons.mp hplaced).2

theorem idle_cores (h : t.Sound) (hidle : t.worker = .idle) (hq : t.dl_queue = curr :: q) :
    ((t.taken ++ [curr] ++ q).map SQueueItem.core).Perm (t.issued.map SQueueItem.core) := by
  have hcores := h.cores
  rw [hq, inHand, hidle] at hcores
  simpa using hcores

theorem idle_failed (h : t.Sound) (hidle : t.worker = .idle) (hfailed : t.fc.send_failed = true) : t.is_offline = true := by
  rcases h.failed hfailed with ⟨hoffline, -⟩ | ⟨curr, hworker, -⟩
  · exact hoffline
  · rw [hidle] at hworker
    cases hworker

theorem taken_concat (e : Trace) {it : SQueueItem} (he : e.taken = some it) :
    (t.trace ++ [e]).filterMap Trace.taken = t.taken ++ [it] := by
  rw [List.filterMap_append]
  simp [he, taken]

theorem taken_load (it : SQueueItem) : (t.trace ++ [Trace.load it]).filterMap Trace.taken = t.taken := by
  rw [List.filterMap_append]
  exact List.append_nil _

section Idle

variable (h : t.Sound) (hidle : t.worker = .idle) (hq : t.dl_queue = curr :: q) (counts : DlCounts)

include h hidle hq counts

/-- The worker is done with the entry it took. -/
theorem Sound.gone {e : Trace}
    (he : e.taken = some curr) {worker : Worker} (hworker : worker = .idle ∨ worker = .stopped) (is_offline skipping : Bool)
    (hoffline : t.is_offline = true → is_offline = true) (hskipping : t.skipping = true → skipping = true)
    (hcurr : is_offline = false → skipping = false → curr.isFullQueued = false) :
    Sound { t with
      dl_queue := q
      counts := counts
      trace := t.trace ++ [e]
      worker := worker
      is_offline := is_offline
      skipping := skipping } where
  token := h.token
  asserts := h.asserts
  requested hfailed := by
    have hrequested := requested_tail h hq hfailed
    exact hrequested
  order hloads := by
    simp only [loadsOn, Bool.and_eq_true, Bool.not_eq_true'] at hloads
    obtain ⟨⟨hfailed, hoff⟩, hskip⟩ := hloads
    have hold : t.loadsOn = true := by
      have hoff' : t.is_offline = false := by
        by_contra hne
        exact absurd (hoffline (by simpa using hne)) (by simp [hoff])
      have hskip' : t.skipping = false := by
        by_contra hne
        exact absurd (hskipping (by simpa using hne)) (by simp [hskip])
      simp [loadsOn, hfailed, hoff', hskip']
    have horder := h.order hold
    rw [hq, requests_cons_of_not (hcurr hoff hskip)] at horder
    exact horder
  cores := by
    have hhand : inHand { t with
        dl_queue := q, counts := counts, trace := t.trace ++ [e], worker := worker, is_offline := is_offline,
        skipping := skipping } = [] := by
      rcases hworker with rfl | rfl
      · rfl
      · rfl
    rw [hhand]
    change ((List.filterMap Trace.taken (t.trace ++ [e]) ++ [] ++ q).map SQueueItem.core).Perm _
    rw [taken_concat e he, List.append_nil]
    exact idle_cores h hidle hq
  seqs := h.seqs
  distinct := h.distinct
  placed := placed_tail h hq
  failed hfailed := by
    refine Or.inl ⟨hoffline (idle_failed h hidle hfailed), ?_⟩
    rcases hworker with rfl | rfl
    · rfl
    · rfl

/-- A quit entry that is not the last one goes to the end. -/
theorem Sound.requeueQuit
    (hquit : curr.isQuitStop = true) : Sound { t with dl_queue := q ++ [curr], counts := counts } where
  token := h.token
  asserts := h.asserts
  requested hfailed := requested_insert (not_fullQueued_of_quitStop hquit) (requested_tail h hq hfailed) (fun x hx => nomatch hx)
  order hloads := by
    have horder := h.order hloads
    rw [hq, requests_cons_of_not (not_fullQueued_of_quitStop hquit)] at horder
    change (requests (q ++ [curr])).map t.toQueued = t.fc.queued
    rw [requests_append, requests_cons_of_not (not_fullQueued_of_quitStop hquit)]
    simpa [requests] using horder
  cores := by
    have hhand : inHand { t with dl_queue := q ++ [curr], counts := counts } = [] := by
      unfold inHand
      rw [hidle]
    rw [hhand]
    change ((t.taken ++ [] ++ (q ++ [curr])).map SQueueItem.core).Perm (t.issued.map SQueueItem.core)
    refine List.Perm.trans (List.Perm.map _ ?_) (idle_cores h hidle hq)
    rw [List.append_nil, List.append_assoc]
    exact (List.perm_append_singleton curr q).append_left _
  seqs := h.seqs
  distinct := h.distinct
  placed := by
    refine List.pairwise_append.mpr ⟨placed_tail h hq, List.pairwise_singleton _ _, ?_⟩
    intro x _ y hy
    rw [List.mem_singleton.mp hy]
    exact kept_quitStop hquit
  failed := h.failed

theorem Sound.load_file
    (hfull : curr.isFull = true) (hoffline : t.is_offline = false) (hskipping : t.skipping = false) :
    (ServerDownloadThread.load_file { t with dl_queue := q, counts := counts } curr).Sound := by
  have hfailed : t.fc.send_failed = false := by
    by_contra hne
    exact absurd (idle_failed h hidle (by simpa using hne)) (by simp [hoffline])
  have horder := h.order (by simp [loadsOn, hfailed, hoffline, hskipping])
  have hrequested := h.requested hfailed
  rw [hq] at horder hrequested
  -- the answer that comes next is that of `curr`, or there is none
  have hnext : ∃ queued, (request { t with dl_queue := q, counts := counts } curr) =
      { t with dl_queue := q, counts := counts, fc := { t.fc with queued := queued } } ∧
      (requests q).map t.toQueued = queued := by
    cases hqueued : curr.queued with
    | true =>
      have hcurr : curr.isFullQueued = true := by simp [SQueueItem.isFullQueued, hfull, hqueued]
      have hcons : requests (curr :: q) = curr.core :: requests q := by simp [requests, hcurr]
      rw [hcons, List.map_cons] at horder
      refine ⟨(requests q).map t.toQueued, ?_, rfl⟩
      unfold request
      dsimp only
      rw [← horder]
      have hpath : (t.toQueued curr.core).fn = getDLPath { t with dl_queue := q, counts := counts } curr := rfl
      have hend : (t.toQueued curr.core).finish_script = curr.script_end := rfl
      simp [hpath, hend]
    | false =>
      have hunqueued : curr.isFullUnqueued = true := by simp [SQueueItem.isFullUnqueued, hfull, hqueued]
      have hnone : requests q = [] :=
        requests_eq_nil fun x hx => (List.pairwise_cons.mp hrequested).1 x hx hunqueued
      rw [requests_cons_of_not (not_fullQueued_of_not_queued hqueued), hnone, List.map_nil] at horder
      refine ⟨[], ?_, by rw [hnone]; rfl⟩
      have hfc : t.fc = ⟨[], t.fc.send_failed, t.fc.assert_failed⟩ := by rw [horder]
      unfold request
      rw [hfc]
  obtain ⟨queued, heq, hqueued⟩ := hnext
  unfold ServerDownloadThread.load_file emit
  rw [heq]
  exact
    { token := h.token
      asserts := h.asserts
      requested := fun _ => (List.pairwise_cons.mp hrequested).2
      order := fun _ => hqueued
      cores := by
        change ((List.filterMap Trace.taken (t.trace ++ [.load curr]) ++ [curr] ++ q).map SQueueItem.core).Perm
          (t.issued.map SQueueItem.core)
        rw [taken_load]
        exact idle_cores h hidle hq
      seqs := h.seqs
      distinct := h.distinct
      placed := placed_tail h hq
      failed := fun hnot => absurd hnot (by simp [hfailed]) }

theorem Sound.requeueFull
    (hchunked : curr.isChunked = true) (hoffline : t.is_offline = false) :
    (ServerDownloadThread.requeueFull { t with dl_queue := q, counts := counts } curr).Sound := by
  have hfailed : t.fc.send_failed = false := by
    by_contra hne
    exact absurd (idle_failed h hidle (by simpa using hne)) (by simp [hoffline])
  have haction : curr.action = .Fileclient := by
    simp only [SQueueItem.isChunked, Bool.and_eq_true, decide_eq_true_eq] at hchunked
    exact hchunked.1
  have hrequested := requested_tail h hq hfailed
  have hplaced := h.placed
  rw [hq] at hplaced
  obtain ⟨hfirst, hplaced⟩ := List.pairwise_cons.mp hplaced
  obtain ⟨ni, hni⟩ : ∃ ni : SQueueItem,
      ni = { curr with fileclient := .Full, queued := false, patch_dl_files := none, switched := true } := ⟨_, rfl⟩
  have hcore : ni.core = curr.core := by
    rw [hni]
    rfl
  have hswitches : Switches ni q (insertSwitched ni q counts).1 :=
    insertSwitched_switches counts (by rw [hni]; exact haction) (by rw [hni])
  unfold ServerDownloadThread.requeueFull
  dsimp only
  rw [← hni]
  exact
    { token := h.token
      asserts := h.asserts
      requested := fun _ => hswitches.requested hrequested
      order := fun hloads => by
        have horder := h.order hloads
        rw [hq, requests_cons_of_not (not_fullQueued_of_not_full (not_full_of_chunked hchunked))] at horder
        change (requests (insertSwitched ni q counts).1).map t.toQueued = t.fc.queued
        rw [hswitches.requests hrequested]
        exact horder
      cores := by
        have hhand : t.inHand = [] := by
          unfold inHand
          rw [hidle]
        change ((t.taken ++ t.inHand ++ (insertSwitched ni q counts).1).map SQueueItem.core).Perm
          (t.issued.map SQueueItem.core)
        rw [hhand, List.append_nil, List.map_append]
        refine List.Perm.trans (hswitches.cores.append_left _) ?_
        refine List.Perm.trans ?_ (idle_cores h hidle hq)
        rw [hcore, List.map_append, List.map_append, List.append_assoc, List.map_singleton]
        exact (List.perm_append_singleton _ _).append_left _
      seqs := h.seqs
      distinct := h.distinct
      placed := by
        apply hswitches.placed hrequested hplaced
        intro r hr _ y hy hstart
        have hseq : ni.seq = curr.seq := by rw [hni]
        rw [hseq]
        exact (hfirst y (hr.mem hy)).2 (download_of_chunked hchunked) hstart
      failed := fun hnot => absurd hnot (by simp [hfailed]) }

theorem Sound.load_file_patch
    (hchunked : curr.isChunked = true) (hoffline : t.is_offline = false) (prepare : Prepared) :
    (ServerDownloadThread.load_file_patch { t with dl_queue := q, counts := counts } curr prepare).Sound := by
  have hcurr : curr.isFullQueued = false := not_fullQueued_of_not_full (not_full_of_chunked hchunked)
  have herror : (setOffline (emit { t with dl_queue := q, counts := counts } (.done curr)) false).Sound := by
    have hgone := h.gone hidle hq counts (e := .done curr) rfl (Or.inl hidle) true t.skipping
      (fun _ => rfl) (fun hs => hs) (fun _ _ => hcurr)
    simpa [setOffline, emit] using hgone
  unfold ServerDownloadThread.load_file_patch
  split
  · exact
      { token := h.token
        asserts := h.asserts
        requested := fun hfailed => requested_tail h hq hfailed
        order := fun hloads => by
          have horder := h.order hloads
          rw [hq, requests_cons_of_not hcurr] at horder
          exact horder
        cores := by
          change ((List.filterMap Trace.taken (t.trace ++ [.load curr]) ++ [curr] ++ q).map SQueueItem.core).Perm
            (t.issued.map SQueueItem.core)
          rw [taken_load]
          exact idle_cores h hidle hq
        seqs := h.seqs
        distinct := h.distinct
        placed := placed_tail h hq
        failed := fun hfailed => by
          have hoff := idle_failed h hidle hfailed
          rw [hoffline] at hoff
          cases hoff }
  · split
    · exact h.requeueFull hidle hq counts hchunked hoffline
    · exact herror
  · exact herror

theorem Sound.handle
    (prepare : Prepared) (ret : Bool) :
    (ServerDownloadThread.handle { t with dl_queue := q, counts := counts } curr prepare ret).Sound := by
  have hover : ∀ e : Trace, e.taken = some curr → (t.is_offline = false → t.skipping = false → curr.isFullQueued = false) →
      (emit { t with dl_queue := q, counts := counts } e).Sound := by
    intro e he hcurr
    have hgone := h.gone hidle hq counts he (Or.inl hidle) t.is_offline t.skipping (fun ho => ho) (fun hs => hs) hcurr
    exact hgone
  have hshadow : ∀ e : Trace, e.taken = some curr → curr.isFullQueued = false →
      (setOffline (emit { t with dl_queue := q, counts := counts } e) ret).Sound := by
    intro e he hcurr
    have hgone := h.gone hidle hq counts he (Or.inl hidle) (t.is_offline || !ret) t.skipping (fun ho => by simp [ho])
      (fun hs => hs) (fun _ _ => hcurr)
    exact hgone
  unfold ServerDownloadThread.handle
  split
  · next haction =>
    have hquit : curr.isQuitStop = true := by simp [SQueueItem.isQuitStop, haction]
    split
    · exact h.requeueQuit hidle hq counts hquit
    · have hgone := h.gone hidle hq counts (e := .done curr) rfl (Or.inr rfl) t.is_offline t.skipping (fun ho => ho)
        (fun hs => hs) (fun _ _ => not_fullQueued_of_quitStop hquit)
      exact hgone
  · have hgone := h.gone hidle hq counts (e := .done curr) rfl (Or.inl hidle) t.is_offline true (fun ho => ho)
      (fun _ => rfl) (fun _ hskip => Bool.noConfusion hskip)
    exact hgone
  · split
    · next hdown =>
      apply hover _ rfl
      intro hoffline hskipping
      change (t.is_offline || t.skipping) = true at hdown
      rw [hoffline, hskipping] at hdown
      cases hdown
    · next hup =>
      change ¬ (t.is_offline || t.skipping) = true at hup
      simp only [Bool.or_eq_true, not_or, Bool.not_eq_true] at hup
      obtain ⟨hoffline, hskipping⟩ := hup
      split
      · next haction => exact hshadow _ rfl (not_fullQueued_of_not_full (by simp [SQueueItem.isFull, haction]))
      · next haction => exact hshadow _ rfl (not_fullQueued_of_not_full (by simp [SQueueItem.isFull, haction]))
      · next hquit hskip _ hstart hstop =>
        have haction : curr.action = .Fileclient := by
          cases hcase : curr.action with
          | Fileclient => rfl
          | Quit => exact absurd hcase hquit
          | StopShadowcopy => exact absurd hcase hstop
          | StartShadowcopy => exact absurd hcase hstart
          | Skip => exact absurd hcase hskip
        split
        · next hfull =>
          exact h.load_file hidle hq counts (by simp [SQueueItem.isFull, haction, hfull]) hoffline hskipping
        · next hfull =>
          have hchunked : curr.isChunked = true := by
            cases hclient : curr.fileclient with
            | Full => exact absurd hclient hfull
            | Chunked => simp [SQueueItem.isChunked, haction, hclient]
          exact h.load_file_patch hidle hq counts hchunked hoffline prepare

end Idle

end Take

theorem Sound.queueScriptEnd (h : t.Sound) (hfailed : t.fc.send_failed = false) (todl : SQueueItem) :
    (t.queueScriptEnd todl).Sound := by
  have hkeeps : QueueKeeps [_] [] t.dl_queue (t.queueScriptEnd todl).dl_queue := insertScriptEnd_keeps t.counts rfl rfl rfl
  exact h.insert hfailed rfl hkeeps _

/-- The worker is done with the file it has loaded. -/
theorem Sound.done (h : t.Sound) {curr : SQueueItem} (hworker : t.worker = .loading curr) (ret : Bool)
    (hret : t.fc.send_failed = true → t.is_offline = true ∨ ret = false) : Sound { setOffline (emit t (.done curr)) ret with worker := .idle } where
  token := h.token
  asserts := h.asserts
  requested := h.requested
  order hloads := by
    apply h.order
    simp only [loadsOn, setOffline, emit, Bool.and_eq_true, Bool.not_eq_true', Bool.or_eq_false_iff] at hloads ⊢
    exact ⟨⟨hloads.1.1, hloads.1.2.1⟩, hloads.2⟩
  cores := by
    have hcores := h.cores
    rw [inHand, hworker] at hcores
    change ((List.filterMap Trace.taken (t.trace ++ [Trace.done curr]) ++ [] ++ t.dl_queue).map SQueueItem.core).Perm
      (t.issued.map SQueueItem.core)
    rw [taken_concat _ rfl, List.append_nil]
    exact hcores
  seqs := h.seqs
  distinct := h.distinct
  placed := h.placed
  failed hfailed := by
    refine Or.inl ⟨?_, rfl⟩
    change (t.is_offline || !ret) = true
    rcases hret hfailed with hoffline | hret
    · simp [hoffline]
    · simp [hret]

theorem Sound.loaded (h : t.Sound) {curr : SQueueItem} (hworker : t.worker = .loading curr) {success ret : Bool}
    (hok : ¬ (t.fc.send_failed && (success || ret)) = true) : (t.loaded curr success ret).Sound := by
  have hret : t.fc.send_failed = true → t.is_offline = true ∨ (ret || curr.script_end) = false := by
    intro hfailed
    rcases h.failed hfailed with ⟨hoffline, -⟩ | ⟨x, hx, -, hend⟩
    · exact Or.inl hoffline
    · rw [hworker] at hx
      obtain rfl := Worker.loading.inj hx
      simp only [hfailed, Bool.true_and, Bool.or_eq_true, not_or, Bool.not_eq_true] at hok
      exact Or.inr (by simp [hok.2, hend])
  unfold ServerDownloadThread.loaded
  dsimp only
  split
  · next hscript =>
    simp only [Bool.and_eq_true] at hscript
    have hfailed : t.fc.send_failed = false := by
      by_contra hne
      exact hok (by simp [hscript.1.1, (Bool.not_eq_false _).mp hne])
    exact (h.queueScriptEnd hfailed curr).done hworker _ hret
  · exact h.done hworker _ hret

theorem loadingFull_eq {curr : SQueueItem} (h : t.loadingFull = some curr) :
    t.worker = .loading curr ∧ curr.fileclient = .Full := by
  unfold loadingFull at h
  split at h
  · next x hx =>
    split at h
    · next hclient =>
      obtain rfl := Option.some.inj h
      exact ⟨hx, hclient⟩
    · cases h
  · cases h

theorem loadingChunked_eq {curr : SQueueItem} (h : t.loadingChunked = some curr) :
    t.worker = .loading curr ∧ curr.fileclient = .Chunked := by
  unfold loadingChunked at h
  split at h
  · next x hx =>
    split at h
    · next hclient =>
      obtain rfl := Option.some.inj h
      exact ⟨hx, hclient⟩
    · cases h
  · cases h

theorem Sound.chunked_connected (h : t.Sound) {curr : SQueueItem} (hcurr : t.loadingChunked = some curr) :
    t.fc.send_failed = false := by
  obtain ⟨hworker, hclient⟩ := loadingChunked_eq hcurr
  by_contra hne
  rcases h.failed ((Bool.not_eq_false _).mp hne) with ⟨-, hhand⟩ | ⟨x, hx, hfull, -⟩
  · rw [inHand, hworker] at hhand
    cases hhand
  · rw [hworker] at hx
    obtain rfl := Worker.loading.inj hx
    rw [hclient] at hfull
    cases hfull

theorem Sound.counts (h : t.Sound) (counts : DlCounts) : Sound { t with counts := counts } :=
  ⟨h.token, h.asserts, h.requested, h.order, h.cores, h.seqs, h.distinct, h.placed, h.failed⟩

theorem Sound.setMinDownloaded (h : t.Sound) (id : Nat) : (t.setMinDownloaded id).Sound := by
  unfold ServerDownloadThread.setMinDownloaded
  split
  · exact h.counts _
  · exact h

theorem seqs_setMinDownloaded (t : ServerDownloadThread) (id : Nat) : (t.setMinDownloaded id).seqs = t.seqs := by
  unfold setMinDownloaded
  split
  · rfl
  · rfl

theorem Sound.step (h : t.Sound) {e : ThreadStep} {t' : ServerDownloadThread} (hstep : t.step e = some t') : t'.Sound := by
  cases e with
  | addToQueueFull f =>
    obtain rfl := Option.some.inj hstep
    exact ((h.setMinDownloaded f.id).push_back (seqs_setMinDownloaded t f.id).symm rfl).counts _
  | addToQueueChunked f =>
    obtain rfl := Option.some.inj hstep
    exact ((h.setMinDownloaded f.id).push_back (seqs_setMinDownloaded t f.id).symm rfl).counts _
  | addToQueueStartShadowcopy fn =>
    obtain rfl := Option.some.inj hstep
    exact h.push_back rfl rfl
  | addToQueueStopShadowcopy fn =>
    obtain rfl := Option.some.inj hstep
    exact h.push_back rfl rfl
  | queueStop =>
    obtain rfl := Option.some.inj hstep
    exact h.push_back rfl rfl
  | queueSkip =>
    obtain rfl := Option.some.inj hstep
    exact h.queueSkip
  | take prepare ret =>
    simp only [ServerDownloadThread.step] at hstep
    split at hstep
    · next curr q hidle hq =>
      obtain rfl := Option.some.inj hstep
      exact h.handle hidle hq _ prepare ret
    · cases hstep
  | fillQueue prepare failed =>
    simp only [ServerDownloadThread.step] at hstep
    split at hstep
    · next curr hcurr =>
      split at hstep
      · next hok =>
        simp only [Bool.and_eq_true, Bool.not_eq_true'] at hok
        obtain rfl := Option.some.inj hstep
        obtain ⟨hworker, hclient⟩ := loadingFull_eq hcurr
        exact h.fillQueue hworker ⟨hclient, hok.1.2⟩ hok.2 prepare failed
      · cases hstep
    · cases hstep
  | flushFailed n =>
    simp only [ServerDownloadThread.step] at hstep
    split at hstep
    · next curr hcurr =>
      split at hstep
      · next hok =>
        simp only [Bool.and_eq_true, Bool.not_eq_true'] at hok
        obtain rfl := Option.some.inj hstep
        obtain ⟨hworker, hclient⟩ := loadingFull_eq hcurr
        exact h.flushFailed hworker ⟨hclient, hok.1.2⟩ n
      · cases hstep
    · cases hstep
  | Reconnect =>
    obtain ⟨curr, -, rfl⟩ := Option.map_eq_some_iff.mp hstep
    exact h.Reconnect
  | getQueuedFileChunked prepare =>
    obtain ⟨curr, hcurr, rfl⟩ := Option.map_eq_some_iff.mp hstep
    exact h.keeps_nil (h.chunked_connected hcurr) (retryChunked_keeps prepare (t.dl_queue.length + 1) t.dl_queue t.counts)
      (retryChunked prepare (t.dl_queue.length + 1) t.dl_queue t.counts).2.2
  | unqueueFileChunked remotefn =>
    obtain ⟨curr, -, rfl⟩ := Option.map_eq_some_iff.mp hstep
    apply h.sameRequests
    apply unqueueFirst_forall₂ SQueueItem.SameRequest.refl
    intro it hit
    exact sameRequest_of_chunked (Bool.and_eq_true_iff.mp hit).1 false
  | resetQueueChunked =>
    obtain ⟨curr, -, rfl⟩ := Option.map_eq_some_iff.mp hstep
    apply h.sameRequests
    apply List.forall₂_map_right_iff.mpr
    apply List.forall₂_same.mpr
    intro it _
    split
    · next hchunked => exact sameRequest_of_chunked hchunked false
    · exact SQueueItem.SameRequest.refl it
  | loaded success ret =>
    simp only [ServerDownloadThread.step] at hstep
    split at hstep
    · next curr hworker =>
      split at hstep
      · cases hstep
      · next hok =>
        obtain rfl := Option.some.inj hstep
        exact h.loaded hworker hok
    · cases hstep

theorem Sound.run (h : t.Sound) {es : List ThreadStep} {t' : ServerDownloadThread} (hrun : run es t = some t') :
    t'.Sound := by
  induction es generalizing t with
  | nil =>
    obtain rfl := Option.some.inj hrun
    exact h
  | cons e es ih =>
    obtain ⟨u, hstep, hrun⟩ := Option.bind_eq_some_iff.mp hrun
    exact ih (h.step hstep) hrun

/-- The requests and their answers match, no entry is lost or doubled, and no quit or
stop entry stands before a switched item that was queued before it. -/
structure Matched (t : ServerDownloadThread) : Prop where
  asserts : t.fc.assert_failed = false
  before : t.loadsOn = true → Requested t.dl_queue
  order : t.loadsOn = true → (t.dl_queue.filter SQueueItem.isFullQueued).map t.toQueued = t.fc.queued
  entries : ((t.taken ++ t.inHand ++ t.dl_queue).map SQueueItem.core).Perm (t.issued.map SQueueItem.core)
  distinct : (t.issued.map SQueueItem.seq).Nodup
  stops : t.dl_queue.Pairwise fun x y => x.isQuitStop = true → y.isFull = true → y.switched = true → x.seq < y.seq

theorem Sound.matched (h : t.Sound) : t.Matched where
  asserts := h.asserts
  before hloads := by
    simp only [loadsOn, Bool.and_eq_true, Bool.not_eq_true'] at hloads
    exact h.requested hloads.1.1
  order hloads := by
    have horder := h.order hloads
    rw [requests, List.map_map] at horder
    exact horder
  entries := h.cores
  distinct := h.distinct
  stops := by
    refine h.placed.imp ?_
    intro x y hkept hstop hfull hswitched
    apply hkept.1 hstop
    have haction := (Bool.and_eq_true_iff.mp hfull).1
    simp only [SQueueItem.isDownload, haction, hswitched, Bool.true_or, Bool.and_self]

/-- In every run of a download thread the requests match their answers. -/
theorem run_matched {server_token : String} (htoken : server_token ≠ "") (incremental_num : Nat) {es : List ThreadStep}
    (hrun : run es (new server_token incremental_num) = some t) : t.Matched :=
  ((sound_new htoken incremental_num).run hrun).matched

def exampleFile (id : Nat) (fn : String) : DlFile where
  id := id
  fn := fn
  curr_path := ""
  is_script := false
  metadata_only := false
  folder_items := 0
  script_random := 0

/-- While the file `a` is loaded, `d` is requested and `c` is switched. -/
def exampleSwitched : List ThreadStep :=
  [.addToQueueFull (exampleFile 1 "a"), .addToQueueChunked (exampleFile 2 "b"), .addToQueueChunked (exampleFile 3 "c"),
    .addToQueueStopShadowcopy "s", .addToQueueFull (exampleFile 4 "d"), .take .prepared true,
    .fillQueue (fun _ => .prepared) none, .fillQueue (fun _ => .full_dl) none]

/-- The switched file stands behind the requested one, and the stop entry behind it. -/
theorem run_matched_switched : ∃ t, run exampleSwitched (new "token" 0) = some t ∧
    t.dl_queue.map SQueueItem.seq = [1, 4, 2, 3] ∧ t.Matched := by
  have htoken : "token" ≠ "" := by decide
  have hseqs : (run exampleSwitched (new "token" 0)).map (fun t => t.dl_queue.map SQueueItem.seq) = some [1, 4, 2, 3] := by
    decide +kernel
  obtain ⟨t, hrun, hqueue⟩ := Option.map_eq_some_iff.mp hseqs
  exact ⟨t, hrun, hqueue, run_matched htoken 0 hrun⟩

/-- The request of `c` cannot be sent, and the one of `b` from the same `fillQueue` is
taken back in the queue only. -/
def exampleFailed : List ThreadStep :=
  [.addToQueueFull (exampleFile 1 "a"), .addToQueueFull (exampleFile 2 "b"), .addToQueueFull (exampleFile 3 "c"),
    .take .prepared true, .fillQueue (fun _ => .prepared) none, .fillQueue (fun _ => .prepared) (some 1)]

theorem not_run_order : ¬ ∀ (es : List ThreadStep) (t : ServerDownloadThread), run es (new "token" 0) = some t →
    (t.dl_queue.filter SQueueItem.isFullQueued).map t.toQueued = t.fc.queued := by
  intro h
  have hlengths : (run exampleFailed (new "token" 0)).map (fun t =>
      ((t.dl_queue.filter SQueueItem.isFullQueued).length, t.fc.queued.length)) = some (0, 1) := by
    decide +kernel
  obtain ⟨t, hrun, hlengths⟩ := Option.map_eq_some_iff.mp hlengths
  have horder := congrArg List.length (h exampleFailed t hrun)
  rw [List.length_map, (Prod.mk.inj hlengths).1, (Prod.mk.inj hlengths).2] at horder
  cases horder

end ServerDownloadThread

end urbackup.serverdownload
