import UrBackup.Download.QueueSize
import UrBackup.Download.ServerDownloadThreadGroup

namespace urbackup.serverdownload

open filebackup

namespace ServerDownloadThread

section Thread

variable {t t' : ServerDownloadThread}

def max_queue_size : Nat := 500

def queueSize (t : ServerDownloadThread) : Nat :=
  t.counts.queue_size

def queueFull (t : ServerDownloadThread) : Bool :=
  t.queueSize > max_queue_size

/-- The counter of a thread is the weight of its queue, as far as it fits. -/
def Counted (t : ServerDownloadThread) : Prop :=
  serverdownload.Counted t.dl_queue t.counts

/-- A script was loaded, and the request for its exit code is queued. -/
def QueuesScriptEnd (t : ServerDownloadThread) : ThreadStep → Prop
  | .loaded success _ => ∃ curr, t.worker = .loading curr ∧ success = true ∧ curr.is_script = true ∧ curr.script_end = false
  | _ => False

theorem Counted.setMinDownloaded (h : t.Counted) (id : Nat) : (t.setMinDownloaded id).Counted := by
  unfold ServerDownloadThread.setMinDownloaded
  split
  · exact serverdownload.Counted.congr h rfl rfl
  · exact h

/-- An entry that is no file comes to the queue. -/
theorem Counted.push_back (h : t.Counted) {it : SQueueItem} (hit : it.weight = 0) : (t.push_back it).Counted := by
  refine serverdownload.Counted.congr h rfl ?_
  rw [ServerDownloadThread.push_back, weight_append, weight_cons, hit, weight_nil, Nat.add_zero]

theorem Counted.addToQueueFull (h : t.Counted) (f : DlFile) : (t.addToQueueFull f).Counted := by
  refine serverdownload.Counted.add (h.setMinDownloaded f.id) ?_
  exact weight_append _ _

theorem Counted.addToQueueChunked (h : t.Counted) (f : DlFile) : (t.addToQueueChunked f).Counted := by
  refine serverdownload.Counted.add (h.setMinDownloaded f.id) ?_
  exact weight_append _ _

theorem Counted.requeueFull {todl : SQueueItem} (h : t.Counted) (haction : todl.action = .Fileclient) :
    (t.requeueFull todl).Counted := by
  have hweight : ({ todl with fileclient := .Full, queued := false, patch_dl_files := none, switched := true } : SQueueItem).weight =
      queue_items_full := by
    simp [SQueueItem.weight, SQueueItem.isFull, haction]
  unfold ServerDownloadThread.requeueFull
  refine serverdownload.Counted.add (q := t.dl_queue) ?_ ?_
  · exact serverdownload.Counted.congr h (queue_size_insertSwitched _ _ _) rfl
  · rw [weight_insertSwitched, hweight, Nat.add_comm]

theorem Counted.load_file_patch {curr : SQueueItem} (h : t.Counted) (haction : curr.action = .Fileclient) (prepare : Prepared) :
    (t.load_file_patch curr prepare).Counted := by
  unfold ServerDownloadThread.load_file_patch
  split
  · exact h
  · split
    · exact h.requeueFull haction
    · exact h
  · exact h

theorem Counted.load_file (h : t.Counted) (curr : SQueueItem) : (t.load_file curr).Counted := by
  unfold ServerDownloadThread.load_file ServerDownloadThread.request
  split
  · exact h
  · exact h

theorem Counted.handle (h : t.Counted) (curr : SQueueItem) (prepare : Prepared) (ret : Bool) :
    (t.handle curr prepare ret).Counted := by
  unfold ServerDownloadThread.handle
  split
  · next hquit =>
    have hweight : curr.weight = 0 := by simp [SQueueItem.weight, SQueueItem.isFull, SQueueItem.isChunked, hquit]
    split
    · refine serverdownload.Counted.congr h rfl ?_
      rw [weight_append, weight_cons, hweight, weight_nil, Nat.add_zero]
    · exact h
  · exact h
  · next hnot_quit hnot_skip =>
    split
    · exact h
    · split
      · exact h
      · exact h
      · next hnot_start hnot_stop =>
        have haction : curr.action = .Fileclient := by
          cases haction : curr.action with
          | Fileclient => rfl
          | Quit => exact absurd haction hnot_quit
          | Skip => exact absurd haction hnot_skip
          | StartShadowcopy => exact absurd haction hnot_start
          | StopShadowcopy => exact absurd haction hnot_stop
        split
        · exact h.load_file curr
        · exact h.load_file_patch haction prepare

/-- The worker takes the weight of what it takes. -/
theorem Counted.countTaken {curr : SQueueItem} {dl_queue : List SQueueItem} (h : t.Counted) (hqueue : t.dl_queue = curr :: dl_queue) :
    serverdownload.Counted dl_queue (t.countTaken curr) := by
  unfold Counted at h
  rw [hqueue] at h
  unfold ServerDownloadThread.countTaken
  split
  · next hfull =>
    refine h.sub (by decide) ?_
    rw [weight_cons, SQueueItem.weight, if_pos hfull, Nat.add_comm]
  · next hfull =>
    split
    · next hchunked =>
      refine h.sub (by decide) ?_
      rw [weight_cons, weight_of_chunked hchunked, Nat.add_comm]
    · next hchunked =>
      refine h.congr rfl ?_
      rw [weight_cons, SQueueItem.weight, if_neg hfull, if_neg hchunked, Nat.zero_add]

theorem weight_unqueueFirst (p : SQueueItem → Bool) (q : List SQueueItem) : weight (unqueueFirst p q) = weight q := by
  induction q with
  | nil => rfl
  | cons it q ih =>
    rw [unqueueFirst]
    split
    · rfl
    · exact congrArg (it.weight + ·) ih

theorem weight_resetQueue (p : SQueueItem → Bool) (q : List SQueueItem) :
    weight (q.map fun it => if p it then { it with queued := false } else it) = weight q := by
  induction q with
  | nil => rfl
  | cons it q ih =>
    rw [List.map_cons, weight_cons, weight_cons, ih]
    split
    · rfl
    · rfl

theorem Counted.unqueueAll {t : ServerDownloadThread} (h : t.Counted) (queued_files : List QueuedFile) :
    (unqueueAll queued_files t).Counted := by
  induction queued_files generalizing t with
  | nil => exact h
  | cons f queued_files ih =>
    refine ih ?_
    exact serverdownload.Counted.congr h rfl (weight_unqueueFirst _ _)

theorem Counted.getQueuedFileFull (h : t.Counted) (prepare : SQueueItem → Prepared) : (t.getQueuedFileFull prepare).2.Counted :=
  serverdownload.Counted.queueFull prepare h

theorem Counted.getQueuedFileChunked (h : t.Counted) (prepare : SQueueItem → Prepared) :
    (t.getQueuedFileChunked prepare).2.Counted :=
  serverdownload.Counted.retryChunked prepare (t.dl_queue.length + 1) h

theorem Counted.fillQueue (h : t.Counted) (prepare : SQueueItem → Prepared) (failed : Option Nat) :
    (t.fillQueue prepare failed).Counted := by
  have hfound := h.getQueuedFileFull prepare
  unfold ServerDownloadThread.fillQueue
  split
  · next heq =>
    rw [heq] at hfound
    exact hfound
  · next heq =>
    rw [heq] at hfound
    dsimp only
    split
    · exact hfound
    · split
      · exact hfound
      · exact hfound.unqueueAll _

theorem Counted.loaded (h : t.Counted) {curr : SQueueItem} {success ret : Bool} (hcurr : t.worker = .loading curr)
    (hscript : ¬ t.QueuesScriptEnd (.loaded success ret)) : (t.loaded curr success ret).Counted := by
  have hnot : ¬ (success && curr.is_script && !curr.script_end) = true := by
    intro hand
    simp only [Bool.and_eq_true, Bool.not_eq_true'] at hand
    exact hscript ⟨curr, hcurr, hand.1.1, hand.1.2, hand.2⟩
  unfold ServerDownloadThread.loaded
  rw [if_neg hnot]
  exact h

/-- A step keeps the counter, unless it queues the end of a script. -/
theorem Counted.step (h : t.Counted) {e : ThreadStep} (hstep : t.step e = some t') (hscript : ¬ t.QueuesScriptEnd e) : t'.Counted := by
  cases e with
  | addToQueueFull f => exact Option.some.inj hstep ▸ h.addToQueueFull f
  | addToQueueChunked f => exact Option.some.inj hstep ▸ h.addToQueueChunked f
  | addToQueueStartShadowcopy fn => exact Option.some.inj hstep ▸ h.push_back rfl
  | addToQueueStopShadowcopy fn => exact Option.some.inj hstep ▸ h.push_back rfl
  | queueStop => exact Option.some.inj hstep ▸ h.push_back rfl
  | queueSkip => exact Option.some.inj hstep ▸ serverdownload.Counted.congr h rfl (Nat.zero_add _)
  | take prepare ret =>
    rw [ServerDownloadThread.step] at hstep
    split at hstep
    · next curr dl_queue _ hqueue =>
      rw [← Option.some.inj hstep]
      refine Counted.handle ?_ curr prepare ret
      exact h.countTaken hqueue
    · cases hstep
  | fillQueue prepare failed =>
    rw [ServerDownloadThread.step] at hstep
    split at hstep
    · split at hstep
      · exact Option.some.inj hstep ▸ h.fillQueue prepare failed
      · cases hstep
    · cases hstep
  | flushFailed n =>
    rw [ServerDownloadThread.step] at hstep
    split at hstep
    · split at hstep
      · exact Option.some.inj hstep ▸ h.unqueueAll _
      · cases hstep
    · cases hstep
  | Reconnect =>
    obtain ⟨curr, -, rfl⟩ := Option.map_eq_some_iff.mp hstep
    exact serverdownload.Counted.congr h rfl (weight_resetQueue _ _)
  | getQueuedFileChunked prepare =>
    obtain ⟨curr, -, rfl⟩ := Option.map_eq_some_iff.mp hstep
    exact h.getQueuedFileChunked prepare
  | unqueueFileChunked remotefn =>
    obtain ⟨curr, -, rfl⟩ := Option.map_eq_some_iff.mp hstep
    exact serverdownload.Counted.congr h rfl (weight_unqueueFirst _ _)
  | resetQueueChunked =>
    obtain ⟨curr, -, rfl⟩ := Option.map_eq_some_iff.mp hstep
    exact serverdownload.Counted.congr h rfl (weight_resetQueue _ _)
  | loaded success ret =>
    rw [ServerDownloadThread.step] at hstep
    split at hstep
    · next curr hcurr =>
      split at hstep
      · cases hstep
      · exact Option.some.inj hstep ▸ h.loaded hcurr hscript
    · cases hstep

end Thread

/-- The next entry is a stop command that is sent. -/
def stopsShadowcopy (t : ServerDownloadThread) : ThreadStep → Bool
  | .take _ _ => t.dl_queue.head?.any (·.action = .StopShadowcopy) && !(t.is_offline || t.skipping)
  | _ => false

end ServerDownloadThread

namespace ServerDownloadThreadGroup

variable {g g' : ServerDownloadThreadGroup}

def sleepQueue (g : ServerDownloadThreadGroup) : Bool :=
  g.dl_threads.all (·.queueFull)

/-- The thread that a step is one of, and its step. -/
def target (g : ServerDownloadThreadGroup) : GroupStep → Nat × ServerDownloadThread.ThreadStep
  | .addToQueueFull queueSize f => (g.getMinQueued queueSize, .addToQueueFull f)
  | .addToQueueChunked queueSize f => (g.getMinQueued queueSize, .addToQueueChunked f)
  | .addToQueueStartShadowcopy queueSize fn => (g.getMinQueued queueSize, .addToQueueStartShadowcopy fn)
  | .addToQueueStopShadowcopy queueSize fn => (g.getMinQueued queueSize, .addToQueueStopShadowcopy fn)
  | .queueStop idx => (idx, .queueStop)
  | .queueSkip idx => (idx, .queueSkip)
  | .take idx prepare ret => (idx, .take prepare ret)
  | .fillQueue idx prepare failed => (idx, .fillQueue prepare failed)
  | .flushFailed idx n => (idx, .flushFailed n)
  | .Reconnect idx => (idx, .Reconnect)
  | .getQueuedFileChunked idx prepare => (idx, .getQueuedFileChunked prepare)
  | .unqueueFileChunked idx remotefn => (idx, .unqueueFileChunked remotefn)
  | .resetQueueChunked idx => (idx, .resetQueueChunked)
  | .loaded idx success ret => (idx, .loaded success ret)

theorem step_eq (g : ServerDownloadThreadGroup) (e : GroupStep) : g.step e = g.stepThread (g.target e).1 (g.target e).2 := by
  cases e <;> rfl

def QueuesScriptEnd (g : ServerDownloadThreadGroup) (e : GroupStep) : Prop :=
  ∃ t, g.dl_threads[(g.target e).1]? = some t ∧ t.QueuesScriptEnd (g.target e).2

def stopsShadowcopy (g : ServerDownloadThreadGroup) (e : GroupStep) : Bool :=
  g.dl_threads[(g.target e).1]?.any (·.stopsShadowcopy (g.target e).2)

def Counted (g : ServerDownloadThreadGroup) : Prop :=
  ∀ t ∈ g.dl_threads, t.Counted

theorem Counted.step (h : g.Counted) {e : GroupStep} (hstep : g.step e = some g') (hscript : ¬ g.QueuesScriptEnd e) : g'.Counted := by
  rw [step_eq, stepThread] at hstep
  split at hstep
  · cases hstep
  · next t ht =>
    split at hstep
    · cases hstep
    · next t' ht' =>
      have hshare : (g.share t).Counted := serverdownload.Counted.congr (h t (List.mem_of_getElem? ht)) rfl rfl
      have hnot : ¬ (g.share t).QueuesScriptEnd (g.target e).2 := fun hends => hscript ⟨t, ht, hends⟩
      rw [← Option.some.inj hstep]
      intro x hx
      rcases List.mem_or_eq_of_mem_set hx with hx | rfl
      · exact h x hx
      · exact hshare.step ht' hnot

end ServerDownloadThreadGroup

section Issues

/-- A stop command: the number it reports, if any, and how many issues were counted
since the one before it. -/
structure IssueReport where
  issues : Option Nat
  counted : Nat
deriving DecidableEq

/-- The issues of a thread. How many were counted since the last stop command is kept
beside what the code has. -/
structure IssueCounts where
  num_issues : Nat := 0
  last_snap_num_issues : Nat := 0
  counted : Nat := 0
  reports : List IssueReport := []
deriving DecidableEq

namespace IssueCounts

variable (c : IssueCounts)

def issue : IssueCounts :=
  { c with num_issues := (c.num_issues + 1) % 2 ^ 64, counted := c.counted + 1 }

def stop_shadowcopy (filesrv_protocol_version : Nat) : IssueCounts :=
  let add_issues := (c.last_snap_num_issues + 2 ^ 64 - c.num_issues) % 2 ^ 64
  let reports :=
    if filesrv_protocol_version > 2 then c.reports ++ [⟨if add_issues > 0 then some add_issues else none, c.counted⟩]
    else c.reports
  { c with last_snap_num_issues := c.num_issues, counted := 0, reports := reports }

/-- The reports so far are right. -/
structure Right : Prop where
  last_lt : c.last_snap_num_issues < 2 ^ 64
  num : c.num_issues = (c.last_snap_num_issues + c.counted) % 2 ^ 64
  reports : ∀ r ∈ c.reports, r.issues.getD 0 = r.counted

variable {c}

theorem Right.issue (h : c.Right) : c.issue.Right := by
  refine ⟨h.last_lt, ?_, h.reports⟩
  simp only [IssueCounts.issue, h.num]
  omega

/-- A stop command before which no issue was counted reports none. -/
theorem Right.stop_shadowcopy (h : c.Right) {version : Nat} (hnone : 2 < version → c.counted = 0) :
    (c.stop_shadowcopy version).Right := by
  refine ⟨?_, ?_, fun r hr => ?_⟩
  · have := h.num
    simp only [IssueCounts.stop_shadowcopy]
    omega
  · have := h.num
    simp only [IssueCounts.stop_shadowcopy]
    omega
  · simp only [IssueCounts.stop_shadowcopy] at hr
    split at hr
    · next hversion =>
      rcases List.mem_append.mp hr with hr | hr
      · exact h.reports r hr
      · have hnum := h.num
        have hlast := h.last_lt
        rw [hnone hversion] at hnum
        have hzero : ¬ (c.last_snap_num_issues + 2 ^ 64 - c.num_issues) % 2 ^ 64 > 0 := by omega
        rw [List.mem_singleton.mp hr, if_neg hzero, hnone hversion]
        rfl
    · exact h.reports r hr

end IssueCounts

end Issues

/-- The threads of a backup with their issues. -/
structure DownloadAccounts where
  group : ServerDownloadThreadGroup
  filesrv_protocol_version : Nat
  issues : List IssueCounts

namespace DownloadAccounts

/-- A step of the threads, or an issue that one of them counts. -/
inductive AccountStep where
  | step (e : ServerDownloadThreadGroup.GroupStep)
  | issue (idx : Nat)

variable (a : DownloadAccounts)

def step : AccountStep → Option DownloadAccounts
  | .step e =>
    match a.group.step e with
    | none => none
    | some group =>
      let issues :=
        if a.group.stopsShadowcopy e then
          a.issues.modify (a.group.target e).1 (·.stop_shadowcopy a.filesrv_protocol_version)
        else a.issues
      some { a with group := group, issues := issues }
  | .issue idx => some { a with issues := a.issues.modify idx (·.issue) }

def run : List AccountStep → DownloadAccounts → Option DownloadAccounts
  | [], a => some a
  | e :: es, a => (a.step e).bind (run es)

def new (server_token : String) (incremental_num n_threads filesrv_protocol_version : Nat) : DownloadAccounts where
  group := ServerDownloadThreadGroup.new server_token incremental_num n_threads
  filesrv_protocol_version := filesrv_protocol_version
  issues := List.replicate n_threads {}

/-- The counters of the threads are the weights that wait, and the stop commands report
the issues that were counted since the one before. -/
structure Accounted : Prop where
  queue_size : ∀ t ∈ a.group.dl_threads, t.queueSize = weight t.dl_queue
  queueFull : ∀ t ∈ a.group.dl_threads, t.queueFull = true ↔ ServerDownloadThread.max_queue_size < weight t.dl_queue
  sleepQueue : a.group.sleepQueue = true →
    ∀ t ∈ a.group.dl_threads, ServerDownloadThread.max_queue_size < weight t.dl_queue
  reports : ∀ c ∈ a.issues, ∀ r ∈ c.reports, r.issues.getD 0 = r.counted

/-- No script end is queued, no issue was counted before a stop command that would
report it, and the weights fit into the counters. -/
structure Meets (e : AccountStep) : Prop where
  fits : ∀ t ∈ a.group.dl_threads, weight t.dl_queue < 2 ^ 64
  script : ∀ e', e = .step e' → ¬ a.group.QueuesScriptEnd e'
  issue : ∀ e', e = .step e' → a.group.stopsShadowcopy e' = true → 2 < a.filesrv_protocol_version →
    ∀ c, a.issues[(a.group.target e').1]? = some c → c.counted = 0

/-- All steps of a run are so. -/
def AllMeet : List AccountStep → DownloadAccounts → Prop
  | [], a => ∀ t ∈ a.group.dl_threads, weight t.dl_queue < 2 ^ 64
  | e :: es, a => a.Meets e ∧ ∀ a', a.step e = some a' → AllMeet es a'

variable {a}

structure Sound (a : DownloadAccounts) : Prop where
  counted : a.group.Counted
  right : ∀ c ∈ a.issues, c.Right

theorem right_modify {issues : List IssueCounts} (h : ∀ c ∈ issues, c.Right) (idx : Nat) {f : IssueCounts → IssueCounts}
    (hf : ∀ c, issues[idx]? = some c → (f c).Right) : ∀ c ∈ issues.modify idx f, c.Right := by
  intro c hc
  obtain ⟨i, hi⟩ := List.mem_iff_getElem?.mp hc
  rw [List.getElem?_modify] at hi
  obtain ⟨c', hc', rfl⟩ := Option.map_eq_some_iff.mp hi
  split
  · next heq => exact hf c' (heq ▸ hc')
  · exact h c' (List.mem_of_getElem? hc')

theorem Sound.step (h : Sound a) {a' : DownloadAccounts} {e : AccountStep} (hstep : a.step e = some a') (hmeets : a.Meets e) :
    Sound a' := by
  cases e with
  | step e =>
    rw [DownloadAccounts.step] at hstep
    split at hstep
    · cases hstep
    · next group hgroup =>
      rw [← Option.some.inj hstep]
      refine ⟨h.counted.step hgroup (hmeets.script e rfl), ?_⟩
      dsimp only
      split
      · next hstop =>
        refine right_modify h.right _ fun c hc => ?_
        exact (h.right c (List.mem_of_getElem? hc)).stop_shadowcopy fun hversion => hmeets.issue e rfl hstop hversion c hc
      · exact h.right
  | issue idx =>
    rw [← Option.some.inj hstep]
    exact ⟨h.counted, right_modify h.right _ fun c hc => (h.right c (List.mem_of_getElem? hc)).issue⟩

theorem Sound.accounted (h : Sound a) (hfits : ∀ t ∈ a.group.dl_threads, weight t.dl_queue < 2 ^ 64) : a.Accounted := by
  have hsize : ∀ t ∈ a.group.dl_threads, t.queueSize = weight t.dl_queue := fun t ht => (h.counted t ht).eq (hfits t ht)
  have hfull : ∀ t ∈ a.group.dl_threads, t.queueFull = true ↔ ServerDownloadThread.max_queue_size < weight t.dl_queue := by
    intro t ht
    rw [ServerDownloadThread.queueFull, decide_eq_true_eq, hsize t ht]
  refine ⟨hsize, hfull, fun hsleep t ht => ?_, fun c hc => (h.right c hc).reports⟩
  rw [ServerDownloadThreadGroup.sleepQueue, List.all_eq_true] at hsleep
  exact (hfull t ht).mp (hsleep t ht)

theorem sound_new (server_token : String) (incremental_num n_threads version : Nat) :
    Sound (new server_token incremental_num n_threads version) := by
  constructor
  · intro t ht
    rw [List.eq_of_mem_replicate ht]
    rfl
  · intro c hc
    rw [List.eq_of_mem_replicate hc]
    exact ⟨by decide, rfl, fun r hr => nomatch hr⟩

theorem Sound.run (h : Sound a) {es : List AccountStep} {a' : DownloadAccounts} (hrun : a.run es = some a') (hmeet : AllMeet es a) :
    a'.Accounted := by
  induction es generalizing a with
  | nil => exact Option.some.inj hrun ▸ h.accounted hmeet
  | cons e es ih =>
    obtain ⟨a₁, hstep, hrest⟩ := Option.bind_eq_some_iff.mp hrun
    exact ih (h.step hstep hmeet.1) hrest (hmeet.2 a₁ hstep)

/-- Along a run without script ends and without issues that are to be reported, the
counters are right in every state. -/
theorem accounted_run {server_token : String} {incremental_num n_threads version : Nat} {es : List AccountStep}
    {a : DownloadAccounts} (hrun : (new server_token incremental_num n_threads version).run es = some a)
    (hmeet : AllMeet es (new server_token incremental_num n_threads version)) : a.Accounted :=
  (sound_new server_token incremental_num n_threads version).run hrun hmeet

/-- The file or script `f`. -/
def exampleFile (is_script : Bool) : ServerDownloadThread.DlFile :=
  ⟨0, "f", "", is_script, false, 0, 0⟩

theorem AllMeet.cons {a' : DownloadAccounts} {e : ServerDownloadThreadGroup.GroupStep} {es : List AccountStep}
    (hfits : ∀ t ∈ a.group.dl_threads, weight t.dl_queue < 2 ^ 64) (hscript : ¬ a.group.QueuesScriptEnd e)
    (hissue : ∀ c ∈ a.issues, c.counted = 0) (hstep : a.step (.step e) = some a') (h : AllMeet es a') : AllMeet (.step e :: es) a := by
  refine ⟨⟨hfits, ?_, fun _ _ _ _ c hc => hissue c (List.mem_of_getElem? hc)⟩,
    fun _ hnext => Option.some.inj (hstep.symm.trans hnext) ▸ h⟩
  rintro _ ⟨⟩
  exact hscript

/-- A stop command is sent, and a chunked item is switched. -/
def exampleRun : List AccountStep :=
  [.step (.addToQueueStopShadowcopy id "f"), .step (.take 0 .prepared true), .step (.addToQueueChunked id (exampleFile false)),
    .step (.take 0 .full_dl true)]

theorem accounted_run_stop : ∃ a, (new "" 0 1 3).run exampleRun = some a ∧ a.issues.map (·.reports) = [[⟨none, 0⟩]] ∧ a.Accounted := by
  have hmeet : AllMeet exampleRun (new "" 0 1 3) := by
    refine .cons (by decide +kernel) (fun ⟨_, _, h⟩ => h) (by decide +kernel) rfl ?_
    refine .cons (by decide +kernel) (fun ⟨_, _, h⟩ => h) (by decide +kernel) rfl ?_
    refine .cons (by decide +kernel) (fun ⟨_, _, h⟩ => h) (by decide +kernel) rfl ?_
    refine .cons (by decide +kernel) (fun ⟨_, _, h⟩ => h) (by decide +kernel) rfl ?_
    change ∀ t ∈ _, _
    decide +kernel
  exact ⟨_, rfl, by decide +kernel, accounted_run rfl hmeet⟩

/-- A script, whose end is queued without its weight and taken with it. -/
def scriptEndRun : List AccountStep :=
  [.step (.addToQueueFull id (exampleFile true)), .step (.take 0 .prepared true), .step (.loaded 0 true true),
   .step (.take 0 .prepared true)]

/-- One issue, and a stop command that reports it. -/
def issueRun : List AccountStep :=
  [.step (.addToQueueFull id (exampleFile false)), .step (.addToQueueStopShadowcopy id "f"), .step (.take 0 .prepared true), .issue 0,
   .step (.loaded 0 false true), .step (.take 0 .prepared true)]

/-- The counter of the empty queue wraps, and so does the number of issues. -/
theorem not_accounted : (∃ a, (new "" 0 1 3).run scriptEndRun = some a ∧ a.group.dl_threads.map (·.dl_queue) = [[]] ∧
      a.group.dl_threads.map (·.queueSize) = [2 ^ 64 - 1] ∧ a.group.sleepQueue = true ∧ ¬ a.Accounted) ∧
    ∃ a, (new "" 0 1 3).run issueRun = some a ∧ a.issues.map (·.reports) = [[⟨some (2 ^ 64 - 1), 1⟩]] ∧ ¬ a.Accounted := by
  refine ⟨⟨_, rfl, rfl, rfl, by decide, fun h => ?_⟩, ⟨_, rfl, by decide, fun h => ?_⟩⟩
  · exact absurd (h.queue_size _ List.mem_cons_self) (by decide)
  · exact absurd (h.reports _ List.mem_cons_self _ List.mem_cons_self) (by decide)

end DownloadAccounts

end urbackup.serverdownload
