import UrBackup.Download.ServerDownloadThreadGroup

namespace urbackup.serverdownload

namespace Trace

/-- The entry that something is done with. -/
def item : Trace → SQueueItem
  | .start_shadowcopy it => it
  | .stop_shadowcopy it => it
  | .load it => it
  | .done it => it

end Trace

namespace ServerDownloadThread

variable {t t' : ServerDownloadThread} {curr : SQueueItem}

/-- What the worker of a thread has done with the start and stop entries. -/
structure Told (t : ServerDownloadThread) : Prop where
  done : ∀ x, Trace.done x ∈ t.trace → x.isStart = true → t.is_offline = true ∨ t.skipping = true
  start : ∀ x, Trace.start_shadowcopy x ∈ t.trace → x.action = .StartShadowcopy
  stop : ∀ x, Trace.stop_shadowcopy x ∈ t.trace → x.action = .StopShadowcopy
  hand : ∀ x ∈ t.inHand, x.action = .Fileclient

theorem told_new (server_token : String) (incremental_num : Nat) : (new server_token incremental_num).Told where
  done _ hx := nomatch hx
  start _ hx := nomatch hx
  stop _ hx := nomatch hx
  hand _ hx := nomatch hx

/-- A step that the worker has no part in, with the entries it queues. -/
structure Silent (t t' : ServerDownloadThread) (added : List SQueueItem) : Prop where
  trace : t'.trace = t.trace
  worker : t'.worker = t.worker
  is_offline : t'.is_offline = t.is_offline
  skipping : t'.skipping = t.skipping
  issued : t'.issued = t.issued ++ added
  seqs : t.seqs ≤ t'.seqs

theorem Silent.told {added : List SQueueItem} (h : Silent t t' added) (ht : t.Told) : t'.Told where
  done := by
    rw [h.trace, h.is_offline, h.skipping]
    exact ht.done
  start := by
    rw [h.trace]
    exact ht.start
  stop := by
    rw [h.trace]
    exact ht.stop
  hand := by
    have hhand : t'.inHand = t.inHand := by
      unfold inHand
      rw [h.worker]
    rw [hhand]
    exact ht.hand

/-- What holds where the worker does something. -/
def EventOk (t : ServerDownloadThread) : Trace → Prop
  | .stop_shadowcopy it => ∀ f ∈ t.issued, f.IsFile → f.seq < it.seq → OverIn t.trace f
  | .load f => f.IsFile → ∀ b ∈ t.issued, b.isStart = true → b.seq < f.seq → StartedIn t.trace b
  | _ => True

/-- The entries a step queues. -/
def Entry : ThreadStep → SQueueItem → Prop
  | .addToQueueFull f, x => x.action = .Fileclient ∧ x.fn = f.fn ∧ x.curr_path = f.curr_path
  | .addToQueueChunked f, x => x.action = .Fileclient ∧ x.fn = f.fn ∧ x.curr_path = f.curr_path
  | .addToQueueStopShadowcopy fn, x => x.action = .StopShadowcopy ∧ x.fn = fn
  | _, x => ¬ x.IsFile ∧ x.action ≠ .StopShadowcopy

/-- A step of a thread, for the others. -/
structure Facts (t t' : ServerDownloadThread) (e : ThreadStep) : Prop where
  told : t'.Told
  trace : ∃ new : Option Trace, t'.trace = t.trace ++ new.toList ∧
    ∀ ev ∈ new, t.EventOk ev ∧ ∃ it ∈ t.issued, it.core = ev.item.core
  issued : ∃ added, t'.issued = t.issued ++ added ∧ ∀ x ∈ added, x.seq = t.seqs ∧ Entry e x
  seqs : t.seqs ≤ t'.seqs

theorem Silent.facts {added : List SQueueItem} {e : ThreadStep} (h : Silent t t' added) (ht : t.Told)
    (hadded : ∀ x ∈ added, x.seq = t.seqs ∧ Entry e x) : Facts t t' e where
  told := h.told ht
  trace := ⟨none, by rw [h.trace]; exact (List.append_nil _).symm, fun _ hev => nomatch hev⟩
  issued := ⟨added, h.issued, hadded⟩
  seqs := h.seqs

theorem Silent.facts_nil {e : ThreadStep} (h : Silent t t' []) (ht : t.Told) : Facts t t' e :=
  h.facts ht fun _ hx => nomatch hx

section Silent

theorem silent_push_back (t : ServerDownloadThread) (it : SQueueItem) : Silent t (t.push_back it) [it] :=
  ⟨rfl, rfl, rfl, rfl, rfl, Nat.le_succ _⟩

theorem silent_counts (t : ServerDownloadThread) (counts : DlCounts) : Silent t { t with counts := counts } [] :=
  ⟨rfl, rfl, rfl, rfl, (List.append_nil _).symm, Nat.le_refl _⟩

theorem Silent.trans {a b : List SQueueItem} {u : ServerDownloadThread} (h : Silent t t' a) (h' : Silent t' u b) :
    Silent t u (a ++ b) where
  trace := h'.trace.trans h.trace
  worker := h'.worker.trans h.worker
  is_offline := h'.is_offline.trans h.is_offline
  skipping := h'.skipping.trans h.skipping
  issued := by rw [h'.issued, h.issued, List.append_assoc]
  seqs := Nat.le_trans h.seqs h'.seqs

theorem silent_setMinDownloaded (t : ServerDownloadThread) (id : Nat) : Silent t (t.setMinDownloaded id) [] := by
  unfold setMinDownloaded
  split
  · exact silent_counts t _
  · exact silent_counts t t.counts

theorem silent_queue (t : ServerDownloadThread) (q : List SQueueItem) (counts : DlCounts) (fc : FileClient) :
    Silent t { t with dl_queue := q, counts := counts, fc := fc } [] :=
  ⟨rfl, rfl, rfl, rfl, (List.append_nil _).symm, Nat.le_refl _⟩

theorem silent_unqueueAll (fs : List QueuedFile) (t : ServerDownloadThread) : Silent t (unqueueAll fs t).sendFailed [] := by
  obtain ⟨q, heq, -⟩ := unqueueAll_same fs t
  rw [heq]
  exact silent_queue t q t.counts _

theorem silent_fillQueue (t : ServerDownloadThread) (prepare : SQueueItem → Prepared) (failed : Option Nat) :
    Silent t (t.fillQueue prepare failed) [] := by
  unfold fillQueue getQueuedFileFull
  dsimp only
  split
  · next u hout =>
    obtain ⟨-, rfl⟩ := Prod.mk.inj hout
    exact silent_queue t _ _ t.fc
  · next it u hout =>
    obtain ⟨-, rfl⟩ := Prod.mk.inj hout
    split
    · exact silent_queue t _ _ t.fc
    · split
      · exact silent_queue t _ _ _
      · exact (silent_queue t _ _ t.fc).trans (silent_unqueueAll _ _)

end Silent

section Take

variable {q : List SQueueItem}

theorem Sound.mem_issued (h : t.Sound) {it : SQueueItem} (hit : it ∈ t.taken ++ t.inHand ++ t.dl_queue) :
    ∃ x ∈ t.issued, x.core = it.core :=
  List.mem_map.mp (h.cores.mem_iff.mp (List.mem_map_of_mem hit))

theorem seq_of_core {x y : SQueueItem} (h : x.core = y.core) : x.seq = y.seq := by
  have hseq : x.core.seq = y.core.seq := by rw [h]
  exact hseq

theorem action_of_core {x y : SQueueItem} (h : x.core = y.core) : x.action = y.action := by
  have haction : x.core.action = y.core.action := by rw [h]
  exact haction

theorem isFile_of_core {x y : SQueueItem} (h : x.core = y.core) (hy : y.IsFile) : x.IsFile := by
  have hend : x.core.script_end = y.core.script_end := by rw [h]
  exact ⟨(action_of_core h).trans hy.1, hend.trans hy.2⟩

theorem isDownload_of_isFile {x : SQueueItem} (h : x.IsFile) : x.isDownload = true := by
  simp [SQueueItem.isDownload, h.1, h.2]

/-- An entry that was queued is the one that was taken, behind it, or the worker is
done with it. -/
theorem Sound.issued_cases (h : t.Sound) (hidle : t.worker = .idle) (hq : t.dl_queue = curr :: q) {f : SQueueItem}
    (hf : f ∈ t.issued) : (∃ x ∈ t.taken, x.core = f.core) ∨ curr.core = f.core ∨ ∃ x ∈ q, x.core = f.core := by
  have hmem := (idle_cores h hidle hq).mem_iff.mpr (List.mem_map_of_mem hf)
  obtain ⟨x, hx, heq⟩ := List.mem_map.mp hmem
  simp only [List.mem_append, List.mem_singleton] at hx
  rcases hx with (hx | rfl) | hx
  · exact Or.inl ⟨x, hx, heq⟩
  · exact Or.inr (Or.inl heq)
  · exact Or.inr (Or.inr ⟨x, hx, heq⟩)

/-- How the worker was done with an entry. -/
theorem Told.taken_cases (h : t.Told) {x : SQueueItem} (hx : x ∈ t.taken) :
    (Trace.start_shadowcopy x ∈ t.trace ∧ x.action = .StartShadowcopy) ∨
      (Trace.stop_shadowcopy x ∈ t.trace ∧ x.action = .StopShadowcopy) ∨ Trace.done x ∈ t.trace := by
  obtain ⟨ev, hev, htaken⟩ := List.mem_filterMap.mp hx
  cases ev with
  | start_shadowcopy it =>
    obtain rfl := Option.some.inj htaken
    exact Or.inl ⟨hev, h.start it hev⟩
  | stop_shadowcopy it =>
    obtain rfl := Option.some.inj htaken
    exact Or.inr (Or.inl ⟨hev, h.stop it hev⟩)
  | load it => cases htaken
  | done it =>
    obtain rfl := Option.some.inj htaken
    exact Or.inr (Or.inr hev)

theorem stop_ok (h : t.Sound) (ht : t.Told) (hidle : t.worker = .idle) (hq : t.dl_queue = curr :: q)
    (hstop : curr.action = .StopShadowcopy) : t.EventOk (.stop_shadowcopy curr) := by
  intro f hf hfile hlt
  rcases h.issued_cases hidle hq hf with ⟨x, hx, heq⟩ | heq | ⟨x, hx, heq⟩
  · have hfile := isFile_of_core heq hfile
    rcases ht.taken_cases hx with ⟨-, haction⟩ | ⟨-, haction⟩ | hover
    · exact nomatch hfile.1.symm.trans haction
    · exact nomatch hfile.1.symm.trans haction
    · exact ⟨x, hover, heq⟩
  · exact nomatch hfile.1.symm.trans ((action_of_core heq).symm.trans hstop)
  · have hplaced := h.placed
    rw [hq] at hplaced
    have hquit : curr.isQuitStop = true := by simp [SQueueItem.isQuitStop, hstop]
    have hbehind := ((List.pairwise_cons.mp hplaced).1 x hx).1 hquit (isDownload_of_isFile (isFile_of_core heq hfile))
    rw [seq_of_core heq] at hbehind
    exact absurd hlt (Nat.lt_asymm hbehind)

theorem load_ok (h : t.Sound) (ht : t.Told) (hidle : t.worker = .idle) (hq : t.dl_queue = curr :: q)
    (hoffline : t.is_offline = false) (hskipping : t.skipping = false) : t.EventOk (.load curr) := by
  intro hfile b hb hstart hlt
  have haction : b.action = .StartShadowcopy := by simpa [SQueueItem.isStart] using hstart
  rcases h.issued_cases hidle hq hb with ⟨x, hx, heq⟩ | heq | ⟨x, hx, heq⟩
  · have hxstart := (action_of_core heq).trans haction
    rcases ht.taken_cases hx with ⟨hstarted, -⟩ | ⟨-, hstop⟩ | hover
    · exact ⟨x, hstarted, heq⟩
    · cases hxstart.symm.trans hstop
    · rcases ht.done x hover (by simp [SQueueItem.isStart, hxstart]) with hdown | hdown
      · rw [hoffline] at hdown
        cases hdown
      · rw [hskipping] at hdown
        cases hdown
  · cases hfile.1.symm.trans ((action_of_core heq).trans haction)
  · have hplaced := h.placed
    rw [hq] at hplaced
    have hxstart : x.isStart = true := by simp [SQueueItem.isStart, action_of_core heq, haction]
    have hbehind := ((List.pairwise_cons.mp hplaced).1 x hx).2 (isDownload_of_isFile hfile) hxstart
    rw [seq_of_core heq] at hbehind
    exact absurd hlt (Nat.lt_asymm hbehind)

/-- The worker does something with the entry it took. -/
theorem facts_take {e : ThreadStep} (ev : Trace) (h : t.Sound) (hq : t.dl_queue = curr :: q) (hitem : ev.item = curr)
    (hok : t.EventOk ev) (htrace : t'.trace = t.trace ++ [ev]) (hissued : t'.issued = t.issued) (hseqs : t'.seqs = t.seqs)
    (htold : t'.Told) : Facts t t' e where
  told := htold
  trace := by
    refine ⟨some ev, htrace, ?_⟩
    intro x hx
    obtain rfl := Option.some.inj hx
    refine ⟨hok, ?_⟩
    rw [hitem]
    apply h.mem_issued
    rw [hq]
    exact List.mem_append_right _ List.mem_cons_self
  issued := ⟨[], by rw [hissued, List.append_nil], fun _ hx => nomatch hx⟩
  seqs := Nat.le_of_eq hseqs.symm

theorem mem_concat_trace {tr : List Trace} {ev x : Trace} (h : x ∈ tr ++ [ev]) : x ∈ tr ∨ x = ev := by
  rcases List.mem_append.mp h with h | h
  · exact Or.inl h
  · exact Or.inr (List.mem_singleton.mp h)

/-- The thread may only go offline and start to skip. -/
theorem Told.next (h : t.Told) (ev : Trace) (htrace : t'.trace = t.trace ++ [ev])
    (hoffline : t.is_offline = true → t'.is_offline = true) (hskipping : t.skipping = true → t'.skipping = true)
    (hover : ∀ x, ev = .done x → x.isStart = true → t'.is_offline = true ∨ t'.skipping = true)
    (hstart : ∀ x, ev = .start_shadowcopy x → x.action = .StartShadowcopy)
    (hstop : ∀ x, ev = .stop_shadowcopy x → x.action = .StopShadowcopy)
    (hhand : ∀ x ∈ t'.inHand, x.action = .Fileclient) : t'.Told where
  done x hx hxstart := by
    rw [htrace] at hx
    rcases mem_concat_trace hx with hx | hx
    · exact (h.done x hx hxstart).imp hoffline hskipping
    · exact hover x hx.symm hxstart
  start x hx := by
    rw [htrace] at hx
    rcases mem_concat_trace hx with hx | hx
    · exact h.start x hx
    · exact hstart x hx.symm
  stop x hx := by
    rw [htrace] at hx
    rcases mem_concat_trace hx with hx | hx
    · exact h.stop x hx
    · exact hstop x hx.symm
  hand := hhand

section Facts

variable (h : t.Sound) (ht : t.Told) (hidle : t.worker = .idle) (hq : t.dl_queue = curr :: q)

include h ht hidle hq

/-- The worker is done with the entry it took. -/
theorem facts_over {e : ThreadStep}
    (htrace : t'.trace = t.trace ++ [.done curr]) (hissued : t'.issued = t.issued) (hseqs : t'.seqs = t.seqs)
    (hworker : t'.worker = t.worker ∨ t'.worker = .stopped)
    (hoffline : t.is_offline = true → t'.is_offline = true) (hskipping : t.skipping = true → t'.skipping = true)
    (hstart : curr.isStart = true → t'.is_offline = true ∨ t'.skipping = true) : Facts t t' e := by
  apply facts_take (.done curr) h hq rfl trivial htrace hissued hseqs
  apply ht.next (.done curr) htrace hoffline hskipping
  · intro x hx hxstart
    obtain rfl := Trace.done.inj hx
    exact hstart hxstart
  · intro x hx
    cases hx
  · intro x hx
    cases hx
  · intro x hx
    rw [inHand] at hx
    rcases hworker with hworker | hworker
    · rw [hworker, hidle] at hx
      cases hx
    · rw [hworker] at hx
      cases hx

theorem facts_load {e : ThreadStep}
    (haction : curr.action = .Fileclient) (hoffline : t.is_offline = false) (hskipping : t.skipping = false)
    (counts : DlCounts) (fc : FileClient) :
    Facts t { t with dl_queue := q, counts := counts, fc := fc, trace := t.trace ++ [.load curr], worker := .loading curr } e := by
  have hok := load_ok h ht hidle hq hoffline hskipping
  refine facts_take (.load curr) h hq rfl hok ?_ ?_ ?_ ?_
  · rfl
  · rfl
  · rfl
  refine ht.next (.load curr) rfl (fun ho => ho) (fun hs => hs) ?_ ?_ ?_ ?_
  · intro x hx
    cases hx
  · intro x hx
    cases hx
  · intro x hx
    cases hx
  · intro x hx
    rw [List.mem_singleton.mp hx]
    exact haction

theorem facts_shadowcopy {e : ThreadStep} {ev : Trace} (hev : (ev = .start_shadowcopy curr ∧ curr.action = .StartShadowcopy) ∨
      (ev = .stop_shadowcopy curr ∧ curr.action = .StopShadowcopy)) (counts : DlCounts) (ret : Bool) :
    Facts t (setOffline (emit { t with dl_queue := q, counts := counts } ev) ret) e := by
  have hitem : ev.item = curr ∧ t.EventOk ev := by
    rcases hev with ⟨rfl, -⟩ | ⟨rfl, hstop⟩
    · exact ⟨rfl, trivial⟩
    · exact ⟨rfl, stop_ok h ht hidle hq hstop⟩
  refine facts_take ev h hq hitem.1 hitem.2 ?_ ?_ ?_ ?_
  · rfl
  · rfl
  · rfl
  refine ht.next ev rfl ?_ ?_ ?_ ?_ ?_ ?_
  · intro hoffline
    simp [setOffline, emit, hoffline]
  · exact fun hskipping => hskipping
  · intro x hx
    rcases hev with ⟨rfl, -⟩ | ⟨rfl, -⟩
    · cases hx
    · cases hx
  · intro x hx
    rcases hev with ⟨rfl, hstart⟩ | ⟨rfl, -⟩
    · obtain rfl := Trace.start_shadowcopy.inj hx
      exact hstart
    · cases hx
  · intro x hx
    rcases hev with ⟨rfl, -⟩ | ⟨rfl, hstop⟩
    · cases hx
    · obtain rfl := Trace.stop_shadowcopy.inj hx
      exact hstop
  · intro x hx
    change x ∈ t.inHand at hx
    exact ht.hand x hx

end Facts

theorem request_eq (t : ServerDownloadThread) (curr : SQueueItem) : ∃ fc, t.request curr = { t with fc := fc } := by
  unfold request
  split
  · exact ⟨t.fc, rfl⟩
  · exact ⟨_, rfl⟩

theorem facts_handle {e : ThreadStep} (h : t.Sound) (ht : t.Told) (hidle : t.worker = .idle) (hq : t.dl_queue = curr :: q)
    (counts : DlCounts) (prepare : Prepared) (ret : Bool) :
    Facts t (handle { t with dl_queue := q, counts := counts } curr prepare ret) e := by
  unfold handle
  split
  · next haction =>
    split
    · exact (silent_queue t _ counts t.fc).facts_nil ht
    · refine facts_over h ht hidle hq rfl rfl rfl (Or.inr rfl) (fun ho => ho) (fun hs => hs) ?_
      intro hstart
      simp [SQueueItem.isStart, haction] at hstart
  · exact facts_over h ht hidle hq rfl rfl rfl (Or.inl rfl) (fun ho => ho) (fun _ => rfl) (fun _ => Or.inr rfl)
  · split
    · next hdown =>
      refine facts_over h ht hidle hq rfl rfl rfl (Or.inl rfl) (fun ho => ho) (fun hs => hs) ?_
      intro _
      exact Bool.or_eq_true_iff.mp hdown
    · next hup =>
      change ¬ (t.is_offline || t.skipping) = true at hup
      simp only [Bool.or_eq_true, not_or, Bool.not_eq_true] at hup
      obtain ⟨hoffline, hskipping⟩ := hup
      split
      · next haction => exact facts_shadowcopy h ht hidle hq (Or.inl ⟨rfl, haction⟩) counts ret
      · next haction => exact facts_shadowcopy h ht hidle hq (Or.inr ⟨rfl, haction⟩) counts ret
      · next hquit hskip _ hstart hstop =>
        have haction : curr.action = .Fileclient := by
          cases hcase : curr.action with
          | Fileclient => rfl
          | Quit => exact absurd hcase hquit
          | StopShadowcopy => exact absurd hcase hstop
          | StartShadowcopy => exact absurd hcase hstart
          | Skip => exact absurd hcase hskip
        split
        · obtain ⟨fc, hfc⟩ := request_eq { t with dl_queue := q, counts := counts } curr
          unfold load_file
          rw [hfc]
          exact facts_load h ht hidle hq haction hoffline hskipping counts fc
        · have herror : Facts t (setOffline (emit { t with dl_queue := q, counts := counts } (.done curr)) false) e := by
            refine facts_over h ht hidle hq rfl rfl rfl (Or.inl rfl) ?_ (fun hs => hs) ?_
            · intro _
              simp [setOffline]
            · intro _
              simp [setOffline]
          unfold load_file_patch
          split
          · exact facts_load h ht hidle hq haction hoffline hskipping counts t.fc
          · split
            · exact (silent_queue t _ _ t.fc).facts_nil ht
            · exact herror
          · exact herror

end Take

/-- The worker is done with the file it has loaded, after `added` was queued. -/
theorem facts_loaded {e : ThreadStep} (h : t.Sound) (ht : t.Told) (hworker : t.worker = .loading curr)
    {u : ServerDownloadThread} {added : List SQueueItem} (hsilent : Silent t u added)
    (hadded : ∀ x ∈ added, x.seq = t.seqs ∧ Entry e x) (ret : Bool) :
    Facts t { setOffline (emit u (.done curr)) ret with worker := .idle } e where
  told := by
    refine (hsilent.told ht).next (.done curr) rfl ?_ ?_ ?_ ?_ ?_ ?_
    · intro hoffline
      simp [setOffline, emit, hoffline]
    · exact fun hskipping => hskipping
    · intro x hx hstart
      obtain rfl := Trace.done.inj hx
      have hfile := ht.hand curr (by rw [inHand, hworker]; exact List.mem_cons_self)
      simp [SQueueItem.isStart, hfile] at hstart
    · intro x hx
      cases hx
    · intro x hx
      cases hx
    · intro x hx
      cases hx
  trace := by
    refine ⟨some (.done curr), ?_, ?_⟩
    · change u.trace ++ [.done curr] = _
      rw [hsilent.trace]
      rfl
    · intro ev hev
      obtain rfl := Option.some.inj hev
      refine ⟨trivial, h.mem_issued ?_⟩
      rw [inHand, hworker]
      exact List.mem_append_left _ (List.mem_append_right _ List.mem_cons_self)
  issued := ⟨added, hsilent.issued, hadded⟩
  seqs := hsilent.seqs

theorem step_facts (h : t.Sound) (ht : t.Told) {e : ThreadStep} (hstep : t.step e = some t') : Facts t t' e := by
  cases e with
  | addToQueueFull f =>
    obtain rfl := Option.some.inj hstep
    refine (((silent_setMinDownloaded t f.id).trans (silent_push_back _ _)).trans (silent_counts _ _)).facts ht ?_
    intro x hx
    rw [List.append_nil, List.nil_append, List.mem_singleton] at hx
    rw [hx]
    exact ⟨rfl, rfl, rfl, rfl⟩
  | addToQueueChunked f =>
    obtain rfl := Option.some.inj hstep
    refine (((silent_setMinDownloaded t f.id).trans (silent_push_back _ _)).trans (silent_counts _ _)).facts ht ?_
    intro x hx
    rw [List.append_nil, List.nil_append, List.mem_singleton] at hx
    rw [hx]
    exact ⟨rfl, rfl, rfl, rfl⟩
  | addToQueueStartShadowcopy fn =>
    obtain rfl := Option.some.inj hstep
    refine (silent_push_back t _).facts ht ?_
    intro x hx
    rw [List.mem_singleton.mp hx]
    exact ⟨rfl, (fun hfile => by cases hfile.1), (fun haction => by cases haction)⟩
  | addToQueueStopShadowcopy fn =>
    obtain rfl := Option.some.inj hstep
    refine (silent_push_back t _).facts ht ?_
    intro x hx
    rw [List.mem_singleton.mp hx]
    exact ⟨rfl, rfl, rfl⟩
  | queueStop =>
    obtain rfl := Option.some.inj hstep
    refine (silent_push_back t _).facts ht ?_
    intro x hx
    rw [List.mem_singleton.mp hx]
    exact ⟨rfl, (fun hfile => by cases hfile.1), (fun haction => by cases haction)⟩
  | queueSkip =>
    obtain rfl := Option.some.inj hstep
    have hsilent : Silent t t.queueSkip [{ SQueueItem.new t.seqs with action := .Skip }] :=
      ⟨rfl, rfl, rfl, rfl, rfl, Nat.le_succ _⟩
    refine hsilent.facts ht ?_
    intro x hx
    rw [List.mem_singleton.mp hx]
    exact ⟨rfl, (fun hfile => by cases hfile.1), (fun haction => by cases haction)⟩
  | take prepare ret =>
    simp only [step] at hstep
    split at hstep
    · next curr q hidle hq =>
      obtain rfl := Option.some.inj hstep
      exact facts_handle h ht hidle hq _ prepare ret
    · cases hstep
  | fillQueue prepare failed =>
    simp only [step] at hstep
    split at hstep
    · split at hstep
      · obtain rfl := Option.some.inj hstep
        exact (silent_fillQueue t prepare failed).facts_nil ht
      · cases hstep
    · cases hstep
  | flushFailed n =>
    simp only [step] at hstep
    split at hstep
    · split at hstep
      · obtain rfl := Option.some.inj hstep
        exact (silent_unqueueAll _ t).facts_nil ht
      · cases hstep
    · cases hstep
  | Reconnect =>
    obtain ⟨curr, -, rfl⟩ := Option.map_eq_some_iff.mp hstep
    exact (silent_queue t _ t.counts _).facts_nil ht
  | getQueuedFileChunked prepare =>
    obtain ⟨curr, -, rfl⟩ := Option.map_eq_some_iff.mp hstep
    exact (silent_queue t _ _ t.fc).facts_nil ht
  | unqueueFileChunked remotefn =>
    obtain ⟨curr, -, rfl⟩ := Option.map_eq_some_iff.mp hstep
    exact (silent_queue t _ t.counts t.fc).facts_nil ht
  | resetQueueChunked =>
    obtain ⟨curr, -, rfl⟩ := Option.map_eq_some_iff.mp hstep
    exact (silent_queue t _ t.counts t.fc).facts_nil ht
  | loaded success ret =>
    simp only [step] at hstep
    split at hstep
    · next curr hworker =>
      split at hstep
      · cases hstep
      · obtain rfl := Option.some.inj hstep
        unfold loaded
        dsimp only
        split
        · have hsilent : Silent t (t.queueScriptEnd curr) [{ SQueueItem.new t.seqs with
              fn := curr.fn, curr_path := curr.curr_path, is_script := true, script_end := true,
              script_random := curr.script_random }] := ⟨rfl, rfl, rfl, rfl, rfl, Nat.le_succ _⟩
          refine facts_loaded h ht hworker hsilent ?_ _
          intro x hx
          rw [List.mem_singleton.mp hx]
          exact ⟨rfl, (fun hfile => by cases hfile.2), (fun haction => by cases haction)⟩
        · exact facts_loaded h ht hworker (silent_counts t t.counts) (fun _ hx => by cases hx) _
    · cases hstep

end ServerDownloadThread

namespace ServerDownloadThreadGroup

open ServerDownloadThread (ThreadStep Entry Facts)

variable {g g' : ServerDownloadThreadGroup}

theorem OverIn.mono {tr : List Trace} {f : SQueueItem} (h : OverIn tr f) (new : List Trace) : OverIn (tr ++ new) f := by
  obtain ⟨x, hx, heq⟩ := h
  exact ⟨x, List.mem_append_left _ hx, heq⟩

theorem StartedIn.mono {tr : List Trace} {b : SQueueItem} (h : StartedIn tr b) (new : List Trace) :
    StartedIn (tr ++ new) b := by
  obtain ⟨x, hx, heq⟩ := h
  exact ⟨x, List.mem_append_left _ hx, heq⟩

/-- The threads, with what the entries on different threads need of each other. -/
structure Safe (g : ServerDownloadThreadGroup) : Prop where
  sound : ∀ t ∈ g.dl_threads, t.Sound
  told : ∀ t ∈ g.dl_threads, t.Told
  seqs : ∀ t ∈ g.dl_threads, t.seqs ≤ g.seqs
  traces : ∀ t ∈ g.dl_threads, t.trace ⊆ g.trace
  events : ∀ ev ∈ g.trace, ev.item.seq < g.seqs
  stops : ∀ (i j : Nat) (t u : ServerDownloadThread), g.dl_threads[i]? = some t → g.dl_threads[j]? = some u → j ≠ i → ∀ e ∈ t.issued,
    e.action = .StopShadowcopy → ∀ f ∈ u.issued, f.IsFile → f.share = e.fn → f.seq < e.seq → OverIn g.trace f
  starts : ∀ (i j : Nat) (t u : ServerDownloadThread), g.dl_threads[i]? = some t → g.dl_threads[j]? = some u → j ≠ i → ∀ f ∈ t.issued,
    f.IsFile → ∀ b ∈ u.issued, b.isStart = true → b.fn = f.share → b.seq < f.seq → StartedIn g.trace b
  snapshotted : g.Snapshotted

theorem safe_new {server_token : String} (htoken : server_token ≠ "") (incremental_num n_threads : Nat) :
    (new server_token incremental_num n_threads).Safe := by
  have hthread : ∀ t ∈ (new server_token incremental_num n_threads).dl_threads,
      t = ServerDownloadThread.new server_token incremental_num := fun t ht => List.eq_of_mem_replicate ht
  have hissued : ∀ t ∈ (new server_token incremental_num n_threads).dl_threads, t.issued = [] := by
    intro t ht
    rw [hthread t ht]
    rfl
  refine ⟨?_, ?_, ?_, ?_, ?_, ?_, ?_, ?_, ?_⟩
  · intro t ht
    rw [hthread t ht]
    exact ServerDownloadThread.sound_new htoken incremental_num
  · intro t ht
    rw [hthread t ht]
    exact ServerDownloadThread.told_new server_token incremental_num
  · intro t ht
    rw [hthread t ht]
    exact Nat.le_refl 0
  · intro t ht
    rw [hthread t ht]
    exact List.nil_subset _
  · intro ev hev
    cases hev
  · intro i j t u ht _ _ e he
    rw [hissued t (List.mem_of_getElem? ht)] at he
    cases he
  · intro i j t u ht _ _ f hf
    rw [hissued t (List.mem_of_getElem? ht)] at hf
    cases hf
  · intro before it after htrace
    cases before with
    | nil => cases htrace
    | cons _ _ => cases htrace
  · intro before f after htrace
    cases before with
    | nil => cases htrace
    | cons _ _ => cases htrace

/-- What a step of the group does: one thread steps, and queues what fits. -/
structure Stepped (g g' : ServerDownloadThreadGroup) (idx : Nat) (t t' : ServerDownloadThread) (e : ThreadStep) : Prop where
  thread : g.dl_threads[idx]? = some t
  step : (g.share t).step e = some t'
  threads : g'.dl_threads = g.dl_threads.set idx t'
  seqs : g'.seqs = t'.seqs
  trace : g'.trace = g.trace ++ t'.trace.drop t.trace.length
  fits : ∀ x, Entry e x → g.FitsOthers idx x

theorem stepThread_stepped {idx : Nat} {e : ThreadStep} (hstep : g.stepThread idx e = some g')
    (hfits : ∀ x, Entry e x → g.FitsOthers idx x) : ∃ t t', Stepped g g' idx t t' e := by
  unfold stepThread at hstep
  split at hstep
  · cases hstep
  · next t ht =>
    split at hstep
    · cases hstep
    · next t' ht' =>
      obtain rfl := Option.some.inj hstep
      exact ⟨t, t', ht, ht', rfl, rfl, rfl, hfits⟩

theorem fits_of_other {idx : Nat} {x : SQueueItem} (h : ¬ x.IsFile ∧ x.action ≠ .StopShadowcopy) : g.FitsOthers idx x :=
  ⟨fun hfile => absurd hfile h.1, fun hstop => absurd hstop h.2⟩

theorem fits_of_file {idx : Nat} {f : ServerDownloadThread.DlFile} (h : g.FitsOthers idx (g.fileItem f)) {x : SQueueItem}
    (hx : x.action = .Fileclient ∧ x.fn = f.fn ∧ x.curr_path = f.curr_path) : g.FitsOthers idx x := by
  have hshare : x.share = (g.fileItem f).share := by
    unfold SQueueItem.share SQueueItem.cfn
    rw [hx.2.1, hx.2.2]
    rfl
  constructor
  · intro _ i t ht hi b hb hstart hfn
    exact h.1 ⟨rfl, rfl⟩ i t ht hi b hb hstart (hfn.trans hshare)
  · intro hstop
    exact nomatch hx.1.symm.trans hstop

theorem fits_of_stop {idx : Nat} {fn : String} (h : g.FitsOthers idx (g.stopItem fn)) {x : SQueueItem}
    (hx : x.action = .StopShadowcopy ∧ x.fn = fn) : g.FitsOthers idx x := by
  constructor
  · intro hfile
    exact nomatch hfile.1.symm.trans hx.1
  · intro _ i t ht hi f hf hfile hfn
    exact h.2 rfl i t ht hi f hf hfile (hfn.trans hx.2)

theorem step_stepped {e : GroupStep} (hfits : g.Fits e) (hstep : g.step e = some g') :
    ∃ idx t t' te, Stepped g g' idx t t' te := by
  unfold step at hstep
  cases e with
  | addToQueueFull queueSize f =>
    obtain ⟨t, t', h⟩ := stepThread_stepped hstep fun x hx => fits_of_file hfits hx
    exact ⟨_, t, t', _, h⟩
  | addToQueueChunked queueSize f =>
    obtain ⟨t, t', h⟩ := stepThread_stepped hstep fun x hx => fits_of_file hfits hx
    exact ⟨_, t, t', _, h⟩
  | addToQueueStopShadowcopy queueSize fn =>
    obtain ⟨t, t', h⟩ := stepThread_stepped hstep fun x hx => fits_of_stop hfits hx
    exact ⟨_, t, t', _, h⟩
  | _ =>
    obtain ⟨t, t', h⟩ := stepThread_stepped hstep fun x hx => fits_of_other hx
    exact ⟨_, t, t', _, h⟩

theorem Safe.share (h : g.Safe) {t : ServerDownloadThread} (ht : t ∈ g.dl_threads) :
    (g.share t).Sound ∧ (g.share t).Told := by
  have hsound := h.sound t ht
  have htold := h.told t ht
  refine ⟨?_, htold.done, htold.start, htold.stop, htold.hand⟩
  exact
    { token := hsound.token
      asserts := hsound.asserts
      requested := hsound.requested
      order := hsound.order
      cores := hsound.cores
      seqs := fun it hit => Nat.lt_of_lt_of_le (hsound.seqs it hit) (h.seqs t ht)
      distinct := hsound.distinct
      placed := hsound.placed
      failed := hsound.failed }

theorem Safe.issued_lt (h : g.Safe) {i : Nat} {t : ServerDownloadThread} (ht : g.dl_threads[i]? = some t) {x : SQueueItem}
    (hx : x ∈ t.issued) : x.seq < g.seqs :=
  Nat.lt_of_lt_of_le ((h.sound t (List.mem_of_getElem? ht)).seqs x hx) (h.seqs t (List.mem_of_getElem? ht))

/-- What a step of one thread is for the group. -/
structure Moves (g g' : ServerDownloadThreadGroup) (idx : Nat) (t t' : ServerDownloadThread) (new : Option Trace)
    (added : List SQueueItem) : Prop where
  thread : g.dl_threads[idx]? = some t
  threads : ∀ i u, g'.dl_threads[i]? = some u → (i = idx ∧ u = t') ∨ (i ≠ idx ∧ g.dl_threads[i]? = some u)
  seqs : g.seqs ≤ g'.seqs ∧ t'.seqs = g'.seqs
  trace : g'.trace = g.trace ++ new.toList
  trace_thread : t'.trace = t.trace ++ new.toList
  issued : t'.issued = t.issued ++ added
  added : ∀ x ∈ added, x.seq = g.seqs ∧ g.FitsOthers idx x
  events : ∀ ev ∈ new, t.EventOk ev ∧ ∃ it ∈ t.issued, it.core = ev.item.core
  sound : t'.Sound
  told : t'.Told

theorem Stepped.moves (h : g.Safe) {idx : Nat} {t t' : ServerDownloadThread} {e : ThreadStep}
    (hstep : Stepped g g' idx t t' e) : ∃ new added, Moves g g' idx t t' new added := by
  obtain ⟨hsound, htold⟩ := h.share (List.mem_of_getElem? hstep.thread)
  have hfacts := ServerDownloadThread.step_facts hsound htold hstep.step
  obtain ⟨new, htrace, hevents⟩ := hfacts.trace
  obtain ⟨added, hissued, hadded⟩ := hfacts.issued
  refine ⟨new, added, hstep.thread, ?_, ?_, ?_, htrace, hissued, ?_, hevents, hsound.step hstep.step, hfacts.told⟩
  · intro i u hu
    rw [hstep.threads, List.getElem?_set] at hu
    split at hu
    · next heq =>
      split at hu
      · exact Or.inl ⟨heq.symm, (Option.some.inj hu).symm⟩
      · cases hu
    · next hne => exact Or.inr ⟨fun heq => hne heq.symm, hu⟩
  · rw [hstep.seqs]
    exact ⟨hfacts.seqs, rfl⟩
  · rw [hstep.trace, htrace]
    change g.trace ++ (t.trace ++ new.toList).drop t.trace.length = _
    rw [List.drop_left]
  · intro x hx
    exact ⟨(hadded x hx).1, hstep.fits x (hadded x hx).2⟩

section Moves

variable {idx : Nat} {t t' : ServerDownloadThread} {new : Option Trace} {added : List SQueueItem}

section Moved

variable (h : Moves g g' idx t t' new added)

include h

/-- An entry was queued before the step, or by it. -/
theorem Moves.issued_cases {i : Nat} {u : ServerDownloadThread}
    (hu : g'.dl_threads[i]? = some u) {x : SQueueItem} (hx : x ∈ u.issued) :
    (∃ u₀, g.dl_threads[i]? = some u₀ ∧ x ∈ u₀.issued) ∨ (i = idx ∧ x ∈ added) := by
  rcases h.threads i u hu with ⟨rfl, rfl⟩ | ⟨-, hu⟩
  · rw [h.issued] at hx
    rcases List.mem_append.mp hx with hx | hx
    · exact Or.inl ⟨t, h.thread, hx⟩
    · exact Or.inr ⟨rfl, hx⟩
  · exact Or.inl ⟨u, hu, hx⟩

theorem Moves.thread_cases {u : ServerDownloadThread} (hu : u ∈ g'.dl_threads) :
    u = t' ∨ u ∈ g.dl_threads := by
  obtain ⟨i, hi⟩ := List.mem_iff_getElem?.mp hu
  rcases h.threads i u hi with ⟨-, rfl⟩ | ⟨-, hu⟩
  · exact Or.inl rfl
  · exact Or.inr (List.mem_of_getElem? hu)

/-- Something that was done stood in the trace before the step, or is what the step
does. -/
theorem Moves.trace_cases {before after : List Trace} {ev : Trace}
    (htrace : g'.trace = before ++ ev :: after) :
    (∃ rest, g.trace = before ++ ev :: rest) ∨ (before = g.trace ∧ new = some ev) := by
  rw [h.trace] at htrace
  cases new with
  | none =>
    change g.trace ++ [] = _ at htrace
    rw [List.append_nil] at htrace
    exact Or.inl ⟨after, htrace⟩
  | some x =>
    change g.trace ++ [x] = _ at htrace
    rcases List.eq_nil_or_concat after with rfl | ⟨rest, y, rfl⟩
    · obtain ⟨hbefore, hx⟩ := List.append_inj' htrace rfl
      exact Or.inr ⟨hbefore.symm, by rw [(List.cons.inj hx).1]⟩
    · rw [List.concat_eq_append, ← List.cons_append, ← List.append_assoc] at htrace
      exact Or.inl ⟨rest, (List.append_inj' htrace rfl).1⟩

theorem Moves.stops (hsafe : g.Safe) {i j : Nat} {t₁ t₂ : ServerDownloadThread}
    (h₁ : g'.dl_threads[i]? = some t₁) (h₂ : g'.dl_threads[j]? = some t₂) (hne : j ≠ i) {e f : SQueueItem}
    (he : e ∈ t₁.issued) (hstop : e.action = .StopShadowcopy) (hf : f ∈ t₂.issued) (hfile : f.IsFile)
    (hshare : f.share = e.fn) (hlt : f.seq < e.seq) : OverIn g'.trace f := by
  rw [h.trace]
  apply OverIn.mono
  rcases h.issued_cases h₁ he with ⟨u₁, hu₁, he⟩ | ⟨rfl, he⟩
  · rcases h.issued_cases h₂ hf with ⟨u₂, hu₂, hf⟩ | ⟨rfl, hf⟩
    · exact hsafe.stops i j u₁ u₂ hu₁ hu₂ hne e he hstop f hf hfile hshare hlt
    · have hold := hsafe.issued_lt hu₁ he
      rw [(h.added f hf).1] at hlt
      exact absurd hlt (Nat.lt_asymm hold)
  · rcases h.issued_cases h₂ hf with ⟨u₂, hu₂, hf⟩ | ⟨rfl, hf⟩
    · exact (h.added e he).2.2 hstop j u₂ hu₂ hne f hf hfile hshare
    · exact absurd rfl hne

theorem Moves.starts (hsafe : g.Safe) {i j : Nat} {t₁ t₂ : ServerDownloadThread}
    (h₁ : g'.dl_threads[i]? = some t₁) (h₂ : g'.dl_threads[j]? = some t₂) (hne : j ≠ i) {f b : SQueueItem}
    (hf : f ∈ t₁.issued) (hfile : f.IsFile) (hb : b ∈ t₂.issued) (hstart : b.isStart = true)
    (hshare : b.fn = f.share) (hlt : b.seq < f.seq) : StartedIn g'.trace b := by
  rw [h.trace]
  apply StartedIn.mono
  rcases h.issued_cases h₁ hf with ⟨u₁, hu₁, hf⟩ | ⟨rfl, hf⟩
  · rcases h.issued_cases h₂ hb with ⟨u₂, hu₂, hb⟩ | ⟨rfl, hb⟩
    · exact hsafe.starts i j u₁ u₂ hu₁ hu₂ hne f hf hfile b hb hstart hshare hlt
    · have hold := hsafe.issued_lt hu₁ hf
      rw [(h.added b hb).1] at hlt
      exact absurd hlt (Nat.lt_asymm hold)
  · rcases h.issued_cases h₂ hb with ⟨u₂, hu₂, hb⟩ | ⟨rfl, hb⟩
    · exact (h.added f hf).2.1 hfile j u₂ hu₂ hne b hb hstart hshare
    · exact absurd rfl hne

/-- The command that is sent now, and the files of the same and of the other threads. -/
theorem Moves.stop_now (hsafe : g.Safe) {it : SQueueItem}
    (hnew : new = some (.stop_shadowcopy it)) {j : Nat} {u : ServerDownloadThread} (hu : g.dl_threads[j]? = some u)
    {f : SQueueItem} (hf : f ∈ u.issued) (hfile : f.IsFile) (hshare : f.share = it.fn) (hlt : f.seq < it.seq) :
    OverIn g.trace f := by
  obtain ⟨hok, e, he, hcore⟩ := h.events _ hnew
  change e.core = it.core at hcore
  by_cases hj : j = idx
  · rw [hj, h.thread] at hu
    obtain rfl := Option.some.inj hu
    obtain ⟨x, hx, heq⟩ := hok f hf hfile hlt
    exact ⟨x, hsafe.traces t (List.mem_of_getElem? h.thread) hx, heq⟩
  · have hstop : it.action = .StopShadowcopy := by
      apply h.told.stop
      rw [h.trace_thread, hnew]
      exact List.mem_append_right _ List.mem_cons_self
    have hfn : e.core.fn = it.core.fn := by rw [hcore]
    change e.fn = it.fn at hfn
    refine hsafe.stops idx j t u h.thread hu hj e he ?_ f hf hfile (hshare.trans hfn.symm) ?_
    · rw [ServerDownloadThread.action_of_core hcore]
      exact hstop
    · rw [ServerDownloadThread.seq_of_core hcore]
      exact hlt

theorem Moves.load_now (hsafe : g.Safe) {f : SQueueItem}
    (hnew : new = some (.load f)) (hfile : f.IsFile) {j : Nat} {u : ServerDownloadThread} (hu : g.dl_threads[j]? = some u)
    {b : SQueueItem} (hb : b ∈ u.issued) (hstart : b.isStart = true) (hshare : b.fn = f.share) (hlt : b.seq < f.seq) :
    StartedIn g.trace b := by
  obtain ⟨hok, x, hx, hcore⟩ := h.events _ hnew
  change x.core = f.core at hcore
  by_cases hj : j = idx
  · rw [hj, h.thread] at hu
    obtain rfl := Option.some.inj hu
    obtain ⟨y, hy, heq⟩ := hok hfile b hb hstart hlt
    exact ⟨y, hsafe.traces t (List.mem_of_getElem? h.thread) hy, heq⟩
  · have hxshare : x.core.share = f.core.share := by rw [hcore]
    change x.share = f.share at hxshare
    refine hsafe.starts idx j t u h.thread hu hj x hx (ServerDownloadThread.isFile_of_core hcore hfile) b hb hstart
      (hshare.trans hxshare.symm) ?_
    rw [ServerDownloadThread.seq_of_core hcore]
    exact hlt

theorem Moves.snapshotted (hsafe : g.Safe) : g'.Snapshotted where
  stops before it after htrace u hu f hf hfile hshare hlt := by
    obtain ⟨j, hj⟩ := List.mem_iff_getElem?.mp hu
    have hold : it.seq ≤ g.seqs := by
      rcases h.trace_cases htrace with ⟨rest, htrace⟩ | ⟨-, hnew⟩
      · exact Nat.le_of_lt (hsafe.events (.stop_shadowcopy it) (by rw [htrace]; simp))
      · obtain ⟨-, e, he, hcore⟩ := h.events _ hnew
        rw [← show e.seq = it.seq from ServerDownloadThread.seq_of_core hcore]
        exact Nat.le_of_lt (hsafe.issued_lt h.thread he)
    rcases h.issued_cases hj hf with ⟨u₀, hu₀, hf⟩ | ⟨-, hf⟩
    · rcases h.trace_cases htrace with ⟨rest, htrace⟩ | ⟨rfl, hnew⟩
      · exact hsafe.snapshotted.stops before it rest htrace u₀ (List.mem_of_getElem? hu₀) f hf hfile hshare hlt
      · exact h.stop_now hsafe hnew hu₀ hf hfile hshare hlt
    · rw [(h.added f hf).1] at hlt
      exact absurd hlt (Nat.not_lt_of_le hold)
  starts before f after htrace hfile u hu b hb hstart hshare hlt := by
    obtain ⟨j, hj⟩ := List.mem_iff_getElem?.mp hu
    have hold : f.seq ≤ g.seqs := by
      rcases h.trace_cases htrace with ⟨rest, htrace⟩ | ⟨-, hnew⟩
      · exact Nat.le_of_lt (hsafe.events (.load f) (by rw [htrace]; simp))
      · obtain ⟨-, e, he, hcore⟩ := h.events _ hnew
        rw [← show e.seq = f.seq from ServerDownloadThread.seq_of_core hcore]
        exact Nat.le_of_lt (hsafe.issued_lt h.thread he)
    rcases h.issued_cases hj hb with ⟨u₀, hu₀, hb⟩ | ⟨-, hb⟩
    · rcases h.trace_cases htrace with ⟨rest, htrace⟩ | ⟨rfl, hnew⟩
      · exact hsafe.snapshotted.starts before f rest htrace hfile u₀ (List.mem_of_getElem? hu₀) b hb hstart hshare hlt
      · exact h.load_now hsafe hnew hfile hu₀ hb hstart hshare hlt
    · rw [(h.added b hb).1] at hlt
      exact absurd hlt (Nat.not_lt_of_le hold)

theorem Moves.safe (hsafe : g.Safe) : g'.Safe where
  sound u hu := by
    rcases h.thread_cases hu with rfl | hu
    · exact h.sound
    · exact hsafe.sound u hu
  told u hu := by
    rcases h.thread_cases hu with rfl | hu
    · exact h.told
    · exact hsafe.told u hu
  seqs u hu := by
    rcases h.thread_cases hu with rfl | hu
    · exact Nat.le_of_eq h.seqs.2
    · exact Nat.le_trans (hsafe.seqs u hu) h.seqs.1
  traces u hu := by
    rw [h.trace]
    rcases h.thread_cases hu with rfl | hu
    · rw [h.trace_thread]
      intro ev hev
      rcases List.mem_append.mp hev with hev | hev
      · exact List.mem_append_left _ (hsafe.traces t (List.mem_of_getElem? h.thread) hev)
      · exact List.mem_append_right _ hev
    · intro ev hev
      exact List.mem_append_left _ (hsafe.traces u hu hev)
  events ev hev := by
    rw [h.trace] at hev
    refine Nat.lt_of_lt_of_le ?_ h.seqs.1
    rcases List.mem_append.mp hev with hev | hev
    · exact hsafe.events ev hev
    · obtain ⟨-, x, hx, hcore⟩ := h.events ev (Option.mem_toList.mp hev)
      rw [← ServerDownloadThread.seq_of_core hcore]
      exact hsafe.issued_lt h.thread hx
  stops i j t₁ t₂ h₁ h₂ hne e he hstop f hf hfile hshare hlt := h.stops hsafe h₁ h₂ hne he hstop hf hfile hshare hlt
  starts i j t₁ t₂ h₁ h₂ hne f hf hfile b hb hstart hshare hlt := h.starts hsafe h₁ h₂ hne hf hfile hb hstart hshare hlt
  snapshotted := h.snapshotted hsafe

end Moved

end Moves

theorem Safe.step (h : g.Safe) {e : GroupStep} (hfits : g.Fits e) (hstep : g.step e = some g') : g'.Safe := by
  obtain ⟨idx, t, t', te, hstepped⟩ := step_stepped hfits hstep
  obtain ⟨new, added, hmoves⟩ := hstepped.moves h
  exact hmoves.safe h

theorem Safe.run (h : g.Safe) {es : List GroupStep} (hfits : AllFit es g) (hrun : run es g = some g') : g'.Safe := by
  induction es generalizing g with
  | nil =>
    obtain rfl := Option.some.inj hrun
    exact h
  | cons e es ih =>
    obtain ⟨u, hstep, hrun⟩ := Option.bind_eq_some_iff.mp hrun
    exact ih (h.step hfits.1 hstep) (hfits.2 u hstep) hrun

/-- In every run that puts no entry on another thread than those it has to wait for, the
snapshots are referenced while their files are loaded. -/
theorem run_snapshotted {server_token : String} (htoken : server_token ≠ "") (incremental_num n_threads : Nat)
    {es : List GroupStep} (hfits : AllFit es (new server_token incremental_num n_threads))
    (hrun : run es (new server_token incremental_num n_threads) = some g) : g.Snapshotted :=
  ((safe_new htoken incremental_num n_threads).run hfits hrun).snapshotted

theorem fitsOthers_single {t : ServerDownloadThread} (h : g.dl_threads = [t]) (queueSize : Nat → Nat) (it : SQueueItem) :
    g.FitsOthers (g.getMinQueued queueSize) it := by
  have hothers : ∀ i u, g.dl_threads[i]? = some u → ¬ i ≠ g.getMinQueued queueSize := by
    intro i u hu hi
    unfold getMinQueued at hi
    rw [h] at hu hi
    change i ≠ 0 at hi
    cases i with
    | zero => exact hi rfl
    | succ i => cases hu
  exact ⟨fun _ i u hu hi => absurd hi (hothers i u hu), fun _ i u hu hi => absurd hi (hothers i u hu)⟩

/-- With one thread every entry stands on the thread of the others. -/
theorem allFit_single (es : List GroupStep) {t : ServerDownloadThread} (h : g.dl_threads = [t]) : AllFit es g := by
  induction es generalizing g t with
  | nil => trivial
  | cons e es ih =>
    have hfits : g.Fits e := by
      cases e with
      | addToQueueFull queueSize f => exact fitsOthers_single h _ _
      | addToQueueChunked queueSize f => exact fitsOthers_single h _ _
      | addToQueueStopShadowcopy queueSize fn => exact fitsOthers_single h _ _
      | _ => trivial
    refine ⟨hfits, ?_⟩
    intro g' hstep
    obtain ⟨idx, u, u', te, hstepped⟩ := step_stepped hfits hstep
    have hthread := hstepped.thread
    have hthreads := hstepped.threads
    rw [h] at hthread hthreads
    cases idx with
    | zero => exact ih hthreads
    | succ idx => cases hthread

def exampleShareFile (id : Nat) (fn : String) : ServerDownloadThread.DlFile :=
  { ServerDownloadThread.exampleFile id fn with curr_path := "s" }

/-- The files `a` and `b` of a share, which the first thread starts and stops. The sizes
are those of the queues of two threads. -/
def exampleShare : List GroupStep :=
  [.addToQueueStartShadowcopy (fun _ => 0) "s", .take 0 .prepared true, .addToQueueFull (fun _ => 0) (exampleShareFile 1 "a"),
    .addToQueueFull (1 - ·) (exampleShareFile 2 "b"), .take 0 .prepared true, .addToQueueStopShadowcopy id "s",
    .loaded 0 true true, .take 0 .prepared true]

theorem run_snapshotted_single : ∃ g, run exampleShare (new "token" 0 1) = some g ∧ g.seqs = 4 ∧ g.Snapshotted := by
  have htoken : "token" ≠ "" := by decide
  have hseqs : (run exampleShare (new "token" 0 1)).map (fun g => g.seqs) = some 4 := by decide +kernel
  obtain ⟨g, hrun, hseqs⟩ := Option.map_eq_some_iff.mp hseqs
  exact ⟨g, hrun, hseqs, run_snapshotted htoken 0 1 (allFit_single _ rfl) hrun⟩

def exampleItem (seq id : Nat) (fn : String) : SQueueItem :=
  { SQueueItem.new seq with id := id, fn := fn, curr_path := "s" }

/-- With two threads the file `b` stands on the second one, which has not taken it. -/
theorem not_run_snapshotted : ¬ ∀ (n_threads : Nat) (es : List GroupStep) (g : ServerDownloadThreadGroup),
    run es (new "token" 0 n_threads) = some g → g.Snapshotted := by
  intro h
  have houtcome : (run exampleShare (new "token" 0 2)).map (fun g => (g.trace, g.dl_threads.map fun t => t.issued)) =
      some ([.start_shadowcopy { SQueueItem.new 0 with action := .StartShadowcopy, fn := "s" },
          .load (exampleItem 1 1 "a"), .done (exampleItem 1 1 "a"),
          .stop_shadowcopy { SQueueItem.new 3 with action := .StopShadowcopy, fn := "s" }],
        [[{ SQueueItem.new 0 with action := .StartShadowcopy, fn := "s" }, exampleItem 1 1 "a",
            { SQueueItem.new 3 with action := .StopShadowcopy, fn := "s" }],
          [exampleItem 2 2 "b"]]) := by
    decide +kernel
  obtain ⟨g, hrun, houtcome⟩ := Option.map_eq_some_iff.mp houtcome
  obtain ⟨htrace, hissued⟩ := Prod.mk.inj houtcome
  have hmem : [exampleItem 2 2 "b"] ∈ g.dl_threads.map fun t => t.issued := by
    rw [hissued]
    simp
  obtain ⟨t, ht, hb⟩ := List.mem_map.mp hmem
  have hcfn : (exampleItem 2 2 "b").cfn = "s/b" := by decide +kernel
  have hshare : (exampleItem 2 2 "b").share = "s" := by
    unfold SQueueItem.share
    rw [hcfn]
    rfl
  obtain ⟨x, hx, hcore⟩ := (h 2 exampleShare g hrun).stops _ _ [] (htrace.trans (List.append_cons [_, _, _] _ _).symm) t ht
    (exampleItem 2 2 "b") (by rw [hb]; exact List.mem_cons_self) ⟨rfl, rfl⟩ hshare (by decide)
  have hx : x = exampleItem 1 1 "a" := by simpa using hx
  rw [hx] at hcore
  revert hcore
  decide

end ServerDownloadThreadGroup

end urbackup.serverdownload
