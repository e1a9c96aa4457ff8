import UrBackup.Download.MaxFileId

namespace urbackup.filebackup

namespace MaxFileId

theorem pred_eq {p : Nat} (hpos : 0 < p) (hlt : p < npos) : (p + 2 ^ 64 - 1) % 2 ^ 64 = p - 1 := by
  unfold npos at hlt
  omega

theorem lower_cons_eq (p : Nat) (postponed : List Nat) : lower (p :: postponed) p = lower postponed p := by
  rw [lower, if_pos rfl]

theorem lower_cons_lt {p id : Nat} (h : p < id) (postponed : List Nat) : lower (p :: postponed) id =
    ((lower postponed ((p + 2 ^ 64 - 1) % 2 ^ 64)).1, p :: (lower postponed ((p + 2 ^ 64 - 1) % 2 ^ 64)).2) := by
  rw [lower, if_neg (by omega), if_pos h]

theorem lower_cons_gt {p id : Nat} (h : id < p) (postponed : List Nat) :
    lower (p :: postponed) id = ((lower postponed id).1, p :: (lower postponed id).2) := by
  rw [lower, if_neg (by omega), if_neg (by omega)]

/-- Once the id is lowered below a postponed one, nothing more is erased. -/
theorem lower_lowered {postponed : List Nat} {id c : Nat} (hc : c < id) (hlt : ∀ p ∈ postponed, 0 < p ∧ p < npos)
    (hne : c ∉ postponed) (hpairs : postponed.Pairwise fun p q => p < id → q + 1 ≠ p) :
    (lower postponed c).2 = postponed ∧ (lower postponed c).1 ≤ c ∧
      ∀ p ∈ postponed, p < id → (lower postponed c).1 < p ∨ c < p := by
  induction postponed generalizing c with
  | nil => exact ⟨rfl, Nat.le_refl _, fun p hp => nomatch hp⟩
  | cons p postponed ih =>
    obtain ⟨hp, hrest⟩ := List.pairwise_cons.mp hpairs
    have hlt' : ∀ q ∈ postponed, 0 < q ∧ q < npos := fun q hq => hlt q (List.mem_cons_of_mem _ hq)
    have hpc : p ≠ c := fun h => hne (h ▸ List.mem_cons_self)
    have hnot : c ∉ postponed := fun h => hne (List.mem_cons_of_mem _ h)
    rcases Nat.lt_or_gt_of_ne hpc with hlow | hhigh
    · obtain ⟨hpos, hpn⟩ := hlt p List.mem_cons_self
      rw [lower_cons_lt hlow, pred_eq hpos hpn]
      have hne' : p - 1 ∉ postponed := by
        intro hmem
        have := hp (p - 1) hmem (by omega)
        omega
      obtain ⟨hsnd, hle, hbelow⟩ := ih (c := p - 1) (by omega) hlt' hne' hrest
      refine ⟨by rw [hsnd], by dsimp only; omega, ?_⟩
      intro q hq hqid
      rcases List.mem_cons.mp hq with rfl | hq
      · left
        dsimp only
        omega
      · have := hbelow q hq hqid
        dsimp only
        omega
    · rw [lower_cons_gt hhigh]
      obtain ⟨hsnd, hle, hbelow⟩ := ih hc hlt' hnot hrest
      refine ⟨by rw [hsnd], hle, ?_⟩
      intro q hq hqid
      rcases List.mem_cons.mp hq with rfl | hq
      · exact Or.inr hhigh
      · exact hbelow q hq hqid

/-- Where no postponed id below the reported one is followed by its predecessor or
by the reported one, that one alone is erased, and the result is below all the
others it had passed. -/
theorem lower_spec {postponed : List Nat} {id : Nat} (hlt : ∀ p ∈ postponed, 0 < p ∧ p < npos)
    (hpairs : postponed.Pairwise fun p q => p < id → q + 1 ≠ p ∧ q ≠ id) :
    (lower postponed id).2 = postponed.filter (· ≠ id) ∧ (lower postponed id).1 ≤ id ∧
      (∀ p ∈ postponed, p < id → (lower postponed id).1 < p) ∧
      ((∀ p ∈ postponed, id ≤ p) → (lower postponed id).1 = id) := by
  induction postponed with
  | nil => exact ⟨rfl, Nat.le_refl _, (fun p hp => nomatch hp), fun _ => rfl⟩
  | cons p postponed ih =>
    obtain ⟨hp, hrest⟩ := List.pairwise_cons.mp hpairs
    have hlt' : ∀ q ∈ postponed, 0 < q ∧ q < npos := fun q hq => hlt q (List.mem_cons_of_mem _ hq)
    rcases Nat.lt_trichotomy p id with hlow | rfl | hhigh
    · obtain ⟨hpos, hpn⟩ := hlt p List.mem_cons_self
      have hne : p - 1 ∉ postponed := by
        intro hmem
        have := (hp (p - 1) hmem hlow).1
        omega
      obtain ⟨hsnd, hle, hbelow⟩ := lower_lowered (c := p - 1) (by omega) hlt' hne
        (hrest.imp fun h hid => (h hid).1)
      have hfilter : postponed.filter (· ≠ id) = postponed := by
        apply List.filter_eq_self.mpr
        intro q hq
        simpa using (hp q hq hlow).2
      rw [lower_cons_lt hlow, pred_eq hpos hpn]
      refine ⟨?_, ?_, ?_, ?_⟩
      · rw [hsnd, List.filter_cons_of_pos (by simpa using Nat.ne_of_lt hlow), hfilter]
      · dsimp only
        omega
      · intro q hq hqid
        dsimp only
        rcases List.mem_cons.mp hq with rfl | hq
        · omega
        · have := hbelow q hq hqid
          omega
      · intro hall
        exact absurd (hall p List.mem_cons_self) (by omega)
    · obtain ⟨hsnd, hle, hbelow, hsame⟩ := ih hlt' hrest
      rw [lower_cons_eq]
      refine ⟨by rw [hsnd, List.filter_cons_of_neg (by simp)], hle, ?_, ?_⟩
      · intro q hq hqid
        rcases List.mem_cons.mp hq with rfl | hq
        · exact absurd hqid (Nat.lt_irrefl _)
        · exact hbelow q hq hqid
      · intro hall
        exact hsame fun q hq => hall q (List.mem_cons_of_mem _ hq)
    · obtain ⟨hsnd, hle, hbelow, hsame⟩ := ih hlt' hrest
      rw [lower_cons_gt hhigh]
      refine ⟨?_, hle, ?_, ?_⟩
      · rw [hsnd, List.filter_cons_of_pos (by simpa using Nat.ne_of_gt hhigh)]
      · intro q hq hqid
        rcases List.mem_cons.mp hq with rfl | hq
        · omega
        · exact hbelow q hq hqid
      · intro hall
        exact hsame fun q hq => hall q (List.mem_cons_of_mem _ hq)

end MaxFileId

namespace Transfer

variable {t t' : Transfer}

/-- What the ids say about the downloads that are not finished. -/
structure Tracked (t : Transfer) : Prop where
  line : t.line < npos
  preprocessed : t.max_file_id.max_preprocessed = t.line
  queued : ∀ id ∈ t.queued, id ≤ t.line
  hashed : ∀ id ∈ t.hashed, id ∈ t.queued ∧ id ≠ 0
  finished : ∀ id ∈ t.finished, id ∈ t.hashed
  min_downloaded : ∀ id ∈ t.queued, id ≠ 0 → id + 1 ≤ t.max_file_id.min_downloaded
  min_queued : t.max_file_id.min_downloaded = 0 ∨ ∃ id ∈ t.queued, t.max_file_id.min_downloaded = id + 1 ∧
    (id ∈ t.hashed ∨ t.max_file_id.max_downloaded ≤ id)
  waiting : ∀ id ∈ t.hashed, id ∉ t.finished → t.max_file_id.max_downloaded ≤ id
  done : (∀ id ∈ t.queued, id ∈ t.finished) → t.max_file_id.max_downloaded = npos
  postponed : ∀ id ∈ t.max_file_id.postponed, 0 < id ∧ id ∈ t.queued ∧ id ∉ t.finished

theorem tracked_new : new.Tracked := by
  constructor <;> simp [new, MaxFileId.new, npos]

theorem Tracked.reported (h : t.Tracked) : t.Reported where
  only id hid hfinished := by
    have hmod : (id + 1) % 2 ^ 64 = id + 1 := by
      unfold npos at hid
      omega
    simp only [MaxFileId.isFinished, hmod, Bool.and_eq_true, decide_eq_true_eq, h.preprocessed] at hfinished
    refine ⟨by omega, fun hhashed => ?_⟩
    by_contra hnot
    have := h.waiting id hhashed hnot
    omega
  all hall id hid := by
    have hline := h.line
    have hmod : (id + 1) % 2 ^ 64 = id + 1 := by
      unfold npos at hline
      omega
    simp only [MaxFileId.isFinished, hmod, Bool.and_eq_true, decide_eq_true_eq, h.preprocessed, h.done hall]
    omega

theorem mem_hashed {hashed : Bool} {l : List Nat} {line id : Nat} (h : id ∈ if hashed then l ++ [line] else l) :
    id ∈ l ∨ id = line := by
  cases hashed with
  | true =>
    rcases List.mem_append.mp h with h | h
    · exact Or.inl h
    · exact Or.inr (List.mem_singleton.mp h)
  | false => exact Or.inl h

theorem Tracked.unfinished (h : t.Tracked) {id : Nat} (hid : id ∉ t.queued) : id ∉ t.finished :=
  fun hmem => hid (h.hashed id (h.finished id hmem)).1

theorem Tracked.queue_zero (h : t.Tracked) (hzero : t.line = 0) (hnew : t.line ∉ t.queued) :
    Tracked { t with queued := t.queued ++ [t.line] } where
  line := h.line
  preprocessed := h.preprocessed
  queued id hid := by
    rcases List.mem_append.mp hid with hid | hid
    · exact h.queued id hid
    · exact Nat.le_of_eq (List.mem_singleton.mp hid)
  hashed id hid := ⟨List.mem_append_left _ (h.hashed id hid).1, (h.hashed id hid).2⟩
  finished := h.finished
  min_downloaded id hid hne := by
    rcases List.mem_append.mp hid with hid | hid
    · exact h.min_downloaded id hid hne
    · exact absurd ((List.mem_singleton.mp hid).trans hzero) hne
  min_queued := by
    rcases h.min_queued with h | ⟨id, hid, heq⟩
    · exact Or.inl h
    · exact Or.inr ⟨id, List.mem_append_left _ hid, heq⟩
  waiting := h.waiting
  done hall := absurd (hall t.line List.mem_concat_self) (h.unfinished hnew)
  postponed id hid := by
    obtain ⟨hpos, hqueued, hfinished⟩ := h.postponed id hid
    exact ⟨hpos, List.mem_append_left _ hqueued, hfinished⟩

theorem Tracked.queue (h : t.Tracked) (hashed : Bool) (hpos : t.line ≠ 0) (hnew : t.line ∉ t.queued) :
    Tracked { t with
      max_file_id := t.max_file_id.setMinDownloaded t.line
      queued := t.queued ++ [t.line]
      hashed := if hashed then t.hashed ++ [t.line] else t.hashed } where
  line := h.line
  preprocessed := h.preprocessed
  queued id hid := by
    rcases List.mem_append.mp hid with hid | hid
    · exact h.queued id hid
    · exact Nat.le_of_eq (List.mem_singleton.mp hid)
  hashed id hid := by
    rcases mem_hashed hid with hid | rfl
    · exact ⟨List.mem_append_left _ (h.hashed id hid).1, (h.hashed id hid).2⟩
    · exact ⟨List.mem_concat_self, hpos⟩
  finished id hid := by
    have hmem := h.finished id hid
    cases hashed with
    | true => exact List.mem_append_left _ hmem
    | false => exact hmem
  min_downloaded id hid hne := by
    have hline := h.line
    have hle : id ≤ t.line := by
      rcases List.mem_append.mp hid with hid | hid
      · exact h.queued id hid
      · exact Nat.le_of_eq (List.mem_singleton.mp hid)
    change id + 1 ≤ (t.line + 1) % 2 ^ 64
    unfold npos at hline
    omega
  min_queued := by
    have hline := h.line
    refine Or.inr ⟨t.line, List.mem_concat_self, ?_, Or.inr ?_⟩
    · change (t.line + 1) % 2 ^ 64 = t.line + 1
      unfold npos at hline
      omega
    · change (if t.max_file_id.max_downloaded > t.line then t.line else t.max_file_id.max_downloaded) ≤ t.line
      split <;> omega
  waiting id hid hnot := by
    change (if t.max_file_id.max_downloaded > t.line then t.line else t.max_file_id.max_downloaded) ≤ id
    rcases mem_hashed hid with hid | rfl
    · have := h.waiting id hid hnot
      have := h.queued id (h.hashed id hid).1
      split
      · omega
      · omega
    · split
      · omega
      · omega
  done hall := absurd (hall t.line List.mem_concat_self) (h.unfinished hnew)
  postponed id hid := by
    obtain ⟨hpos, hqueued, hfinished⟩ := h.postponed id hid
    exact ⟨hpos, List.mem_append_left _ hqueued, hfinished⟩

theorem Tracked.process (h : t.Tracked) (hline : t.line + 1 < npos) :
    Tracked { t with max_file_id := t.max_file_id.setMaxPreProcessed t.line, line := t.line + 1 } where
  line := hline
  preprocessed := by
    change (t.line + 1) % 2 ^ 64 = t.line + 1
    unfold npos at hline
    omega
  queued id hid := Nat.le_succ_of_le (h.queued id hid)
  hashed := h.hashed
  finished := h.finished
  min_downloaded := h.min_downloaded
  min_queued := h.min_queued
  waiting := h.waiting
  done := h.done
  postponed := h.postponed

theorem Tracked.postpone (h : t.Tracked) {id : Nat} (hpos : id ≠ 0) (hid : id ∈ t.queued ∧ id ∉ t.finished) :
    Tracked { t with max_file_id := t.max_file_id.postponeDownloaded id } where
  line := h.line
  preprocessed := h.preprocessed
  queued := h.queued
  hashed := h.hashed
  finished := h.finished
  min_downloaded := h.min_downloaded
  min_queued := h.min_queued
  waiting := h.waiting
  done := h.done
  postponed p hp := by
    rcases List.mem_append.mp hp with hp | hp
    · exact h.postponed p hp
    · obtain rfl := List.mem_singleton.mp hp
      exact ⟨Nat.pos_of_ne_zero hpos, hid⟩

theorem Tracked.finish (h : t.Tracked) {id : Nat} (hfits : t.Fits (.finish id)) (hid : id ∈ t.hashed ∧ id ∉ t.finished) :
    Tracked { t with max_file_id := t.max_file_id.setMaxDownloaded id, finished := t.finished ++ [id] } := by
  obtain ⟨hbefore, hpairs, hlast⟩ := hfits
  obtain ⟨hhashed, hnot⟩ := hid
  have hline := h.line
  have hle := h.queued id (h.hashed id hhashed).1
  have hrange : ∀ p ∈ t.max_file_id.postponed, 0 < p ∧ p < npos := fun p hp =>
    ⟨(h.postponed p hp).1, Nat.lt_of_le_of_lt (h.queued p (h.postponed p hp).2.1) hline⟩
  obtain ⟨hkept, hlow, hbelow, hsame⟩ := MaxFileId.lower_spec hrange hpairs
  have hmod : ((MaxFileId.lower t.max_file_id.postponed id).1 + 1) % 2 ^ 64 =
      (MaxFileId.lower t.max_file_id.postponed id).1 + 1 := by
    unfold npos at hline
    omega
  have hmax : (t.max_file_id.setMaxDownloaded id).max_downloaded =
      if (MaxFileId.lower t.max_file_id.postponed id).1 + 1 ≥ t.max_file_id.min_downloaded then npos
      else (MaxFileId.lower t.max_file_id.postponed id).1 + 1 := by
    rw [← hmod]
    rfl
  exact
    { line := hline
      preprocessed := h.preprocessed
      queued := h.queued
      hashed := h.hashed
      finished := fun i hi => by
        rcases List.mem_append.mp hi with hi | hi
        · exact h.finished i hi
        · rw [List.mem_singleton.mp hi]
          exact hhashed
      min_downloaded := h.min_downloaded
      min_queued := by
        obtain hzero | ⟨i, hi, heq, _⟩ := h.min_queued
        · exact Or.inl hzero
        · refine Or.inr ⟨i, hi, heq, or_iff_not_imp_left.mpr fun hunhashed => ?_⟩
          have hne : id ≠ i := fun heq => hunhashed (heq ▸ hhashed)
          have hmin := h.min_downloaded id (h.hashed id hhashed).1 (h.hashed id hhashed).2
          rw [hmax, if_neg (by omega)]
          omega
      waiting := fun i hi hwaits => by
        have hne : i ≠ id := fun heq => hwaits (List.mem_append_right _ (List.mem_singleton.mpr heq))
        have hunfinished : i ∉ t.finished := fun hmem => hwaits (List.mem_append_left _ hmem)
        have hpassed : (MaxFileId.lower t.max_file_id.postponed id).1 < i := by
          rcases Nat.lt_or_gt_of_ne hne with hlt | hgt
          · rcases hbefore i hi hlt with hdone | hpostponed
            · exact absurd hdone hunfinished
            · exact hbelow i hpostponed hlt
          · omega
        have hmin := h.min_downloaded i (h.hashed i hi).1 (h.hashed i hi).2
        rw [hmax, if_neg (by omega)]
        omega
      done := fun hall => by
        have hothers : ∀ i ∈ t.queued, i ∈ t.finished ∨ i = id := by
          intro i hi
          rcases List.mem_append.mp (hall i hi) with hi | hi
          · exact Or.inl hi
          · exact Or.inr (List.mem_singleton.mp hi)
        have hnone : ∀ p ∈ t.max_file_id.postponed, id ≤ p := by
          intro p hp
          obtain ⟨-, hqueued, hunfinished⟩ := h.postponed p hp
          rcases hothers p hqueued with hdone | rfl
          · exact absurd hdone hunfinished
          · exact Nat.le_refl _
        have hmin : t.max_file_id.min_downloaded ≤ id + 1 := by
          rcases h.min_queued with hzero | ⟨i, hi, heq, _⟩
          · omega
          · have := hlast hothers i hi
            omega
        rw [hmax, hsame hnone, if_pos hmin]
      postponed := fun p hp => by
        have hp' : p ∈ t.max_file_id.postponed.filter (· ≠ id) := hkept ▸ hp
        obtain ⟨hmem, hne⟩ := List.mem_filter.mp hp'
        obtain ⟨hpos, hqueued, hunfinished⟩ := h.postponed p hmem
        refine ⟨hpos, hqueued, ?_⟩
        intro hmem'
        rcases List.mem_append.mp hmem' with hdone | heq
        · exact hunfinished hdone
        · exact of_decide_eq_true hne (List.mem_singleton.mp heq) }

theorem Tracked.step (h : t.Tracked) {e : TransferStep} (hfits : t.Fits e) (hstep : t.step e = some t') :
    t'.Tracked := by
  cases e with
  | queue hashed =>
    simp only [Transfer.step] at hstep
    split at hstep
    · cases hstep
    · next hnew =>
      obtain rfl := Option.some.inj hstep
      by_cases hzero : t.line = 0
      · have hhashed : hashed = false := by
          by_contra hne
          exact hfits (by simpa using hne) hzero
        subst hhashed
        simpa [hzero] using h.queue_zero hzero hnew
      · simpa [hzero] using h.queue hashed hzero hnew
  | process =>
    obtain rfl := Option.some.inj hstep
    exact h.process hfits
  | postpone id =>
    simp only [Transfer.step] at hstep
    split at hstep
    · next hid =>
      obtain rfl := Option.some.inj hstep
      exact h.postpone hfits hid
    · cases hstep
  | finish id =>
    simp only [Transfer.step] at hstep
    split at hstep
    · next hid =>
      obtain rfl := Option.some.inj hstep
      exact h.finish hfits hid
    · cases hstep

theorem Tracked.run (h : t.Tracked) {es : List TransferStep} (hfits : AllFit es t) (hrun : run es t = some t') :
    t'.Tracked := by
  induction es generalizing t with
  | nil =>
    obtain rfl := Option.some.inj hrun
    exact h
  | cons e es ih =>
    obtain ⟨u, hstep, hrun⟩ := Option.bind_eq_some_iff.mp hrun
    exact ih (h.step hfits.1 hstep) (hfits.2 u hstep) hrun

/-- In every run whose steps all fit, `isFinished` is right about all lines. -/
theorem run_reported {es : List TransferStep} (hfits : AllFit es new) (hrun : run es new = some t) : t.Reported :=
  (tracked_new.run hfits hrun).reported

/-- If the line queued last reaches no hash thread, it and the lines behind it are never
reported. -/
theorem run_unhashed {es : List TransferStep} (hfits : AllFit es new) (hrun : run es new = some t) {last : Nat}
    (hqueued : last ∈ t.queued) (hne : last ≠ 0) (hlast : ∀ id ∈ t.queued, id ≤ last) (hhashed : last ∉ t.hashed) {id : Nat}
    (hle : last ≤ id) (hid : id < npos) : t.max_file_id.isFinished id = false := by
  have htracked := tracked_new.run hfits hrun
  have hmin := htracked.min_downloaded last hqueued hne
  obtain hzero | ⟨i, hi, heq, hreaches⟩ := htracked.min_queued
  · omega
  · obtain rfl : i = last := by
      have := hlast i hi
      omega
    have hmax := hreaches.resolve_left hhashed
    unfold npos at hid
    simp only [MaxFileId.isFinished, Bool.and_eq_false_iff, decide_eq_false_iff_not]
    omega

/-- Line 1 is switched behind line 2, which then waits for it. -/
theorem run_reported_postponed :
    AllFit [.process, .queue true, .process, .queue true, .process, .queue true, .process, .postpone 1, .finish 2,
      .finish 1, .finish 3] new ∧
    ∃ t, run [.process, .queue true, .process, .queue true, .process, .queue true, .process, .postpone 1, .finish 2,
      .finish 1, .finish 3] new = some t ∧ t.Reported := by
  have hfits : AllFit [.process, .queue true, .process, .queue true, .process, .queue true, .process, .postpone 1,
      .finish 2, .finish 1, .finish 3] new := by decide
  exact ⟨hfits, _, rfl, run_reported hfits rfl⟩

/-- Two hash threads finish two lines in the other order. -/
theorem not_run_reported : ¬ ∀ (es : List TransferStep) (t : Transfer), run es new = some t → t.Reported := by
  intro h
  have hreported := h [.process, .queue true, .process, .queue true, .process, .finish 2] _ rfl
  exact absurd ((hreported.only 1 (by decide) (by decide)).2 (by decide)) (by decide)

end Transfer

end urbackup.filebackup
