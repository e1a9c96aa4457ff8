import UrBackup.FileCleanup.FileBackups

namespace urbackup.filecleanup

open stringtools retryloop

section Take

variable {L rest : List Nat} {x : Nat} {max : Int}

theorem take_target : (if max < (L.length : Int) && 0 < L.length then some (L.headD 0) else none) = (L.take (L.length - max).toNat).head? := by
  cases L with
  | nil => simp
  | cons x L =>
    by_cases hmax : max < ((x :: L).length : Int)
    · obtain ⟨n, hn⟩ : ∃ n, (((x :: L).length : Int) - max).toNat = n + 1 := ⟨(((x :: L).length : Int) - max).toNat - 1, by omega⟩
      rw [hn]
      simpa using hmax
    · have hn : (((x :: L).length : Int) - max).toNat = 0 := by omega
      rw [hn, if_neg (by simpa using hmax)]
      rfl

theorem take_erase (h : L.take (L.length - max).toNat = x :: rest) :
    (L.erase x).take ((L.erase x).length - max).toNat = rest := by
  cases L with
  | nil => simp at h
  | cons y L =>
    obtain ⟨n, hn⟩ : ∃ n, (((y :: L).length : Int) - max).toNat = n + 1 := by
      refine ⟨(((y :: L).length : Int) - max).toNat - 1, ?_⟩
      by_contra hnot
      have hzero : (((y :: L).length : Int) - max).toNat = 0 := by omega
      rw [hzero] at h
      cases h
    rw [hn, List.take_succ_cons] at h
    obtain ⟨rfl, rfl⟩ := List.cons.inj h
    rw [List.erase_cons_head]
    congr 1
    rw [List.length_cons] at hn
    omega

theorem take_head {n : Nat} (h : L.take n = x :: rest) : L.head? = some x := by
  cases L with
  | nil => simp at h
  | cons y L =>
    cases n with
    | zero => cases h
    | succ n =>
      rw [List.take_succ_cons] at h
      exact congrArg some (List.cons.inj h).1

end Take

section Queues

variable (db : Db) (settings : ServerSettings) (clientid : Nat)

/-- The full backups that are not known to fail, oldest first. -/
def fulls (s : Cleanup) : List Nat :=
  noErr s.removeerr (db.getFullNumFiles clientid)

def incrs (s : Cleanup) : List Nat :=
  noErr s.removeerr (db.getIncrNumFiles clientid)

def NoneDeleted (s : Cleanup) : Prop :=
  ∀ a ∈ s.attempts, a.deleted = false

/-- The last full backup is kept for incremental ones, and the first loop would come to it. -/
def KeepsLastFull (max_file_full : Int) : Prop :=
  0 < settings.max_file_incr ∧ 0 ≤ settings.update_freq_file_incr ∧ max_file_full ≤ 0

/-- The first loop where it does not come to the last full backup. -/
structure FullQueue (max_file_full : Int) (kept L : List Nat) (s : Cleanup) : Prop where
  queue : (fulls db clientid s).take ((fulls db clientid s).length - max_file_full).toNat = L
  last : KeepsLastFull settings max_file_full → fulls db clientid s = []
  incrs : incrs db clientid s = kept
  undeleted : NoneDeleted s

/-- In place of the last full backup the first loop deletes the incremental ones. -/
structure LastQueue (max_file_full : Int) (L : List Nat) (s : Cleanup) : Prop where
  queue : (fulls db clientid s).dropLast ++ incrs db clientid s = L
  last : KeepsLastFull settings max_file_full
  fulls : fulls db clientid s ≠ []
  undeleted : NoneDeleted s

structure IncrQueue (max_file_incr : Int) (L : List Nat) (s : Cleanup) : Prop where
  queue : (incrs db clientid s).take ((incrs db clientid s).length - max_file_incr).toNat = L
  undeleted : NoneDeleted s

end Queues

section Serves

variable {db : Db} {settings : ServerSettings} {removal : Nat → Nat → Removal} {clientid : Nat} {loop : Loop} {s : Cleanup} {bid : Nat}
  {max_file_full max_file_incr : Int}

theorem fulls_sub {x : Nat} (h : x ∈ fulls db clientid s) : x ∈ db.getFullNumFiles clientid :=
  mem_of_noErr h

theorem incrs_sub {x : Nat} (h : x ∈ incrs db clientid s) : x ∈ db.getIncrNumFiles clientid :=
  mem_of_noErr h

theorem noneDeleted_delete (hout : outcome db settings removal clientid bid (s.tries bid) ≠ .done) (h : NoneDeleted s) :
    NoneDeleted (s.delete db settings removal clientid loop bid).2 := by
  have hfst : (s.delete db settings removal clientid loop bid).1 = false := by
    rw [← Bool.not_eq_true, delete_fst]
    exact hout
  intro a ha
  obtain rfl | ha := List.mem_cons.mp ha
  · exact hfst
  · exact h a ha

section Skip

variable (hskip : outcome db settings removal clientid bid (s.tries bid) = .skip)

include hskip

theorem fulls_delete : fulls db clientid (s.delete db settings removal clientid loop bid).2 = (fulls db clientid s).erase bid :=
  delete_skip hskip (nodup_getNumFiles db false clientid)

theorem incrs_delete : incrs db clientid (s.delete db settings removal clientid loop bid).2 = (incrs db clientid s).erase bid :=
  delete_skip hskip (nodup_getNumFiles db true clientid)

end Skip

theorem fulls_again (hagain : outcome db settings removal clientid bid (s.tries bid) = .again) :
    fulls db clientid (s.delete db settings removal clientid loop bid).2 = fulls db clientid s :=
  congrArg (noErr · _) (delete_again hagain)

theorem incrs_again (hagain : outcome db settings removal clientid bid (s.tries bid) = .again) :
    incrs db clientid (s.delete db settings removal clientid loop bid).2 = incrs db clientid s :=
  congrArg (noErr · _) (delete_again hagain)

theorem mem_take_head {L rest : List Nat} {x n : Nat} (h : L.take n = x :: rest) : x ∈ L :=
  List.mem_of_mem_take (h ▸ List.mem_cons_self)

theorem incrLoop_serves : Serves (incrTarget db clientid max_file_incr) (attempt db settings removal clientid .incr)
    (outcome db settings removal clientid) Cleanup.tries (IncrQueue db clientid max_file_incr) where
  target := fun {L s} hQ => by
    rw [← hQ.queue, ← take_target]
    rfl
  outcome := fun _ => rfl
  tried := fun _ => tries_delete
  skip := fun {x L s} hQ hskip => ⟨by rw [attempt, incrs_delete hskip]; exact take_erase hQ.queue,
    noneDeleted_delete (by simp [hskip]) hQ.undeleted⟩
  again := fun {x L s} hQ hagain => ⟨by rw [attempt, incrs_again hagain]; exact hQ.queue,
    noneDeleted_delete (by simp [hagain]) hQ.undeleted⟩

theorem fullLoopGoes_plain {n bid : Nat} (hlast : ¬(KeepsLastFull settings max_file_full ∧ n = 1)) :
    fullLoopGoes db settings clientid max_file_full n bid s = (decide (max_file_full < (n : Int)) && decide (0 < n), bid) := by
  rw [fullLoopGoes]
  split
  next hgoes =>
    have hguard : ¬(decide (n = 1) && decide (0 < settings.max_file_incr) && decide (0 ≤ settings.update_freq_file_incr)) = true := by
      simp only [Bool.and_eq_true, decide_eq_true_eq] at hgoes ⊢
      rintro ⟨⟨hone, hincr⟩, hfreq⟩
      exact hlast ⟨⟨hincr, hfreq, by omega⟩, hone⟩
    rw [if_neg hguard, hgoes]
  next hstops => rw [Bool.not_eq_true] at hstops; rw [hstops]

theorem fullLoopGoes_last {bid : Nat} (hlast : KeepsLastFull settings max_file_full) :
    fullLoopGoes db settings clientid max_file_full 1 bid s = (decide ((incrs db clientid s).length ≠ 0), (incrs db clientid s).headD bid) := by
  obtain ⟨hincr, hfreq, hmax⟩ := hlast
  have hgoes : (decide (max_file_full < ((1 : Nat) : Int)) && decide (0 < 1)) = true := by
    simp only [Bool.and_eq_true, decide_eq_true_eq]
    omega
  have hguard : (decide (1 = 1) && decide (0 < settings.max_file_incr) && decide (0 ≤ settings.update_freq_file_incr)) = true := by
    simp only [Bool.and_eq_true, decide_eq_true_eq]
    exact ⟨⟨trivial, hincr⟩, hfreq⟩
  rw [fullLoopGoes, if_pos hgoes, if_pos hguard]
  rfl

theorem fullTarget_eq (hlast : ¬(KeepsLastFull settings max_file_full ∧ (fulls db clientid s).length = 1)) :
    fullTarget db settings clientid max_file_full s =
      if max_file_full < ((fulls db clientid s).length : Int) && 0 < (fulls db clientid s).length then some ((fulls db clientid s).headD 0)
      else none := by
  have hnum : getFilesFullNum db clientid s 0 = ((fulls db clientid s).length, (fulls db clientid s).headD 0) := rfl
  rw [fullTarget, hnum]
  dsimp only
  rw [fullLoopGoes_plain hlast]

theorem fullLoop_serves {kept : List Nat} (hkept : ∀ x ∈ kept, x ∈ db.getIncrNumFiles clientid) :
    Serves (fullTarget db settings clientid max_file_full) (attempt db settings removal clientid .full)
      (outcome db settings removal clientid) Cleanup.tries (FullQueue db settings clientid max_file_full kept) where
  target := fun {L s} hQ => by
    rw [← hQ.queue, ← take_target, fullTarget_eq]
    rintro ⟨hlast, hone⟩
    rw [hQ.last hlast] at hone
    cases hone
  outcome := fun _ => rfl
  tried := fun _ => tries_delete
  skip := fun {x L s} hQ hskip => by
    have hx := fulls_sub (mem_take_head hQ.queue)
    refine ⟨by rw [attempt, fulls_delete hskip]; exact take_erase hQ.queue, fun hlast => ?_, ?_,
      noneDeleted_delete (by simp [hskip]) hQ.undeleted⟩
    · rw [attempt, fulls_delete hskip, hQ.last hlast]
      rfl
    · rw [attempt, incrs_delete hskip, hQ.incrs]
      exact List.erase_of_not_mem fun hmem => full_ne_incr hx (hkept x hmem) rfl
  again := fun {x L s} hQ hagain => ⟨by rw [attempt, fulls_again hagain]; exact hQ.queue,
    fun hlast => by rw [attempt, fulls_again hagain]; exact hQ.last hlast, by rw [attempt, incrs_again hagain]; exact hQ.incrs,
    noneDeleted_delete (by simp [hagain]) hQ.undeleted⟩

theorem lastTarget (hlast : KeepsLastFull settings max_file_full) (hfulls : fulls db clientid s ≠ []) :
    fullTarget db settings clientid max_file_full s = ((fulls db clientid s).dropLast ++ incrs db clientid s).head? := by
  obtain ⟨x, F, hF⟩ := List.exists_cons_of_ne_nil hfulls
  rcases F with _ | ⟨y, F⟩
  · have hnum : getFilesFullNum db clientid s 0 = (1, x) := by
      rw [getFilesFullNum, ← fulls, hF]
      rfl
    rw [fullTarget, hnum, hF]
    dsimp only
    rw [fullLoopGoes_last hlast]
    cases incrs db clientid s <;> simp
  · have hmax := hlast.2.2
    rw [fullTarget_eq (by rw [hF]; rintro ⟨-, hone⟩; cases hone), hF, if_pos]
    · rfl
    · simp only [List.length_cons, Bool.and_eq_true, decide_eq_true_eq]
      omega

theorem lastLoop_serves : Serves (fullTarget db settings clientid max_file_full) (attempt db settings removal clientid .full)
    (outcome db settings removal clientid) Cleanup.tries (LastQueue db settings clientid max_file_full) where
  target := fun {L s} hQ => by rw [← hQ.queue, lastTarget hQ.last hQ.fulls]
  outcome := fun _ => rfl
  tried := fun _ => tries_delete
  skip := fun {x L s} hQ hskip => by
    have hqueue := hQ.queue
    have hfulls := hQ.fulls
    have hfull : ∀ y ∈ fulls db clientid s, y ∈ db.getFullNumFiles clientid := fun y => fulls_sub
    have hincr : ∀ y ∈ incrs db clientid s, y ∈ db.getIncrNumFiles clientid := fun y => incrs_sub
    have hkeeps : (fulls db clientid s).erase x ≠ [] ∧ ((fulls db clientid s).erase x).dropLast ++ (incrs db clientid s).erase x = L := by
      generalize fulls db clientid s = F at hqueue hfulls hfull
      generalize incrs db clientid s = I at hqueue hincr
      obtain ⟨y, F, rfl⟩ := List.exists_cons_of_ne_nil hfulls
      rcases F with _ | ⟨z, F⟩
      · -- the last full backup stays
        have hI : I = x :: L := by simpa using hqueue
        have hyx : y ≠ x := full_ne_incr (hfull y List.mem_cons_self) (hincr x (hI ▸ List.mem_cons_self))
        rw [List.erase_of_not_mem (by simpa using hyx.symm), hI, List.erase_cons_head]
        exact ⟨by simp, rfl⟩
      · rw [List.dropLast_cons_of_ne_nil (List.cons_ne_nil z F), List.cons_append] at hqueue
        obtain ⟨rfl, rfl⟩ := List.cons.inj hqueue
        have hnot : y ∉ I := fun hmem => full_ne_incr (hfull y List.mem_cons_self) (hincr y hmem) rfl
        rw [List.erase_cons_head, List.erase_of_not_mem hnot]
        exact ⟨by simp, rfl⟩
    exact ⟨by rw [attempt, fulls_delete hskip, incrs_delete hskip]; exact hkeeps.2, hQ.last,
      by rw [attempt, fulls_delete hskip]; exact hkeeps.1, noneDeleted_delete (by simp [hskip]) hQ.undeleted⟩
  again := fun {x L s} hQ hagain => ⟨by rw [attempt, fulls_again hagain, incrs_again hagain]; exact hQ.queue, hQ.last,
    by rw [attempt, fulls_again hagain]; exact hQ.fulls, noneDeleted_delete (by simp [hagain]) hQ.undeleted⟩

end Serves

section Statement

variable (db : Db) (settings : ServerSettings) (removal : Nat → Nat → Removal) (clientid : Nat)

/-- The backup has been the oldest one of its kind that was not known to fail. -/
def Attempt.Oldest (a : Attempt) : Prop :=
  match a.loop with
  | .full => (noErr a.removeerr (db.getFullNumFiles clientid)).head? = some a.backupid
  | .incr => (noErr a.removeerr (db.getIncrNumFiles clientid)).head? = some a.backupid

/-- The cleanup returns, and what it has deleted has been the oldest backup. -/
def MakesProgress (minspace : Int) (backupid : Nat) (removeerr : List Nat) : Prop :=
  ∃ fuel ret s, cleanup_one_filebackup_client db settings removal clientid fuel minspace backupid removeerr = some (ret, s) ∧
    ∀ a ∈ s.attempts, a.deleted = true → a.Oldest db clientid

/-- The last attempt at each of them fails and is remembered. -/
def Remembered (L : List Nat) : Prop :=
  ∀ x ∈ L, Ends (outcome db settings removal clientid) x .skip

/-- One of them is deleted in the end, and those before it are remembered. -/
def Deletes (L : List Nat) : Prop :=
  ∃ pre x rest, L = pre ++ x :: rest ∧ Remembered db settings removal clientid pre ∧ Ends (outcome db settings removal clientid) x .done

/-- No deletion fails for ever without being remembered, and none takes the place of the last full
backup. -/
structure DeletionsEnd (minspace : Int) (removeerr : List Nat) : Prop where
  plain : ¬(KeepsLastFull settings (maxFileFull settings minspace) ∧ fulls db clientid ⟨removeerr, []⟩ ≠ []) →
    let full := (fulls db clientid ⟨removeerr, []⟩).take ((fulls db clientid ⟨removeerr, []⟩).length - maxFileFull settings minspace).toNat
    let incr := (incrs db clientid ⟨removeerr, []⟩).take ((incrs db clientid ⟨removeerr, []⟩).length - maxFileIncr settings minspace).toNat
    Deletes db settings removal clientid full ∨ Remembered db settings removal clientid full ∧
      (Deletes db settings removal clientid incr ∨ Remembered db settings removal clientid incr)
  last : KeepsLastFull settings (maxFileFull settings minspace) ∧ fulls db clientid ⟨removeerr, []⟩ ≠ [] →
    let full := (fulls db clientid ⟨removeerr, []⟩).dropLast
    Deletes db settings removal clientid full ∨
      Remembered db settings removal clientid full ∧ Remembered db settings removal clientid (incrs db clientid ⟨removeerr, []⟩)

end Statement

section Ends

variable {db : Db} {settings : ServerSettings} {removal : Nat → Nat → Removal} {clientid : Nat} {minspace : Int} {backupid : Nat}
  {removeerr : List Nat} {s s' : Cleanup} {loop : Loop} {x : Nat}

/-- The cleanup is one loop behind the other. -/
theorem cleanup_iff {ret : Bool} :
    (∃ fuel, cleanup_one_filebackup_client db settings removal clientid fuel minspace backupid removeerr = some (ret, s)) ↔
    (∃ fuel x, drain (fullTarget db settings clientid (maxFileFull settings minspace)) (attempt db settings removal clientid .full) fuel
      ⟨removeerr, []⟩ = some (some x, s) ∧ ret = true) ∨
    ∃ fuel s₁ fuel' r, drain (fullTarget db settings clientid (maxFileFull settings minspace)) (attempt db settings removal clientid .full) fuel
      ⟨removeerr, []⟩ = some (none, s₁) ∧
      drain (incrTarget db clientid (maxFileIncr settings minspace)) (attempt db settings removal clientid .incr) fuel' s₁ = some (r, s) ∧
        ret = r.isSome := by
  have hfull := @fullLoop_eq db settings removal clientid (maxFileFull settings minspace)
  have hincr := @incrLoop_eq db settings removal clientid (maxFileIncr settings minspace)
  constructor
  · rintro ⟨fuel, h⟩
    have hmap := hfull fuel ⟨removeerr, []⟩ backupid
    rw [cleanup_one_filebackup_client] at h
    dsimp only at h
    split at h
    next => cases h
    next hloop =>
      rw [hloop, Option.map_some] at hmap
      obtain ⟨⟨r, s₁⟩, hdrain, heq⟩ := Option.map_eq_some_iff.mp hmap.symm
      obtain ⟨hr, rfl⟩ := Prod.mk.inj heq
      obtain ⟨rfl, rfl⟩ := Prod.mk.inj (Option.some.inj h)
      obtain ⟨x, rfl⟩ := Option.isSome_iff_exists.mp hr
      exact .inl ⟨fuel, x, hdrain, rfl⟩
    next hloop =>
      rw [hloop, Option.map_some] at hmap
      obtain ⟨⟨r, s₁⟩, hdrain, heq⟩ := Option.map_eq_some_iff.mp hmap.symm
      obtain ⟨hr, rfl⟩ := Prod.mk.inj heq
      obtain rfl := Option.isNone_iff_eq_none.mp (by simpa using hr)
      rw [hincr] at h
      obtain ⟨⟨r', s₂⟩, hdrain', heq'⟩ := Option.map_eq_some_iff.mp h
      obtain ⟨rfl, rfl⟩ := Prod.mk.inj heq'
      exact .inr ⟨fuel, s₁, fuel, r', hdrain, hdrain', rfl⟩
  · rintro (⟨fuel, x, hdrain, rfl⟩ | ⟨fuel, s₁, fuel', r, hdrain, hdrain', rfl⟩)
    · have hmap := hfull fuel ⟨removeerr, []⟩ backupid
      rw [hdrain, Option.map_some] at hmap
      obtain ⟨⟨b, bid, s₁⟩, hloop, heq⟩ := Option.map_eq_some_iff.mp hmap
      simp only [Prod.mk.injEq, Option.isSome_some] at heq
      obtain ⟨rfl, rfl⟩ := heq
      exact ⟨fuel, by rw [cleanup_one_filebackup_client]; dsimp only; rw [hloop]⟩
    · have hmap := hfull (fuel + fuel') ⟨removeerr, []⟩ backupid
      rw [drain_more hdrain fuel', Option.map_some] at hmap
      obtain ⟨⟨b, bid, s₂⟩, hloop, heq⟩ := Option.map_eq_some_iff.mp hmap
      simp only [Prod.mk.injEq, Option.isSome_none] at heq
      obtain ⟨rfl, rfl⟩ := heq
      have hmore := drain_more hdrain' fuel
      rw [Nat.add_comm] at hmore
      refine ⟨fuel + fuel', ?_⟩
      rw [cleanup_one_filebackup_client]
      dsimp only
      rw [hloop]
      dsimp only
      rw [hincr, hmore]
      rfl

theorem oldest_attempts (hundeleted : NoneDeleted s) (hdone : outcome db settings removal clientid x (s.tries x) = .done) :
    (∀ a ∈ (attempt db settings removal clientid loop s x).2.attempts, a.deleted = true → a.Oldest db clientid) ↔
      (Attempt.mk loop x s.removeerr true).Oldest db clientid := by
  have hattempts : (attempt db settings removal clientid loop s x).2.attempts = ⟨loop, x, s.removeerr, true⟩ :: s.attempts := by
    have hfst := (@delete_fst _ _ _ _ loop _ _).mpr hdone
    rw [attempt, ← hfst]
    rfl
  rw [hattempts, List.forall_mem_cons]
  exact ⟨fun h => h.1 rfl, fun h => ⟨fun _ => h, fun a ha hdeleted => by rw [hundeleted a ha] at hdeleted; cases hdeleted⟩⟩

theorem oldest_none (hundeleted : NoneDeleted s) : ∀ a ∈ s.attempts, a.deleted = true → a.Oldest db clientid :=
  fun a ha hdeleted => by rw [hundeleted a ha] at hdeleted; cases hdeleted

/-- The second loop: it ends where the deletions in it end, and deletes the oldest. -/
theorem incrLoop_ends {L : List Nat} (hQ : IncrQueue db clientid (maxFileIncr settings minspace) L s) (hfresh : ∀ x ∈ L, s.tries x = 0) :
    (∃ fuel r s', drain (incrTarget db clientid (maxFileIncr settings minspace)) (attempt db settings removal clientid .incr) fuel s =
        some (r, s') ∧ ∀ a ∈ s'.attempts, a.deleted = true → a.Oldest db clientid) ↔
      Deletes db settings removal clientid L ∨ Remembered db settings removal clientid L := by
  have hserves := @incrLoop_serves db settings removal clientid (maxFileIncr settings minspace)
  have hnodup : L.Nodup := by
    rw [← hQ.queue]
    exact (nodup_noErr (nodup_getNumFiles db true clientid) _).sublist (List.take_sublist _ _)
  constructor
  · rintro ⟨fuel, r, s', hdrain, -⟩
    exact (hserves.of_drain hnodup hQ hfresh hdrain).symm
  · rintro (⟨pre, x, rest, rfl, hpre, hdone⟩ | hall)
    · obtain ⟨s', fuel, hQ', hout, hdrain⟩ := hserves.drain_some hpre hdone hnodup hQ hfresh
      refine ⟨fuel, some x, _, hdrain, (oldest_attempts hQ'.undeleted hout).mpr ?_⟩
      exact take_head hQ'.queue
    · obtain ⟨s', fuel, hQ', -, hdrain⟩ := hserves.drain_none hall hnodup hQ hfresh
      exact ⟨fuel, none, s', hdrain, oldest_none hQ'.undeleted⟩

theorem full_incr_nodup {F I : List Nat} (hF : F.Nodup) (hI : I.Nodup) (hfull : ∀ x ∈ F, x ∈ db.getFullNumFiles clientid)
    (hincr : ∀ x ∈ I, x ∈ db.getIncrNumFiles clientid) : (F ++ I).Nodup :=
  List.nodup_append'.mpr ⟨hF, hI, fun _ hx hx' => full_ne_incr (hfull _ hx) (hincr _ hx') rfl⟩

/-- Without the last full backup the loops delete one after the other. -/
theorem plain_iff (hlast : ¬(KeepsLastFull settings (maxFileFull settings minspace) ∧ fulls db clientid ⟨removeerr, []⟩ ≠ [])) :
    let full := (fulls db clientid ⟨removeerr, []⟩).take ((fulls db clientid ⟨removeerr, []⟩).length - maxFileFull settings minspace).toNat
    let incr := (incrs db clientid ⟨removeerr, []⟩).take ((incrs db clientid ⟨removeerr, []⟩).length - maxFileIncr settings minspace).toNat
    MakesProgress db settings removal clientid minspace backupid removeerr ↔
      Deletes db settings removal clientid full ∨ Remembered db settings removal clientid full ∧
        (Deletes db settings removal clientid incr ∨ Remembered db settings removal clientid incr) := by
  intro full incr
  have hserves := @fullLoop_serves _ settings removal _ (maxFileFull settings minspace)
    (incrs db clientid ⟨removeerr, []⟩) fun x => incrs_sub
  have hQ : FullQueue db settings clientid (maxFileFull settings minspace) (incrs db clientid ⟨removeerr, []⟩) full ⟨removeerr, []⟩ :=
    ⟨rfl, fun hkeeps => by_contra fun hne => hlast ⟨hkeeps, hne⟩, rfl, nofun⟩
  have hsub : ∀ x ∈ full, x ∈ db.getFullNumFiles clientid := fun x hx => fulls_sub (List.mem_of_mem_take hx)
  have hnodup : full.Nodup := (nodup_noErr (nodup_getNumFiles db false clientid) _).sublist (List.take_sublist _ _)
  -- what the second loop starts from
  have hsecond : Remembered db settings removal clientid full → ∃ s₁ fuel,
      drain (fullTarget db settings clientid (maxFileFull settings minspace)) (attempt db settings removal clientid .full) fuel
        ⟨removeerr, []⟩ = some (none, s₁) ∧ IncrQueue db clientid (maxFileIncr settings minspace) incr s₁ ∧ ∀ x ∈ incr, s₁.tries x = 0 := by
    intro hall
    obtain ⟨s₁, fuel, hQ₁, htries, hdrain⟩ := hserves.drain_none hall hnodup hQ fun _ _ => rfl
    refine ⟨s₁, fuel, hdrain, ⟨by rw [hQ₁.incrs], hQ₁.undeleted⟩, fun x hx => ?_⟩
    rw [htries x fun hfull => full_ne_incr (hsub x hfull) (incrs_sub (List.mem_of_mem_take hx)) rfl]
    rfl
  constructor
  · rintro ⟨fuel, ret, s, hcleanup, holdest⟩
    obtain ⟨fuel, x, hdrain, -⟩ | ⟨fuel, s₁, fuel', r, hdrain, hdrain', -⟩ := cleanup_iff.mp ⟨fuel, hcleanup⟩
    · obtain hall | hdeletes := hserves.of_drain hnodup hQ (fun _ _ => rfl) hdrain
      · obtain ⟨s₁, fuel', hnone, -⟩ := hsecond hall
        cases drain_unique hdrain hnone
      · exact .inl hdeletes
    · obtain hall | hdeletes := hserves.of_drain hnodup hQ (fun _ _ => rfl) hdrain
      · obtain ⟨s₂, fuel₂, hnone, hQ₂, hfresh⟩ := hsecond hall
        obtain ⟨-, rfl⟩ := Prod.mk.inj (drain_unique hdrain hnone)
        exact .inr ⟨hall, (incrLoop_ends hQ₂ hfresh).mp ⟨fuel', r, s, hdrain', holdest⟩⟩
      · exact .inl hdeletes
  · rintro (⟨pre, x, rest, hfull, hpre, hdone⟩ | ⟨hall, hincr⟩)
    · rw [hfull] at hQ hnodup
      obtain ⟨s', fuel, hQ', hout, hdrain⟩ := hserves.drain_some hpre hdone hnodup hQ fun _ _ => rfl
      obtain ⟨fuel, hcleanup⟩ := cleanup_iff.mpr (.inl ⟨fuel, x, hdrain, rfl⟩)
      exact ⟨fuel, true, _, hcleanup, (oldest_attempts hQ'.undeleted hout).mpr (take_head hQ'.queue)⟩
    · obtain ⟨s₁, fuel, hnone, hQ₁, hfresh⟩ := hsecond hall
      obtain ⟨fuel', r, s', hdrain', holdest⟩ := (incrLoop_ends hQ₁ hfresh).mpr hincr
      obtain ⟨fuel, hcleanup⟩ := cleanup_iff.mpr (.inr ⟨fuel, s₁, fuel', r, hnone, hdrain', rfl⟩)
      exact ⟨fuel, r.isSome, s', hcleanup, holdest⟩

/-- An incremental backup that is deleted in place of the last full one has not been the oldest
full backup. -/
theorem last_iff (hlast : KeepsLastFull settings (maxFileFull settings minspace)) (hne : fulls db clientid ⟨removeerr, []⟩ ≠ []) :
    let full := (fulls db clientid ⟨removeerr, []⟩).dropLast
    let incr := incrs db clientid ⟨removeerr, []⟩
    MakesProgress db settings removal clientid minspace backupid removeerr ↔
      Deletes db settings removal clientid full ∨ Remembered db settings removal clientid full ∧ Remembered db settings removal clientid incr := by
  intro full incr
  have hserves := @lastLoop_serves db settings removal clientid (maxFileFull settings minspace)
  have hQ : LastQueue db settings clientid (maxFileFull settings minspace) (full ++ incr) ⟨removeerr, []⟩ := ⟨rfl, hlast, hne, nofun⟩
  have hfull : ∀ x ∈ full, x ∈ db.getFullNumFiles clientid := fun x hx => fulls_sub (List.mem_of_mem_dropLast hx)
  have hincr : ∀ x ∈ incr, x ∈ db.getIncrNumFiles clientid := fun x => incrs_sub
  have hnodup : (full ++ incr).Nodup :=
    full_incr_nodup ((nodup_noErr (nodup_getNumFiles db false clientid) _).sublist (List.dropLast_sublist _))
      (nodup_noErr (nodup_getNumFiles db true clientid) _) hfull hincr
  constructor
  · rintro ⟨fuel, ret, s, hcleanup, holdest⟩
    obtain ⟨fuel, o, s₁, hdrain, hends⟩ : ∃ fuel o s₁, drain (fullTarget db settings clientid (maxFileFull settings minspace))
        (attempt db settings removal clientid .full) fuel ⟨removeerr, []⟩ = some (o, s₁) ∧ (o ≠ none → s₁ = s) := by
      obtain ⟨fuel, x, hdrain, -⟩ | ⟨fuel, s₁, -, -, hdrain, -⟩ := cleanup_iff.mp ⟨fuel, hcleanup⟩
      · exact ⟨fuel, some x, s, hdrain, fun _ => rfl⟩
      · exact ⟨fuel, none, s₁, hdrain, fun h => absurd rfl h⟩
    obtain hall | ⟨pre, x, rest, heq, hpre, hdone⟩ := hserves.of_drain hnodup hQ (fun _ _ => rfl) hdrain
    · exact .inr ⟨fun x hx => hall x (List.mem_append_left _ hx), fun x hx => hall x (List.mem_append_right _ hx)⟩
    · left
      rw [heq] at hQ hnodup
      obtain ⟨s', fuel', hQ', hout, hdrain'⟩ := hserves.drain_some hpre hdone hnodup hQ fun _ _ => rfl
      obtain ⟨rfl, rfl⟩ := Prod.mk.inj (drain_unique hdrain hdrain')
      obtain rfl := hends nofun
      have hhead : (fulls db clientid s').head? = some x := (oldest_attempts hQ'.undeleted hout).mp holdest
      have hx : x ∈ db.getFullNumFiles clientid := fulls_sub (List.mem_of_mem_head? hhead)
      obtain ⟨as, hpre', hrest⟩ | ⟨bs, hpre', hrest⟩ := List.append_eq_append_iff.mp heq
      · exact absurd rfl (full_ne_incr hx (hincr x (by rw [hrest]; simp)))
      · cases bs with
        | nil => exact absurd rfl (full_ne_incr hx (hincr x (by rw [List.nil_append] at hrest; rw [← hrest]; exact List.mem_cons_self)))
        | cons y bs =>
          obtain ⟨rfl, -⟩ := List.cons.inj hrest
          exact ⟨pre, x, bs, hpre', hpre, hdone⟩
  · rintro (⟨pre, x, rest, heq, hpre, hdone⟩ | ⟨hall, hall'⟩)
    · have hx : x ∈ db.getFullNumFiles clientid := hfull x (by rw [heq]; simp)
      rw [heq, List.append_assoc, List.cons_append] at hQ hnodup
      obtain ⟨s', fuel, hQ', hout, hdrain⟩ := hserves.drain_some hpre hdone hnodup hQ fun _ _ => rfl
      obtain ⟨fuel, hcleanup⟩ := cleanup_iff.mpr (.inl ⟨fuel, x, hdrain, rfl⟩)
      refine ⟨fuel, true, _, hcleanup, (oldest_attempts hQ'.undeleted hout).mpr ?_⟩
      have hqueue := hQ'.queue
      rw [Attempt.Oldest, ← fulls]
      cases hdrop : (fulls db clientid s').dropLast with
      | nil =>
        rw [hdrop, List.nil_append] at hqueue
        exact absurd rfl (full_ne_incr hx (incrs_sub (hqueue ▸ List.mem_cons_self)))
      | cons y L =>
        rw [hdrop, List.cons_append] at hqueue
        obtain ⟨rfl, -⟩ := List.cons.inj hqueue
        rw [List.dropLast_eq_take] at hdrop
        exact take_head hdrop
    · have hboth : ∀ x ∈ full ++ incr, Ends (outcome db settings removal clientid) x .skip := fun x hx =>
        (List.mem_append.mp hx).elim (hall x) (hall' x)
      obtain ⟨s₁, fuel, hQ₁, -, hnone⟩ := hserves.drain_none hboth hnodup hQ fun _ _ => rfl
      have hincrs : incrs db clientid s₁ = [] := (List.append_eq_nil_iff.mp hQ₁.queue).2
      have hQ₂ : IncrQueue db clientid (maxFileIncr settings minspace) [] s₁ := ⟨by rw [hincrs, List.take_nil], hQ₁.undeleted⟩
      obtain ⟨fuel', r, s', hdrain', holdest⟩ := (incrLoop_ends hQ₂ nofun).mpr (.inr nofun)
      obtain ⟨fuel, hcleanup⟩ := cleanup_iff.mpr (.inr ⟨fuel, s₁, fuel', r, hnone, hdrain', rfl⟩)
      exact ⟨fuel, r.isSome, s', hcleanup, holdest⟩

/-- The cleanup returns and deletes the oldest backup only, just when its deletions end. -/
theorem makesProgress_iff : MakesProgress db settings removal clientid minspace backupid removeerr ↔
    DeletionsEnd db settings removal clientid minspace removeerr := by
  by_cases hlast : KeepsLastFull settings (maxFileFull settings minspace) ∧ fulls db clientid ⟨removeerr, []⟩ ≠ []
  · exact (last_iff hlast.1 hlast.2).trans ⟨fun h => ⟨fun hnot => absurd hlast hnot, fun _ => h⟩, fun h => h.last hlast⟩
  · exact (plain_iff hlast).trans ⟨fun h => ⟨fun _ => h, fun hnot => absurd hnot hlast⟩, fun h => h.plain hlast⟩

end Ends

section Referenced

/-- Two full backups and one that refers to the older of them. -/
def referencedDb : Db where
  backups := [⟨1, 1, 0, 0, 10, true, 0, 0, [97]⟩, ⟨2, 1, 1, 1, 20, true, 0, 0, [98]⟩, ⟨3, 1, 0, 0, 30, true, 0, 0, [99]⟩]
  clients := [(1, [120])]
  unique := by decide

/-- One full backup is to be kept, and every directory can be removed. The older full backup is
not deleted because of the reference, and it is tried for ever. -/
theorem not_makesProgress_referenced : ¬MakesProgress referencedDb ⟨1, 10, 1, 10, 3600, [47]⟩ (fun _ _ => ⟨none, true, false, false⟩) 1 (-1) 0 [] := by
  have hagain : ∀ o, ¬Ends (outcome referencedDb ⟨1, 10, 1, 10, 3600, [47]⟩ (fun _ _ => ⟨none, true, false, false⟩) 1) 1 o := by
    rintro o ⟨hne, k, hk, -⟩
    exact hne hk.symm
  intro h
  obtain ⟨pre, x, rest, heq, hpre, hdone⟩ | ⟨hall, -⟩ := (plain_iff (by rintro ⟨⟨-, -, hmax⟩, -⟩; exact absurd hmax (by decide))).mp h
  · rcases pre with _ | ⟨y, pre⟩
    · obtain rfl : 1 = x := (List.cons.inj heq).1
      exact hagain _ hdone
    · obtain rfl : 1 = y := (List.cons.inj heq).1
      exact hagain _ (hpre _ List.mem_cons_self)
  · exact hagain _ (hall 1 (by decide))

end Referenced

end urbackup.filecleanup
