import Mathlib.Data.List.Sort
import UrBackup.FileList.StringTools
import UrBackup.RetryLoop.Drain

namespace urbackup.filecleanup

open stringtools retryloop

section Tables

/-- A row of `backups`. `running_old` says that it has not been touched for five minutes. -/
structure Backup where
  id : Nat
  clientid : Nat
  incremental : Int
  incremental_ref : Nat
  backuptime : Int
  running_old : Bool
  archived : Int
  delete_client_pending : Int
  path : Bytes
  deriving DecidableEq

structure Db where
  backups : List Backup
  clients : List (Nat × Bytes)
  unique : (backups.map Backup.id).Nodup

namespace Db

variable (db : Db)

/-- The backups of a client that the cleanup counts, oldest first. -/
def getNumFiles (incremental : Bool) (clientid : Nat) : List Nat :=
  ((db.backups.filter fun b => b.clientid = clientid && decide (b.incremental ≠ 0) == incremental && b.running_old && b.archived = 0 &&
    b.delete_client_pending ≠ 1).insertionSort fun a b => a.backuptime ≤ b.backuptime).map Backup.id

def getFullNumFiles (clientid : Nat) : List Nat :=
  db.getNumFiles false clientid

def getIncrNumFiles (clientid : Nat) : List Nat :=
  db.getNumFiles true clientid

def getFileBackup (backupid : Nat) : Option Backup :=
  db.backups.find? fun b => b.id = backupid

def getFileBackupRefs (backupid : Nat) : List Backup :=
  db.backups.filter fun b => b.incremental ≠ 0 && b.incremental_ref = backupid && b.delete_client_pending ≠ 1

def getClientName (clientid : Nat) : Option Bytes :=
  (db.clients.find? fun c => c.1 = clientid).map Prod.snd

end Db

end Tables

section Delete

structure ServerSettings where
  max_file_full : Int
  max_file_incr : Int
  min_file_full : Int
  min_file_incr : Int
  update_freq_file_incr : Int
  backupfolder : Bytes

/-- What a deletion meets: what `delete_local_backup` answers where the backup is a local one,
whether its directory is removed, and whether it is there when it is looked for. -/
structure Removal where
  delete_local_backup : Option Bool
  removed : Bool
  exists_unremoved : Bool
  exists_after : Bool

/-- Without `force_remove` and without `remove_references`. The backups that are remembered in
`removeerr` come with the answer. -/
def deleteFileBackup (db : Db) (backupfolder : Bytes) (removal : Removal) (clientid backupid : Nat) : Bool × List Nat :=
  match db.getClientName clientid, db.getFileBackup backupid with
  | some clientname, some backup =>
    if backup.clientid ≠ clientid then (false, [])
    else if backup.path = [] ∨ backupfolder = [] ∨ clientname = [] then (false, [])
    else if db.getFileBackupRefs backupid ≠ [] then (false, [])
    else
      match removal.delete_local_backup with
      | some b => (b, [])
      | none =>
        let removeerr := (if !removal.removed && removal.exists_unremoved then [backupid] else []) ++
          if removal.exists_after then [backupid] else []
        (removeerr = [], removeerr)
  | _, _ => (false, [])

end Delete

section Cleanup

/-- The loop over the full backups, and the one over the incremental ones. -/
inductive Loop
  | full
  | incr
  deriving DecidableEq

/-- A call of `deleteFileBackup`, with what has been in `removeerr` before it. -/
structure Attempt where
  loop : Loop
  backupid : Nat
  removeerr : List Nat
  deleted : Bool

structure Cleanup where
  removeerr : List Nat
  attempts : List Attempt

variable (db : Db) (settings : ServerSettings) (removal : Nat → Nat → Removal) (clientid : Nat)

def noErr (removeerr res : List Nat) : List Nat :=
  if removeerr ≠ [] then res.filter fun bid => !removeerr.contains bid else res

def getFilesFullNum (s : Cleanup) (backupid_top : Nat) : Nat × Nat :=
  let no_err_res := noErr s.removeerr (db.getFullNumFiles clientid)
  (no_err_res.length, no_err_res.headD backupid_top)

def getFilesIncrNum (s : Cleanup) (backupid_top : Nat) : Nat × Nat :=
  let no_err_res := noErr s.removeerr (db.getIncrNumFiles clientid)
  (no_err_res.length, no_err_res.headD backupid_top)

def Cleanup.tries (s : Cleanup) (backupid : Nat) : Nat :=
  s.attempts.countP fun a => a.backupid = backupid

/-- The outcome of an attempt depends on how often the backup has been tried. -/
def Cleanup.delete (loop : Loop) (s : Cleanup) (backupid : Nat) : Bool × Cleanup :=
  let (b, removeerr) := deleteFileBackup db settings.backupfolder (removal backupid (s.tries backupid)) clientid backupid
  (b, ⟨s.removeerr ++ removeerr, ⟨loop, backupid, s.removeerr, b⟩ :: s.attempts⟩)

/-- The condition of the first loop. The call of `getFilesIncrNum` in it may change the backup that
is deleted. -/
def fullLoopGoes (max_file_full : Int) (full_file_num backupid : Nat) (s : Cleanup) : Bool × Nat :=
  if max_file_full < full_file_num && 0 < full_file_num then
    if full_file_num = 1 && 0 < settings.max_file_incr && 0 ≤ settings.update_freq_file_incr then
      let (incr_file_num, backupid) := getFilesIncrNum db clientid s backupid
      (incr_file_num ≠ 0, backupid)
    else (true, backupid)
  else (false, backupid)

def fullLoop (max_file_full : Int) : Nat → Nat → Nat → Cleanup → Option (Bool × Nat × Cleanup)
  | 0, _, _, _ => none
  | fuel + 1, full_file_num, backupid, s =>
    let (goes, backupid) := fullLoopGoes db settings clientid max_file_full full_file_num backupid s
    if goes then
      let (b, s) := s.delete db settings removal clientid .full backupid
      if b then some (true, backupid, s)
      else
        let (full_file_num, backupid) := getFilesFullNum db clientid s backupid
        fullLoop max_file_full fuel full_file_num backupid s
    else some (false, backupid, s)

def incrLoop (max_file_incr : Int) : Nat → Nat → Nat → Cleanup → Option (Bool × Cleanup)
  | 0, _, _, _ => none
  | fuel + 1, incr_file_num, backupid, s =>
    if max_file_incr < incr_file_num && 0 < incr_file_num then
      let (b, s) := s.delete db settings removal clientid .incr backupid
      if b then some (true, s)
      else
        let (incr_file_num, backupid) := getFilesIncrNum db clientid s backupid
        incrLoop max_file_incr fuel incr_file_num backupid s
    else some (false, s)

def maxFileFull (minspace : Int) : Int :=
  if minspace ≠ -1 then settings.min_file_full else settings.max_file_full

def maxFileIncr (minspace : Int) : Int :=
  if minspace ≠ -1 then settings.min_file_incr else settings.max_file_incr

/-- With `fuel` rounds of each loop. `backupid` has not been set. -/
def cleanup_one_filebackup_client (fuel : Nat) (minspace : Int) (backupid : Nat) (removeerr : List Nat) : Option (Bool × Cleanup) :=
  let s : Cleanup := ⟨removeerr, []⟩
  let (full_file_num, backupid) := getFilesFullNum db clientid s backupid
  match fullLoop db settings removal clientid (maxFileFull settings minspace) fuel full_file_num backupid s with
  | none => none
  | some (true, _, s) => some (true, s)
  | some (false, backupid, s) =>
    let (incr_file_num, backupid) := getFilesIncrNum db clientid s backupid
    incrLoop db settings removal clientid (maxFileIncr settings minspace) fuel incr_file_num backupid s

end Cleanup

section Lists

variable {db : Db} {clientid : Nat} {removeerr : List Nat}

theorem noErr_eq (removeerr res : List Nat) : noErr removeerr res = res.filter fun bid => !removeerr.contains bid := by
  by_cases h : removeerr = []
  · simp [noErr, h]
  · rw [noErr, if_pos h]

/-- A backup that comes into `removeerr` is no longer among the others. -/
theorem noErr_record {res more : List Nat} {bid : Nat} (hnodup : res.Nodup) (hne : more ≠ []) (hmore : ∀ x ∈ more, x = bid) :
    noErr (removeerr ++ more) res = (noErr removeerr res).erase bid := by
  have hcontains : more.contains = fun x => decide (x = bid) := by
    funext x
    obtain ⟨y, hy⟩ := List.exists_mem_of_ne_nil more hne
    rw [List.contains_eq_mem, decide_eq_decide]
    exact ⟨hmore x, fun h => by rw [h, ← hmore y hy]; exact hy⟩
  have hnodup' : (noErr removeerr res).Nodup := by
    rw [noErr_eq]
    exact hnodup.filter _
  rw [hnodup'.erase_eq_filter, noErr_eq, noErr_eq, List.filter_filter]
  congr 1
  funext x
  have hx := congrFun hcontains x
  rw [List.contains_eq_mem] at hx
  by_cases hbid : x = bid <;> simp_all

theorem mem_getNumFiles {incremental : Bool} {bid : Nat} (h : bid ∈ db.getNumFiles incremental clientid) :
    ∃ b ∈ db.backups, b.id = bid ∧ decide (b.incremental ≠ 0) = incremental := by
  obtain ⟨b, hb, rfl⟩ := List.mem_map.mp h
  rw [List.mem_insertionSort, List.mem_filter] at hb
  refine ⟨b, hb.1, rfl, ?_⟩
  simp only [Bool.and_eq_true, beq_iff_eq] at hb
  exact hb.2.1.1.1.2

theorem nodup_getNumFiles (db : Db) (incremental : Bool) (clientid : Nat) : (db.getNumFiles incremental clientid).Nodup := by
  rw [Db.getNumFiles, ((List.perm_insertionSort _ _).map Backup.id).nodup_iff]
  exact db.unique.sublist (List.filter_sublist.map Backup.id)

/-- No backup is a full and an incremental one. -/
theorem full_ne_incr {x y : Nat} (hx : x ∈ db.getFullNumFiles clientid) (hy : y ∈ db.getIncrNumFiles clientid) : x ≠ y := by
  rintro rfl
  obtain ⟨a, ha, hax, hfull⟩ := mem_getNumFiles hx
  obtain ⟨b, hb, hbx, hincr⟩ := mem_getNumFiles hy
  obtain rfl := List.inj_on_of_nodup_map db.unique ha hb (hax.trans hbx.symm)
  rw [hfull] at hincr
  exact absurd hincr (by decide)

theorem mem_of_noErr {res : List Nat} {bid : Nat} (h : bid ∈ noErr removeerr res) : bid ∈ res := by
  rw [noErr_eq] at h
  exact (List.mem_filter.mp h).1

theorem nodup_noErr {res : List Nat} (h : res.Nodup) (removeerr : List Nat) : (noErr removeerr res).Nodup := by
  rw [noErr_eq]
  exact h.filter _

end Lists

section Attempts

variable (db : Db) (settings : ServerSettings) (removal : Nat → Nat → Removal) (clientid : Nat)

/-- The outcome of an attempt at a backup that has been tried before `k` times. -/
def outcome (backupid k : Nat) : Outcome :=
  match deleteFileBackup db settings.backupfolder (removal backupid k) clientid backupid with
  | (true, _) => .done
  | (false, []) => .again
  | (false, _) => .skip

def attempt (loop : Loop) (s : Cleanup) (backupid : Nat) : Outcome × Cleanup :=
  (outcome db settings removal clientid backupid (s.tries backupid), (s.delete db settings removal clientid loop backupid).2)

variable {db settings removal clientid} {loop : Loop} {s : Cleanup} {bid : Nat}

theorem deleteFileBackup_removeerr {removal : Removal} {folder : Bytes} :
    ∀ x ∈ (deleteFileBackup db folder removal clientid bid).2, x = bid := by
  intro x hx
  rw [deleteFileBackup] at hx
  repeat' split at hx
  all_goals simp_all

theorem tries_delete : ((s.delete db settings removal clientid loop bid).2).tries = Function.update s.tries bid (s.tries bid + 1) := by
  funext y
  obtain rfl | hy := eq_or_ne y bid
  · rw [Function.update_self]
    simp [Cleanup.tries, Cleanup.delete]
  · rw [Function.update_of_ne hy]
    simp [Cleanup.tries, Cleanup.delete, hy.symm]

theorem delete_fst : (s.delete db settings removal clientid loop bid).1 = true ↔
    outcome db settings removal clientid bid (s.tries bid) = .done := by
  rw [Cleanup.delete, outcome]
  split
  next b more heq =>
    split <;> simp_all

/-- A backup that is not deleted and not remembered. -/
theorem delete_again (h : outcome db settings removal clientid bid (s.tries bid) = .again) :
    (s.delete db settings removal clientid loop bid).2.removeerr = s.removeerr := by
  rw [outcome] at h
  rw [Cleanup.delete]
  split at h
  next => cases h
  next heq => simp [heq]
  next => cases h

theorem delete_skip (h : outcome db settings removal clientid bid (s.tries bid) = .skip) {res : List Nat} (hnodup : res.Nodup) :
    noErr (s.delete db settings removal clientid loop bid).2.removeerr res = (noErr s.removeerr res).erase bid := by
  have hmore := @deleteFileBackup_removeerr db clientid bid (removal bid (s.tries bid)) settings.backupfolder
  rw [outcome] at h
  rw [Cleanup.delete]
  split at h
  next => cases h
  next => cases h
  next more hne heq =>
    rw [heq] at hmore ⊢
    exact noErr_record hnodup hne hmore

end Attempts

section Loops

variable {db : Db} {settings : ServerSettings} {removal : Nat → Nat → Removal} {clientid : Nat}

variable (db settings clientid) in
/-- What the first loop deletes next. -/
def fullTarget (max_file_full : Int) (s : Cleanup) : Option Nat :=
  let (full_file_num, backupid) := getFilesFullNum db clientid s 0
  let (goes, backupid) := fullLoopGoes db settings clientid max_file_full full_file_num backupid s
  if goes then some backupid else none

variable (db clientid) in
def incrTarget (max_file_incr : Int) (s : Cleanup) : Option Nat :=
  let (incr_file_num, backupid) := getFilesIncrNum db clientid s 0
  if max_file_incr < incr_file_num && 0 < incr_file_num then some backupid else none

theorem headD_of_pos {L : List Nat} (h : 0 < L.length) (x y : Nat) : L.headD x = L.headD y := by
  cases L with
  | nil => simp at h
  | cons => rfl

/-- What has been in `backupid` before does not matter. -/
theorem fullLoopGoes_eq (max_file_full : Int) (s : Cleanup) (backupid : Nat) :
    let num := getFilesFullNum db clientid s backupid
    let goes := fullLoopGoes db settings clientid max_file_full num.1 num.2 s
    (if goes.1 then some goes.2 else none) = fullTarget db settings clientid max_file_full s := by
  dsimp only
  by_cases hfull : 0 < (noErr s.removeerr (db.getFullNumFiles clientid)).length
  · have hsame : getFilesFullNum db clientid s backupid = getFilesFullNum db clientid s 0 := Prod.ext rfl (headD_of_pos hfull _ _)
    rw [hsame]
    rfl
  · simp [fullTarget, getFilesFullNum, fullLoopGoes, hfull]

theorem drain_attempt (target : Cleanup → Option Nat) (loop : Loop) (fuel : Nat) (s : Cleanup) :
    drain target (attempt db settings removal clientid loop) (fuel + 1) s =
      match target s with
      | none => some (none, s)
      | some bid =>
        let (b, s) := s.delete db settings removal clientid loop bid
        if b then some (some bid, s) else drain target (attempt db settings removal clientid loop) fuel s := by
  rw [drain]
  cases target s with
  | none => rfl
  | some bid =>
    have hdone := @delete_fst db settings removal clientid loop s bid
    simp only [attempt]
    cases hout : outcome db settings removal clientid bid (s.tries bid) <;> simp [hdone, hout]

theorem fullLoop_eq (max_file_full : Int) (fuel : Nat) (s : Cleanup) (backupid : Nat) :
    (fullLoop db settings removal clientid max_file_full fuel (getFilesFullNum db clientid s backupid).1
      (getFilesFullNum db clientid s backupid).2 s).map (fun r => (r.1, r.2.2)) =
    (drain (fullTarget db settings clientid max_file_full) (attempt db settings removal clientid .full) fuel s).map
      fun r => (r.1.isSome, r.2) := by
  induction fuel generalizing s backupid with
  | zero => rfl
  | succ fuel ih =>
    have htarget := @fullLoopGoes_eq db settings clientid max_file_full s backupid
    dsimp only at htarget
    rw [fullLoop, drain_attempt, ← htarget]
    generalize fullLoopGoes db settings clientid max_file_full (getFilesFullNum db clientid s backupid).1
      (getFilesFullNum db clientid s backupid).2 s = goes
    obtain ⟨goes, bid⟩ := goes
    cases goes with
    | false => rfl
    | true =>
      simp only [if_true]
      split
      · rfl
      · exact ih _ _

theorem incrTarget_eq (max_file_incr : Int) (s : Cleanup) (backupid : Nat) :
    let num := getFilesIncrNum db clientid s backupid
    (if max_file_incr < num.1 && 0 < num.1 then some num.2 else none) = incrTarget db clientid max_file_incr s := by
  dsimp only
  by_cases hincr : 0 < (noErr s.removeerr (db.getIncrNumFiles clientid)).length
  · have hsame : getFilesIncrNum db clientid s backupid = getFilesIncrNum db clientid s 0 := Prod.ext rfl (headD_of_pos hincr _ _)
    rw [hsame]
    rfl
  · simp [incrTarget, getFilesIncrNum, hincr]

theorem incrLoop_eq (max_file_incr : Int) (fuel : Nat) (s : Cleanup) (backupid : Nat) :
    incrLoop db settings removal clientid max_file_incr fuel (getFilesIncrNum db clientid s backupid).1
      (getFilesIncrNum db clientid s backupid).2 s =
    (drain (incrTarget db clientid max_file_incr) (attempt db settings removal clientid .incr) fuel s).map fun r => (r.1.isSome, r.2) := by
  induction fuel generalizing s backupid with
  | zero => rfl
  | succ fuel ih =>
    have htarget := @incrTarget_eq db clientid max_file_incr s backupid
    dsimp only at htarget
    rw [incrLoop, drain_attempt, ← htarget]
    generalize getFilesIncrNum db clientid s backupid = num
    obtain ⟨incr_file_num, bid⟩ := num
    dsimp only
    cases decide (max_file_incr < (incr_file_num : Int)) && decide (0 < incr_file_num) with
    | false => rfl
    | true =>
      simp only [if_true]
      split
      · rfl
      · exact ih _ _

end Loops

end urbackup.filecleanup
