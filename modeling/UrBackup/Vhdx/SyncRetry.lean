import UrBackup.Vhdx.LogSearch
import UrBackup.Vhdx.VHDXFile
import Mathlib.Data.List.Destutter

namespace urbackup.vhdxfile

open stringtools

namespace VHDXFile

section Retry

/-- One round of the loop in `syncInt`; the answer is whether it is tried again. -/
def syncRound (s : VHDXFile) : Bool × VHDXFile :=
  if s.fast_mode then (false, (s.writePending none none s.pending_bat_entries).fileSync)
  else
    let s := s.flushSize
    match s.logPending none s.pending_bat_entries with
    | (stop_idx, s) => (stop_idx.isSome, s.fileSync.writePending stop_idx none s.pending_bat_entries)

/-- `none` where the fuel is used up. -/
def syncRounds : Nat → VHDXFile → Option VHDXFile
  | 0, _ => none
  | fuel + 1, s =>
    match s.syncRound with
    | (true, s) => syncRounds fuel s
    | (false, s) => some s

def syncIntRounds (fuel : Nat) (full : Bool) (s : VHDXFile) : Option (Bool × VHDXFile) :=
  match s.syncBitmaps s.pending_sector_bitmaps with
  | (false, s) => some (false, s)
  | (true, s) =>
    match s.syncRounds fuel with
    | none => none
    | some s => if full && !s.fast_mode then some (true, s.fileSync.endLog) else some (true, s)

def SyncEnds (s : VHDXFile) (full : Bool) : Prop :=
  ∃ fuel out, s.syncIntRounds fuel full = some out

end Retry

section Room

/-- How many sectors of the BAT the entries are in. -/
def batSectors (pending : List Nat) : Nat :=
  ((pending.map fun entry_idx => entry_idx * 8 / log_sector_size).destutter (· ≠ ·)).length

/-- Where the next log entry goes; a log without a GUID is started anew. -/
def logStart (s : VHDXFile) : Nat :=
  if s.curr_header.LogGuid = none then 0 else s.log_pos

/-- The log has room for all pending entries, where it is written at all. -/
def LogFits (s : VHDXFile) : Prop :=
  s.fast_mode = true ∨ s.pending_bat_entries = [] ∨
    s.logStart + 2 * log_sector_size * batSectors s.pending_bat_entries ≤ LogLength

/-- A sector bitmap that cannot be written, which ends the call. -/
def BitmapFails (s : VHDXFile) : Prop :=
  ∃ sector_block ∈ s.pending_sector_bitmaps,
    (s.bat_buf sector_block).State ≠ .FULLY_PRESENT ∨ s.sector_bitmap_bufs sector_block = none

end Room

section Log

variable {s : VHDXFile}

theorem startLog_started (s : VHDXFile) : s.startLog.curr_header.LogGuid ≠ none ∧ s.startLog.log_pos = s.logStart ∧
    s.startLog.pending_bat_entries = s.pending_bat_entries ∧ s.startLog.fast_mode = s.fast_mode := by
  unfold startLog logStart
  cases hguid : s.curr_header.LogGuid with
  | none =>
    dsimp only
    exact ⟨Option.some_ne_none _, rfl, rfl, rfl⟩
  | some log_guid =>
    dsimp only
    rw [hguid]
    exact ⟨Option.some_ne_none _, (if_neg (Option.some_ne_none _)).symm, rfl, rfl⟩

/-- What a log that was started keeps of an image. -/
structure Started (s t : VHDXFile) : Prop where
  guid : t.curr_header.LogGuid ≠ none
  pending : t.pending_bat_entries = s.pending_bat_entries
  fast_mode : t.fast_mode = s.fast_mode

theorem Started.trans {s t u : VHDXFile} (hst : Started s t) (htu : Started t u) : Started s u :=
  ⟨htu.guid, htu.pending.trans hst.pending, htu.fast_mode.trans hst.fast_mode⟩

theorem Started.logStart {t : VHDXFile} (h : Started s t) : t.logStart = t.log_pos :=
  if_neg h.guid

theorem logWrite_room {sector : Nat} (hroom : s.logStart + 2 * log_sector_size ≤ LogLength) :
    ∃ t, s.logWrite sector = (true, t) ∧ Started s t ∧ t.log_pos = s.logStart + 2 * log_sector_size := by
  obtain ⟨hguid, hpos, hpending, hfast⟩ := startLog_started s
  refine ⟨s.startLog.appendLog sector, ?_, ⟨hguid, hpending, hfast⟩, congrArg (· + 2 * log_sector_size) hpos⟩
  unfold logWrite
  dsimp only
  rw [hpos, if_neg (Nat.not_lt.mpr hroom)]

theorem logWrite_full {sector : Nat} (hfull : LogLength < s.logStart + 2 * log_sector_size) :
    ∃ t, s.logWrite sector = (false, t) ∧ Started s t ∧ t.log_pos = s.logStart := by
  obtain ⟨hguid, hpos, hpending, hfast⟩ := startLog_started s
  refine ⟨s.startLog, ?_, ⟨hguid, hpending, hfast⟩, hpos⟩
  unfold logWrite
  dsimp only
  rw [hpos, if_pos hfull]

/-- The sectors that are still to be logged when the sector `b_idx` was. -/
def sectorsFrom : Option Nat → List Nat → Nat
  | _, [] => 0
  | b_idx, entry_idx :: rest =>
    if b_idx = some (entry_idx * 8 / log_sector_size) then sectorsFrom b_idx rest
    else sectorsFrom (some (entry_idx * 8 / log_sector_size)) rest + 1

theorem sectorsFrom_some (sector : Nat) (pending : List Nat) : sectorsFrom (some sector) pending + 1 =
    ((pending.map fun entry_idx => entry_idx * 8 / log_sector_size).destutter' (· ≠ ·) sector).length := by
  induction pending generalizing sector with
  | nil => rfl
  | cons entry_idx rest ih =>
    rw [sectorsFrom, List.map_cons]
    split
    · next hsame =>
      rw [List.destutter'_cons_neg _ (not_not.mpr (Option.some.inj hsame)), ih]
    · next hother =>
      rw [List.destutter'_cons_pos _ fun heq => hother (congrArg some heq), List.length_cons, ih]

theorem sectorsFrom_none (pending : List Nat) : sectorsFrom none pending = batSectors pending := by
  cases pending with
  | nil => rfl
  | cons entry_idx rest =>
    rw [sectorsFrom, if_neg nofun, sectorsFrom_some, batSectors, List.map_cons, List.destutter_cons']

/-- All sectors are logged if there is room for them. -/
theorem logPending_fits {b_idx : Option Nat} {pending : List Nat}
    (hfits : sectorsFrom b_idx pending = 0 ∨ s.logStart + 2 * log_sector_size * sectorsFrom b_idx pending ≤ LogLength) :
    (logPending b_idx pending s).1 = none := by
  induction pending generalizing b_idx s with
  | nil => rfl
  | cons entry_idx rest ih =>
    rw [sectorsFrom] at hfits
    rw [logPending]
    split
    · next hsame =>
      rw [if_pos hsame] at hfits
      exact ih hfits
    · next hother =>
      rw [if_neg hother] at hfits
      have hroom := hfits.resolve_left (Nat.succ_ne_zero _)
      rw [Nat.mul_succ] at hroom
      obtain ⟨t, hout, hstarted, hpos⟩ := logWrite_room (s := s) (by omega)
      rw [hout]
      refine ih (Or.inr ?_)
      rw [hstarted.logStart, hpos]
      omega

/-- Otherwise the log is left full, with a pending entry to stop at. -/
theorem logPending_full {b_idx : Option Nat} {pending : List Nat} (hsectors : sectorsFrom b_idx pending ≠ 0)
    (hfull : LogLength < s.logStart + 2 * log_sector_size * sectorsFrom b_idx pending) :
    ∃ e t, logPending b_idx pending s = (some e, t) ∧ e ∈ pending ∧ Started s t ∧
      LogLength < t.log_pos + 2 * log_sector_size := by
  induction pending generalizing b_idx s with
  | nil => exact absurd rfl hsectors
  | cons entry_idx rest ih =>
    rw [sectorsFrom] at hsectors hfull
    rw [logPending]
    split
    · next hsame =>
      rw [if_pos hsame] at hsectors hfull
      obtain ⟨e, t, hout, he, hstarted, hpos⟩ := ih hsectors hfull
      exact ⟨e, t, hout, List.mem_cons_of_mem _ he, hstarted, hpos⟩
    · next hother =>
      rw [if_neg hother, Nat.mul_succ] at hfull
      obtain hroom | hnone := Nat.lt_or_ge LogLength (s.logStart + 2 * log_sector_size)
      · obtain ⟨t, hout, hstarted, hpos⟩ := logWrite_full hroom
        rw [hout]
        exact ⟨entry_idx, t, rfl, List.mem_cons_self, hstarted, by omega⟩
      · obtain ⟨t, hout, hstarted, hpos⟩ := logWrite_room hnone
        have hmore : sectorsFrom (some (entry_idx * 8 / log_sector_size)) rest ≠ 0 := by
          intro hzero
          rw [hzero, Nat.mul_zero] at hfull
          omega
        obtain ⟨e, u, hrest, he, hstarted', hpos'⟩ := ih (s := t) hmore (by
          rw [hstarted.logStart, hpos]
          omega)
        rw [hout]
        exact ⟨e, u, hrest, List.mem_cons_of_mem _ he, hstarted.trans hstarted', hpos'⟩

end Log

section Rounds

variable {s : VHDXFile}

/-- The log is full and something is still to be logged. -/
structure Stuck (s : VHDXFile) : Prop where
  slow : s.fast_mode = false
  guid : s.curr_header.LogGuid ≠ none
  pending : s.pending_bat_entries ≠ []
  full : LogLength < s.log_pos + 2 * log_sector_size

theorem flushSize_keeps (s : VHDXFile) : s.flushSize.fast_mode = s.fast_mode ∧
    s.flushSize.pending_bat_entries = s.pending_bat_entries ∧ s.flushSize.logStart = s.logStart ∧
    s.flushSize.curr_header = s.curr_header := by
  unfold flushSize
  split
  · exact ⟨rfl, rfl, rfl, rfl⟩
  · exact ⟨rfl, rfl, rfl, rfl⟩

/-- The entries from the one to stop at stay pending. -/
theorem writePending_stop {e : Nat} {pending : List Nat} (he : e ∈ pending) (b_idx : Option Nat) (s : VHDXFile) :
    (writePending (some e) b_idx pending s).pending_bat_entries ≠ [] ∧
      (writePending (some e) b_idx pending s).curr_header = s.curr_header ∧
      (writePending (some e) b_idx pending s).log_pos = s.log_pos ∧
      (writePending (some e) b_idx pending s).fast_mode = s.fast_mode := by
  induction pending generalizing b_idx s with
  | nil => exact absurd he List.not_mem_nil
  | cons entry_idx rest ih =>
    rw [writePending]
    by_cases hstop : e = entry_idx
    · rw [if_pos (congrArg some hstop)]
      exact ⟨List.cons_ne_nil _ _, rfl, rfl, rfl⟩
    · have he' : e ∈ rest := (List.mem_cons.mp he).resolve_left hstop
      rw [if_neg fun h => hstop (Option.some.inj h)]
      dsimp only
      split
      · exact ih he' b_idx s
      · exact ih he' _ _

theorem stuck_of_full {t : VHDXFile} {e : Nat} (hslow : s.fast_mode = false) (hstarted : Started s t)
    (he : e ∈ t.pending_bat_entries) (hfull : LogLength < t.log_pos + 2 * log_sector_size) :
    Stuck (t.fileSync.writePending (some e) none t.pending_bat_entries) := by
  obtain ⟨hpending, hheader, hpos, hfast⟩ := writePending_stop he none t.fileSync
  exact ⟨by rw [hfast]; exact hstarted.fast_mode.trans hslow, by rw [hheader]; exact hstarted.guid, hpending, by
    rw [hpos]
    exact hfull⟩

/-- A round that finds no room leaves the log full. -/
theorem syncRound_full (hslow : s.fast_mode = false) (hpending : s.pending_bat_entries ≠ [])
    (hfull : LogLength < s.logStart + 2 * log_sector_size * batSectors s.pending_bat_entries) :
    ∃ t, s.syncRound = (true, t) ∧ Stuck t := by
  obtain ⟨hfast, hsame, hstart, -⟩ := flushSize_keeps s
  have hsectors : sectorsFrom none s.pending_bat_entries ≠ 0 := by
    obtain ⟨e, rest, hcons⟩ := List.exists_cons_of_ne_nil hpending
    rw [hcons, sectorsFrom, if_neg (Option.some_ne_none _).symm]
    exact Nat.succ_ne_zero _
  rw [← sectorsFrom_none, ← hstart] at hfull
  obtain ⟨e, t, hout, he, hstarted, hpos⟩ := logPending_full hsectors hfull
  rw [← hsame, ← hstarted.pending] at he
  refine ⟨t.fileSync.writePending (some e) none t.pending_bat_entries, ?_,
    stuck_of_full (hfast.trans hslow) hstarted he hpos⟩
  rw [syncRound, hslow]
  dsimp only [Bool.false_eq_true, if_false]
  rw [if_neg Bool.false_ne_true, hsame, hout]
  rfl

theorem Stuck.syncRound (h : Stuck s) : ∃ t, s.syncRound = (true, t) ∧ Stuck t := by
  refine syncRound_full h.slow h.pending ?_
  have hfull := h.full
  obtain ⟨e, rest, hcons⟩ := List.exists_cons_of_ne_nil h.pending
  rw [logStart, if_neg h.guid, ← sectorsFrom_none, hcons, sectorsFrom, if_neg (Option.some_ne_none _).symm, Nat.mul_succ]
  omega

theorem Stuck.syncRounds (h : Stuck s) (fuel : Nat) : s.syncRounds fuel = none := by
  induction fuel generalizing s with
  | zero => rfl
  | succ fuel ih =>
    obtain ⟨t, ht, hstuck⟩ := h.syncRound
    rw [VHDXFile.syncRounds, ht]
    exact ih hstuck

/-- With room for all entries there is no second round. -/
theorem syncRound_fits (hfits : s.LogFits) : s.syncRound.1 = false := by
  obtain ⟨hfast, hsame, hstart, -⟩ := flushSize_keeps s
  unfold VHDXFile.syncRound
  split
  · rfl
  · next hslow =>
    have hnone : (s.flushSize.logPending none s.flushSize.pending_bat_entries).1 = none := by
      refine logPending_fits ?_
      rw [hsame, hstart, sectorsFrom_none]
      obtain hnil | hroom := hfits.resolve_left hslow
      · exact Or.inl (by rw [hnil]; rfl)
      · exact Or.inr hroom
    dsimp only
    rw [hnone]
    rfl

/-- The rounds end if the first one finds room. -/
theorem syncRounds_iff (s : VHDXFile) : (∃ fuel t, s.syncRounds fuel = some t) ↔ s.LogFits := by
  constructor
  · rintro ⟨fuel, t, hend⟩
    by_contra hcon
    rw [LogFits, not_or, not_or, Bool.not_eq_true, Nat.not_le] at hcon
    obtain ⟨hslow, hpending, hfull⟩ := hcon
    obtain ⟨u, hround, hstuck⟩ := syncRound_full hslow hpending hfull
    cases fuel with
    | zero => cases hend
    | succ fuel =>
      rw [VHDXFile.syncRounds, hround] at hend
      dsimp only at hend
      rw [hstuck.syncRounds] at hend
      cases hend
  · intro hfits
    have hround := syncRound_fits hfits
    refine ⟨1, s.syncRound.2, ?_⟩
    have hout : s.syncRound = (false, s.syncRound.2) := Prod.ext hround rfl
    rw [VHDXFile.syncRounds, hout]

end Rounds

section Sync

variable {s : VHDXFile}

/-- The bitmaps are written without a change of what is pending for the BAT. -/
theorem syncBitmaps_fits (l : List Nat) (s : VHDXFile) : (syncBitmaps l s).2.LogFits ↔ s.LogFits := by
  induction l generalizing s with
  | nil => exact Iff.rfl
  | cons sector_block rest ih =>
    rw [syncBitmaps]
    split
    · exact Iff.rfl
    · split
      · exact Iff.rfl
      · exact ih _

theorem syncBitmaps_iff (l : List Nat) (s : VHDXFile) : (syncBitmaps l s).1 = false ↔
    ∃ sector_block ∈ l, (s.bat_buf sector_block).State ≠ .FULLY_PRESENT ∨ s.sector_bitmap_bufs sector_block = none := by
  induction l generalizing s with
  | nil => exact iff_of_false Bool.noConfusion fun ⟨_, hmem, _⟩ => absurd hmem List.not_mem_nil
  | cons sector_block rest ih =>
    rw [syncBitmaps]
    split
    · next hstate => exact iff_of_true rfl ⟨sector_block, List.mem_cons_self, Or.inl hstate⟩
    · next hstate =>
      split
      · next hnone => exact iff_of_true rfl ⟨sector_block, List.mem_cons_self, Or.inr hnone⟩
      · next buf hbuf =>
        rw [ih]
        constructor
        · rintro ⟨b, hb, hfails⟩
          exact ⟨b, List.mem_cons_of_mem _ hb, hfails⟩
        · rintro ⟨b, hb, hfails⟩
          obtain rfl | hb := List.mem_cons.mp hb
          · obtain hfails | hfails := hfails
            · exact absurd hfails hstate
            · rw [hbuf] at hfails
              cases hfails
          · exact ⟨b, hb, hfails⟩

theorem syncEnds_iff (s : VHDXFile) (full : Bool) : s.SyncEnds full ↔ s.BitmapFails ∨ s.LogFits := by
  have hbitmaps := syncBitmaps_iff s.pending_sector_bitmaps s
  have hfits := syncBitmaps_fits s.pending_sector_bitmaps s
  rw [BitmapFails, ← hbitmaps, ← hfits, ← syncRounds_iff]
  unfold SyncEnds syncIntRounds
  cases hout : s.syncBitmaps s.pending_sector_bitmaps with
  | mk ok t =>
    cases ok with
    | false => exact iff_of_true ⟨0, _, rfl⟩ (Or.inl rfl)
    | true =>
      dsimp only
      constructor
      · rintro ⟨fuel, out, hend⟩
        cases hround : t.syncRounds fuel with
        | none =>
          rw [hround] at hend
          cases hend
        | some u => exact Or.inr ⟨fuel, u, hround⟩
      · rintro (hcon | ⟨fuel, u, hround⟩)
        · cases hcon
        · refine ⟨fuel, if full && !u.fast_mode then (true, u.fileSync.endLog) else (true, u), ?_⟩
          rw [hround]
          dsimp only
          split
          · rfl
          · rfl

/-- The search ends with the highest valid sequence and the synchronisation ends. -/
theorem logHandling_iff (l : vhdxlog.LogArea) (s : VHDXFile) (full : Bool) : l.FindsHighest ∧ s.SyncEnds full ↔
    (l.Leaves ∧ l.HighestIsValid) ∧ (s.BitmapFails ∨ s.LogFits) := by
  rw [l.findsHighest_iff, syncEnds_iff]

/-- A new image with a log that is full. -/
def fullLog (s : VHDXFile) : VHDXFile :=
  { s with curr_header := { s.curr_header with LogGuid := some 0 }, log_pos := LogLength, pending_bat_entries := [0] }

theorem not_logFits_fullLog {s : VHDXFile} (hslow : s.fast_mode = false) : ¬ (fullLog s).LogFits := by
  have hstart : (fullLog s).logStart = LogLength := if_neg (Option.some_ne_none _)
  have hsectors : batSectors (fullLog s).pending_bat_entries = 1 := rfl
  rw [LogFits, hstart, hsectors]
  rintro (hfast | hnil | hroom)
  · rw [fullLog, hslow] at hfast
    cases hfast
  · cases hnil
  · simp only [log_sector_size] at hroom
    omega

/-- No round finds room for the pending entry. -/
theorem not_syncEnds_fullLog : ∃ s, createNew (fun _ => true) (1024 * 1024) none false = some s ∧
    ∀ l : vhdxlog.LogArea, ¬ (l.FindsHighest ∧ (fullLog s).SyncEnds false) := by
  refine ⟨_, rfl, fun l hboth => ?_⟩
  obtain hfails | hfits := (syncEnds_iff _ _).mp hboth.2
  · obtain ⟨b, hb, -⟩ := hfails
    exact absurd hb List.not_mem_nil
  · exact not_logFits_fullLog rfl hfits

end Sync

end VHDXFile

end urbackup.vhdxfile
