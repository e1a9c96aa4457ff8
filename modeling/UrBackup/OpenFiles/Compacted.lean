import UrBackup.OpenFiles.Reloaded
import Mathlib.Tactic.Ring

namespace urbackup.openfiles

open stringtools filedata wire maps

section Overwritten

open PersistentOpenFiles

variable (clock : Clock)

theorem erase_insert_empty (fn : FileName) (id : UInt32) :
    (SortedMap.empty.insert fn id).erase fn = SortedMap.empty := by
  simp [SortedMap.insert, SortedMap.erase, SortedMap.empty, SortedMap.insertEntry]

theorem length_bytes_add (rec_time : Int64) (fn : FileName) (id : UInt32) :
    (Record.add rec_time fn id).bytes.length = 17 + fn.bytes.length := by
  simp only [Record.bytes, Record.fields, List.flatMap_cons, List.flatMap_nil, Field.bytes, List.length_append,
    length_leBytes, List.length_singleton, List.length_nil]
  omega

theorem length_bytes_remove (rec_time : Int64) (id : UInt32) : (Record.remove rec_time id).bytes.length = 13 := by
  simp only [Record.bytes, Record.fields, List.flatMap_cons, List.flatMap_nil, Field.bytes, List.length_append,
    length_leBytes, List.length_singleton, List.length_nil]

/-- A file that is added. -/
theorem add_new {p : PersistentOpenFiles} {fn : FileName} (hnew : p.open_files.find fn = none) :
    ∃ wdata, p.add clock fn = { p with
      wdata, curr_id := p.curr_id + 1, open_files := p.open_files.insert fn (p.curr_id + 1),
      bytes_written := p.bytes_written + (1 + 8 + 4 + fn.bytes.length + 4), reads := p.reads + 1 } ∧
      wdata.data = p.wdata.data ++ (Record.add (clock.getTimeMS p.reads) fn (p.curr_id + 1)).bytes := by
  refine ⟨_, ?_, addf_wdata fn (p.curr_id + 1)⟩
  rw [PersistentOpenFiles.add, if_pos hnew]
  rfl

/-- A file that is added and removed again leaves its records. -/
theorem run_round (s : Session) (fn : FileName) (hopen : s.files.open_files = SortedMap.empty) :
    ∃ wdata, s.run clock [.add fn, .remove fn] = ⟨{ s.files with
        wdata, curr_id := s.files.curr_id + 1,
        bytes_written := s.files.bytes_written + (17 + fn.bytes.length),
        bytes_deleted := s.files.bytes_deleted + (30 + fn.bytes.length), reads := s.files.reads + 2 }, s.flushed⟩ ∧
      wdata.data.length = s.files.wdata.data.length + (30 + fn.bytes.length) := by
  have hnew : s.files.open_files.find fn = none := by rw [hopen, SortedMap.find_empty]
  obtain ⟨wdata, hadd, hwdata⟩ := add_new clock hnew
  have hfind : (s.files.add clock fn).open_files.find fn = some (s.files.curr_id + 1) := by
    rw [hadd, SortedMap.find_insert, if_pos rfl]
  refine ⟨((s.files.add clock fn).removef clock (s.files.curr_id + 1) fn.bytes.length).wdata, ?_, ?_⟩
  · rw [Session.run, List.foldl_cons, List.foldl_cons, List.foldl_nil, Session.call, Session.call]
    dsimp only
    rw [PersistentOpenFiles.remove, hfind]
    dsimp only
    rw [hadd]
    simp only [PersistentOpenFiles.removef, hopen, erase_insert_empty, Session.mk.injEq,
      PersistentOpenFiles.mk.injEq, and_true, true_and]
    omega
  · rw [removef_wdata, List.length_append, length_bytes_remove, hadd, hwdata, List.length_append, length_bytes_add]
    omega

theorem run_rounds (s : Session) (fn : FileName) (hopen : s.files.open_files = SortedMap.empty) (k : Nat) :
    ∃ wdata curr_id reads, s.run clock (List.replicate k [Call.add fn, .remove fn]).flatten = ⟨{ s.files with
        wdata, curr_id,
        bytes_written := s.files.bytes_written + k * (17 + fn.bytes.length),
        bytes_deleted := s.files.bytes_deleted + k * (30 + fn.bytes.length), reads }, s.flushed⟩ ∧
      wdata.data.length = s.files.wdata.data.length + k * (30 + fn.bytes.length) := by
  induction k generalizing s with
  | zero => exact ⟨s.files.wdata, s.files.curr_id, s.files.reads, by simp [Session.run], by simp⟩
  | succ k ih =>
    obtain ⟨wdata₁, hround, hlen₁⟩ := run_round clock s fn hopen
    obtain ⟨wdata, curr_id, reads, hrounds, hlen⟩ := ih (s.run clock [.add fn, .remove fn]) (by rw [hround]; exact hopen)
    refine ⟨wdata, curr_id, reads, ?_, ?_⟩
    · rw [List.replicate_succ, List.flatten_cons, Session.run, List.foldl_append]
      refine hrounds.trans ?_
      rw [hround]
      simp only [Session.mk.injEq, PersistentOpenFiles.mk.injEq, and_true, true_and]
      constructor <;> ring
    · rw [hlen, hround, hlen₁]
      ring

/-- Nothing was removed since the last compaction, so there is no other. -/
theorem flushf_appends {p : PersistentOpenFiles} (hdata : getDataSize p.wdata = p.wdata.data.length)
    (hne : p.wdata.data.length ≠ 0) (hdeleted : p.bytes_deleted = 0) :
    p.flushf clock = (true, { p with persistf := p.persistf.Write p.wdata.data, wdata := ⟨[]⟩ }) := by
  rw [PersistentOpenFiles.flushf, flushf_int, hdata, if_neg hne, if_neg (by omega), List.take_length]
  dsimp only
  rw [if_neg (by omega)]

/-- A long file of which much was removed is compacted. -/
theorem flushf_cycles {p : PersistentOpenFiles} (hdata : getDataSize p.wdata = p.wdata.data.length)
    (hwritten : p.bytes_deleted ≤ p.bytes_written * 2) (hend : p.persistf.pos = p.persistf.content.length)
    (hlong : p.persistf.content.length + p.wdata.data.length > 20 * 1024 * 1024)
    (hdeleted : p.bytes_deleted > 5 * 1024 * 1024) (hne : p.wdata.data.length ≠ 0) :
    p.flushf clock = cycle clock { p with persistf := p.persistf.Write p.wdata.data, wdata := ⟨[]⟩ } := by
  rw [PersistentOpenFiles.flushf, flushf_int, hdata, if_neg hne, if_neg (by omega), List.take_length]
  dsimp only
  rw [IFile.content_Write_end hend, List.length_append, if_pos ⟨hlong, rfl, hdeleted⟩]

/-- What is as long as the file takes its place. -/
theorem content_Write_start {f : IFile} (h : f.pos = 0) {buf : Bytes} (hlen : f.content.length = buf.length) :
    (f.Write buf).content = buf := by
  have hlength : (overwrite 0 f.content 0 buf).length = buf.length := by
    rw [length_overwrite 0 (by omega), hlen]
  have htake := take_overwrite (0 : UInt8) (Nat.zero_le f.content.length) buf
  rw [Nat.zero_add, List.take_zero, List.nil_append, List.take_of_length_le (Nat.le_of_eq hlength)] at htake
  rw [IFile.Write, h]
  exact htake

/-- The flush after the rounds compacts the file. -/
theorem run_compacts {s : Session} {a : FileName} (hshort : a.bytes.length < 2 ^ 20)
    (hopen : s.files.open_files = SortedMap.empty) (hfile : s.files.persistf = ⟨[], 0⟩)
    (hlong : s.files.wdata.data.length > 20 * 1024 * 1024) (hsize : s.files.wdata.data.length < 2 ^ 31)
    (hwritten : s.files.bytes_deleted ≤ s.files.bytes_written * 2) (hdeleted : s.files.bytes_deleted > 5 * 1024 * 1024) :
    (s.run clock [.add a, .flushf]).files.open_files.entries = [(a, s.files.curr_id + 1)] ∧
      (s.run clock [.add a, .flushf]).files.wdata = ⟨[]⟩ ∧ (s.run clock [.add a, .flushf]).files.bytes_deleted = 0 ∧
      (s.run clock [.add a, .flushf]).files.persistf.pos = 0 ∧
      (s.run clock [.add a, .flushf]).files.persistf.content.length = 17 + a.bytes.length := by
  obtain ⟨wdata, hadd, hwdata⟩ := @add_new clock s.files a (by rw [hopen, SortedMap.find_empty])
  have hlen : wdata.data.length = s.files.wdata.data.length + (17 + a.bytes.length) := by
    rw [hwdata, List.length_append, length_bytes_add]
  have hentries : (s.files.open_files.insert a (s.files.curr_id + 1)).entries = [(a, s.files.curr_id + 1)] := by
    rw [hopen]
    rfl
  have hsum : Session.openSize (s.files.open_files.insert a (s.files.curr_id + 1)) = 17 + a.bytes.length := by
    simp only [Session.openSize, hentries, List.map_cons, List.map_nil, List.sum_cons, List.sum_nil]
    omega
  obtain ⟨content, written, reads, hcycle, hcontent, -⟩ := cycle_eq clock (p := { s.files with
      wdata := ⟨[]⟩, curr_id := s.files.curr_id + 1, open_files := s.files.open_files.insert a (s.files.curr_id + 1),
      bytes_written := s.files.bytes_written + (1 + 8 + 4 + a.bytes.length + 4), reads := s.files.reads + 1,
      persistf := s.files.persistf.Write wdata.data }) rfl
    (by simpa [hentries, CRData.max_strlen] using by omega) (by rw [hsum]; omega)
  have hflush := flushf_cycles clock (p := s.files.add clock a)
    (by rw [hadd]; exact getDataSize_eq (by dsimp only; omega)) (by rw [hadd]; dsimp only; omega)
    (by rw [hadd, hfile]; rfl) (by rw [hadd, hfile]; dsimp only; omega) (by rw [hadd]; exact hdeleted)
    (by rw [hadd]; dsimp only; omega)
  dsimp only at hcycle hcontent
  rw [Session.run, List.foldl_cons, List.foldl_cons, List.foldl_nil, Session.call, Session.call]
  dsimp only
  rw [hflush, hadd]
  dsimp only
  rw [hcycle]
  exact ⟨hentries, rfl, rfl, rfl, hcontent.trans hsum⟩

/-- After a compaction the next flush writes over the start of the file. -/
theorem run_overwrites {s : Session} {a b : FileName} {id : UInt32} (hab : a ≠ b)
    (hlength : a.bytes.length = b.bytes.length) (hshort : b.bytes.length < 2 ^ 20)
    (hopen : s.files.open_files.entries = [(a, id)]) (hwdata : s.files.wdata = ⟨[]⟩)
    (hdeleted : s.files.bytes_deleted = 0) (hpos : s.files.persistf.pos = 0)
    (hcontent : s.files.persistf.content.length = 17 + a.bytes.length) :
    ¬ (s.run clock [.add b, .flushf]).LoadsFlushed clock := by
  have hnew : s.files.open_files.find b = none := by
    rw [SortedMap.find, hopen, SortedMap.lookup, if_neg hab, SortedMap.lookup]
  have ha : (a, id) ∈ (s.files.open_files.insert b (s.files.curr_id + 1)).entries := by
    rw [← SortedMap.find_eq_some, SortedMap.find_insert, if_neg hab.symm, SortedMap.find_eq_some, hopen]
    exact List.mem_singleton_self _
  obtain ⟨wdata, hadd, hdata⟩ := add_new clock hnew
  rw [hwdata, List.nil_append] at hdata
  have hlen : wdata.data.length = 17 + b.bytes.length := by rw [hdata, length_bytes_add]
  have hflush := flushf_appends clock (p := s.files.add clock b)
    (by rw [hadd]; exact getDataSize_eq (by dsimp only; omega)) (by rw [hadd]; dsimp only; omega)
    (by rw [hadd]; exact hdeleted)
  have hcontent' : (s.files.persistf.Write wdata.data).content =
      (Record.add (clock.getTimeMS s.files.reads) b (s.files.curr_id + 1)).bytes := by
    rw [content_Write_start hpos (by omega), hdata]
  have hrecord : Replays clock s.files.reads (s.files.persistf.Write wdata.data).content SortedMap.empty
      (SortedMap.empty.insert b (s.files.curr_id + 1)) :=
    hcontent' ▸ Replays.record rfl (hshort.le.trans (by decide)) rfl
  obtain ⟨hloaded, -⟩ := load_replays (hrecord.later (Nat.le_succ _))
    (by rw [hcontent', length_bytes_add, CRData.max_datalen]; omega)
  have hrun : s.run clock [.add b, .flushf] = ⟨{ s.files with
      wdata := ⟨[]⟩, persistf := s.files.persistf.Write wdata.data, curr_id := s.files.curr_id + 1,
      open_files := s.files.open_files.insert b (s.files.curr_id + 1),
      bytes_written := s.files.bytes_written + (1 + 8 + 4 + b.bytes.length + 4), reads := s.files.reads + 1 },
      (s.files.open_files.insert b (s.files.curr_id + 1)).entries.map Prod.fst⟩ := by
    rw [Session.run, List.foldl_cons, List.foldl_cons, List.foldl_nil, Session.call, Session.call]
    dsimp only
    rw [hflush, hadd]
    rfl
  intro hloads
  rw [Session.LoadsFlushed, hrun, Session.call, PersistentOpenFiles.get] at hloads
  dsimp only at hloads
  rw [hloaded] at hloads
  have hmem : a ∈ [b] := by
    rw [show [b] = (SortedMap.empty.insert b (s.files.curr_id + 1)).entries.map Prod.fst from rfl, hloads]
    exact List.mem_map.mpr ⟨(a, id), ha, rfl⟩
  exact hab (List.mem_singleton.mp hmem)

/-- Files are added and removed until their records have more than 20 MiB. The
next flush compacts the file, and the one after that writes over its start. -/
def compacted (a b c : FileName) : List Call :=
  (List.replicate 700000 [Call.add c, .remove c]).flatten ++ ([.add a, .flushf] ++ [.add b, .flushf])

/-- The first of the two files is lost. -/
theorem not_loadsFlushed_compacted :
    ¬ ((Session.start atRest).run atRest (compacted ⟨[97]⟩ ⟨[98]⟩ ⟨[99]⟩)).LoadsFlushed atRest := by
  obtain ⟨wdata, curr_id, reads, hrounds, hlen⟩ :=
    run_rounds atRest (Session.start atRest) ⟨[99]⟩ rfl 700000
  have hstart : Session.start atRest = ⟨⟨⟨[]⟩, ⟨[], 0⟩, SortedMap.empty, 0, 0, 0, 2⟩, []⟩ := rfl
  rw [hstart] at hrounds hlen
  simp only [List.length_nil, List.length_singleton] at hrounds hlen
  obtain ⟨hopen, hwdata, hdeleted, hpos, hcontent⟩ := run_compacts atRest (a := ⟨[97]⟩)
    (s := ⟨⟨wdata, ⟨[], 0⟩, SortedMap.empty, 0 + 700000 * (17 + 1), 0 + 700000 * (30 + 1), curr_id, reads⟩, []⟩)
    (by simp) rfl rfl (by dsimp only; omega) (by dsimp only; omega) (by simp) (by simp)
  have hlost := run_overwrites atRest (a := ⟨[97]⟩) (b := ⟨[98]⟩) (by decide) rfl (by simp) hopen hwdata hdeleted hpos hcontent
  rw [← hrounds, ← hstart] at hlost
  rw [compacted, Session.run, List.foldl_append, List.foldl_append]
  exact hlost

end Overwritten

end urbackup.openfiles
