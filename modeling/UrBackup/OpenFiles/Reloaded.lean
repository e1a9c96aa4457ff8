import UrBackup.OpenFiles.PersistentOpenFiles

namespace urbackup.openfiles

open stringtools filedata wire maps

inductive Call
  | add (fn : FileName)
  | remove (fn : FileName)
  | flushf
  | construct
  deriving DecidableEq

/-- The open files, and the names that were open at the last flush that returned
true. -/
structure Session where
  files : PersistentOpenFiles
  flushed : List FileName

namespace Session

variable (clock : Clock)

/-- There is no file at first. -/
def start : Session :=
  ⟨PersistentOpenFiles.construct clock [] 0, []⟩

def call (s : Session) : Call → Session
  | .add fn => { s with files := s.files.add clock fn }
  | .remove fn => { s with files := s.files.remove clock fn }
  | .flushf =>
    let ret := s.files.flushf clock
    ⟨ret.2, if ret.1 then s.files.get else s.flushed⟩
  | .construct => { s with files := PersistentOpenFiles.construct clock s.files.persistf.content s.files.reads }

def run (s : Session) (calls : List Call) : Session :=
  calls.foldl (call clock) s

/-- A new object has the files open that were open at the last flush. -/
def LoadsFlushed (s : Session) : Prop :=
  (s.call clock .construct).files.get = s.flushed

/-- The bytes of the records of the open files. -/
def openSize (m : SortedMap FileName UInt32) : Nat :=
  (m.entries.map fun e => 1 + 8 + 4 + e.1.bytes.length + 4).sum

/-- What is added has a name that can be read again and gets an id of its own;
what is written has less than 4 GiB and goes to the end of the file; what is
read is read as a whole. -/
def Meets (s : Session) : Call → Prop
  | .add fn => s.files.open_files.find fn = none →
      fn.bytes.length ≤ CRData.max_strlen ∧ ∀ e ∈ s.files.open_files.entries, e.2 ≠ s.files.curr_id + 1
  | .remove _ => True
  | .flushf => s.files.wdata.data.length < 2 ^ 32 ∧ openSize s.files.open_files < 2 ^ 32 ∧
      (s.files.wdata.data ≠ [] → s.files.persistf.pos = s.files.persistf.content.length)
  | .construct => s.files.persistf.content.length ≤ CRData.max_datalen

instance (s : Session) (c : Call) : Decidable (s.Meets c) :=
  match c with
  | .add fn => inferInstanceAs (Decidable (s.files.open_files.find fn = none → _ ∧ _))
  | .remove _ => inferInstanceAs (Decidable True)
  | .flushf => inferInstanceAs (Decidable (_ ∧ _ ∧ (s.files.wdata.data ≠ [] → _)))
  | .construct => inferInstanceAs (Decidable (_ ≤ _))

/-- Every call of a run meets its condition. -/
def MeetsAll (s : Session) : List Call → Prop
  | [] => True
  | c :: calls => s.Meets c ∧ MeetsAll (s.call clock c) calls

instance decidableMeetsAll : (s : Session) → (calls : List Call) → Decidable (s.MeetsAll clock calls)
  | _, [] => inferInstanceAs (Decidable True)
  | s, c :: calls =>
    have := decidableMeetsAll (s.call clock c) calls
    inferInstanceAs (Decidable (_ ∧ _))

end Session

section Replays

variable {clock : Clock} {reads : Nat} {data data' : Bytes} {m m₁ m₂ : SortedMap FileName UInt32}

/-- Data with records that turn some open files into others, not later than a
reading of the clock. -/
def Replays (clock : Clock) (reads : Nat) (data : Bytes) (m m' : SortedMap FileName UInt32) : Prop :=
  ∃ recs, data = recs.flatMap Record.bytes ∧ Record.replay m recs = some m' ∧
    ∀ r ∈ recs, r.Fits ∧ r.rec_time ≤ clock.getTimeMS reads

namespace Replays

theorem nothing (m : SortedMap FileName UInt32) : Replays clock reads [] m m :=
  ⟨[], rfl, rfl, fun _ hr => absurd hr List.not_mem_nil⟩

theorem eq_of_nil (h : Replays clock reads [] m m₁) : m = m₁ := by
  obtain ⟨recs, hdata, hreplay, -⟩ := h
  cases recs with
  | nil => exact Option.some.inj hreplay
  | cons r recs =>
    have hlen := congrArg List.length hdata
    have hone := r.one_le_length_bytes
    simp only [List.length_nil, List.flatMap_cons, List.length_append] at hlen
    omega

theorem trans (h₁ : Replays clock reads data m m₁) (h₂ : Replays clock reads data' m₁ m₂) :
    Replays clock reads (data ++ data') m m₂ := by
  obtain ⟨recs₁, rfl, hreplay₁, hrecs₁⟩ := h₁
  obtain ⟨recs₂, rfl, hreplay₂, hrecs₂⟩ := h₂
  refine ⟨recs₁ ++ recs₂, by rw [List.flatMap_append], ?_, fun r hr => ?_⟩
  · rw [Record.replay, List.foldlM_append]
    exact Option.bind_eq_some_iff.mpr ⟨m₁, hreplay₁, hreplay₂⟩
  · obtain hr | hr := List.mem_append.mp hr
    · exact hrecs₁ r hr
    · exact hrecs₂ r hr

/-- The clock may be read again. -/
theorem later {reads' : Nat} (h : Replays clock reads data m m₁) (hreads : reads ≤ reads') :
    Replays clock reads' data m m₁ := by
  obtain ⟨recs, hdata, hreplay, hrecs⟩ := h
  exact ⟨recs, hdata, hreplay, fun r hr => ⟨(hrecs r hr).1, Int64.le_trans (hrecs r hr).2 (clock.not_backwards hreads)⟩⟩

theorem record {r : Record} (happly : r.apply m = some m₁) (hfits : r.Fits)
    (htime : r.rec_time = clock.getTimeMS reads) : Replays clock reads r.bytes m m₁ := by
  refine ⟨[r], by rw [List.flatMap_singleton], ?_, fun q hq => ?_⟩
  · rw [Record.replay, List.foldlM_cons, happly]
    rfl
  · obtain rfl := List.mem_singleton.mp hq
    exact ⟨hfits, htime ▸ Int64.le_refl _⟩

end Replays

end Replays

section Regular

/-- Open files can be told apart by their ids, and their names can be read again. -/
structure Regular (m : SortedMap FileName UInt32) : Prop where
  ids : ∀ a ∈ m.entries, ∀ b ∈ m.entries, a.2 = b.2 → a.1 = b.1
  names : ∀ e ∈ m.entries, e.1.bytes.length ≤ CRData.max_strlen

theorem regular_empty : Regular SortedMap.empty :=
  ⟨fun _ ha => absurd ha List.not_mem_nil, fun _ he => absurd he List.not_mem_nil⟩

variable {m : SortedMap FileName UInt32}

theorem Regular.insert (h : Regular m) {fn : FileName} {id : UInt32} (hname : fn.bytes.length ≤ CRData.max_strlen)
    (hid : ∀ e ∈ m.entries, e.2 ≠ id) : Regular (m.insert fn id) := by
  refine ⟨fun a ha b hb hab => ?_, fun e he => ?_⟩
  · obtain rfl | ha := SortedMap.mem_insertEntry ha
    · obtain rfl | hb := SortedMap.mem_insertEntry hb
      · rfl
      · exact absurd hab.symm (hid b hb)
    · obtain rfl | hb := SortedMap.mem_insertEntry hb
      · exact absurd hab (hid a ha)
      · exact h.ids a ha b hb hab
  · obtain rfl | he := SortedMap.mem_insertEntry he
    · exact hname
    · exact h.names e he

theorem Regular.erase (h : Regular m) (fn : FileName) : Regular (m.erase fn) :=
  ⟨fun a ha b hb => h.ids a (List.mem_of_mem_filter ha) b (List.mem_of_mem_filter hb),
    fun e he => h.names e (List.mem_of_mem_filter he)⟩

/-- The search for an id finds the file. -/
theorem Regular.find_id (h : Regular m) {fn : FileName} {id : UInt32} (hfn : m.find fn = some id) :
    ∃ it, (m.entries.find? fun e => e.2 = id) = some it ∧ it.1 = fn := by
  have hmem : (fn, id) ∈ m.entries := SortedMap.find_eq_some.mp hfn
  cases hfind : m.entries.find? fun e => e.2 = id with
  | none => exact absurd (List.find?_eq_none.mp hfind (fn, id) hmem) (by simp)
  | some it =>
    have hid : it.2 = id := by simpa using List.find?_some hfind
    exact ⟨it, rfl, h.ids it (List.mem_of_find?_eq_some hfind) (fn, id) hmem hid⟩

end Regular

section Steps

variable {clock : Clock} {p : PersistentOpenFiles}

open PersistentOpenFiles

theorem addf_wdata (fn : FileName) (id : UInt32) : (p.addf clock fn id).wdata.data =
    p.wdata.data ++ (Record.add (clock.getTimeMS p.reads) fn id).bytes :=
  congrArg CWData.data (addAll_eq p.wdata (Record.add (clock.getTimeMS p.reads) fn id).fields)

theorem removef_wdata (id : UInt32) (fn_size : Nat) : (p.removef clock id fn_size).wdata.data =
    p.wdata.data ++ (Record.remove (clock.getTimeMS p.reads) id).bytes :=
  congrArg CWData.data (addAll_eq p.wdata (Record.remove (clock.getTimeMS p.reads) id).fields)

/-- The file makes up some open files, and what is pending turns these into the
files that are open now. -/
structure Journaled (clock : Clock) (p : PersistentOpenFiles) (flushed : SortedMap FileName UInt32) : Prop where
  saved : Replays clock p.reads p.persistf.content SortedMap.empty flushed
  pending : Replays clock p.reads p.wdata.data flushed p.open_files
  regular : Regular p.open_files
  regular_flushed : Regular flushed

variable {flushed : SortedMap FileName UInt32}

theorem Journaled.add (h : Journaled clock p flushed) {fn : FileName}
    (hmeets : p.open_files.find fn = none →
      fn.bytes.length ≤ CRData.max_strlen ∧ ∀ e ∈ p.open_files.entries, e.2 ≠ p.curr_id + 1) :
    Journaled clock (p.add clock fn) flushed := by
  rw [PersistentOpenFiles.add]
  split
  · next hnew =>
    obtain ⟨hname, hid⟩ := hmeets hnew
    have hrecord : Replays clock p.reads (Record.add (clock.getTimeMS p.reads) fn (p.curr_id + 1)).bytes p.open_files
        (p.open_files.insert fn (p.curr_id + 1)) := Replays.record rfl hname rfl
    refine ⟨h.saved.later (Nat.le_succ _), ?_, h.regular.insert hname hid, h.regular_flushed⟩
    rw [addf_wdata]
    exact (h.pending.trans hrecord).later (Nat.le_succ _)
  · exact h

theorem Journaled.remove (h : Journaled clock p flushed) (fn : FileName) :
    Journaled clock (p.remove clock fn) flushed := by
  rw [PersistentOpenFiles.remove]
  split
  · next id hfn =>
    obtain ⟨it, hit, hfirst⟩ := h.regular.find_id hfn
    have happly : (Record.remove (clock.getTimeMS p.reads) id).apply p.open_files = some (p.open_files.erase fn) := by
      rw [Record.apply, hit, Option.map_some, hfirst]
    refine ⟨h.saved.later (Nat.le_succ _), ?_, h.regular.erase fn, h.regular_flushed⟩
    dsimp only
    rw [removef_wdata]
    exact (h.pending.trans (Replays.record happly trivial rfl)).later (Nat.le_succ _)
  · exact h

/-- The records of files that are written again. -/
theorem addf_entries (es : List (FileName × UInt32)) (p : PersistentOpenFiles) {m₀ m : SortedMap FileName UInt32}
    (h : Replays clock p.reads p.wdata.data m₀ m) (hnames : ∀ e ∈ es, e.1.bytes.length ≤ CRData.max_strlen) :
    ∃ wdata written reads,
      es.foldl (fun p e => p.addf clock e.1 e.2) p = { p with wdata, bytes_written := written, reads } ∧
      wdata.data.length = p.wdata.data.length + (es.map fun e => 1 + 8 + 4 + e.1.bytes.length + 4).sum ∧
      Replays clock reads wdata.data m₀ (es.foldl (fun m e => m.insert e.1 e.2) m) := by
  induction es generalizing p m with
  | nil => exact ⟨p.wdata, p.bytes_written, p.reads, rfl, rfl, h⟩
  | cons e es ih =>
    have hrecord : Replays clock p.reads (Record.add (clock.getTimeMS p.reads) e.1 e.2).bytes m
        (m.insert e.1 e.2) := Replays.record rfl (hnames e List.mem_cons_self) rfl
    have hadded : Replays clock (p.addf clock e.1 e.2).reads (p.addf clock e.1 e.2).wdata.data m₀
        (m.insert e.1 e.2) := by
      rw [addf_wdata]
      exact (h.trans hrecord).later (Nat.le_succ _)
    obtain ⟨wdata, written, reads, hfold, hlen, hreplays⟩ := ih _ hadded fun d hd => hnames d (List.mem_cons_of_mem _ hd)
    refine ⟨wdata, written, reads, hfold, ?_, hreplays⟩
    rw [hlen, addf_wdata, List.map_cons, List.sum_cons, List.length_append]
    simp only [Record.bytes, Record.fields, List.flatMap_cons, List.flatMap_nil, Field.bytes, List.length_append,
      length_leBytes, List.length_singleton, List.length_nil]
    omega

/-- All that is pending is written. -/
theorem getDataSize_eq {w : CWData} (h : w.data.length < 2 ^ 32) : getDataSize w = w.data.length :=
  Nat.mod_eq_of_lt h

theorem flushf_int_false (cycle : PersistentOpenFiles → Bool × PersistentOpenFiles) (h : p.wdata.data.length < 2 ^ 32) :
    (p.flushf_int cycle false).2 = { p with persistf := p.persistf.Write p.wdata.data, wdata := ⟨[]⟩ } := by
  rw [flushf_int, getDataSize_eq h]
  split
  · next hnil =>
    have hdata : p.wdata.data = [] := List.eq_nil_of_length_eq_zero hnil
    obtain ⟨⟨data⟩, persistf, open_files, bytes_written, bytes_deleted, curr_id, reads⟩ := p
    subst hdata
    simp [IFile.Write]
  · rw [if_neg (by simp), List.take_length]
    simp

variable (clock) in
/-- A compaction leaves the records of the open files, and the position at
their start. -/
theorem cycle_eq (hpending : p.wdata.data = []) (hnames : ∀ e ∈ p.open_files.entries, e.1.bytes.length ≤ CRData.max_strlen)
    (hsize : Session.openSize p.open_files < 2 ^ 32) :
    ∃ content written reads,
      p.cycle clock = (true, { p with
        wdata := ⟨[]⟩, persistf := ⟨content, 0⟩, bytes_deleted := 0, bytes_written := written, reads }) ∧
      content.length = Session.openSize p.open_files ∧ Replays clock reads content SortedMap.empty p.open_files := by
  have hnothing : Replays clock p.reads p.wdata.data SortedMap.empty SortedMap.empty :=
    hpending ▸ Replays.nothing SortedMap.empty
  obtain ⟨wdata, written, reads, hfold, hlen, hreplays⟩ := addf_entries p.open_files.entries
    { p with persistf := ⟨[], 0⟩, bytes_deleted := 0, bytes_written := 0 } hnothing hnames
  have hlength : wdata.data.length = Session.openSize p.open_files := by
    rw [hlen, hpending, List.length_nil, Nat.zero_add, Session.openSize]
  rw [SortedMap.foldl_insert_entries] at hreplays
  refine ⟨wdata.data, written, reads, ?_, hlength, hreplays⟩
  rw [PersistentOpenFiles.cycle]
  dsimp only
  rw [hfold, flushf_int_false _ (hlength ▸ hsize)]
  dsimp only
  rw [IFile.content_Write_end rfl, List.nil_append]

theorem cycle_journaled (hpending : p.wdata.data = []) (hregular : Regular p.open_files)
    (hsize : Session.openSize p.open_files < 2 ^ 32) :
    (p.cycle clock).1 = true ∧ (p.cycle clock).2.open_files = p.open_files ∧
      Journaled clock (p.cycle clock).2 p.open_files := by
  obtain ⟨content, written, reads, hcycle, -, hreplays⟩ := cycle_eq clock hpending hregular.names hsize
  rw [hcycle]
  exact ⟨rfl, rfl, hreplays, Replays.nothing _, hregular, hregular⟩

/-- After a flush the file has the files that are open. -/
theorem Journaled.flushf (h : Journaled clock p flushed) (hpending : p.wdata.data.length < 2 ^ 32)
    (hsize : Session.openSize p.open_files < 2 ^ 32)
    (hend : p.wdata.data ≠ [] → p.persistf.pos = p.persistf.content.length) :
    (p.flushf clock).1 = true ∧ (p.flushf clock).2.open_files = p.open_files ∧
      Journaled clock (p.flushf clock).2 p.open_files := by
  rw [PersistentOpenFiles.flushf, flushf_int, getDataSize_eq hpending]
  split
  · next hnil =>
    have hreplays := h.pending
    rw [List.eq_nil_of_length_eq_zero hnil] at hreplays
    obtain rfl := hreplays.eq_of_nil
    exact ⟨rfl, rfl, h⟩
  · next hdata =>
    split
    · exact cycle_journaled (p := { p with wdata := ⟨[]⟩ }) rfl h.regular hsize
    · have hwritten : Journaled clock
          { p with persistf := p.persistf.Write p.wdata.data, wdata := ⟨[]⟩ } p.open_files := by
        refine ⟨?_, Replays.nothing _, h.regular, h.regular⟩
        have hpos := hend fun hnil => hdata (by rw [hnil, List.length_nil])
        dsimp only
        rw [IFile.content_Write_end hpos]
        exact h.saved.trans h.pending
      rw [List.take_length]
      dsimp only
      split
      · exact cycle_journaled (p := { p with persistf := p.persistf.Write p.wdata.data, wdata := ⟨[]⟩ }) rfl h.regular
          hsize
      · exact ⟨rfl, rfl, hwritten⟩

/-- Records that are not later than now are loaded. -/
theorem load_replays {content : Bytes} {reads : Nat} (h : Replays clock reads content SortedMap.empty flushed)
    (hlen : content.length ≤ CRData.max_datalen) :
    (construct clock content reads).open_files = flushed ∧ (construct clock content reads).wdata.data = [] ∧
      (construct clock content reads).persistf.content = content ∧
      reads ≤ (construct clock content reads).reads := by
  obtain ⟨recs, hdata, hreplay, hrecs⟩ := h
  have hfuel : recs.length < content.length + 1 := Nat.lt_succ_of_le (hdata ▸ Record.length_le_length_bytes recs)
  obtain ⟨l, rfl, hmax, hload⟩ := loadRecords_between recs [] ⟨SortedMap.empty, 0, 0, 0, 0⟩ hreplay
    (fun r hr => (hrecs r hr).1) (clock.not_negative reads) (fun r hr => (hrecs r hr).2) hfuel
  rw [← hdata, ← set_eq_between hlen] at hload
  have hlast := not_gt_time (Int64.le_trans hmax (clock.not_backwards (Nat.le_succ reads)))
  have hloaded : (load clock ⟨⟨[]⟩, ⟨content, 0⟩, SortedMap.empty, 0, 0, 0, reads⟩) = (true,
      ⟨⟨[]⟩, ⟨content, content.length⟩, l.new_open_files, l.bytes_written, l.bytes_deleted, l.curr_id, reads + 2⟩) := by
    rw [load]
    dsimp only
    rw [hload]
    dsimp only
    rw [if_neg hlast]
    rfl
  rw [construct, hloaded]
  exact ⟨rfl, rfl, rfl, Nat.le_add_right reads 2⟩

end Steps

section Runs

variable {clock : Clock}

/-- A session with the journal of the files that were open at its last flush. -/
def Session.Journaled (clock : Clock) (s : Session) : Prop :=
  ∃ m : SortedMap FileName UInt32, m.entries.map Prod.fst = s.flushed ∧ openfiles.Journaled clock s.files m

theorem journaled_start (clock : Clock) : (Session.start clock).Journaled clock := by
  have hnothing : Replays clock 0 [] SortedMap.empty SortedMap.empty := Replays.nothing _
  obtain ⟨hopen, hwdata, hcontent, -⟩ := load_replays hnothing (Nat.zero_le _)
  refine ⟨SortedMap.empty, rfl, ?_, ?_, ?_, regular_empty⟩
  · rw [Session.start, hcontent]
    exact Replays.nothing _
  · rw [Session.start, hwdata, hopen]
    exact Replays.nothing _
  · rw [Session.start, hopen]
    exact regular_empty

/-- Every call keeps the journal. -/
theorem journaled_call {s : Session} (h : s.Journaled clock) {c : Call} (hmeets : s.Meets c) :
    (s.call clock c).Journaled clock := by
  obtain ⟨m, hnames, hjournal⟩ := h
  cases c with
  | add fn => exact ⟨m, hnames, hjournal.add hmeets⟩
  | remove fn => exact ⟨m, hnames, hjournal.remove fn⟩
  | flushf =>
    obtain ⟨hpending, hsize, hend⟩ := hmeets
    obtain ⟨hret, hopen, hflushed⟩ := hjournal.flushf hpending hsize hend
    refine ⟨s.files.open_files, ?_, hflushed⟩
    rw [Session.call]
    dsimp only
    rw [hret]
    rfl
  | construct =>
    obtain ⟨hopen, hwdata, hcontent, hreads⟩ := load_replays hjournal.saved hmeets
    refine ⟨m, hnames, ?_, ?_, ?_, hjournal.regular_flushed⟩
    · rw [Session.call, hcontent]
      exact hjournal.saved.later hreads
    · rw [Session.call, hwdata, hopen]
      exact Replays.nothing _
    · rw [Session.call, hopen]
      exact hjournal.regular_flushed

theorem journaled_run {s : Session} (h : s.Journaled clock) {calls rest : List Call}
    (hmeets : s.MeetsAll clock (calls ++ rest)) :
    (s.run clock calls).Journaled clock ∧ (s.run clock calls).MeetsAll clock rest := by
  induction calls generalizing s with
  | nil => exact ⟨h, hmeets⟩
  | cons c calls ih => exact ih (journaled_call h hmeets.1) hmeets.2

/-- In a run whose calls meet their conditions a new object, wherever it is
constructed, has the files open that were open at the last flush. -/
theorem loadsFlushed_of_meetsAll (clock : Clock) (calls : List Call)
    (h : (Session.start clock).MeetsAll clock (calls ++ [.construct])) :
    ((Session.start clock).run clock calls).LoadsFlushed clock := by
  obtain ⟨⟨m, hnames, hjournal⟩, hmeets, -⟩ := journaled_run (journaled_start clock) h
  obtain ⟨hopen, -⟩ := load_replays hjournal.saved hmeets
  rw [Session.LoadsFlushed, Session.call, PersistentOpenFiles.get]
  dsimp only
  rw [hopen, hnames]

/-- What was added after the flush is gone after the next construction, and its
id is used again. -/
theorem loadsFlushed_reloaded : ((Session.start atRest).run atRest
    [.add ⟨[97]⟩, .flushf, .add ⟨[98]⟩, .construct, .add ⟨[99]⟩, .remove ⟨[97]⟩, .flushf]).LoadsFlushed atRest :=
  loadsFlushed_of_meetsAll atRest _ (by decide +kernel)

end Runs

end urbackup.openfiles
