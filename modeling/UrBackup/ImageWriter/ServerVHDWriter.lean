import UrBackup.ImageWriter.FileBufferWriter

namespace urbackup.imagewriter

open stringtools filedata

section Model

/-- The two threads of an image: that of the writer and, with temporary files, that of
`ServerFileBufferWriter`. -/
structure ServerVHDWriter where
  filebuffer : Bool
  filebuf_lim : Nat
  tqueue : List BufferVHDItem
  exit : Bool
  stopped : Bool
  currfile : Bytes
  currfile_size : Nat
  fb_queue : List Bytes
  fb_exit : Bool
  fb_stopped : Bool
  blockbuf_size : Nat
  has_error : Bool
  written : List VHDWrite

/-- The calls from outside, and the rounds of the threads in the order in which they
take the mutex. Nothing is written to a temporary file once it is handed over. -/
inductive WriterStep where
  | writeBuffer (item : BufferVHDItem)
  | doExit
  | take (pad : Padding)
  | finish
  | replay
  | fbFinish

namespace ServerVHDWriter

variable (w : ServerVHDWriter)

/-- `writeRetry` gets the size as an unsigned integer. -/
def spool (item : BufferVHDItem) (pad : Padding) : ServerVHDWriter :=
  let bsize := if item.buf.isSome then item.bsize else 0
  let currfile := w.currfile ++ (item.record pad).take ((sizeof_FileBufferVHDItem + bsize) % 2 ^ 32)
  let currfile_size := (w.currfile_size + bsize + sizeof_FileBufferVHDItem) % 2 ^ 64
  if currfile_size > w.filebuf_lim then { w with fb_queue := w.fb_queue ++ [currfile], currfile := [], currfile_size := 0 }
  else { w with currfile := currfile, currfile_size := currfile_size }

def handle (item : BufferVHDItem) (pad : Padding) : ServerVHDWriter :=
  if w.has_error then w
  else if !w.filebuffer then { w with written := w.written ++ [item.write] }
  else w.spool item pad

def replayFile (tmp : Bytes) : ServerVHDWriter :=
  if w.has_error then w
  else
    let r := imagewriter.replay tmp w.blockbuf_size w.written
    { w with
      blockbuf_size := r.blockbuf_size
      written := r.written
      has_error := r.has_error
      fb_stopped := r.has_error }

def step : WriterStep → Option ServerVHDWriter
  | .writeBuffer item => if w.exit then none else some { w with tqueue := w.tqueue ++ [item] }
  | .doExit => some { w with exit := true }
  | .take pad =>
    match w.tqueue with
    | item :: tqueue => if w.stopped then none else some ({ w with tqueue := tqueue }.handle item pad)
    | [] => none
  | .finish =>
    if w.tqueue = [] ∧ w.exit ∧ !w.stopped then
      if w.filebuffer then some { w with stopped := true, fb_queue := w.fb_queue ++ [w.currfile], currfile := [], fb_exit := true }
      else some { w with stopped := true }
    else none
  | .replay =>
    match w.fb_queue with
    | tmp :: fb_queue => if w.fb_stopped then none else some ({ w with fb_queue := fb_queue }.replayFile tmp)
    | [] => none
  | .fbFinish => if w.fb_queue = [] ∧ w.fb_exit ∧ !w.fb_stopped then some { w with fb_stopped := true } else none

def run : List WriterStep → ServerVHDWriter → Option ServerVHDWriter
  | [], w => some w
  | e :: es, w => (w.step e).bind (run es)

def new (filebuffer : Bool) (blocksize filebuf_lim : Nat) : ServerVHDWriter where
  filebuffer := filebuffer
  filebuf_lim := filebuf_lim
  tqueue := []
  exit := false
  stopped := false
  currfile := []
  currfile_size := 0
  fb_queue := []
  fb_exit := false
  fb_stopped := false
  blockbuf_size := (blocksize + sizeof_FileBufferVHDItem + 1) % 2 ^ 32
  has_error := false
  written := []

/-- Both threads have ended. -/
def Done : Prop :=
  w.stopped = true ∧ (w.filebuffer = true → w.fb_stopped = true)

end ServerVHDWriter

/-- The items that `writeBuffer` is called with. -/
def items (steps : List WriterStep) : List BufferVHDItem :=
  steps.filterMap fun
    | .writeBuffer item => some item
    | _ => none

end Model

section Invariant

/-- The items of `given` are written, in temporary files, or in the queue of the
writer. -/
structure Carries (given : List BufferVHDItem) (w : ServerVHDWriter) : Prop where
  order : ∃ files : List (List (BufferVHDItem × Padding)), ∃ curr : List (BufferVHDItem × Padding),
    w.fb_queue = files.map records ∧ w.currfile = records curr ∧
      (∀ f ∈ files, ∀ i ∈ f, i.1.Fits) ∧ (∀ i ∈ curr, i.1.Fits) ∧
      given.map (·.write) =
        w.written ++ files.flatten.map (·.1.write) ++ curr.map (·.1.write) ++ w.tqueue.map (·.write)
  waiting : ∀ i ∈ w.tqueue, i.Fits
  direct : w.filebuffer = false → w.fb_queue = [] ∧ w.currfile = []
  stopped : w.stopped = true → w.exit = true ∧ w.tqueue = [] ∧ w.currfile = [] ∧ w.fb_exit = w.filebuffer
  fb_exit : w.fb_exit = true → w.stopped = true
  fb_stopped : w.fb_stopped = true → w.fb_queue = [] ∧ w.fb_exit = true
  size : sizeof_FileBufferVHDItem + 1 ≤ w.blockbuf_size
  size_lt : w.blockbuf_size < 2 ^ 32
  error : w.has_error = false

variable {given : List BufferVHDItem} {w w' : ServerVHDWriter}

theorem carries_new (filebuffer : Bool) {blocksize : Nat} (filebuf_lim : Nat)
    (hblocksize : blocksize + sizeof_FileBufferVHDItem + 1 < 2 ^ 32) : Carries [] (ServerVHDWriter.new filebuffer blocksize filebuf_lim) := by
  have hsize : (blocksize + sizeof_FileBufferVHDItem + 1) % 2 ^ 32 = blocksize + sizeof_FileBufferVHDItem + 1 :=
    Nat.mod_eq_of_lt hblocksize
  constructor
  · exact ⟨[], [], rfl, rfl, (fun f hf => nomatch hf), (fun i hi => nomatch hi), rfl⟩
  · exact fun i hi => nomatch hi
  · exact fun _ => ⟨rfl, rfl⟩
  · exact fun h => nomatch h
  · exact fun h => nomatch h
  · exact fun h => nomatch h
  · rw [ServerVHDWriter.new, hsize]
    dsimp only
    omega
  · rw [ServerVHDWriter.new, hsize]
    exact hblocksize
  · rfl

/-- The whole record goes to the temporary file. -/
theorem take_record {i : BufferVHDItem} (h : i.Fits) (pad : Padding) :
    (i.record pad).take ((sizeof_FileBufferVHDItem + if i.buf.isSome then i.bsize else 0) % 2 ^ 32) = i.record pad := by
  cases hbuf : i.buf with
  | none =>
    refine List.take_of_length_le ?_
    rw [record_trim hbuf, length_bytes]
    exact Nat.le_refl _
  | some buf =>
    have hsmall := h buf hbuf
    have hmod : (sizeof_FileBufferVHDItem + i.bsize) % 2 ^ 32 = sizeof_FileBufferVHDItem + i.bsize := Nat.mod_eq_of_lt (by omega)
    refine List.take_of_length_le ?_
    rw [record_data hbuf, List.length_append, length_bytes, i.filled buf hbuf, Option.isSome_some, if_pos rfl, hmod]

theorem Carries.writeBuffer (h : Carries given w) {item : BufferVHDItem} (hfits : item.Fits) (hexit : w.exit = false) :
    Carries (given ++ [item]) { w with tqueue := w.tqueue ++ [item] } := by
  obtain ⟨files, curr, hqueue, hcurr, hfiles, hcurrs, horder⟩ := h.order
  refine { h with order := ⟨files, curr, hqueue, hcurr, hfiles, hcurrs, ?_⟩, waiting := fun i hi => ?_, stopped := fun hstopped => ?_ }
  · rw [List.map_append, horder, List.map_append, List.append_assoc _ (w.tqueue.map _)]
  · rcases List.mem_append.mp hi with hi | hi
    · exact h.waiting i hi
    · exact List.mem_singleton.mp hi ▸ hfits
  · exact absurd (h.stopped hstopped).1 (by rw [hexit]; exact Bool.false_ne_true)

theorem Carries.take (h : Carries given w) {item : BufferVHDItem} {tqueue : List BufferVHDItem} (hqueue : w.tqueue = item :: tqueue)
    (hstopped : w.stopped = false) (pad : Padding) : Carries given ({ w with tqueue := tqueue }.handle item pad) := by
  obtain ⟨files, curr, hfb, hcurr, hfiles, hcurrs, horder⟩ := h.order
  have hitem := h.waiting item (by rw [hqueue]; exact List.mem_cons_self)
  have hwaiting : ∀ i ∈ tqueue, i.Fits := fun i hi => h.waiting i (by rw [hqueue]; exact List.mem_cons_of_mem _ hi)
  have hnot : ¬ w.stopped = true := by rw [hstopped]; exact Bool.false_ne_true
  rw [hqueue, List.map_cons] at horder
  rw [ServerVHDWriter.handle, if_neg (by simp [h.error])]
  split
  · next hdirect =>
    have hdirect : w.filebuffer = false := by simpa using hdirect
    obtain ⟨hnone, hempty⟩ := h.direct hdirect
    have hcurrnil : curr.map (·.1.write) = [] := by
      have := length_le_records curr
      rw [← hcurr, hempty] at this
      simpa using this
    have hfilesnil : files = [] := by simpa [hnone] using hfb.symm
    subst hfilesnil
    refine { h with order := ⟨[], curr, hfb, hcurr, hfiles, hcurrs, ?_⟩, waiting := hwaiting, stopped := fun hs => absurd hs hnot }
    rw [horder, hcurrnil]
    simp
  · next hbuffer =>
    have hbuffer : w.filebuffer = true := by simpa using hbuffer
    have hfull := take_record hitem pad
    have hnotdirect : ∀ {P : Prop}, w.filebuffer = false → P := fun hfalse => absurd (hbuffer.symm.trans hfalse) Bool.false_ne_true.symm
    have hcurrs' : ∀ i ∈ curr ++ [(item, pad)], i.1.Fits := by
      intro i hi
      rcases List.mem_append.mp hi with hi | hi
      · exact hcurrs i hi
      · exact List.mem_singleton.mp hi ▸ hitem
    have hrecords : w.currfile ++ item.record pad = records (curr ++ [(item, pad)]) := by
      simp [records, hcurr]
    simp only [ServerVHDWriter.spool, hfull]
    generalize (w.currfile_size + (if item.buf.isSome = true then item.bsize else 0) + sizeof_FileBufferVHDItem) % 2 ^ 64 = currfile_size
    by_cases hlim : currfile_size > w.filebuf_lim
    · rw [if_pos hlim]
      refine
        { h with
          order := ⟨files ++ [curr ++ [(item, pad)]], [], ?_, rfl, ?_, (fun i hi => nomatch hi), ?_⟩
          waiting := hwaiting, direct := fun hfalse => hnotdirect hfalse, stopped := fun hs => absurd hs hnot
          fb_stopped := fun hs => absurd (h.fb_exit (h.fb_stopped hs).2) hnot }
      · rw [List.map_append, hfb, hrecords]
        rfl
      · intro f hf
        rcases List.mem_append.mp hf with hf | hf
        · exact hfiles f hf
        · exact List.mem_singleton.mp hf ▸ hcurrs'
      · rw [horder]
        simp
    · rw [if_neg hlim]
      refine
        { h with
          order := ⟨files, curr ++ [(item, pad)], hfb, hrecords, hfiles, hcurrs', ?_⟩
          waiting := hwaiting, direct := fun hfalse => hnotdirect hfalse, stopped := fun hs => absurd hs hnot }
      rw [horder]
      simp

/-- The writer ends and hands over its last temporary file. -/
theorem Carries.finish (h : Carries given w) (hqueue : w.tqueue = []) (hexit : w.exit = true) (hbuffer : w.filebuffer = true)
    (hstopped : w.stopped = false) :
    Carries given { w with stopped := true, fb_queue := w.fb_queue ++ [w.currfile], currfile := [], fb_exit := true } := by
  obtain ⟨files, curr, hfb, hcurr, hfiles, hcurrs, horder⟩ := h.order
  have hnot : ¬ w.stopped = true := by rw [hstopped]; exact Bool.false_ne_true
  refine
    { h with
      order := ⟨files ++ [curr], [], ?_, rfl, ?_, (fun i hi => nomatch hi), ?_⟩
      direct := fun hfalse => absurd (hbuffer.symm.trans hfalse) Bool.false_ne_true.symm
      stopped := fun _ => ⟨hexit, hqueue, rfl, hbuffer.symm⟩
      fb_exit := fun _ => rfl
      fb_stopped := fun hs => absurd (h.fb_exit (h.fb_stopped hs).2) hnot }
  · rw [List.map_append, hfb, hcurr]
    rfl
  · intro f hf
    rcases List.mem_append.mp hf with hf | hf
    · exact hfiles f hf
    · exact List.mem_singleton.mp hf ▸ hcurrs
  · rw [horder]
    simp

theorem Carries.finish_direct (h : Carries given w) (hqueue : w.tqueue = []) (hexit : w.exit = true) (hdirect : w.filebuffer = false) :
    Carries given { w with stopped := true } := by
  have hfb : w.fb_exit = false := by
    by_contra hne
    have hs := h.fb_exit (by simpa using hne)
    exact hne (((h.stopped hs).2.2.2).trans hdirect)
  exact
    { h with
      stopped := fun _ => ⟨hexit, hqueue, (h.direct hdirect).2, hfb.trans hdirect.symm⟩
      fb_exit := fun _ => rfl }

/-- A temporary file is read, and its items are written. -/
theorem Carries.replay (h : Carries given w) {tmp : Bytes} {fb_queue : List Bytes} (hqueue : w.fb_queue = tmp :: fb_queue) :
    Carries given ({ w with fb_queue := fb_queue }.replayFile tmp) ∧
      ({ w with fb_queue := fb_queue }.replayFile tmp).fb_stopped = false := by
  obtain ⟨files, curr, hfb, hcurr, hfiles, hcurrs, horder⟩ := h.order
  obtain ⟨f, rest, rfl, hf, hrest⟩ : ∃ f rest, files = f :: rest ∧ records f = tmp ∧ rest.map records = fb_queue := by
    rw [hqueue] at hfb
    obtain ⟨f, rest, hfiles', hf, hrest⟩ := List.map_eq_cons_iff.mp hfb.symm
    exact ⟨f, rest, hfiles', hf, hrest⟩
  obtain ⟨hwritten, herror, hsize, hsize_lt⟩ := replay_records (hfiles f List.mem_cons_self) h.size h.size_lt w.written
  subst hf
  rw [ServerVHDWriter.replayFile, if_neg (by simp [h.error])]
  refine
    ⟨{ h with
       order := ⟨rest, curr, hrest.symm, hcurr, fun g hg => hfiles g (List.mem_cons_of_mem _ hg), hcurrs, ?_⟩
       direct := fun hdirect => absurd (h.direct hdirect).1 (by rw [hqueue]; simp)
       fb_stopped := fun hs => absurd (herror.symm.trans hs) Bool.false_ne_true
       size := hsize, size_lt := hsize_lt, error := herror }, herror⟩
  rw [horder]
  dsimp only
  rw [hwritten]
  simp

theorem Carries.of_none {e : WriterStep} (hnone : items [e] = []) (h : Carries given w) : Carries (given ++ items [e]) w := by
  rwa [hnone, List.append_nil]

theorem Carries.step (h : Carries given w) {e : WriterStep} (hstep : w.step e = some w') (hfits : ∀ i ∈ items [e], i.Fits) :
    Carries (given ++ items [e]) w' := by
  cases e with
  | writeBuffer item =>
    rw [ServerVHDWriter.step] at hstep
    split at hstep
    · cases hstep
    · next hexit => exact Option.some.inj hstep ▸ h.writeBuffer (hfits item List.mem_cons_self) (by simpa using hexit)
  | doExit =>
    rw [← Option.some.inj hstep]
    refine .of_none rfl ?_
    exact { h with stopped := fun hs => ⟨rfl, (h.stopped hs).2⟩ }
  | take pad =>
    refine .of_none rfl ?_
    rw [ServerVHDWriter.step] at hstep
    split at hstep
    · next item tqueue hqueue =>
      split at hstep
      · cases hstep
      · next hstopped => exact Option.some.inj hstep ▸ h.take hqueue (by simpa using hstopped) pad
    · cases hstep
  | finish =>
    refine .of_none rfl ?_
    rw [ServerVHDWriter.step] at hstep
    split at hstep
    · next hready =>
      obtain ⟨hqueue, hexit, hstopped⟩ := hready
      split at hstep
      · next hbuffer => exact Option.some.inj hstep ▸ h.finish hqueue hexit hbuffer (by simpa using hstopped)
      · next hbuffer => exact Option.some.inj hstep ▸ h.finish_direct hqueue hexit (by simpa using hbuffer)
    · cases hstep
  | replay =>
    refine .of_none rfl ?_
    rw [ServerVHDWriter.step] at hstep
    split at hstep
    · next tmp fb_queue hqueue =>
      split at hstep
      · cases hstep
      · exact Option.some.inj hstep ▸ (h.replay hqueue).1
    · cases hstep
  | fbFinish =>
    refine .of_none rfl ?_
    rw [ServerVHDWriter.step] at hstep
    split at hstep
    · next hready =>
      rw [← Option.some.inj hstep]
      exact { h with fb_stopped := fun _ => ⟨hready.1, hready.2.1⟩ }
    · cases hstep

theorem items_cons (e : WriterStep) (es : List WriterStep) : items (e :: es) = items [e] ++ items es := by
  rw [items, items, items, ← List.filterMap_append]
  rfl

theorem Carries.run {steps : List WriterStep} (h : Carries given w) (hrun : w.run steps = some w') (hfits : ∀ i ∈ items steps, i.Fits) :
    Carries (given ++ items steps) w' := by
  induction steps generalizing given w with
  | nil =>
    rw [← Option.some.inj hrun, items, List.filterMap_nil, List.append_nil]
    exact h
  | cons e es ih =>
    obtain ⟨w₁, hstep, hrest⟩ := Option.bind_eq_some_iff.mp hrun
    rw [items_cons] at hfits ⊢
    rw [← List.append_assoc]
    refine ih (h.step hstep fun i hi => hfits i (List.mem_append_left _ hi)) hrest fun i hi => hfits i (List.mem_append_right _ hi)

/-- At the end everything is written. -/
theorem Carries.written (h : Carries given w) (hdone : w.Done) : w.written = given.map (·.write) := by
  obtain ⟨files, curr, hfb, hcurr, -, -, horder⟩ := h.order
  obtain ⟨-, htqueue, hempty, -⟩ := h.stopped hdone.1
  have hqueue : w.fb_queue = [] := by
    cases hbuffer : w.filebuffer with
    | false => exact (h.direct hbuffer).1
    | true => exact (h.fb_stopped (hdone.2 hbuffer)).1
  have hfiles : files = [] := by simpa [hqueue] using hfb.symm
  have hcurrs : curr = [] := by
    have := length_le_records curr
    rw [← hcurr, hempty] at this
    simpa using this
  rw [horder, hfiles, hcurrs, htqueue]
  simp

end Invariant

section Progress

variable {given : List BufferVHDItem} {w w' : ServerVHDWriter}

theorem run_append (es es' : List WriterStep) (w : ServerVHDWriter) : w.run (es ++ es') = (w.run es).bind (·.run es') := by
  induction es generalizing w with
  | nil => rfl
  | cons e es ih =>
    rw [List.cons_append, ServerVHDWriter.run, ServerVHDWriter.run, Option.bind_assoc]
    exact Option.bind_congr fun w₁ _ => ih w₁

theorem items_append (es es' : List WriterStep) : items (es ++ es') = items es ++ items es' :=
  List.filterMap_append

/-- What a round of the writer leaves alone. -/
theorem handle_frame (w : ServerVHDWriter) (item : BufferVHDItem) (pad : Padding) : (w.handle item pad).tqueue = w.tqueue ∧
    (w.handle item pad).exit = w.exit ∧ (w.handle item pad).stopped = w.stopped := by
  unfold ServerVHDWriter.handle ServerVHDWriter.spool
  split
  · exact ⟨rfl, rfl, rfl⟩
  · split
    · exact ⟨rfl, rfl, rfl⟩
    · dsimp only
      generalize (w.currfile_size + (if item.buf.isSome = true then item.bsize else 0) + sizeof_FileBufferVHDItem) % 2 ^ 64 = currfile_size
      by_cases hlim : currfile_size > w.filebuf_lim
      · rw [if_pos hlim]
        exact ⟨rfl, rfl, rfl⟩
      · rw [if_neg hlim]
        exact ⟨rfl, rfl, rfl⟩

theorem replayFile_frame (w : ServerVHDWriter) (tmp : Bytes) : (w.replayFile tmp).fb_queue = w.fb_queue ∧
    (w.replayFile tmp).stopped = w.stopped ∧ (w.replayFile tmp).fb_exit = w.fb_exit := by
  unfold ServerVHDWriter.replayFile
  split
  · exact ⟨rfl, rfl, rfl⟩
  · exact ⟨rfl, rfl, rfl⟩

/-- The writer takes what is in its queue and ends. -/
theorem writer_ends (h : Carries given w) (hexit : w.exit = true) (hstopped : w.stopped = false) :
    ∃ more w', items more = [] ∧ w.run more = some w' ∧ w'.stopped = true := by
  obtain ⟨tqueue, hqueue⟩ : ∃ tqueue, w.tqueue = tqueue := ⟨_, rfl⟩
  induction tqueue generalizing w with
  | nil =>
    cases hbuffer : w.filebuffer with
    | false =>
      refine ⟨[.finish], { w with stopped := true }, rfl, ?_, rfl⟩
      simp [ServerVHDWriter.run, ServerVHDWriter.step, hqueue, hexit, hstopped, hbuffer]
    | true =>
      refine ⟨[.finish], { w with stopped := true, fb_queue := w.fb_queue ++ [w.currfile], currfile := [], fb_exit := true }, rfl, ?_, rfl⟩
      simp [ServerVHDWriter.run, ServerVHDWriter.step, hqueue, hexit, hstopped, hbuffer]
  | cons item tqueue ih =>
    have pad : Padding := ⟨List.replicate 7 0, List.replicate 4 0, rfl, rfl⟩
    obtain ⟨htq, hex, hst⟩ := handle_frame { w with tqueue := tqueue } item pad
    obtain ⟨more, w', hmore, hrun, hdone⟩ := ih (h.take hqueue hstopped pad) (hex.trans hexit) (hst.trans hstopped) htq
    have hstep : w.step (.take pad) = some ({ w with tqueue := tqueue }.handle item pad) := by
      rw [ServerVHDWriter.step, hqueue]
      exact if_neg (by simp [hstopped])
    refine ⟨.take pad :: more, w', hmore, ?_, hdone⟩
    rw [ServerVHDWriter.run, hstep]
    exact hrun

/-- The temporary files are read, and the other thread ends. -/
theorem fileBufferWriter_ends (h : Carries given w) (hstopped : w.stopped = true) (hfb_exit : w.fb_exit = true)
    (hfb_stopped : w.fb_stopped = false) : ∃ more w', items more = [] ∧ w.run more = some w' ∧ w'.Done := by
  obtain ⟨fb_queue, hqueue⟩ : ∃ fb_queue, w.fb_queue = fb_queue := ⟨_, rfl⟩
  induction fb_queue generalizing w with
  | nil =>
    refine ⟨[.fbFinish], { w with fb_stopped := true }, rfl, ?_, hstopped, fun _ => rfl⟩
    simp [ServerVHDWriter.run, ServerVHDWriter.step, hqueue, hfb_exit, hfb_stopped]
  | cons tmp fb_queue ih =>
    obtain ⟨hcarries, hnot⟩ := h.replay hqueue
    obtain ⟨hfq, hst, hex⟩ := replayFile_frame { w with fb_queue := fb_queue } tmp
    obtain ⟨more, w', hmore, hrun, hdone⟩ := ih hcarries (hst.trans hstopped) (hex.trans hfb_exit) hnot hfq
    have hstep : w.step .replay = some ({ w with fb_queue := fb_queue }.replayFile tmp) := by
      rw [ServerVHDWriter.step, hqueue]
      exact if_neg (by simp [hfb_stopped])
    refine ⟨.replay :: more, w', hmore, ?_, hdone⟩
    rw [ServerVHDWriter.run, hstep]
    exact hrun

/-- Both threads end once `doExit` is called. -/
theorem Carries.ends (h : Carries given w) : ∃ more w', items more = [] ∧ w.run more = some w' ∧ w'.Done := by
  have hexit : Carries given { w with exit := true } := { h with stopped := fun hs => ⟨rfl, (h.stopped hs).2⟩ }
  obtain ⟨more₁, w₁, hmore₁, hrun₁, hstopped₁⟩ : ∃ more w', items more = [] ∧ w.run more = some w' ∧ w'.stopped = true := by
    cases hstopped : w.stopped with
    | true => exact ⟨[], w, rfl, rfl, hstopped⟩
    | false =>
      obtain ⟨more, w', hmore, hrun, hdone⟩ := writer_ends hexit rfl hstopped
      exact ⟨.doExit :: more, w', hmore, hrun, hdone⟩
  have hcarries₁ : Carries given w₁ := by
    have hrun := h.run hrun₁ (by rw [hmore₁]; exact fun i hi => nomatch hi)
    rwa [hmore₁, List.append_nil] at hrun
  have hfb_exit := (hcarries₁.stopped hstopped₁).2.2.2
  by_cases hdone : w₁.Done
  · exact ⟨more₁, w₁, hmore₁, hrun₁, hdone⟩
  · have hbuffer : w₁.filebuffer = true ∧ w₁.fb_stopped = false := by
      simpa [ServerVHDWriter.Done, hstopped₁] using hdone
    obtain ⟨more₂, w₂, hmore₂, hrun₂, hdone₂⟩ :=
      fileBufferWriter_ends hcarries₁ hstopped₁ (hfb_exit.trans hbuffer.1) hbuffer.2
    refine ⟨more₁ ++ more₂, w₂, by rw [items_append, hmore₁, hmore₂]; rfl, ?_, hdone₂⟩
    rw [run_append, hrun₁]
    exact hrun₂

end Progress

/-- Writing through temporary files, however they are cut, ends without an error and
writes what is written without them. -/
theorem same_writes {blocksize filebuf_lim : Nat} (hblocksize : blocksize + sizeof_FileBufferVHDItem + 1 < 2 ^ 32)
    {steps : List WriterStep} (hfits : ∀ i ∈ items steps, i.Fits) {w : ServerVHDWriter}
    (hrun : (ServerVHDWriter.new true blocksize filebuf_lim).run steps = some w) :
    w.has_error = false ∧ (∃ more w', items more = [] ∧ w.run more = some w' ∧ w'.Done) ∧
      (w.Done → w.written = (items steps).map (·.write)) ∧
      ∀ direct d, (ServerVHDWriter.new false blocksize filebuf_lim).run direct = some d → items direct = items steps →
        w.Done → d.Done → w.written = d.written := by
  have hcarries := (carries_new true filebuf_lim hblocksize).run hrun hfits
  refine ⟨hcarries.error, hcarries.ends, hcarries.written, fun direct d hdirect hsame hdone hdone' => ?_⟩
  have hcarries' := (carries_new false filebuf_lim hblocksize).run hdirect (by rw [hsame]; exact hfits)
  rw [hcarries.written hdone, hcarries'.written hdone', hsame]

/-- Data of two sizes and a trim. -/
def someItems : List BufferVHDItem :=
  [⟨some [7, 8], 512, 2, by decide, by decide, by simp⟩, ⟨some [1, 2], 514, 2, by decide, by decide, by simp⟩,
    ⟨some [9], 0, 1, by decide, by decide, by simp⟩, ⟨none, 1024, 512, by decide, by decide, by simp⟩,
    ⟨some [3, 4], 2, 2, by decide, by decide, by simp⟩]

/-- The first file has four of them. -/
def someSteps : List WriterStep :=
  someItems.map .writeBuffer ++ .doExit :: List.replicate 5 (.take ⟨List.replicate 7 0, List.replicate 4 0, rfl, rfl⟩) ++
    [.finish, .replay, .replay, .fbFinish]

theorem same_writes_someSteps : ∃ w, (ServerVHDWriter.new true 2 80).run someSteps = some w ∧ w.has_error = false ∧
    w.written = [⟨512, some [7, 8], 2⟩, ⟨514, some [1, 2], 2⟩, ⟨0, some [9], 1⟩, ⟨1024, none, 512⟩, ⟨2, some [3, 4], 2⟩] := by
  have hsize : ∀ i ∈ items someSteps, i.bsize + sizeof_FileBufferVHDItem + 1 < 2 ^ 32 := by decide
  obtain ⟨w, hrun⟩ : ∃ w, (ServerVHDWriter.new true 2 80).run someSteps = some w := ⟨_, rfl⟩
  obtain ⟨herror, -, hwritten, -⟩ := same_writes (by decide) (fun i hi _ _ => hsize i hi) hrun
  refine ⟨w, hrun, herror, hwritten ?_⟩
  obtain rfl := Option.some.inj hrun
  exact ⟨rfl, fun _ => rfl⟩

end urbackup.imagewriter
