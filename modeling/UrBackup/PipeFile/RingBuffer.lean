import UrBackup.PipeFile.PipeFileBase

namespace urbackup.fileservplugin

open stringtools filedata

namespace PipeFileBase

theorem sizes : 0 < buffer_keep_free ∧ buffer_keep_free < buffer_size := by
  decide

section Definitions

variable (p : Produced)

/-- What the producer has written and not yet committed. -/
def written : Bytes :=
  match p.pipe.filling with
  | none => []
  | some f => f.written

/-- The start of the buffer is at `base` in the stream. Before the write
position are the bytes of this lap, behind the reserved ones those of the lap
before. -/
structure Circular (base : Nat) : Prop where
  length : p.pipe.buffer.length = buffer_size
  r_le : p.pipe.buf_r_pos ≤ buffer_size
  w_le : p.pipe.buf_w_pos + (written p).length ≤ p.pipe.buf_w_reserved_pos
  reserved_le : p.pipe.buf_w_reserved_pos ≤ buffer_size
  total : p.stream.length = base + p.pipe.buf_w_pos
  first_lap : p.pipe.buf_circle = false → base = 0
  lap : p.pipe.buf_circle = true → buffer_size ≤ base
  new : ∀ j < p.pipe.buf_w_pos, p.pipe.buffer[j]? = p.stream[base + j]?
  unfinished : ∀ i < (written p).length, p.pipe.buffer[p.pipe.buf_w_pos + i]? = (written p)[i]?
  old : p.pipe.buf_circle = true → ∀ j, p.pipe.buf_w_pos + (written p).length ≤ j → j < buffer_size →
    p.pipe.buffer[j]? = p.stream[base + j - buffer_size]?
  pos : p.pipe.buf_r_pos ≤ p.pipe.buf_w_pos → p.pipe.curr_pos = base + p.pipe.buf_r_pos
  pos_old : p.pipe.buf_w_pos < p.pipe.buf_r_pos →
    p.pipe.buf_circle = true ∧ p.pipe.buf_w_reserved_pos < p.pipe.buf_r_pos ∧ p.pipe.curr_pos + buffer_size = base + p.pipe.buf_r_pos
  fill : ∀ f, p.pipe.filling = some f →
    f.cp_buf_w_pos = p.pipe.buf_w_pos ∧ p.pipe.buf_w_reserved_pos = p.pipe.buf_w_pos + f.bsize_free
  idle : p.pipe.filling = none → p.pipe.buf_w_reserved_pos = p.pipe.buf_w_pos

end Definitions

variable {p : Produced} {base : Nat}

theorem construct_circular : Circular ⟨construct, []⟩ 0 where
  length := List.length_replicate
  r_le := Nat.zero_le _
  w_le := le_refl _
  reserved_le := Nat.zero_le _
  total := rfl
  first_lap := fun _ => rfl
  lap := fun h => nomatch h
  new := fun j hj => absurd hj (Nat.not_lt_zero j)
  unfinished := fun i hi => absurd hi (Nat.not_lt_zero i)
  old := fun h => nomatch h
  pos := fun _ => rfl
  pos_old := fun h => absurd h (Nat.lt_irrefl 0)
  fill := fun _ h => nomatch h
  idle := fun _ => rfl

section Reading

/-- A reader that only moves leaves the buffer as it is. -/
theorem Circular.move (h : Circular p base) {curr_pos stream_size : Int} {buf_r_pos : Nat} (hr : buf_r_pos ≤ buffer_size)
    (hpos : buf_r_pos ≤ p.pipe.buf_w_pos → curr_pos = base + buf_r_pos)
    (hold : p.pipe.buf_w_pos < buf_r_pos →
      p.pipe.buf_circle = true ∧ p.pipe.buf_w_reserved_pos < buf_r_pos ∧ curr_pos + buffer_size = base + buf_r_pos) :
    Circular { p with pipe := { p.pipe with curr_pos, buf_r_pos, stream_size } } base where
  length := h.length
  r_le := hr
  w_le := h.w_le
  reserved_le := h.reserved_le
  total := h.total
  first_lap := h.first_lap
  lap := h.lap
  new := h.new
  unfinished := h.unfinished
  old := h.old
  pos := hpos
  pos_old := hold
  fill := h.fill
  idle := h.idle

theorem Circular.avail (h : Circular p base) :
    0 ≤ p.pipe.curr_pos ∧ p.pipe.curr_pos + p.pipe.getReadAvail = p.stream.length := by
  have htotal := h.total
  have hr := h.r_le
  unfold getReadAvail
  split
  · next hle =>
    have hpos := h.pos hle
    omega
  · next hlt =>
    obtain ⟨hcircle, -, hpos⟩ := h.pos_old (by omega)
    have hlap := h.lap hcircle
    omega

theorem slice_eq {xs ys : Bytes} {a b n : Nat} (h : ∀ i < n, xs[a + i]? = ys[b + i]?) : slice xs a n = slice ys b n := by
  refine List.ext_getElem? fun i => ?_
  rw [getElem?_slice, getElem?_slice]
  split
  · next hi => exact h i hi
  · rfl

theorem Circular.slice_new (h : Circular p base) {r n : Nat} (hle : r + n ≤ p.pipe.buf_w_pos) :
    slice p.pipe.buffer r n = slice p.stream (base + r) n := by
  refine slice_eq fun i hi => ?_
  rw [h.new _ (by omega), Nat.add_assoc]

theorem Circular.slice_old (h : Circular p base) {r n : Nat} (hcircle : p.pipe.buf_circle = true)
    (hr : p.pipe.buf_w_reserved_pos < r) (hle : r + n ≤ buffer_size) :
    slice p.pipe.buffer r n = slice p.stream (base + r - buffer_size) n := by
  have hlap := h.lap hcircle
  have hw := h.w_le
  refine slice_eq fun i hi => ?_
  rw [h.old hcircle _ (by omega) (by omega), show base + (r + i) - buffer_size = base + r - buffer_size + i by omega]

theorem Circular.readBuf (h : Circular p base) {n : Nat} (hn : n ≤ p.pipe.getReadAvail) :
    (p.pipe.readBuf n).1 = slice p.stream p.pipe.curr_pos.toNat n ∧
      (p.pipe.readBuf n).2.curr_pos = p.pipe.curr_pos + n ∧
      Circular { p with pipe := (p.pipe.readBuf n).2 } base := by
  have hr := h.r_le
  have hw := h.w_le.trans h.reserved_le
  unfold getReadAvail at hn
  unfold PipeFileBase.readBuf
  split
  · next hle =>
    rw [if_pos hle] at hn
    have hpos := h.pos hle
    refine ⟨?_, rfl, h.move (by omega) (fun _ => by omega) (fun hlt => by omega)⟩
    have hcurr : p.pipe.curr_pos.toNat = base + p.pipe.buf_r_pos := by
      omega
    rw [hcurr]
    exact h.slice_new (by omega)
  · next hlt =>
    rw [if_neg hlt] at hn
    obtain ⟨hcircle, hreserved, hpos⟩ := h.pos_old (by omega)
    have hlap := h.lap hcircle
    have hcurr : p.pipe.curr_pos.toNat = base + p.pipe.buf_r_pos - buffer_size := by
      omega
    split
    · next hfew =>
      refine ⟨?_, rfl, h.move (by omega) (fun hle => by omega) (fun _ => ⟨hcircle, by omega, by omega⟩)⟩
      rw [hcurr]
      exact h.slice_old hcircle hreserved (by omega)
    · next hmany =>
      -- the rest of the lap before, and then the start of this one
      have hfirst : slice p.pipe.buffer p.pipe.buf_r_pos (buffer_size - p.pipe.buf_r_pos) =
          slice p.stream p.pipe.curr_pos.toNat (buffer_size - p.pipe.buf_r_pos) := by
        rw [hcurr]
        exact h.slice_old hcircle hreserved (by omega)
      have hrest : slice p.pipe.buffer 0 (n - (buffer_size - p.pipe.buf_r_pos)) =
          slice p.stream base (n - (buffer_size - p.pipe.buf_r_pos)) := h.slice_new (by omega)
      have hbase : p.pipe.curr_pos.toNat + (buffer_size - p.pipe.buf_r_pos) = base := by
        omega
      have hsum : n = buffer_size - p.pipe.buf_r_pos + (n - (buffer_size - p.pipe.buf_r_pos)) := by
        omega
      have hcurr' : p.pipe.curr_pos + ((buffer_size - p.pipe.buf_r_pos : Nat) : Int) +
          ((n - (buffer_size - p.pipe.buf_r_pos) : Nat) : Int) = p.pipe.curr_pos + n := by
        omega
      refine ⟨?_, hcurr', h.move ?_ ?_ ?_⟩
      · dsimp only [copyOut]
        rw [hfirst, hrest]
        conv_rhs => rw [hsum, slice_add, hbase]
      · dsimp only [copyOut]
        omega
      · intro _
        dsimp only [copyOut]
        omega
      · intro hlt
        dsimp only [copyOut] at hlt
        omega

/-- The position that is one byte too far back: from behind the write position
to the end of what is reserved. -/
def OneLap (s : PipeFileBase) (spos : Int) : Prop :=
  s.buf_w_pos < s.buf_r_pos ∧ s.buf_r_pos + (spos - s.curr_pos) = s.buf_w_reserved_pos

theorem Circular.seek (h : Circular p base) {spos : Int} (hspos : ¬ OneLap p.pipe spos) :
    Circular { p with pipe := (p.pipe.SeekInt spos).2 } base ∧
      ((p.pipe.SeekInt spos).1 = true → (p.pipe.SeekInt spos).2.curr_pos = spos) := by
  have hr := h.r_le
  have hw := h.w_le
  have hreserved := h.reserved_le
  unfold OneLap at hspos
  unfold SeekInt
  dsimp only
  split
  · next hsame => exact ⟨h, fun _ => (Int.sub_eq_zero.mp hsame).symm⟩
  · split
    · next hle =>
      have hpos := h.pos hle
      split
      · refine ⟨h.move ?_ ?_ ?_, fun _ => rfl⟩
        · omega
        · intro _
          omega
        · intro hlt
          omega
      · split
        · next hback =>
          obtain ⟨hneg, hroom, hcircle⟩ := hback
          refine ⟨h.move ?_ ?_ ?_, fun _ => rfl⟩
          · omega
          · intro hle
            omega
          · intro _
            exact ⟨hcircle, by omega, by omega⟩
        · exact ⟨h, fun hfalse => nomatch hfalse⟩
    · next hlt =>
      obtain ⟨hcircle, hfar, hpos⟩ := h.pos_old (by omega)
      split
      · refine ⟨h.move ?_ ?_ ?_, fun _ => rfl⟩
        · omega
        · intro hle
          omega
        · intro _
          exact ⟨hcircle, by omega, by omega⟩
      · split
        · refine ⟨h.move ?_ ?_ ?_, fun _ => rfl⟩
          · omega
          · intro _
            omega
          · intro hlt
            omega
        · exact ⟨h, fun hfalse => nomatch hfalse⟩

end Reading

section Filling

theorem Circular.w_le_size (h : Circular p base) : p.pipe.buf_w_pos ≤ buffer_size :=
  (Nat.le_add_right _ _).trans (h.w_le.trans h.reserved_le)

theorem written_idle (h : p.pipe.filling = none) : written p = [] := by
  unfold written
  rw [h]

theorem Circular.circle (h : Circular p base) (hidle : p.pipe.filling = none) :
    ∃ base', Circular { p with pipe := p.pipe.circle } base' ∧ p.pipe.circle.filling = none := by
  unfold PipeFileBase.circle
  split
  · next hend =>
    obtain ⟨hw, hr⟩ := hend
    have hnone : written { p with pipe := { p.pipe with buf_circle := true, buf_w_pos := 0, buf_w_reserved_pos := 0 } } = [] :=
      written_idle hidle
    refine ⟨base + buffer_size, ⟨h.length, h.r_le, ?_, Nat.zero_le _, ?_, (fun hfalse => nomatch hfalse), ?_, ?_, ?_, ?_, ?_, ?_,
      ?_, ?_⟩,
      hidle⟩
    · rw [hnone]
      exact le_refl _
    · have htotal := h.total
      dsimp only
      omega
    · intro _
      omega
    · intro j hj
      exact absurd hj (Nat.not_lt_zero j)
    · rw [hnone]
      intro i hi
      exact absurd hi (Nat.not_lt_zero i)
    · intro _ j _ hj
      dsimp only
      rw [h.new j (by omega), show base + buffer_size + j - buffer_size = base + j by omega]
    · intro hle
      dsimp only at hle
      omega
    · intro _
      have hpos := h.pos (by have := h.r_le; omega)
      dsimp only
      exact ⟨rfl, by omega, by omega⟩
    · intro f hf
      rw [hidle] at hf
      cases hf
    · intro _
      rfl
  · exact ⟨base, h, hidle⟩

theorem Circular.reserve (h : Circular p base) (hidle : p.pipe.filling = none) :
    ∃ base', Circular { p with pipe := p.pipe.reserve } base' := by
  unfold PipeFileBase.reserve
  dsimp only
  split
  · exact ⟨base, h⟩
  · obtain ⟨base', h', hidle'⟩ := h.circle hidle
    obtain ⟨s, hs⟩ : ∃ s, p.pipe.circle = s := ⟨_, rfl⟩
    rw [hs] at h' hidle' ⊢
    have hnone := written_idle (p := { p with pipe := s }) hidle'
    have hw := h'.w_le_size
    have hr := h'.r_le
    have hsizes := sizes
    dsimp only at hw hr
    split
    · exact ⟨base', h'⟩
    · next hfree =>
      have hle : s.buf_w_pos + s.sizeFree ≤ buffer_size := by
        unfold sizeFree
        split <;> split <;> omega
      have hbehind : s.buf_w_pos < s.buf_r_pos → s.buf_w_pos + s.sizeFree < s.buf_r_pos := by
        intro hlt
        unfold sizeFree
        rw [if_pos hlt]
        split <;> omega
      refine ⟨base', h'.length, h'.r_le, ?_, hle, h'.total, h'.first_lap, h'.lap, h'.new, ?_, ?_, h'.pos, ?_, ?_, ?_⟩
      · exact Nat.le_add_right _ _
      · intro i hi
        exact absurd hi (Nat.not_lt_zero i)
      · intro hcircle j hj hlt
        refine h'.old hcircle j ?_ hlt
        rw [hnone]
        exact hj
      · intro hlt
        obtain ⟨hcircle, -, hpos⟩ := h'.pos_old hlt
        exact ⟨hcircle, hbehind hlt, hpos⟩
      · intro f hf
        cases hf
        exact ⟨rfl, rfl⟩
      · intro hnone
        cases hnone

theorem written_eq {f : Filling} (hf : p.pipe.filling = some f) : written p = f.written := by
  unfold written
  rw [hf]

theorem Circular.readStdout (h : Circular p base) {f : Filling} (hf : p.pipe.filling = some f) {data : Bytes}
    (hdata : f.written.length + data.length ≤ f.bsize_free) :
    Circular { p with pipe := p.pipe.readStdout f data } base := by
  by_cases hnone : data = []
  · have hsame : p.pipe.readStdout f data = p.pipe := by
      unfold PipeFileBase.readStdout
      rw [hnone, overwrite_nil, List.append_nil, ← hf]
    rw [hsame]
    exact h
  obtain ⟨hcp, hreserved⟩ := h.fill f hf
  have hwritten := written_eq hf
  have hw := h.w_le
  have hle := h.reserved_le
  have hlength := h.length
  rw [hwritten] at hw
  have hwritten' : written { p with pipe := p.pipe.readStdout f data } = f.written ++ data := rfl
  have hget : ∀ j < buffer_size, (p.pipe.readStdout f data).buffer[j]? =
      if j < p.pipe.buf_w_pos + f.written.length then p.pipe.buffer[j]?
      else if j < p.pipe.buf_w_pos + f.written.length + data.length then data[j - (p.pipe.buf_w_pos + f.written.length)]?
      else p.pipe.buffer[j]? := by
    intro j hj
    unfold PipeFileBase.readStdout
    dsimp only
    rw [getElem?_overwrite 0 hnone, hcp]
    split
    · rw [List.getElem?_eq_getElem (by omega), List.getD_eq_getElem?_getD, List.getElem?_eq_getElem (by omega)]
      rfl
    · rfl
  refine ⟨?_, h.r_le, ?_, h.reserved_le, h.total, h.first_lap, h.lap, ?_, ?_, ?_, h.pos, h.pos_old, ?_, ?_⟩
  · unfold PipeFileBase.readStdout
    dsimp only
    rw [length_overwrite 0 (by omega), hlength]
  · rw [hwritten', List.length_append]
    show p.pipe.buf_w_pos + (f.written.length + data.length) ≤ p.pipe.buf_w_reserved_pos
    omega
  · intro j hj
    have hj : j < p.pipe.buf_w_pos := hj
    rw [hget j (by omega), if_pos (by omega)]
    exact h.new j hj
  · rw [hwritten', List.length_append]
    intro i hi
    show (p.pipe.readStdout f data).buffer[p.pipe.buf_w_pos + i]? = _
    rw [hget _ (by omega)]
    by_cases hold : i < f.written.length
    · rw [if_pos (by omega), List.getElem?_append_left hold, ← hwritten]
      exact h.unfinished i (by rw [hwritten]; exact hold)
    · rw [if_neg (by omega), if_pos (by omega), List.getElem?_append_right (by omega), Nat.add_sub_add_left]
  · rw [hwritten', List.length_append]
    intro hcircle j hj hlt
    have hj : p.pipe.buf_w_pos + (f.written.length + data.length) ≤ j := hj
    rw [hget j hlt, if_neg (by omega), if_neg (by omega)]
    exact h.old hcircle j (by rw [hwritten]; omega) hlt
  · intro g hg
    cases hg
    exact ⟨hcp, hreserved⟩
  · intro hidle
    cases hidle

theorem Circular.commit (h : Circular p base) {f : Filling} (hf : p.pipe.filling = some f) (b : Bool) :
    Circular ⟨p.pipe.commit f b, p.stream ++ f.written⟩ base := by
  have hwritten := written_eq hf
  have hw := h.w_le
  have hle := h.reserved_le
  have htotal := h.total
  rw [hwritten] at hw
  have hnone : written ⟨p.pipe.commit f b, p.stream ++ f.written⟩ = [] := rfl
  refine ⟨h.length, h.r_le, ?_, ?_, ?_, h.first_lap, h.lap, ?_, ?_, ?_, ?_, ?_, ?_, fun _ => rfl⟩
  · rw [hnone]
    exact le_refl _
  · exact hw.trans hle
  · show (p.stream ++ f.written).length = base + (p.pipe.buf_w_pos + f.written.length)
    rw [List.length_append]
    omega
  · intro j hj
    have hj : j < p.pipe.buf_w_pos + f.written.length := hj
    show p.pipe.buffer[j]? = (p.stream ++ f.written)[base + j]?
    by_cases hnew : j < p.pipe.buf_w_pos
    · rw [List.getElem?_append_left (by omega)]
      exact h.new j hnew
    · have hunfinished := h.unfinished (j - p.pipe.buf_w_pos) (by rw [hwritten]; omega)
      rw [hwritten, Nat.add_sub_cancel' (by omega)] at hunfinished
      rw [List.getElem?_append_right (by omega), hunfinished, htotal, Nat.add_sub_add_left]
  · rw [hnone]
    intro i hi
    exact absurd hi (Nat.not_lt_zero i)
  · rw [hnone]
    intro hcircle j hj hlt
    have hj : p.pipe.buf_w_pos + f.written.length ≤ j := hj
    have hlap := h.lap hcircle
    show p.pipe.buffer[j]? = (p.stream ++ f.written)[base + j - buffer_size]?
    rw [List.getElem?_append_left (by omega)]
    exact h.old hcircle j (by rw [hwritten]; exact hj) hlt
  · intro hr
    have hr : p.pipe.buf_r_pos ≤ p.pipe.buf_w_pos + f.written.length := hr
    by_cases hnew : p.pipe.buf_r_pos ≤ p.pipe.buf_w_pos
    · exact h.pos hnew
    · -- a reader behind the write position is behind all that was reserved
      obtain ⟨-, hfar, -⟩ := h.pos_old (by omega)
      omega
  · intro hr
    have hr : p.pipe.buf_w_pos + f.written.length < p.pipe.buf_r_pos := hr
    obtain ⟨hcircle, -, hpos⟩ := h.pos_old (by omega)
    exact ⟨hcircle, hr, hpos⟩
  · intro g hg
    cases hg

end Filling

section Runs

/-- A reader never goes back by a whole lap. -/
def Fits (p : Produced) : Event → Prop
  | .Seek spos => ¬ OneLap p.pipe spos
  | .Read spos _ => ¬ OneLap p.pipe spos
  | _ => True

def AllFit : List Event → Produced → Prop
  | [], _ => True
  | event :: events, p => Fits p event ∧ ∀ p', apply p event = some p' → AllFit events p'

/-- What a reader gets: the bytes of the stream from the position on, as many
as there are, and after a `SeekInt` all of them are available. -/
def Serves (p : Produced) : Event → Prop
  | .Seek spos => (p.pipe.SeekInt spos).1 = true →
    0 ≤ spos ∧ spos ≤ p.stream.length ∧
      ((p.pipe.SeekInt spos).2.readBuf (p.pipe.SeekInt spos).2.getReadAvail).1 = p.stream.drop spos.toNat
  | .Read spos tr => ∀ ret, (p.pipe.Read spos tr).1 = some ret →
    0 ≤ spos ∧ spos ≤ p.stream.length ∧ ret = slice p.stream spos.toNat tr
  | _ => True

def AllServe : List Event → Produced → Prop
  | [], _ => True
  | event :: events, p => Serves p event ∧ ∀ p', apply p event = some p' → AllServe events p'

theorem Circular.read (h : Circular p base) {spos : Int} {tr : Nat} (hspos : ¬ OneLap p.pipe spos) :
    Circular { p with pipe := (p.pipe.Read spos tr).2 } base ∧ Serves p (.Read spos tr) := by
  obtain ⟨hseek, hcurr⟩ := h.seek hspos
  show Circular { p with pipe := (p.pipe.Read spos tr).2 } base ∧ ∀ ret, (p.pipe.Read spos tr).1 = some ret → _
  obtain ⟨⟨ok, s⟩, hs⟩ : ∃ out, p.pipe.SeekInt spos = out := ⟨_, rfl⟩
  obtain ⟨out, hout⟩ : ∃ out, p.pipe.Read spos tr = out := ⟨_, rfl⟩
  rw [hout]
  unfold PipeFileBase.Read at hout
  rw [hs] at hseek hcurr hout
  cases ok with
  | false =>
    subst hout
    exact ⟨hseek, fun ret hret => nomatch hret⟩
  | true =>
    have hcurr : s.curr_pos = spos := hcurr rfl
    obtain ⟨hpos, havail⟩ := hseek.avail
    obtain ⟨hbytes, -, hread⟩ := hseek.readBuf (Nat.min_le_left s.getReadAvail tr)
    dsimp only at hpos havail hbytes hread hout
    have hret : (s.readBuf (min s.getReadAvail tr)).1 = slice p.stream spos.toNat tr := by
      have hrest : s.getReadAvail = p.stream.length - s.curr_pos.toNat := by
        omega
      rw [hbytes, hcurr, hrest, hcurr, Nat.min_comm, slice_min]
    split at hout
    · subst hout
      refine ⟨hread.move hread.r_le hread.pos hread.pos_old, ?_⟩
      rintro ret ⟨⟩
      exact ⟨by omega, by omega, hret⟩
    · subst hout
      refine ⟨hread, ?_⟩
      rintro ret ⟨⟩
      exact ⟨by omega, by omega, hret⟩

theorem Circular.serves_seek (h : Circular p base) {spos : Int} (hspos : ¬ OneLap p.pipe spos) : Serves p (.Seek spos) := by
  obtain ⟨hseek, hcurr⟩ := h.seek hspos
  intro hok
  have hcurr := hcurr hok
  obtain ⟨hpos, havail⟩ := hseek.avail
  obtain ⟨hbytes, -, -⟩ := hseek.readBuf (le_refl _)
  dsimp only at hpos havail hbytes
  refine ⟨by omega, by omega, ?_⟩
  rw [hbytes, hcurr, slice, List.take_of_length_le]
  rw [List.length_drop]
  omega

theorem Circular.apply (h : Circular p base) {event : Event} (hfits : Fits p event) :
    Serves p event ∧ ∀ p', PipeFileBase.apply p event = some p' → ∃ base', Circular p' base' := by
  cases event with
  | reserve =>
    refine ⟨trivial, fun p' hp' => ?_⟩
    cases hidle : p.pipe.filling with
    | none =>
      rw [PipeFileBase.apply, hidle] at hp'
      cases hp'
      exact h.reserve hidle
    | some f =>
      rw [PipeFileBase.apply, hidle] at hp'
      cases hp'
  | readStdout data =>
    refine ⟨trivial, fun p' hp' => ?_⟩
    cases hf : p.pipe.filling with
    | none =>
      rw [PipeFileBase.apply, hf] at hp'
      cases hp'
    | some f =>
      rw [PipeFileBase.apply, hf] at hp'
      dsimp only at hp'
      split at hp'
      · next hdata =>
        cases hp'
        exact ⟨base, h.readStdout hf hdata⟩
      · cases hp'
  | commit b =>
    refine ⟨trivial, fun p' hp' => ?_⟩
    cases hf : p.pipe.filling with
    | none =>
      rw [PipeFileBase.apply, hf] at hp'
      cases hp'
    | some f =>
      rw [PipeFileBase.apply, hf] at hp'
      cases hp'
      exact ⟨base, h.commit hf b⟩
  | Seek spos =>
    refine ⟨h.serves_seek hfits, fun p' hp' => ?_⟩
    cases hp'
    exact ⟨base, (h.seek hfits).1⟩
  | Read spos tr =>
    obtain ⟨hread, hserves⟩ : _ ∧ Serves p (.Read spos tr) := h.read hfits
    refine ⟨hserves, fun p' hp' => ?_⟩
    cases hp'
    exact ⟨base, hread⟩
  | waitForExit =>
    refine ⟨trivial, fun p' hp' => ?_⟩
    cases hp'
    exact ⟨base, ⟨h.length, h.r_le, h.w_le, h.reserved_le, h.total, h.first_lap, h.lap, h.new, h.unfinished, h.old, h.pos, h.pos_old,
      h.fill, h.idle⟩⟩

theorem Circular.applyAll {events : List Event} (h : Circular p base) (hfits : AllFit events p) : AllServe events p := by
  induction events generalizing p base with
  | nil => trivial
  | cons event events ih =>
    obtain ⟨hserves, hnext⟩ := h.apply hfits.1
    refine ⟨hserves, fun p' hp' => ?_⟩
    obtain ⟨base', h'⟩ := hnext p' hp'
    exact ih h' (hfits.2 p' hp')

/-- In every interleaving of the producer with a reader that never goes back by
a whole lap, the reader gets the stream. -/
theorem applyAll_serve (events : List Event) (hfits : AllFit events ⟨construct, []⟩) : AllServe events ⟨construct, []⟩ :=
  construct_circular.applyAll hfits

theorem circle_eq {s : PipeFileBase} (hw : s.buf_w_pos = buffer_size) (hr : s.buf_r_pos > buffer_keep_free) :
    s.circle = { s with buf_circle := true, buf_w_pos := 0, buf_w_reserved_pos := 0 } :=
  if_pos ⟨hw, hr⟩

theorem reserve_eq {s : PipeFileBase} {n : Nat} (heof : s.has_eof = false) (hfree : s.circle.sizeFree = n) (hn : n ≠ 0) :
    s.reserve = { s.circle with
      buf_w_reserved_pos := s.circle.buf_w_pos + n
      filling := some ⟨s.circle.buf_w_pos, n, []⟩ } := by
  unfold PipeFileBase.reserve
  rw [if_neg (by rw [heof]; exact Bool.false_ne_true)]
  dsimp only
  rw [hfree, if_neg hn]

theorem AllFit.cons {p p' : Produced} {event : Event} {events : List Event} (hfits : Fits p event) (happly : apply p event = some p')
    (h : AllFit events p') : AllFit (event :: events) p :=
  ⟨hfits, fun _ hq => Option.some.inj (happly.symm.trans hq) ▸ h⟩

/-- A reader that goes back by a byte. -/
theorem applyAll_serve_back :
    AllServe [.reserve, .readStdout [1, 2, 3], .commit true, .Read 0 2, .Seek 1, .Read 1 2] ⟨construct, []⟩ := by
  have hfits {p : Produced} {spos : Int} (h : p.pipe.buf_r_pos ≤ p.pipe.buf_w_pos) : ¬ OneLap p.pipe spos :=
    fun hlap => Nat.not_lt.mpr h hlap.1
  exact applyAll_serve _ (.cons trivial rfl (.cons trivial rfl (.cons trivial rfl (.cons (hfits (by decide +kernel)) rfl
    (.cons (hfits (by decide +kernel)) rfl (.cons (hfits (by decide +kernel)) rfl trivial))))))

/-- The first read of all that there is. -/
theorem read_all {s : PipeFileBase} (hcurr : s.curr_pos = 0) (hr : s.buf_r_pos = 0) (heof : s.has_eof = false) :
    (s.Read 0 s.buf_w_pos).2 = { s with buf_r_pos := s.buf_w_pos, curr_pos := s.buf_w_pos } := by
  have hseek : s.SeekInt 0 = (true, s) := by
    unfold SeekInt
    rw [hcurr]
    exact if_pos rfl
  have havail : s.getReadAvail = s.buf_w_pos := by
    unfold getReadAvail
    rw [hr, if_pos (Nat.zero_le _), Nat.sub_zero]
  have hbytes : (s.readBuf s.buf_w_pos).2 = { s with buf_r_pos := s.buf_w_pos, curr_pos := s.buf_w_pos } := by
    unfold readBuf
    rw [if_pos (by rw [hr]; exact Nat.zero_le _)]
    unfold copyOut
    dsimp only
    rw [hr, hcurr, Nat.zero_add, Int.zero_add]
  unfold PipeFileBase.Read
  rw [hseek]
  dsimp only
  rw [havail, Nat.min_self, hbytes, if_neg]
  intro hend
  rw [heof] at hend
  exact Bool.false_ne_true hend.1

/-- A reader one byte before the write position of the lap before. -/
theorem seek_one {s : PipeFileBase} (hcurr : s.curr_pos = buffer_size) (hr : s.buf_r_pos = buffer_size) (hw : s.buf_w_pos = 1)
    (hreserved : s.buf_w_reserved_pos = 1) : s.SeekInt 1 = (true, { s with curr_pos := 1, buf_r_pos := 1 }) := by
  have hsize : 1 < buffer_size := by
    decide
  have hpos : (s.buf_r_pos : Int) + (1 - s.curr_pos) = 1 := by
    omega
  unfold SeekInt
  dsimp only
  rw [hpos, if_neg (by omega), if_neg (by omega), if_pos (by omega)]
  rfl

/-- A lap, one byte of the next one, and a reader that goes back to the byte
behind it: the whole buffer should be available. -/
theorem not_serves_lap {lap : Bytes} (hlap : lap.length = buffer_size) :
    ∃ p, applyAll [.reserve, .readStdout lap, .commit true, .Read 0 buffer_size, .reserve, .readStdout [1], .commit true]
        ⟨construct, []⟩ = some p ∧ ¬ Serves p (.Seek 1) := by
  obtain ⟨buffer, hbuffer⟩ : ∃ buffer, overwrite 0 construct.buffer 0 lap = buffer := ⟨_, rfl⟩
  obtain ⟨buffer', hbuffer'⟩ : ∃ buffer', overwrite 0 buffer 0 [1] = buffer' := ⟨_, rfl⟩
  -- the first lap
  have hreserve : PipeFileBase.apply ⟨construct, []⟩ .reserve =
      some ⟨{ construct with buf_w_reserved_pos := buffer_size, filling := some ⟨0, buffer_size, []⟩ }, []⟩ := rfl
  have hstdout : PipeFileBase.apply
      ⟨{ construct with buf_w_reserved_pos := buffer_size, filling := some ⟨0, buffer_size, []⟩ }, []⟩ (.readStdout lap) =
      some ⟨{ construct with buffer, buf_w_reserved_pos := buffer_size, filling := some ⟨0, buffer_size, lap⟩ }, []⟩ := by
    unfold PipeFileBase.apply
    dsimp only
    rw [if_pos (by rw [hlap]; exact Nat.le_of_eq (Nat.zero_add _)), ← hbuffer]
    rfl
  have hcommit : PipeFileBase.apply
      ⟨{ construct with buffer, buf_w_reserved_pos := buffer_size, filling := some ⟨0, buffer_size, lap⟩ }, []⟩ (.commit true) =
      some ⟨{ construct with buffer, buf_w_pos := buffer_size, buf_w_reserved_pos := buffer_size }, lap⟩ := by
    have hw : 0 + lap.length = buffer_size := by
      rw [hlap, Nat.zero_add]
    unfold PipeFileBase.apply PipeFileBase.commit
    dsimp only [construct]
    rw [hw]
    rfl
  have hread : PipeFileBase.apply
      ⟨{ construct with buffer, buf_w_pos := buffer_size, buf_w_reserved_pos := buffer_size }, lap⟩ (.Read 0 buffer_size) =
      some ⟨{ construct with
        buffer
        curr_pos := buffer_size
        buf_w_pos := buffer_size
        buf_w_reserved_pos := buffer_size
        buf_r_pos := buffer_size }, lap⟩ := by
    unfold PipeFileBase.apply
    dsimp only
    rw [read_all rfl rfl rfl]
  -- one byte of the second one
  have hreserve' : PipeFileBase.apply ⟨{ construct with
        buffer
        curr_pos := buffer_size
        buf_w_pos := buffer_size
        buf_w_reserved_pos := buffer_size
        buf_r_pos := buffer_size }, lap⟩ .reserve =
      some ⟨{ construct with
        buffer
        curr_pos := buffer_size
        buf_w_pos := 0
        buf_w_reserved_pos := buffer_size - buffer_keep_free
        buf_r_pos := buffer_size
        buf_circle := true
        filling := some ⟨0, buffer_size - buffer_keep_free, []⟩ }, lap⟩ := by
    have hfree : ∀ s : PipeFileBase, s.buf_r_pos = buffer_size → s.buf_w_pos = 0 → s.sizeFree = buffer_size - buffer_keep_free := by
      intro s hr hw
      have hsizes := sizes
      unfold sizeFree
      rw [hr, hw, if_pos (by omega), if_neg (by omega), Nat.sub_zero]
    have hroom : buffer_size - buffer_keep_free ≠ 0 := by
      decide
    unfold PipeFileBase.apply
    dsimp only [construct]
    rw [reserve_eq rfl (hfree _ (by rw [circle_eq rfl sizes.2]) (by rw [circle_eq rfl sizes.2])) hroom, circle_eq rfl sizes.2]
    dsimp only
    rw [Nat.zero_add]
  have hstdout' : PipeFileBase.apply ⟨{ construct with
        buffer
        curr_pos := buffer_size
        buf_w_pos := 0
        buf_w_reserved_pos := buffer_size - buffer_keep_free
        buf_r_pos := buffer_size
        buf_circle := true
        filling := some ⟨0, buffer_size - buffer_keep_free, []⟩ }, lap⟩ (.readStdout [1]) =
      some ⟨{ construct with
        buffer := buffer'
        curr_pos := buffer_size
        buf_w_pos := 0
        buf_w_reserved_pos := buffer_size - buffer_keep_free
        buf_r_pos := buffer_size
        buf_circle := true
        filling := some ⟨0, buffer_size - buffer_keep_free, [1]⟩ }, lap⟩ := by
    have hroom : ([] : Bytes).length + ([1] : Bytes).length ≤ buffer_size - buffer_keep_free := by
      decide
    unfold PipeFileBase.apply
    dsimp only
    rw [if_pos hroom, ← hbuffer']
    rfl
  refine ⟨⟨{ construct with
        buffer := buffer'
        curr_pos := buffer_size
        buf_w_pos := 1
        buf_w_reserved_pos := 1
        buf_r_pos := buffer_size
        buf_circle := true }, lap ++ [1]⟩, ?_, ?_⟩
  · rw [PipeFileBase.applyAll, hreserve, Option.bind_some, PipeFileBase.applyAll, hstdout, Option.bind_some, PipeFileBase.applyAll,
      hcommit, Option.bind_some, PipeFileBase.applyAll, hread, Option.bind_some, PipeFileBase.applyAll, hreserve', Option.bind_some,
      PipeFileBase.applyAll, hstdout', Option.bind_some]
    rfl
  · intro hserves
    unfold Serves at hserves
    dsimp only at hserves
    rw [seek_one rfl rfl rfl rfl] at hserves
    obtain ⟨-, -, hall⟩ := hserves rfl
    have hall : [] = (lap ++ [1]).drop 1 := hall
    have hlength := congrArg List.length hall
    rw [List.length_drop, List.length_append, hlap] at hlength
    exact absurd hlength (by decide)

theorem not_applyAll_serve :
    ∃ p, applyAll [.reserve, .readStdout (List.replicate buffer_size 0), .commit true, .Read 0 buffer_size, .reserve, .readStdout [1],
        .commit true] ⟨construct, []⟩ = some p ∧ ¬ Serves p (.Seek 1) :=
  not_serves_lap List.length_replicate

end Runs

end PipeFileBase

end urbackup.fileservplugin
