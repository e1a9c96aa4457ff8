import UrBackup.SparseFile.Offsets

namespace urbackup.sparsefile

open stringtools filedata

/-- The file shows a plain one. -/
structure Shows (hs : List (Nat × Nat)) (s : SparseFile) (a : IFile) : Prop where
  offsets : s.sparse_offsets = offsetsFrom 0 0 hs
  content : a.content = removeHoles 0 hs s.backing_file.content
  seek_pos : s.seek_pos = a.pos
  backing : s.backing_file.pos = place 0 hs a.pos

section Steps

variable {hs : List (Nat × Nat)} (hhs : Holes 0 hs)

include hhs

theorem shows_seek {s : SparseFile} {a : IFile} (h : Shows hs s a) (spos : Nat) : Shows hs (s.Seek spos) (a.Seek spos) where
  offsets := h.offsets
  content := h.content
  seek_pos := rfl
  backing := by
    show mapToBackingOffset s.sparse_offsets spos = place 0 hs spos
    rw [h.offsets, mapToBackingOffset_eq hhs]

/-- A loop over the parts of a buffer does what the operation does to the view. -/
theorem mappedLoop_eq (hapart : Apart hs) {σ : Type} {o : IOrigOp σ} {total : Nat} (ho : o.Lawful hs total)
    {fuel op_size : Nat} {s : SparseFile} {a : IFile} (ret : σ) (hfuel : op_size ≤ fuel) (htotal : op_size ≤ total)
    (h : Shows hs s a) :
    ∃ k a' ret' s', o.origOp (total - op_size) op_size a ret = (k, a', ret') ∧ k ≤ op_size ∧
      SparseFile.mappedLoop o total fuel op_size s ret = (total - (op_size - k), s', ret') ∧ Shows hs s' a' ∧
      Kept hs s.backing_file.content s'.backing_file.content := by
  induction fuel generalizing op_size s a ret with
  | zero =>
    obtain rfl : op_size = 0 := by omega
    exact ⟨0, a, ret, s, ho.nothing _ _ _, le_refl _, rfl, h, fun _ _ _ _ _ => rfl⟩
  | succ fuel ih =>
    rw [SparseFile.mappedLoop]
    by_cases hzero : op_size = 0
    · subst hzero
      exact ⟨0, a, ret, s, ho.nothing _ _ _, le_refl _, rfl, h, fun _ _ _ _ _ => rfl⟩
    rw [if_neg hzero]
    have hnext : nextBackingOffset s.sparse_offsets s.seek_pos = nextBackingOffset (offsetsFrom 0 0 hs) (0 + a.pos) := by
      rw [h.offsets, h.seek_pos, Nat.zero_add]
    rw [hnext]
    cases hcase : nextBackingOffset (offsetsFrom 0 0 hs) (0 + a.pos) with
    | none =>
      have hplace := place_add_of_next_none 0 hhs hcase
      obtain ⟨k, f', a', ret', hf, ha, hk, hcontent, hapos, hfpos, hkept⟩ :=
        ho.view ret (show total - op_size + op_size ≤ total by omega) h.content h.backing fun j _ => hplace j
      refine ⟨k, a', ret', { s with backing_file := f', seek_pos := s.seek_pos + k }, ha, hk, ?_, ⟨h.offsets, hcontent, ?_, ?_⟩, hkept⟩
      · simp only [hf]
      · rw [hapos, ← h.seek_pos]
      · rw [hapos, hplace, ← h.backing]
        exact hfpos
    | some m =>
      obtain ⟨n, hoffset, hn, hplace, hback⟩ := place_add_of_next_some 0 hhs hcase
      rw [Nat.zero_add] at hoffset
      have hmax : min op_size (m.offset - s.seek_pos) = min op_size (n - a.pos) := by rw [hoffset, h.seek_pos]
      obtain ⟨k, f', a', ret', hf, ha, hk, hcontent, hapos, hfpos, hkept⟩ :=
        ho.view ret (n := min op_size (n - a.pos)) (show total - op_size + min op_size (n - a.pos) ≤ total by omega)
          h.content h.backing fun j hj => hplace j (by omega)
      -- what is left of the buffer behind this part
      obtain ⟨rest, hrest⟩ : ∃ rest, op_size = min op_size (n - a.pos) + rest := ⟨_, (Nat.add_sub_of_le (by omega)).symm⟩
      have hparts := ho.parts (m := rest) (by omega) ha
      rw [← hrest] at hparts
      simp only [hmax, hf]
      by_cases hreached : s.seek_pos + k = m.offset
      · rw [if_pos hreached]
        have hfull : k = min op_size (n - a.pos) := by
          have := h.seek_pos
          omega
        have hshows : Shows hs { s with
            backing_file := f'.Seek m.backing_offset
            seek_pos := s.seek_pos + k
            backing_pos := m.backing_offset } a' := by
          refine ⟨h.offsets, hcontent, ?_, ?_⟩
          · rw [hapos, ← h.seek_pos]
          · rw [hapos, ← h.seek_pos, hreached, hoffset]
            exact hback hapart
        have hpos := h.seek_pos
        obtain ⟨k2, a2, ret2, s2, ha2, hk2, hloop, hshows2, hkept2⟩ :=
          ih ret' (show op_size - k ≤ fuel by omega) (by omega) hshows
        refine ⟨k + k2, a2, ret2, s2, ?_, by omega, ?_, hshows2, hkept.trans hkept2⟩
        · rw [hparts, if_neg (by omega)]
          rw [show total - op_size + min op_size (n - a.pos) = total - (op_size - k) by omega,
            show rest = op_size - k by omega, ha2]
        · rw [hloop]
          congr 1
          omega
      · rw [if_neg hreached]
        have hpos := h.seek_pos
        refine ⟨k, a', ret', { s with backing_file := f', seek_pos := s.seek_pos + k }, ?_, by omega, rfl,
          ⟨h.offsets, hcontent, ?_, ?_⟩, hkept⟩
        · rw [hparts]
          split
          · rfl
          · rw [show rest = 0 by omega, ho.nothing]
            rfl
        · rw [hapos, ← h.seek_pos]
        · rw [hapos, hplace k (by omega), ← h.backing]
          exact hfpos

theorem shows_read (hapart : Apart hs) {s : SparseFile} {a : IFile} (h : Shows hs s a) (tr : Nat) :
    (s.Read tr).1 = (a.Read tr).1 ∧ Shows hs (s.Read tr).2 (a.Read tr).2 ∧
      Kept hs s.backing_file.content (s.Read tr).2.backing_file.content := by
  obtain ⟨k, a', ret', s', ha, _, hloop, hshows, hkept⟩ :=
    mappedLoop_eq hhs hapart (lawful_read hhs tr) [] (le_refl tr) (le_refl tr) h
  simp only [BackingReadStrOp, Prod.mk.injEq, List.nil_append] at ha
  obtain ⟨_, rfl, rfl⟩ := ha
  rw [SparseFile.Read, SparseFile.mappedOrigOp, hloop]
  exact ⟨rfl, hshows, hkept⟩

theorem shows_write (hapart : Apart hs) {s : SparseFile} {a : IFile} (h : Shows hs s a) (tw : Bytes) :
    (s.Write tw).1 = tw.length ∧ Shows hs (s.Write tw).2 (a.Write tw) ∧
      Kept hs s.backing_file.content (s.Write tw).2.backing_file.content := by
  obtain ⟨k, a', ret', s', ha, _, hloop, hshows, hkept⟩ :=
    mappedLoop_eq hhs hapart (lawful_write hhs tw) () (le_refl tw.length) (le_refl tw.length) h
  have hall : slice tw (tw.length - tw.length) tw.length = tw := by simp [slice]
  simp only [BackingWriteBufOp, Prod.mk.injEq, and_true, hall] at ha
  obtain ⟨rfl, rfl⟩ := ha
  rw [SparseFile.Write, SparseFile.mappedOrigOp, hloop]
  exact ⟨by simp, hshows, hkept⟩

theorem shows_apply (hapart : Apart hs) {s : SparseFile} {a : IFile} (h : Shows hs s a) (op : Op) :
    (s.apply op).1 = (applyPlain a op).1 ∧ Shows hs (s.apply op).2 (applyPlain a op).2 ∧
      Kept hs s.backing_file.content (s.apply op).2.backing_file.content := by
  cases op with
  | Seek spos => exact ⟨rfl, shows_seek hhs h spos, fun _ _ _ _ _ => rfl⟩
  | Read tr =>
    obtain ⟨hret, hshows, hkept⟩ := shows_read hhs hapart h tr
    exact ⟨congrArg Answer.read hret, hshows, hkept⟩
  | ReadAt spos tr =>
    obtain ⟨hret, hshows, hkept⟩ := shows_read hhs hapart (shows_seek hhs h spos) tr
    exact ⟨congrArg Answer.read hret, hshows, hkept⟩
  | Write tw =>
    obtain ⟨hret, hshows, hkept⟩ := shows_write hhs hapart h tw
    exact ⟨congrArg Answer.written hret, hshows, hkept⟩
  | WriteAt spos tw =>
    obtain ⟨hret, hshows, hkept⟩ := shows_write hhs hapart (shows_seek hhs h spos) tw
    exact ⟨congrArg Answer.written hret, hshows, hkept⟩

theorem shows_run (hapart : Apart hs) {s : SparseFile} {a : IFile} (h : Shows hs s a) (ops : List Op) :
    (s.run ops).1 = (runPlain a ops).1 ∧ Shows hs (s.run ops).2 (runPlain a ops).2 ∧
      Kept hs s.backing_file.content (s.run ops).2.backing_file.content := by
  induction ops generalizing s a with
  | nil => exact ⟨rfl, h, fun _ _ _ _ _ => rfl⟩
  | cons op ops ih =>
    obtain ⟨hanswer, hshows, hkept⟩ := shows_apply hhs hapart h op
    obtain ⟨hanswers, hshows, hkept'⟩ := ih hshows
    refine ⟨?_, hshows, hkept.trans hkept'⟩
    show (s.apply op).1 :: ((s.apply op).2.run ops).1 = (applyPlain a op).1 :: (runPlain (applyPlain a op).2 ops).1
    rw [hanswer, hanswers]

end Steps

section Init

variable (backing_file : IFile) (sparse_extents : List SSparseExtent) (blocksize max_size : Nat)

theorem init_sparse_offsets : (initWithSparseExtents backing_file sparse_extents blocksize max_size).sparse_offsets =
    offsetsFrom 0 0 (rounded blocksize sparse_extents) :=
  foldl_addSparseExtent blocksize sparse_extents ⟨0, 0, 0, 0, []⟩

/-- Where the first operation is done. -/
theorem init_backing_pos : (initWithSparseExtents backing_file sparse_extents blocksize max_size).backing_file.pos =
    match (offsetsFrom 0 0 (rounded blocksize sparse_extents)).head? with
    | some first => if first.offset = 0 then first.backing_offset else 0
    | none => 0 := by
  rw [← init_sparse_offsets backing_file sparse_extents blocksize max_size]
  rfl

theorem shows_init (hhs : Holes 0 (rounded blocksize sparse_extents)) (hapart : Apart (rounded blocksize sparse_extents)) :
    Shows (rounded blocksize sparse_extents) (initWithSparseExtents backing_file sparse_extents blocksize max_size)
      ⟨removeHoles 0 (rounded blocksize sparse_extents)
        (initWithSparseExtents backing_file sparse_extents blocksize max_size).backing_file.content, 0⟩ where
  offsets := init_sparse_offsets backing_file sparse_extents blocksize max_size
  content := rfl
  seek_pos := rfl
  backing := by
    rw [init_backing_pos]
    show _ = place 0 _ 0
    revert hhs hapart
    generalize rounded blocksize sparse_extents = hs
    intro hhs hapart
    cases hs with
    | nil => rfl
    | cons h hs =>
      rw [place]
      show (if 0 + (h.1 - 0) = 0 then h.2 else 0) = _
      by_cases hzero : h.1 = 0
      · rw [if_pos (by omega), if_neg (by omega), hzero]
        exact (place_zero hhs.2.2 fun g hg => hapart h List.mem_cons_self g (List.mem_cons_of_mem _ hg)).symm
      · rw [if_neg (by omega), if_pos (by omega)]

end Init

section Touching

variable {hs : List (Nat × Nat)} (hhs : Holes 0 hs) {s : SparseFile}

/-- One byte is done in one round. -/
theorem mappedOrigOp_one {σ : Type} (o : IOrigOp σ) (ret : σ) (hone : (o.origOp 0 1 s.backing_file ret).1 ≤ 1) :
    ∃ s', s.mappedOrigOp o 1 ret = ((o.origOp 0 1 s.backing_file ret).1, s', (o.origOp 0 1 s.backing_file ret).2.2) ∧
      s'.sparse_offsets = s.sparse_offsets ∧ s'.seek_pos = s.seek_pos + (o.origOp 0 1 s.backing_file ret).1 ∧
      s'.backing_file.content = (o.origOp 0 1 s.backing_file ret).2.1.content ∧
      ∀ m, nextBackingOffset s.sparse_offsets s.seek_pos = some m →
        s.seek_pos + (o.origOp 0 1 s.backing_file ret).1 = m.offset → s'.backing_file.pos = m.backing_offset := by
  have hnumber : ∀ k, k ≤ 1 → 1 - (1 - k) = k := by omega
  rw [SparseFile.mappedOrigOp, SparseFile.mappedLoop, if_neg (by omega)]
  cases hnext : nextBackingOffset s.sparse_offsets s.seek_pos with
  | none =>
    simp only [Nat.sub_self, hnumber _ hone]
    exact ⟨_, rfl, rfl, rfl, rfl, fun m hm => by cases hm⟩
  | some m =>
    have hmax : min 1 (m.offset - s.seek_pos) = 1 := by
      have hgt := List.head?_dropWhile_not (fun m : SPosMap => decide (m.offset ≤ s.seek_pos)) s.sparse_offsets
      rw [show (s.sparse_offsets.dropWhile fun m => decide (m.offset ≤ s.seek_pos)).head? = some m from hnext] at hgt
      have : s.seek_pos < m.offset := by simpa using hgt
      omega
    simp only [hmax, Nat.sub_self]
    split
    · refine ⟨_, Prod.ext (hnumber _ hone) rfl, rfl, rfl, rfl, ?_⟩
      rintro m' ⟨⟩ _
      rfl
    · next hne =>
      refine ⟨_, Prod.ext (hnumber _ hone) rfl, rfl, rfl, rfl, ?_⟩
      rintro m' ⟨⟩ heq
      exact absurd heq hne

theorem write_one (tw : UInt8) :
    ∃ s', s.Write [tw] = (1, s') ∧ s'.sparse_offsets = s.sparse_offsets ∧ s'.seek_pos = s.seek_pos + 1 ∧
      s'.backing_file.content = overwrite 0 s.backing_file.content s.backing_file.pos [tw] ∧
      ∀ m, nextBackingOffset s.sparse_offsets s.seek_pos = some m → s.seek_pos + 1 = m.offset →
        s'.backing_file.pos = m.backing_offset := by
  obtain ⟨s', hop, hoffsets, hseek, hcontent, hnext⟩ :=
    mappedOrigOp_one (s := s) (BackingWriteBufOp [tw]) () (le_refl 1)
  refine ⟨s', ?_, hoffsets, hseek, hcontent, hnext⟩
  rw [SparseFile.Write, List.length_singleton, hop]
  rfl

theorem read_one : (s.Read 1).1 = slice s.backing_file.content s.backing_file.pos 1 := by
  have hone : (BackingReadStrOp.origOp 0 1 s.backing_file []).1 ≤ 1 := by
    show (slice s.backing_file.content s.backing_file.pos 1).length ≤ 1
    rw [length_slice]
    omega
  obtain ⟨s', hop, _⟩ := mappedOrigOp_one BackingReadStrOp [] hone
  rw [SparseFile.Read, hop]
  rfl

include hhs

/-- A byte that is written in a hole is not found again. -/
theorem write_read_differs {n : Nat} {a : IFile} (hoffsets : s.sparse_offsets = offsetsFrom 0 0 hs) (hapos : a.pos = n)
    (hback : s.backing_file.pos < place 0 hs n) :
    ∃ tw : UInt8, (((s.Write [tw]).2.Seek n).Read 1).1 ≠ (((a.Write [tw]).Seek n).Read 1).1 := by
  refine ⟨(slice s.backing_file.content (place 0 hs n) 1).headD 0 + 1, fun heq => ?_⟩
  generalize htw : (slice s.backing_file.content (place 0 hs n) 1).headD 0 + 1 = tw at heq
  obtain ⟨s', hwrite, hoffsets', _, hcontent, _⟩ := write_one (s := s) tw
  have hplain : (((a.Write [tw]).Seek n).Read 1).1 = [tw] := by
    show slice (overwrite 0 a.content a.pos [tw]) n 1 = [tw]
    refine List.ext_getElem? fun i => ?_
    rw [getElem?_slice, hapos, getElem?_overwrite 0 (by simp)]
    cases i with
    | zero => simp
    | succ i => simp
  rw [hplain, hwrite, read_one] at heq
  have hslice : slice s.backing_file.content (place 0 hs n) 1 = [tw] := by
    rw [← heq]
    show _ = slice s'.backing_file.content (mapToBackingOffset s'.sparse_offsets n) 1
    rw [hoffsets', hoffsets, mapToBackingOffset_eq hhs, hcontent]
    exact slice_congr (drop_overwrite 0 hback).symm
  rw [hslice] at htw
  exact absurd htw (by simp)

/-- So where holes touch there is a sequence of operations with another answer. -/
theorem run_differs (htouch : ¬ Apart hs) (hoffsets : s.sparse_offsets = offsetsFrom 0 0 hs)
    (hback : s.backing_file.pos = match (offsetsFrom 0 0 hs).head? with
      | some first => if first.offset = 0 then first.backing_offset else 0
      | none => 0) (content : Bytes) :
    ∃ ops, (s.run ops).1 ≠ (runPlain ⟨content, 0⟩ ops).1 := by
  obtain ⟨n, m, hfirst, hoffset, hlt⟩ := exists_touching 0 hhs htouch
  rw [Nat.zero_add] at hoffset hfirst
  cases n with
  | zero =>
    have hnone : ((offsetsFrom 0 0 hs).dropWhile fun m => decide (m.offset < 0)) = offsetsFrom 0 0 hs := by
      cases offsetsFrom 0 0 hs with
      | nil => rfl
      | cons m ms => rw [List.dropWhile_cons, if_neg (by simp)]
    rw [hnone] at hfirst
    simp only [hfirst, hoffset, if_true] at hback
    obtain ⟨tw, hne⟩ := write_read_differs hhs (a := ⟨content, 0⟩) hoffsets rfl (hback ▸ hlt)
    refine ⟨[.Write [tw], .ReadAt 0 1], fun heq => hne ?_⟩
    have hread : Answer.read _ = Answer.read _ := (List.cons.inj (List.cons.inj heq).2).1
    exact Answer.read.inj hread
  | succ n =>
    have hsame : (fun m : SPosMap => decide (m.offset < n + 1)) = fun m => decide (m.offset ≤ n) := by
      funext m
      exact decide_eq_decide.mpr Nat.lt_succ_iff
    rw [hsame] at hfirst
    obtain ⟨s', hwrite, hoffsets', hseek', _, hnext⟩ := write_one (s := s.Seek n) 0
    have hpos : s'.backing_file.pos = m.backing_offset := by
      refine hnext m ?_ hoffset.symm
      show nextBackingOffset s.sparse_offsets n = some m
      rw [hoffsets]
      exact hfirst
    obtain ⟨tw, hne⟩ := write_read_differs hhs (a := ((⟨content, 0⟩ : IFile).Seek n).Write [0])
      (hoffsets'.trans hoffsets) rfl (hpos ▸ hlt)
    refine ⟨[.WriteAt n [0], .Write [tw], .ReadAt (n + 1) 1], fun heq => hne ?_⟩
    have hread : Answer.read _ = Answer.read _ := (List.cons.inj (List.cons.inj (List.cons.inj heq).2).2).1
    have happly : (s.apply (.WriteAt n [0])).2 = s' := by
      rw [SparseFile.apply, hwrite]
    rw [← happly]
    exact Answer.read.inj hread

end Touching

/-- Every sequence of operations has the answers it has on a plain file with the
contents of the view, and leaves the contents of the plain file in the view and
those of the holes as they were. Reading on is the same as reading at the
position. -/
def SameAsPlain (s : SparseFile) (hs : List (Nat × Nat)) : Prop :=
  ∀ ops,
    let plain := runPlain ⟨removeHoles 0 hs s.backing_file.content, 0⟩ ops
    let s' := (s.run ops).2
    (s.run ops).1 = plain.1 ∧ removeHoles 0 hs s'.backing_file.content = plain.2.content ∧
      Kept hs s.backing_file.content s'.backing_file.content ∧
      ∀ n m, (s'.Read (n + m)).1 = (s'.Read n).1 ++ ((s'.Seek (s'.seek_pos + n)).Read m).1

/-- The view is that of a plain file exactly if no rounded extent starts where
another one ends. -/
theorem sameAsPlain_iff (backing_file : IFile) (sparse_extents : List SSparseExtent) (blocksize max_size : Nat)
    (hsorted : sparse_extents.Pairwise fun a b => a.offset + a.size ≤ b.offset) :
    SameAsPlain (initWithSparseExtents backing_file sparse_extents blocksize max_size) (rounded blocksize sparse_extents) ↔
      Apart (rounded blocksize sparse_extents) := by
  have hhs : Holes 0 (rounded blocksize sparse_extents) := holes_rounded hsorted fun _ _ => Nat.zero_le _
  constructor
  · intro hsame
    by_contra htouch
    obtain ⟨ops, hne⟩ := run_differs hhs htouch (init_sparse_offsets backing_file sparse_extents blocksize max_size)
      (init_backing_pos backing_file sparse_extents blocksize max_size) _
    exact hne (hsame ops).1
  · intro hapart ops
    obtain ⟨hanswers, hshows, hkept⟩ :=
      shows_run hhs hapart (shows_init backing_file sparse_extents blocksize max_size hhs hapart) ops
    refine ⟨hanswers, hshows.content.symm, hkept, fun n m => ?_⟩
    rw [(shows_read hhs hapart hshows _).1, (shows_read hhs hapart hshows _).1,
      (shows_read hhs hapart (shows_seek hhs hshows _) _).1, hshows.seek_pos]
    exact slice_add _ _ _ _

theorem sameAsPlain_two_extents :
    SameAsPlain (initWithSparseExtents ⟨[0, 1, 2, 3, 4, 5, 6, 7], 0⟩ [⟨1, 3⟩, ⟨6, 3⟩] 2 0) [(2, 4), (6, 8)] :=
  (sameAsPlain_iff ⟨[0, 1, 2, 3, 4, 5, 6, 7], 0⟩ [⟨1, 3⟩, ⟨6, 3⟩] 2 0 (by decide)).mpr (by decide)

/-- With two extents next to each other the third byte is read from the second
extent. -/
theorem not_sameAsPlain_adjacent :
    [SSparseExtent.mk 2 2, ⟨4, 1⟩].Pairwise (fun a b => a.offset + a.size ≤ b.offset) ∧
    ¬ SameAsPlain (initWithSparseExtents ⟨[0, 1, 2, 3, 4, 5], 0⟩ [⟨2, 2⟩, ⟨4, 1⟩] 1 0) (rounded 1 [⟨2, 2⟩, ⟨4, 1⟩]) := by
  refine ⟨by decide, fun h => ?_⟩
  have hread := (h [.Read 3]).1
  exact absurd hread (by decide)

end urbackup.sparsefile
