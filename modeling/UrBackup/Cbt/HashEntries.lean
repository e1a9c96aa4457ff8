import Mathlib.Data.List.Chain
import UrBackup.ChunkHash.ChunkHasher
import UrBackup.FileData.IFile

namespace urbackup.cbt

open stringtools filedata

section Model

/-- At which positions holes can be punched into a file, and where it can be written. -/
structure HoleIO where
  punchHole : Nat → Bool
  write : Nat → Bool

/-- Reads and writes at a negative position fail. -/
def punchHoleOrZero (io : HoleIO) (f : Bytes) (pos : Int) (zero_size : Nat) : Option Bytes :=
  match pos with
  | .negSucc _ => none
  | .ofNat pos =>
    if io.punchHole pos then some (IFile.PunchHole ⟨f, 0⟩ pos zero_size).content
    else
      let zero_read_buf := slice f pos zero_size
      let data_differs := zero_read_buf.length ≠ zero_size ∨ zero_read_buf ≠ List.replicate zero_size 0
      if data_differs then
        if io.write pos then some (overwrite 0 f pos (List.replicate zero_size 0)) else none
      else some f

def SHA256_DIGEST_SIZE : Nat := 32

/-- `sizeof(shadow_id)` -/
def sizeof_shadow_id : Nat := 4

/-- `sizeof(zero_chunk)` -/
def sizeof_zero_chunk : Nat := 2 + chunkhash.chunkhash_single_size

/-- The hashes of an image and of the files of a volume, with the flags of the loop. -/
structure CbtState where
  hdat_img : Option Bytes
  hdat_file : Option Bytes
  last_bit_set : Bool := false
  last_zeroed : Bool := false

structure CbtIO where
  img : HoleIO
  file : HoleIO

variable (io : CbtIO)

def zeroImg (f : Bytes) (cbt_pos : Int) : Option Bytes :=
  punchHoleOrZero io.img f (sizeof_shadow_id + cbt_pos * SHA256_DIGEST_SIZE) SHA256_DIGEST_SIZE

def zeroFile (f : Bytes) (cbt_pos : Int) : Option Bytes :=
  punchHoleOrZero io.file f (cbt_pos * sizeof_zero_chunk) sizeof_zero_chunk

namespace CbtState

variable (s : CbtState)

def blockImg (cbt_pos : Int) (has_bit : Bool) : Option CbtState :=
  match s.hdat_img with
  | none => some s
  | some f => if has_bit then (zeroImg io f cbt_pos).map fun f => { s with hdat_img := some f } else some s

def blockFile (cbt_pos : Int) (has_bit : Bool) : Option CbtState :=
  match s.hdat_file with
  | none => some s
  | some f =>
    if has_bit || s.last_bit_set then
      let before := if !s.last_bit_set && !s.last_zeroed && decide (0 < cbt_pos) then zeroFile io f (cbt_pos - 1) else some f
      (before.bind (zeroFile io · cbt_pos)).map fun f =>
        { s with hdat_file := some f, last_zeroed := true, last_bit_set := has_bit }
    else some { s with last_zeroed := false, last_bit_set := has_bit }

/-- One block in the loops over the changed blocks. -/
def block (cbt_pos : Int) (img_bit file_bit : Bool) : Option CbtState :=
  (s.blockImg io cbt_pos img_bit).bind (·.blockFile io cbt_pos file_bit)

end CbtState

end Model

section Wiped

/-- The bytes that `P` names are zero now, and the others are as before. What is behind
the end of a file counts as zero. -/
def Wiped (P : Nat → Prop) (f f' : Bytes) : Prop :=
  ∀ i, (P i → f'.getD i 0 = 0) ∧ (¬ P i → f'.getD i 0 = f.getD i 0)

variable {P Q : Nat → Prop} {f f' f'' : Bytes}

theorem Wiped.congr (h : Wiped P f f') (heq : ∀ i, P i ↔ Q i) : Wiped Q f f' :=
  fun i => ⟨fun hQ => (h i).1 ((heq i).mpr hQ), fun hQ => (h i).2 fun hP => hQ ((heq i).mp hP)⟩

theorem wiped_refl (f : Bytes) : Wiped (fun _ => False) f f :=
  fun _ => ⟨fun h => h.elim, fun _ => rfl⟩

theorem Wiped.trans (h : Wiped P f f') (h' : Wiped Q f' f'') : Wiped (fun i => P i ∨ Q i) f f'' := by
  intro i
  refine ⟨fun hor => ?_, fun hnot => ?_⟩
  · by_cases hQ : Q i
    · exact (h' i).1 hQ
    · rw [(h' i).2 hQ]
      exact (h i).1 (hor.resolve_right hQ)
  · rw [not_or] at hnot
    rw [(h' i).2 hnot.2, (h i).2 hnot.1]

theorem getD_overwrite_zeros (f : Bytes) (pos : Nat) {n : Nat} (hn : 0 < n) (i : Nat) :
    (overwrite 0 f pos (List.replicate n 0)).getD i 0 = if pos ≤ i ∧ i < pos + n then 0 else f.getD i 0 := by
  have hne : List.replicate n (0 : UInt8) ≠ [] := by simpa using hn.ne'
  rw [List.getD_eq_getElem?_getD, getElem?_overwrite 0 hne, List.length_replicate]
  by_cases hfront : i < pos
  · rw [if_pos hfront, if_neg (by omega), Option.getD_some]
  · rw [if_neg hfront]
    by_cases hin : i < pos + n
    · rw [if_pos hin, if_pos ⟨by omega, hin⟩, List.getElem?_replicate, if_pos (by omega), Option.getD_some]
    · rw [if_neg hin, if_neg (by omega), List.getD_eq_getElem?_getD]

/-- Zeros over a part of a file. -/
theorem wiped_overwrite (f : Bytes) (pos : Nat) {n : Nat} (hn : 0 < n) :
    Wiped (fun i => pos ≤ i ∧ i < pos + n) f (overwrite 0 f pos (List.replicate n 0)) := by
  intro i
  rw [getD_overwrite_zeros f pos hn i]
  exact ⟨fun hin => if_pos hin, fun hout => if_neg hout⟩

theorem getD_of_length_le {f : Bytes} {i : Nat} (h : f.length ≤ i) : f.getD i 0 = 0 := by
  rw [List.getD_eq_getElem?_getD, List.getElem?_eq_none h, Option.getD_none]

theorem wiped_punchHole (f : Bytes) (pos : Nat) {n : Nat} (hn : 0 < n) :
    Wiped (fun i => pos ≤ i ∧ i < pos + n) f (IFile.PunchHole ⟨f, 0⟩ pos n).content := by
  rcases Nat.eq_zero_or_pos (min n (f.length - pos)) with hzero | hpos
  · intro i
    have hsame : (IFile.PunchHole ⟨f, 0⟩ pos n).content = f := by
      simp only [IFile.PunchHole, hzero, List.replicate_zero, overwrite_nil]
    rw [hsame]
    exact ⟨fun hin => getD_of_length_le (by omega), fun _ => rfl⟩
  · intro i
    have hwiped := wiped_overwrite f pos hpos i
    refine ⟨fun hin => ?_, fun hout => hwiped.2 (by omega)⟩
    by_cases hlen : i < f.length
    · exact hwiped.1 (by omega)
    · have hout := hwiped.2 (by omega)
      exact hout.trans (getD_of_length_le (by omega))

theorem wiped_punchHoleOrZero {io : HoleIO} {pos zero_size : Nat} (hsize : 0 < zero_size)
    (h : punchHoleOrZero io f pos zero_size = some f') : Wiped (fun i => pos ≤ i ∧ i < pos + zero_size) f f' := by
  simp only [punchHoleOrZero] at h
  split at h
  · exact Option.some.inj h ▸ wiped_punchHole f pos hsize
  · split at h
    · split at h
      · exact Option.some.inj h ▸ wiped_overwrite f pos hsize
      · cases h
    · next hsame =>
      rw [not_or, not_not, not_not] at hsame
      intro i
      rw [← Option.some.inj h]
      refine ⟨fun hin => ?_, fun _ => rfl⟩
      have hget := congrArg (·[i - pos]?) hsame.2
      simp only [getElem?_slice, List.getElem?_replicate, if_pos (by omega : i - pos < zero_size), Nat.add_sub_cancel' hin.1] at hget
      rw [List.getD_eq_getElem?_getD, hget, Option.getD_some]

/-- The bytes of a hash of the image. -/
def InImg (c i : Nat) : Prop :=
  sizeof_shadow_id + c * SHA256_DIGEST_SIZE ≤ i ∧ i < sizeof_shadow_id + c * SHA256_DIGEST_SIZE + SHA256_DIGEST_SIZE

/-- The bytes of the hashes of a chunk of the files. -/
def InFile (c i : Nat) : Prop :=
  c * sizeof_zero_chunk ≤ i ∧ i < c * sizeof_zero_chunk + sizeof_zero_chunk

theorem wiped_zeroImg {io : CbtIO} {c : Nat} (h : zeroImg io f c = some f') : Wiped (InImg c) f f' := by
  rw [zeroImg, ← Nat.cast_mul, ← Nat.cast_add] at h
  exact wiped_punchHoleOrZero (by decide) h

theorem wiped_zeroFile {io : CbtIO} {c : Nat} (h : zeroFile io f c = some f') : Wiped (InFile c) f f' := by
  rw [zeroFile, ← Nat.cast_mul] at h
  exact wiped_punchHoleOrZero (by decide) h

theorem inImg_unique {c c' i : Nat} (h : InImg c i) (h' : InImg c' i) : c = c' := by
  have hsize : SHA256_DIGEST_SIZE = 32 := rfl
  unfold InImg at h h'
  rw [hsize] at h h'
  omega

theorem inFile_unique {c c' i : Nat} (h : InFile c i) (h' : InFile c' i) : c = c' := by
  have hsize : sizeof_zero_chunk = 530 := rfl
  unfold InFile at h h'
  rw [hsize] at h h'
  omega

end Wiped

section Blocks

/-- A block of the map: the chunk it starts in, and whether it is changed. -/
structure CbtBlock where
  cbt_pos : Nat
  img_bit : Bool
  file_bit : Bool

variable {io : CbtIO} {s s' : CbtState} {blocks : List CbtBlock}

/-- The last block of these is changed. -/
def LastSet (blocks : List CbtBlock) : Prop :=
  ∃ x, blocks.getLast? = some x ∧ x.file_bit = true

/-- One of the last two blocks of these is changed. -/
def RecentSet (blocks : List CbtBlock) : Prop :=
  ∃ x ∈ blocks.reverse.take 2, x.file_bit = true

/-- The image hash of the chunk is zeroed. -/
def ZeroedImg (blocks : List CbtBlock) (c : Nat) : Prop :=
  ∃ x ∈ blocks, x.img_bit = true ∧ x.cbt_pos = c

/-- A block that starts in the chunk is changed, or directly behind a changed one. -/
def Direct (blocks : List CbtBlock) (c : Nat) : Prop :=
  ∃ pre x post, blocks = pre ++ x :: post ∧ x.cbt_pos = c ∧ (x.file_bit = true ∨ LastSet pre)

/-- A changed block that starts in the chunk has no changed one among the two before. -/
def Fresh (blocks : List CbtBlock) (c : Nat) : Prop :=
  ∃ pre x post, blocks = pre ++ x :: post ∧ x.cbt_pos = c ∧ x.file_bit = true ∧ ¬ RecentSet pre

/-- The file hashes of the chunk are zeroed. -/
def ZeroedFile (blocks : List CbtBlock) (c : Nat) : Prop :=
  Direct blocks c ∨ Fresh blocks (c + 1)

def CbtState.run (io : CbtIO) (s : CbtState) (blocks : List CbtBlock) : Option CbtState :=
  blocks.foldlM (fun s x => s.block io x.cbt_pos x.img_bit x.file_bit) s

theorem lastSet_concat (pre : List CbtBlock) (x : CbtBlock) : LastSet (pre ++ [x]) ↔ x.file_bit = true := by
  simp [LastSet]

theorem recentSet_concat (pre : List CbtBlock) (x : CbtBlock) : RecentSet (pre ++ [x]) ↔ x.file_bit = true ∨ LastSet pre := by
  rcases List.eq_nil_or_concat pre with rfl | ⟨pre, y, rfl⟩
  · simp [RecentSet, LastSet]
  · simp [RecentSet, LastSet]

theorem LastSet.recent {pre : List CbtBlock} (h : LastSet pre) : RecentSet pre := by
  rcases List.eq_nil_or_concat pre with rfl | ⟨pre, y, rfl⟩
  · simp [LastSet] at h
  · rw [List.concat_eq_append] at h ⊢
    rw [lastSet_concat] at h
    exact (recentSet_concat pre y).mpr (Or.inl h)

/-- A place in a list that grows at its end is one from before, or the end. -/
theorem exists_split_concat {p : List CbtBlock → CbtBlock → Prop} (blocks : List CbtBlock) (last : CbtBlock) :
    (∃ pre x post, blocks ++ [last] = pre ++ x :: post ∧ p pre x) ↔
      (∃ pre x post, blocks = pre ++ x :: post ∧ p pre x) ∨ p blocks last := by
  constructor
  · rintro ⟨a, y, b, heq, hp⟩
    rcases List.eq_nil_or_concat b with rfl | ⟨b, z, rfl⟩
    · obtain ⟨rfl, hlast⟩ := List.append_inj' heq rfl
      cases hlast
      exact Or.inr hp
    · have hcut : blocks ++ [last] = (a ++ y :: b) ++ [z] := by simpa using heq
      obtain ⟨rfl, -⟩ := List.append_inj' hcut rfl
      exact Or.inl ⟨a, y, b, rfl, hp⟩
  · rintro (⟨a, y, b, rfl, hp⟩ | hp)
    · exact ⟨a, y, b ++ [last], by simp, hp⟩
    · exact ⟨blocks, last, [], rfl, hp⟩

theorem direct_concat (pre : List CbtBlock) (x : CbtBlock) (c : Nat) :
    Direct (pre ++ [x]) c ↔ Direct pre c ∨ x.cbt_pos = c ∧ (x.file_bit = true ∨ LastSet pre) :=
  exists_split_concat pre x

theorem fresh_concat (pre : List CbtBlock) (x : CbtBlock) (c : Nat) :
    Fresh (pre ++ [x]) c ↔ Fresh pre c ∨ x.cbt_pos = c ∧ x.file_bit = true ∧ ¬ RecentSet pre :=
  exists_split_concat pre x

theorem blockImg_spec {c : Nat} {bit : Bool} (h : s.blockImg io c bit = some s') : s'.hdat_file = s.hdat_file ∧
    s'.last_bit_set = s.last_bit_set ∧ s'.last_zeroed = s.last_zeroed ∧ (s.hdat_img = none → s'.hdat_img = none) ∧
      ∀ f, s.hdat_img = some f → ∃ f', s'.hdat_img = some f' ∧ Wiped (fun i => bit = true ∧ InImg c i) f f' := by
  unfold CbtState.blockImg at h
  split at h
  · next hnone =>
    obtain rfl := Option.some.inj h
    exact ⟨rfl, rfl, rfl, id, fun f hf => absurd (hnone.symm.trans hf) (by simp)⟩
  · next f hsome =>
    have hnot : s.hdat_img = none → s'.hdat_img = none := fun hnone => absurd (hsome.symm.trans hnone) (by simp)
    split at h
    · next hbit =>
      obtain ⟨f', hzero, rfl⟩ := Option.map_eq_some_iff.mp h
      refine ⟨rfl, rfl, rfl, hnot, fun g hg => ⟨f', rfl, ?_⟩⟩
      obtain rfl : f = g := Option.some.inj (hsome.symm.trans hg)
      exact (wiped_zeroImg hzero).congr fun i => (and_iff_right hbit).symm
    · next hbit =>
      obtain rfl := Option.some.inj h
      refine ⟨rfl, rfl, rfl, hnot, fun g hg => ⟨g, hg, ?_⟩⟩
      exact (wiped_refl g).congr fun i => ⟨False.elim, fun hand => hbit hand.1⟩

/-- What a block does to the file hashes: those of its chunk, where it or the block
before is changed, and those of the chunk before, where it is the first one. -/
theorem blockFile_spec {c : Nat} {bit : Bool} (h : s.blockFile io c bit = some s') : s'.hdat_img = s.hdat_img ∧
    (s.hdat_file = none → s'.hdat_file = none) ∧
      ∀ f, s.hdat_file = some f → s'.last_bit_set = bit ∧ s'.last_zeroed = (bit || s.last_bit_set) ∧
        ∃ f', s'.hdat_file = some f' ∧
          Wiped (fun i => (bit = true ∨ s.last_bit_set = true) ∧ InFile c i ∨
            (bit = true ∧ s.last_bit_set = false ∧ s.last_zeroed = false) ∧ ∃ c', c = c' + 1 ∧ InFile c' i) f f' := by
  unfold CbtState.blockFile at h
  split at h
  · next hnone =>
    obtain rfl := Option.some.inj h
    exact ⟨rfl, id, fun f hf => absurd (hnone.symm.trans hf) (by simp)⟩
  · next f hsome =>
    have hnot : s.hdat_file = none → s'.hdat_file = none := fun hnone => absurd (hsome.symm.trans hnone) (by simp)
    split at h
    · next hset =>
      obtain ⟨f₂, hbind, rfl⟩ := Option.map_eq_some_iff.mp h
      obtain ⟨f₁, hbefore, hzero⟩ := Option.bind_eq_some_iff.mp hbind
      refine ⟨rfl, hnot, fun g hg => ⟨rfl, hset.symm, f₂, rfl, ?_⟩⟩
      obtain rfl : f = g := Option.some.inj (hsome.symm.trans hg)
      have hset' : bit = true ∨ s.last_bit_set = true := by simpa using hset
      have hwiped : Wiped (fun i => (bit = true ∧ s.last_bit_set = false ∧ s.last_zeroed = false) ∧ ∃ c', c = c' + 1 ∧ InFile c' i) f f₁ := by
        split at hbefore
        · next hfirst =>
          simp only [Bool.and_eq_true, Bool.not_eq_true', decide_eq_true_eq, Nat.cast_pos] at hfirst
          obtain ⟨c', rfl⟩ : ∃ c', c = c' + 1 := ⟨c - 1, by omega⟩
          rw [Nat.cast_succ, add_sub_cancel_right] at hbefore
          refine (wiped_zeroFile hbefore).congr fun i => ⟨fun hin => ⟨⟨?_, hfirst.1⟩, c', rfl, hin⟩, ?_⟩
          · exact hset'.resolve_right (by simp [hfirst.1.1])
          · rintro ⟨-, c₁, heq, hin⟩
            obtain rfl : c' = c₁ := by omega
            exact hin
        · next hfirst =>
          obtain rfl := Option.some.inj hbefore
          refine (wiped_refl f).congr fun i => ⟨False.elim, ?_⟩
          rintro ⟨⟨-, hlast, hzeroed⟩, c', rfl, -⟩
          refine hfirst ?_
          simp only [hlast, hzeroed, Bool.not_false, Bool.and_true, Bool.true_and, decide_eq_true_eq]
          omega
      refine (hwiped.trans (wiped_zeroFile hzero)).congr fun i => ?_
      rw [or_comm, and_iff_right hset']
    · next hset =>
      obtain rfl := Option.some.inj h
      have hset' : bit = false ∧ s.last_bit_set = false := by simpa using hset
      refine ⟨rfl, hnot, fun g hg => ⟨rfl, by simp [hset'], g, hg, ?_⟩⟩
      exact (wiped_refl g).congr fun i => by simp [hset']

/-- What a loop over blocks does. -/
structure Ran (blocks : List CbtBlock) (s s' : CbtState) : Prop where
  img_none : s.hdat_img = none → s'.hdat_img = none
  img : ∀ f, s.hdat_img = some f →
    ∃ f', s'.hdat_img = some f' ∧ Wiped (fun i => ∃ c, ZeroedImg blocks c ∧ InImg c i) f f'
  file_none : s.hdat_file = none → s'.hdat_file = none
  file : ∀ f, s.hdat_file = some f → (s'.last_bit_set = true ↔ LastSet blocks) ∧ (s'.last_zeroed = true ↔ RecentSet blocks) ∧
    ∃ f', s'.hdat_file = some f' ∧ Wiped (fun i => ∃ c, ZeroedFile blocks c ∧ InFile c i) f f'

theorem ran_nil (hdat_img hdat_file : Option Bytes) : Ran [] ⟨hdat_img, hdat_file, false, false⟩ ⟨hdat_img, hdat_file, false, false⟩ := by
  refine ⟨id, fun f hf => ⟨f, hf, (wiped_refl f).congr fun i => ?_⟩, id, fun f hf => ⟨?_, ?_, f, hf, (wiped_refl f).congr fun i => ?_⟩⟩
  · simp [ZeroedImg]
  · simp [LastSet]
  · simp [RecentSet]
  · simp [ZeroedFile, Direct, Fresh]

theorem Ran.step (h : Ran blocks s s') {x : CbtBlock} {s'' : CbtState} (hstep : s'.block io x.cbt_pos x.img_bit x.file_bit = some s'') :
    Ran (blocks ++ [x]) s s'' := by
  obtain ⟨s₁, himg, hfile⟩ := Option.bind_eq_some_iff.mp hstep
  obtain ⟨hfile_same, hlast_same, hzeroed_same, himg_none, himg_some⟩ := blockImg_spec himg
  obtain ⟨himg_same, hfile_none, hfile_some⟩ := blockFile_spec hfile
  constructor
  · intro hnone
    rw [himg_same]
    exact himg_none (h.img_none hnone)
  · intro f hf
    obtain ⟨f', hf', hwiped⟩ := h.img f hf
    obtain ⟨f'', hf'', hwiped'⟩ := himg_some f' hf'
    refine ⟨f'', himg_same.trans hf'', (hwiped.trans hwiped').congr fun i => ?_⟩
    simp only [ZeroedImg, List.mem_append, List.mem_singleton, or_and_right, exists_or, exists_eq_left]
    refine or_congr_right ⟨fun hand => ⟨_, ⟨hand.1, rfl⟩, hand.2⟩, ?_⟩
    rintro ⟨c, ⟨hbit, rfl⟩, hin⟩
    exact ⟨hbit, hin⟩
  · intro hnone
    exact hfile_none (hfile_same.trans (h.file_none hnone))
  · intro f hf
    obtain ⟨hlast, hrecent, f', hf', hwiped⟩ := h.file f hf
    obtain ⟨hbit, hzeroed, f'', hf'', hwiped'⟩ := hfile_some f' (hfile_same.trans hf')
    rw [hlast_same] at hzeroed hwiped'
    rw [hzeroed_same] at hwiped'
    refine ⟨?_, ?_, f'', hf'', (hwiped.trans hwiped').congr fun i => ?_⟩
    · rw [hbit, lastSet_concat]
    · rw [hzeroed, recentSet_concat, Bool.or_eq_true, hlast]
    · have hnot : s'.last_zeroed = false ↔ ¬ RecentSet blocks := by
        rw [← hrecent, Bool.not_eq_true]
      have hnot' : ¬ RecentSet blocks → s'.last_bit_set = false := by
        intro hrec
        rw [← Bool.not_eq_true, hlast]
        exact fun hl => hrec hl.recent
      simp only [ZeroedFile, direct_concat, fresh_concat, ← hlast]
      constructor
      · rintro (⟨c, hz, hin⟩ | ⟨hset, hin⟩ | ⟨⟨hx, -, hz⟩, c, hc, hin⟩)
        · exact ⟨c, hz.imp Or.inl Or.inl, hin⟩
        · exact ⟨_, Or.inl (Or.inr ⟨rfl, hset⟩), hin⟩
        · exact ⟨c, Or.inr (Or.inr ⟨hc, hx, hnot.mp hz⟩), hin⟩
      · rintro ⟨c, (hz | ⟨rfl, hset⟩) | hz | ⟨hc, hx, hrec⟩, hin⟩
        · exact Or.inl ⟨c, Or.inl hz, hin⟩
        · exact Or.inr (Or.inl ⟨hset, hin⟩)
        · exact Or.inl ⟨c, Or.inr hz, hin⟩
        · exact Or.inr (Or.inr ⟨⟨hx, hnot' hrec, hnot.mpr hrec⟩, c, hc, hin⟩)

theorem ran_run {hdat_img hdat_file : Option Bytes} (h : CbtState.run io ⟨hdat_img, hdat_file, false, false⟩ blocks = some s') :
    Ran blocks ⟨hdat_img, hdat_file, false, false⟩ s' := by
  induction blocks using List.reverseRecOn generalizing s' with
  | nil => exact Option.some.inj h ▸ ran_nil hdat_img hdat_file
  | append_singleton blocks x ih =>
    rw [CbtState.run, List.foldlM_append] at h
    obtain ⟨s₁, hrun, hstep⟩ := Option.bind_eq_some_iff.mp h
    simp only [List.foldlM_cons, List.foldlM_nil, Option.bind_eq_bind, Option.pure_def, Option.bind_fun_some] at hstep
    exact (ih hrun).step hstep

end Blocks

section Neighbours

variable {pre post blocks : List CbtBlock}

theorem Direct.append {c : Nat} (h : Direct pre c) (post : List CbtBlock) : Direct (pre ++ post) c := by
  obtain ⟨a, x, b, rfl, hpos, hset⟩ := h
  exact ⟨a, x, b ++ post, by simp, hpos, hset⟩

theorem Fresh.append {c : Nat} (h : Fresh pre c) (post : List CbtBlock) : Fresh (pre ++ post) c := by
  obtain ⟨a, x, b, rfl, hpos, hset⟩ := h
  exact ⟨a, x, b ++ post, by simp, hpos, hset⟩

theorem ZeroedFile.append {c : Nat} (h : ZeroedFile pre c) (post : List CbtBlock) : ZeroedFile (pre ++ post) c :=
  h.imp (Direct.append · post) (Fresh.append · post)

/-- Each block starts in the chunk of the block before or in the next one. -/
def NoGaps (blocks : List CbtBlock) : Prop :=
  blocks.IsChain fun x y => x.cbt_pos ≤ y.cbt_pos ∧ y.cbt_pos ≤ x.cbt_pos + 1

/-- As long as the loop zeroes, it has zeroed the chunk of the last block and the one
before. -/
theorem zeroedFile_of_recent (hgaps : NoGaps blocks) (hrecent : RecentSet blocks) {x : CbtBlock} (hx : blocks.getLast? = some x) :
    ZeroedFile blocks x.cbt_pos ∧ ∀ c, x.cbt_pos = c + 1 → ZeroedFile blocks c := by
  induction blocks using List.reverseRecOn generalizing x with
  | nil => cases hx
  | append_singleton blocks y ih =>
    obtain rfl : y = x := by simpa using hx
    obtain ⟨hchain, -, hnext⟩ := List.isChain_append.mp hgaps
    rw [recentSet_concat] at hrecent
    refine ⟨Or.inl ((direct_concat _ _ _).mpr (Or.inr ⟨rfl, hrecent⟩)), fun c hc => ?_⟩
    by_cases hbefore : RecentSet blocks
    · obtain ⟨z, hz⟩ : ∃ z, blocks.getLast? = some z := by
        rcases List.eq_nil_or_concat blocks with rfl | ⟨blocks, z, rfl⟩
        · obtain ⟨x, hx, -⟩ := hbefore
          exact nomatch hx
        · exact ⟨z, by simp⟩
      obtain ⟨hsame, hprev⟩ := ih hchain hbefore hz
      obtain ⟨hle, hnext⟩ := hnext z (by simpa using hz) y (by simp)
      rcases Nat.lt_or_ge z.cbt_pos y.cbt_pos with hlt | hge
      · obtain rfl : c = z.cbt_pos := by omega
        exact hsame.append _
      · exact (hprev c (by omega)).append _
    · have hbit : y.file_bit = true := hrecent.resolve_right fun hlast => hbefore hlast.recent
      exact Or.inr ((fresh_concat _ _ _).mpr (Or.inr ⟨hc, hbit, hbefore⟩))

/-- A changed block has the chunk it starts in and the one before zeroed. -/
theorem zeroedFile_of_changed (hgaps : NoGaps blocks) {x : CbtBlock} (hx : x ∈ blocks) (hbit : x.file_bit = true) :
    ZeroedFile blocks x.cbt_pos ∧ ∀ c, x.cbt_pos = c + 1 → ZeroedFile blocks c := by
  obtain ⟨pre, post, rfl⟩ := List.append_of_mem hx
  have hsplit : pre ++ x :: post = (pre ++ [x]) ++ post := by simp
  unfold NoGaps at hgaps
  rw [hsplit] at hgaps ⊢
  obtain ⟨hsame, hprev⟩ := zeroedFile_of_recent (List.isChain_append.mp hgaps).1 ((recentSet_concat pre x).mpr (Or.inl hbit)) (x := x)
    (by simp)
  exact ⟨hsame.append post, fun c hc => (hprev c hc).append post⟩

end Neighbours

section Invalidated

/-- Some byte of the block, in the volume, lies in the chunk. -/
def Touches (volsize block_size b c : Nat) : Prop :=
  ∃ p, b * block_size ≤ p ∧ p < (b + 1) * block_size ∧ p < volsize ∧ p / chunkhash.c_checkpoint_dist = c

/-- The hashes of the chunks that changed blocks touch are zero. -/
structure Invalidated (volsize block_size : Nat) (img_changed file_changed : Nat → Prop) (s : CbtState) : Prop where
  img : ∀ f, s.hdat_img = some f → ∀ b c, img_changed b → Touches volsize block_size b c → ∀ i, InImg c i → f.getD i 0 = 0
  file : ∀ f, s.hdat_file = some f → ∀ b c, file_changed b → Touches volsize block_size b c →
    (∀ i, InFile c i → f.getD i 0 = 0) ∧ (0 < c → ∀ i, InFile (c - 1) i → f.getD i 0 = 0)

variable {blocks : List CbtBlock} {hdat_img hdat_file : Option Bytes} {s : CbtState}

theorem Ran.zeroed_img (h : Ran blocks ⟨hdat_img, hdat_file, false, false⟩ s) {f : Bytes} (hf : s.hdat_img = some f) {c i : Nat}
    (hc : ZeroedImg blocks c) (hi : InImg c i) : f.getD i 0 = 0 := by
  cases hdat_img with
  | none => exact nomatch (h.img_none rfl).symm.trans hf
  | some before =>
    obtain ⟨f', hf', hwiped⟩ := h.img before rfl
    obtain rfl := Option.some.inj (hf.symm.trans hf')
    exact (hwiped i).1 ⟨c, hc, hi⟩

theorem Ran.zeroed_file (h : Ran blocks ⟨hdat_img, hdat_file, false, false⟩ s) {f : Bytes} (hf : s.hdat_file = some f) {c i : Nat}
    (hc : ZeroedFile blocks c) (hi : InFile c i) : f.getD i 0 = 0 := by
  cases hdat_file with
  | none => exact nomatch (h.file_none rfl).symm.trans hf
  | some before =>
    obtain ⟨-, -, f', hf', hwiped⟩ := h.file before rfl
    obtain rfl := Option.some.inj (hf.symm.trans hf')
    exact (hwiped i).1 ⟨c, hc, hi⟩

/-- It is enough that the loop comes to every chunk that a changed block touches. -/
theorem Ran.invalidated (h : Ran blocks ⟨hdat_img, hdat_file, false, false⟩ s) {volsize block_size : Nat}
    {img_changed file_changed : Nat → Prop}
    (himg : ∀ b c, img_changed b → Touches volsize block_size b c → ZeroedImg blocks c)
    (hfile : ∀ b c, file_changed b → Touches volsize block_size b c →
      ZeroedFile blocks c ∧ (0 < c → ZeroedFile blocks (c - 1))) :
    Invalidated volsize block_size img_changed file_changed s := by
  constructor
  · intro f hf b c hb hc i hi
    exact h.zeroed_img hf (himg b c hb hc) hi
  · intro f hf b c hb hc
    obtain ⟨hsame, hprev⟩ := hfile b c hb hc
    exact ⟨fun i hi => h.zeroed_file hf hsame hi, fun hpos i hi => h.zeroed_file hf (hprev hpos) hi⟩

end Invalidated

end urbackup.cbt
