import UrBackup.Cbt.HashEntries
import UrBackup.FileData.LittleEndian

namespace urbackup.cbt

open stringtools filedata

section Model

def DATTO_MAGIC : Nat := 4776

def DATTO_UUID_SIZE : Nat := 16

def dbd_block_size : Nat := 4096

/-- What the device says of itself, as far as it can be asked. -/
structure dattobd_info where
  seqid : Nat
  uuid : Bytes

/-- The first `shadow_id` bytes of the image hashes. -/
def writeShadowId (io : CbtIO) (shadow_id : Nat) : Option Bytes → Option (Option Bytes)
  | none => some none
  | some f => if io.img.write 0 then some (some (overwrite 0 f 0 (leBytes sizeof_shadow_id shadow_id))) else none

def block_map (cow : Bytes) (b : Nat) : Nat :=
  leValue (slice cow (dbd_block_size + b * 8) 8)

variable (io : CbtIO)

/-- The rounds of the loop, with 4096 bytes of the map at most. -/
def dattoLoop (num_blocks : Nat) : Nat → Nat → IFile → CbtState → Option CbtState
  | 0, _, _, s => some s
  | fuel + 1, i, cowfile, s =>
    if i < num_blocks then
      let toread_blocks := min (num_blocks - i) 512
      let (header_buf, cowfile) := cowfile.Read (toread_blocks * 8)
      if header_buf.length ≠ toread_blocks * 8 then none
      else
        let round := (List.range toread_blocks).foldlM (fun (s : CbtState) k =>
          let block_map := leValue (slice header_buf (k * 8) 8)
          s.block io (((i + k) * dbd_block_size / chunkhash.c_checkpoint_dist : Nat) : Int) (block_map ≠ 0) (0 < block_map)) s
        round.bind (dattoLoop num_blocks fuel (i + toread_blocks) cowfile)
    else some s

/-- `dbd_info` is missing where the device is not found or cannot be asked, `cowfile`
where it cannot be opened. -/
def finishCbtDatto (dbd_info : Option dattobd_info) (cowfile : Option Bytes) (volsize : Nat) (hdat_file hdat_img : Option Bytes)
    (shadow_id : Nat) : Option CbtState :=
  dbd_info.bind fun dbd_info =>
    cowfile.bind fun cow =>
      let (header_buf, cowfile) := (IFile.mk cow 0).Read 4096
      if header_buf.length ≠ 4096 then none
      else if leValue (slice header_buf 0 4) ≠ DATTO_MAGIC then none
      else if slice header_buf 32 DATTO_UUID_SIZE ≠ dbd_info.uuid then none
      else if (leValue (slice header_buf 24 8) + 1) % 2 ^ 64 ≠ dbd_info.seqid then none
      else
        let num_blocks := (volsize + dbd_block_size - 1) / dbd_block_size
        (writeShadowId io shadow_id hdat_img).bind fun hdat_img =>
          dattoLoop io num_blocks num_blocks 0 cowfile ⟨hdat_img, hdat_file, false, false⟩

end Model

section Loop

variable {io : CbtIO} {cow : Bytes} {num_blocks : Nat}

/-- The blocks of the map from `i` on. -/
def dattoBlocks (cow : Bytes) (i n : Nat) : List CbtBlock :=
  (List.range' i n).map fun b =>
    ⟨b * dbd_block_size / chunkhash.c_checkpoint_dist, block_map cow b ≠ 0, block_map cow b ≠ 0⟩

theorem dattoBlocks_add (cow : Bytes) (i n m : Nat) : dattoBlocks cow i (n + m) = dattoBlocks cow i n ++ dattoBlocks cow (i + n) m := by
  rw [dattoBlocks, dattoBlocks, dattoBlocks, ← List.map_append, List.range'_append_1]

theorem foldlM_congr {α β : Type} {f g : β → α → Option β} {xs : List α} (h : ∀ b, ∀ a ∈ xs, f b a = g b a) (b : β) :
    xs.foldlM f b = xs.foldlM g b := by
  induction xs generalizing b with
  | nil => rfl
  | cons x xs ih =>
    rw [List.foldlM_cons, List.foldlM_cons, h b x List.mem_cons_self]
    exact bind_congr fun b => ih (fun b a ha => h b a (List.mem_cons_of_mem x ha)) b

/-- A round over the entries of the map that were read in one piece. -/
theorem round_run (cow : Bytes) (i n : Nat) (s : CbtState) :
    (List.range n).foldlM (fun (s : CbtState) k =>
      let block_map := leValue (slice (slice cow (dbd_block_size + i * 8) (n * 8)) (k * 8) 8)
      s.block io (((i + k) * dbd_block_size / chunkhash.c_checkpoint_dist : Nat) : Int) (block_map ≠ 0) (0 < block_map)) s
      = CbtState.run io s (dattoBlocks cow i n) := by
  rw [CbtState.run, dattoBlocks, List.foldlM_map, List.range'_eq_map_range, List.foldlM_map]
  refine foldlM_congr (fun s k hk => ?_) s
  have hentry : slice (slice cow (dbd_block_size + i * 8) (n * 8)) (k * 8) 8 = slice cow (dbd_block_size + (i + k) * 8) 8 := by
    have hk := List.mem_range.mp hk
    rw [slice_slice cow (by omega), Nat.add_assoc, ← Nat.add_mul]
  have hbit : decide (0 < block_map cow (i + k)) = decide (block_map cow (i + k) ≠ 0) := decide_eq_decide.mpr Nat.pos_iff_ne_zero
  dsimp only
  rw [hentry]
  exact congrArg (s.block io _ _) hbit

theorem dattoLoop_run {fuel i : Nat} (hfuel : num_blocks - i ≤ fuel) (hi : i ≤ num_blocks) {s s' : CbtState}
    (h : dattoLoop io num_blocks fuel i ⟨cow, dbd_block_size + i * 8⟩ s = some s') :
    CbtState.run io s (dattoBlocks cow i (num_blocks - i)) = some s' := by
  induction fuel generalizing i s with
  | zero =>
    have hzero : num_blocks - i = 0 := by omega
    rw [hzero]
    exact h
  | succ fuel ih =>
    rw [dattoLoop] at h
    by_cases hlt : i < num_blocks
    · rw [if_pos hlt] at h
      have hread : min (num_blocks - i) 512 ≤ num_blocks - i := Nat.min_le_left _ _
      have hpos : 0 < min (num_blocks - i) 512 := by omega
      generalize min (num_blocks - i) 512 = n at h hread hpos
      have hdata : (IFile.mk cow (dbd_block_size + i * 8)).Read (n * 8) =
          (slice cow (dbd_block_size + i * 8) (n * 8), ⟨cow, dbd_block_size + i * 8 + (slice cow (dbd_block_size + i * 8) (n * 8)).length⟩) := rfl
      dsimp only at h
      rw [hdata] at h
      by_cases hfull : (slice cow (dbd_block_size + i * 8) (n * 8)).length = n * 8
      · rw [if_neg (not_not_intro hfull)] at h
        obtain ⟨s₁, hround, hrest⟩ := Option.bind_eq_some_iff.mp h
        have hnext : dbd_block_size + i * 8 + n * 8 = dbd_block_size + (i + n) * 8 := by omega
        rw [hfull, hnext] at hrest
        have hsplit : num_blocks - i = n + (num_blocks - (i + n)) := by omega
        rw [hsplit, dattoBlocks_add, CbtState.run, List.foldlM_append]
        refine Option.bind_eq_some_iff.mpr ⟨s₁, ?_, ih (by omega) (by omega) hrest⟩
        exact (round_run cow i n s).symm.trans hround
      · rw [if_pos hfull] at h
        cases h
    · have hzero : num_blocks - i = 0 := by omega
      rw [if_neg hlt] at h
      rw [hzero]
      exact h

/-- The loop has gone through the blocks of the whole map. -/
theorem finishCbtDatto_run {dbd_info : Option dattobd_info} {cowfile hdat_file hdat_img : Option Bytes} {volsize shadow_id : Nat}
    {s : CbtState} (h : finishCbtDatto io dbd_info cowfile volsize hdat_file hdat_img shadow_id = some s) :
    ∃ cow hdat_img', cowfile = some cow ∧ CbtState.run io ⟨hdat_img', hdat_file, false, false⟩
      (dattoBlocks cow 0 ((volsize + dbd_block_size - 1) / dbd_block_size)) = some s := by
  obtain ⟨info, -, hopen⟩ := Option.bind_eq_some_iff.mp h
  obtain ⟨cow, rfl, hread⟩ := Option.bind_eq_some_iff.mp hopen
  refine ⟨cow, ?_⟩
  have hheader : (IFile.mk cow 0).Read 4096 = (slice cow 0 4096, ⟨cow, 0 + (slice cow 0 4096).length⟩) := rfl
  rw [hheader] at hread
  dsimp only at hread
  by_cases hfull : (slice cow 0 4096).length = 4096
  · rw [if_neg (not_not_intro hfull), hfull] at hread
    split at hread
    · cases hread
    split at hread
    · cases hread
    split at hread
    · cases hread
    obtain ⟨hdat_img', -, hloop⟩ := Option.bind_eq_some_iff.mp hread
    exact ⟨hdat_img', rfl, dattoLoop_run (i := 0) (Nat.sub_le _ _) (Nat.zero_le _) hloop⟩
  · rw [if_pos hfull] at hread
    cases hread

end Loop

section Blocks

variable {cow : Bytes} {n : Nat}

theorem mem_dattoBlocks {x : CbtBlock} : x ∈ dattoBlocks cow 0 n ↔
    ∃ b, b < n ∧ x = ⟨b * dbd_block_size / chunkhash.c_checkpoint_dist, block_map cow b ≠ 0, block_map cow b ≠ 0⟩ := by
  simp [dattoBlocks, eq_comm]

theorem dattoBlocks_noGaps : NoGaps (dattoBlocks cow 0 n) := by
  have hdist : chunkhash.c_checkpoint_dist = 524288 := by decide
  have hblock : dbd_block_size = 4096 := rfl
  rw [NoGaps, dattoBlocks, List.isChain_map]
  refine (List.isChain_range' 0 n 1).imp fun a b hnext => ?_
  subst hnext
  dsimp only
  rw [hdist, hblock]
  omega

/-- A block of the device lies in one chunk. -/
theorem touches_datto {volsize b c : Nat} (h : Touches volsize dbd_block_size b c) :
    b < (volsize + dbd_block_size - 1) / dbd_block_size ∧ b * dbd_block_size / chunkhash.c_checkpoint_dist = c := by
  have hblock : dbd_block_size = 4096 := rfl
  have hdist : chunkhash.c_checkpoint_dist = 524288 := by decide
  obtain ⟨p, hge, hlt, hvol, rfl⟩ := h
  rw [hblock] at hge hlt ⊢
  rw [hdist]
  omega

/-- The hashes of every chunk that a changed block touches are zero. -/
theorem finishCbtDatto_invalidated {io : CbtIO} {dbd_info : Option dattobd_info} {cow : Bytes} {hdat_file hdat_img : Option Bytes}
    {volsize shadow_id : Nat} {s : CbtState}
    (h : finishCbtDatto io dbd_info (some cow) volsize hdat_file hdat_img shadow_id = some s) :
    Invalidated volsize dbd_block_size (block_map cow · ≠ 0) (block_map cow · ≠ 0) s := by
  obtain ⟨cow', hdat_img', hcow, hrun⟩ := finishCbtDatto_run h
  obtain rfl := Option.some.inj hcow
  have hran := ran_run hrun
  have hlisted {b c : Nat} (hchanged : block_map cow b ≠ 0) (htouch : Touches volsize dbd_block_size b c) :
      (⟨c, true, true⟩ : CbtBlock) ∈ dattoBlocks cow 0 ((volsize + dbd_block_size - 1) / dbd_block_size) := by
    obtain ⟨hlt, hchunk⟩ := touches_datto htouch
    exact mem_dattoBlocks.mpr ⟨b, hlt, by rw [hchunk, decide_eq_true hchanged]⟩
  refine (ran_run hrun).invalidated (fun b c hchanged htouch => ⟨_, hlisted hchanged htouch, rfl, rfl⟩) fun b c hchanged htouch => ?_
  obtain ⟨hsame, hprev⟩ := zeroedFile_of_changed dattoBlocks_noGaps (hlisted hchanged htouch) rfl
  exact ⟨hsame, fun hc => hprev (c - 1) (Nat.succ_pred_eq_of_pos hc).symm⟩

end Blocks

end urbackup.cbt
