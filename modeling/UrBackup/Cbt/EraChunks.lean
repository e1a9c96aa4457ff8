import UrBackup.Cbt.Era

namespace urbackup.cbt

open stringtools filedata

section Listing

variable {io : CbtIO} {s s' : CbtState}

theorem blockImg_congr {c : Int} {bit bit' : Bool} (h : s.hdat_img = none ∨ bit = bit') : s.blockImg io c bit = s.blockImg io c bit' := by
  rcases h with h | rfl
  · simp [CbtState.blockImg, h]
  · rfl

theorem blockFile_congr {c : Int} {bit bit' : Bool} (h : s.hdat_file = none ∨ bit = bit') : s.blockFile io c bit = s.blockFile io c bit' := by
  rcases h with h | rfl
  · simp [CbtState.blockFile, h]
  · rfl

theorem block_congr {c : Nat} {img_bit img_bit' file_bit file_bit' : Bool} (himg : s.hdat_img = none ∨ img_bit = img_bit')
    (hfile : s.hdat_file = none ∨ file_bit = file_bit') : s.block io c img_bit file_bit = s.block io c img_bit' file_bit' := by
  rw [CbtState.block, CbtState.block, blockImg_congr himg]
  refine Option.bind_congr fun s₁ hs₁ => blockFile_congr ?_
  rwa [(blockImg_spec hs₁).1]

/-- What is not there has no hashes to zero. -/
theorem block_none {c : Nat} {img_bit file_bit : Bool} (h : s.block io c img_bit file_bit = some s') :
    (s.hdat_img = none → s'.hdat_img = none) ∧ (s.hdat_file = none → s'.hdat_file = none) := by
  obtain ⟨s₁, himg, hfile⟩ := Option.bind_eq_some_iff.mp h
  obtain ⟨hfile_same, -, -, himg_none, -⟩ := blockImg_spec himg
  obtain ⟨himg_same, hfile_none, -⟩ := blockFile_spec hfile
  exact ⟨fun hnone => himg_same.trans (himg_none hnone), fun hnone => hfile_none (hfile_same.trans hnone)⟩

theorem run_cons (x : CbtBlock) (blocks : List CbtBlock) :
    CbtState.run io s (x :: blocks) = (s.block io x.cbt_pos x.img_bit x.file_bit).bind (CbtState.run io · blocks) :=
  List.foldlM_cons

/-- The bits for what is not there do not count. -/
theorem run_congr {blocks blocks' : List CbtBlock} (h : List.Forall₂ (fun x y => x.cbt_pos = y.cbt_pos ∧
    (s.hdat_img = none ∨ x.img_bit = y.img_bit) ∧ (s.hdat_file = none ∨ x.file_bit = y.file_bit)) blocks blocks') :
    CbtState.run io s blocks = CbtState.run io s blocks' := by
  induction blocks generalizing s blocks' with
  | nil =>
    cases h
    rfl
  | cons x blocks ih =>
    obtain ⟨y, blocks', ⟨hpos, himg, hfile⟩, hrest, rfl⟩ := List.forall₂_cons_left_iff.mp h
    rw [run_cons, run_cons, block_congr himg hfile, hpos]
    refine Option.bind_congr fun s₁ hs₁ => ih ?_
    obtain ⟨himg_none, hfile_none⟩ := block_none hs₁
    exact hrest.imp fun z w hzw => ⟨hzw.1, hzw.2.1.imp_left himg_none, hzw.2.2.imp_left hfile_none⟩

theorem run_eras {block_size : Nat} {file_era file_era' img_era img_era' : BitVec 64} (himg : s.hdat_img = none ∨ img_era = img_era')
    (hfile : s.hdat_file = none ∨ file_era = file_era') (blocks : List (Nat × Nat)) :
    CbtState.run io s (eraBlocks block_size file_era img_era blocks) = CbtState.run io s (eraBlocks block_size file_era' img_era' blocks) := by
  refine run_congr ?_
  rw [eraBlocks, eraBlocks, List.forall₂_map_left_iff, List.forall₂_map_right_iff, List.forall₂_same]
  exact fun x _ => ⟨rfl, himg.imp_right fun h => by rw [h], hfile.imp_right fun h => by rw [h]⟩

end Listing

section Chunks

variable {volsize block_size : Nat} {blocks : List (Nat × Nat)}

/-- The blocks that have been written since an era. -/
def ChangedSince (era : BitVec 64) (blocks : List (Nat × Nat)) (b : Nat) : Prop :=
  ∃ e, (b, e) ∈ blocks ∧ era.toInt ≤ e

/-- What a listing must have so that the loop comes to every chunk of a changed block. A
block that reaches into a further chunk needs another changed one that starts there, for the
files one that starts there and is changed or directly behind a changed one, or the first
changed one behind it. -/
structure ChunksListed (volsize block_size : Nat) (file_era img_era : BitVec 64) (blocks : List (Nat × Nat)) : Prop where
  img_next : ∀ b c, ChangedSince img_era blocks b → Touches volsize block_size b c → c ≠ b * block_size / chunkhash.c_checkpoint_dist →
    ∃ b', ChangedSince img_era blocks b' ∧ b' * block_size / chunkhash.c_checkpoint_dist = c
  file_next : ∀ b c, ChangedSince file_era blocks b → Touches volsize block_size b c → c ≠ b * block_size / chunkhash.c_checkpoint_dist →
    ZeroedFile (eraBlocks block_size file_era img_era blocks) c
  file_prev : ∀ b c, ChangedSince file_era blocks b → b * block_size / chunkhash.c_checkpoint_dist = c + 1 →
    ZeroedFile (eraBlocks block_size file_era img_era blocks) c

variable {file_era img_era : BitVec 64}

theorem zeroedImg_eraBlocks {c : Nat} : ZeroedImg (eraBlocks block_size file_era img_era blocks) c ↔
    ∃ b, ChangedSince img_era blocks b ∧ b * block_size / chunkhash.c_checkpoint_dist = c := by
  constructor
  · rintro ⟨x, hx, hbit, hpos⟩
    obtain ⟨⟨b, e⟩, hmem, rfl⟩ := List.mem_map.mp hx
    exact ⟨b, ⟨e, hmem, of_decide_eq_true hbit⟩, hpos⟩
  · rintro ⟨b, ⟨e, hmem, hera⟩, hpos⟩
    exact ⟨_, List.mem_map_of_mem hmem, decide_eq_true hera, hpos⟩

/-- The chunk a changed block starts in is zeroed. -/
theorem zeroedFile_start {b : Nat} (hb : ChangedSince file_era blocks b) :
    ZeroedFile (eraBlocks block_size file_era img_era blocks) (b * block_size / chunkhash.c_checkpoint_dist) := by
  obtain ⟨e, hmem, hera⟩ := hb
  obtain ⟨pre, post, rfl⟩ := List.append_of_mem hmem
  exact Or.inl ⟨eraBlocks block_size file_era img_era pre, ⟨_, img_era.toInt ≤ e, file_era.toInt ≤ e⟩,
    eraBlocks block_size file_era img_era post, by simp [eraBlocks], rfl, Or.inl (decide_eq_true hera)⟩

/-- A block reaches into one further chunk at most. -/
theorem touches_le {b c : Nat} (hsize : block_size ≤ chunkhash.c_checkpoint_dist) (h : Touches volsize block_size b c) :
    c = b * block_size / chunkhash.c_checkpoint_dist ∨ c = b * block_size / chunkhash.c_checkpoint_dist + 1 := by
  have hdist : chunkhash.c_checkpoint_dist = 524288 := by decide
  obtain ⟨p, hge, hlt, -, rfl⟩ := h
  rw [Nat.add_mul, Nat.one_mul] at hlt
  rw [hdist] at hsize ⊢
  omega

/-- The loop comes to every chunk of a changed block exactly if the listing has what it
takes. -/
theorem chunksListed_iff (hlist : EraListing volsize block_size blocks) (hsize : block_size ≤ chunkhash.c_checkpoint_dist) :
    ChunksListed volsize block_size file_era img_era blocks ↔
      (∀ b c, ChangedSince img_era blocks b → Touches volsize block_size b c →
        ZeroedImg (eraBlocks block_size file_era img_era blocks) c) ∧
      ∀ b c, ChangedSince file_era blocks b → Touches volsize block_size b c →
        ZeroedFile (eraBlocks block_size file_era img_era blocks) c ∧
          (0 < c → ZeroedFile (eraBlocks block_size file_era img_era blocks) (c - 1)) := by
  constructor
  · intro h
    refine ⟨fun b c hb hc => ?_, fun b c hb hc => ?_⟩
    · by_cases hstart : c = b * block_size / chunkhash.c_checkpoint_dist
      · exact zeroedImg_eraBlocks.mpr ⟨b, hb, hstart.symm⟩
      · exact zeroedImg_eraBlocks.mpr (h.img_next b c hb hc hstart)
    · rcases touches_le hsize hc with rfl | rfl
      · exact ⟨zeroedFile_start hb, fun hpos => h.file_prev b _ hb (Nat.succ_pred_eq_of_pos hpos).symm⟩
      · exact ⟨h.file_next b _ hb hc (by omega), fun _ => zeroedFile_start hb⟩
  · rintro ⟨himg, hfile⟩
    refine ⟨fun b c hb hc _ => zeroedImg_eraBlocks.mp (himg b c hb hc), fun b c hb hc _ => (hfile b c hb hc).1, ?_⟩
    intro b c hb hc
    have hpos := hlist.block_size_pos
    obtain ⟨e, hmem, -⟩ := id hb
    have hstart : Touches volsize block_size b (c + 1) :=
      ⟨b * block_size, Nat.le_refl _, by rw [Nat.add_mul]; omega, hlist.block_lt _ hmem, hc⟩
    exact (hfile b _ hb hstart).2 (Nat.succ_pos c)

end Chunks

section Finish

variable {volsize sectors nr_blocks current_era : Nat} {blocks : List (Nat × Nat)} {env : EraEnv}

theorem writeShadowId_none {io : CbtIO} {shadow_id : Nat} {img : Option Bytes} (h : writeShadowId io shadow_id none = some img) : img = none :=
  (Option.some.inj h).symm

/-- A listing that the client accepts. -/
structure EraAccepted (volsize sectors current_era : Nat) (blocks : List (Nat × Nat)) : Prop where
  listing : EraListing volsize (sectors * 512) blocks
  block_size_le : sectors * 512 ≤ chunkhash.c_checkpoint_dist
  current_era_pos : 1 < current_era
  current_era_lt : current_era < 2 ^ 63

variable (hacc : EraAccepted volsize sectors current_era blocks) (hdump : env.era_dump = some (eraDump sectors nr_blocks current_era blocks))

include hacc hdump

/-- The loop has gone through the blocks of the listing. -/
theorem finishCbtEra_run {io : CbtIO} {hdat_file hdat_img : Option Bytes} {shadow_id : Nat} {r : EraResult}
    (h : finishCbtEra io env hdat_file hdat_img shadow_id = some r) :
    ∃ img, CbtState.run io ⟨img, hdat_file, false, false⟩
      (eraBlocks (sectors * 512) (watoi64 (trim env.file_era)) (watoi64 (trim env.img_era)) blocks) = some r.hashes := by
  simp only [finishCbtEra, hdump, Option.bind_some,
    eraBytes_eraDump _ hacc.listing hacc.block_size_le hacc.current_era_pos hacc.current_era_lt] at h
  split at h
  · cases h
  split at h
  · cases h
  obtain ⟨img, himg, h⟩ := Option.bind_eq_some_iff.mp h
  obtain ⟨l, hl, h⟩ := Option.bind_eq_some_iff.mp h
  obtain ⟨hashes, hrun, rfl⟩ := Option.map_eq_some_iff.mp hl
  refine ⟨img, ?_⟩
  split at h
  · cases h
  split at h
  · cases h
  obtain rfl := Option.some.inj h
  rw [← hrun]
  refine run_eras ?_ ?_ blocks
  · cases hdat_img with
    | none => exact Or.inl (writeShadowId_none himg)
    | some f => exact Or.inr (by simp)
  · cases hdat_file with
    | none => exact Or.inl rfl
    | some f => exact Or.inr (by simp)

theorem finishCbtEra_invalidated {io : CbtIO} {hdat_file hdat_img : Option Bytes} {shadow_id : Nat} {r : EraResult}
    (hchunks : ChunksListed volsize (sectors * 512) (watoi64 (trim env.file_era)) (watoi64 (trim env.img_era)) blocks)
    (h : finishCbtEra io env hdat_file hdat_img shadow_id = some r) :
    Invalidated volsize (sectors * 512) (ChangedSince (watoi64 (trim env.img_era)) blocks)
      (ChangedSince (watoi64 (trim env.file_era)) blocks) r.hashes := by
  obtain ⟨img, hrun⟩ := finishCbtEra_run hacc hdump h
  obtain ⟨himg, hfile⟩ := (chunksListed_iff hacc.listing hacc.block_size_le).mp hchunks
  exact (ran_run hrun).invalidated himg hfile

end Finish

section Stale

/-- Holes can be punched everywhere. -/
def punchAll : CbtIO :=
  ⟨⟨fun _ => true, fun _ => true⟩, ⟨fun _ => true, fun _ => true⟩⟩

theorem zeroImg_punchAll (f : Bytes) (c : Nat) : ∃ f', zeroImg punchAll f c = some f' := by
  rw [zeroImg, ← Nat.cast_mul, ← Nat.cast_add]
  exact ⟨_, rfl⟩

theorem zeroFile_punchAll (f : Bytes) (c : Nat) : ∃ f', zeroFile punchAll f c = some f' := by
  rw [zeroFile, ← Nat.cast_mul]
  exact ⟨_, rfl⟩

theorem blockImg_punchAll (s : CbtState) (c : Nat) (bit : Bool) : ∃ s', s.blockImg punchAll c bit = some s' := by
  unfold CbtState.blockImg
  split
  · exact ⟨s, rfl⟩
  · next f _ =>
    obtain ⟨f', hf'⟩ := zeroImg_punchAll f c
    split
    · exact ⟨_, by rw [hf', Option.map_some]⟩
    · exact ⟨s, rfl⟩

theorem blockFile_punchAll (s : CbtState) (c : Nat) (bit : Bool) : ∃ s', s.blockFile punchAll c bit = some s' := by
  unfold CbtState.blockFile
  split
  · exact ⟨s, rfl⟩
  · next f _ =>
    split
    · have hbefore : ∃ f₁, (if !s.last_bit_set && !s.last_zeroed && decide ((0 : Int) < c) then zeroFile punchAll f (c - 1) else some f) =
          some f₁ := by
        split
        · next hfirst =>
          simp only [Bool.and_eq_true, decide_eq_true_eq, Nat.cast_pos] at hfirst
          obtain ⟨c', rfl⟩ : ∃ c', c = c' + 1 := ⟨c - 1, by omega⟩
          rw [Nat.cast_succ, add_sub_cancel_right]
          exact zeroFile_punchAll f c'
        · exact ⟨f, rfl⟩
      obtain ⟨f₁, hf₁⟩ := hbefore
      obtain ⟨f₂, hf₂⟩ := zeroFile_punchAll f₁ c
      rw [hf₁]
      dsimp only
      rw [Option.bind_some, hf₂]
      exact ⟨_, rfl⟩
    · exact ⟨_, rfl⟩

theorem block_punchAll (s : CbtState) (c : Nat) (img_bit file_bit : Bool) : ∃ s', s.block punchAll c img_bit file_bit = some s' := by
  obtain ⟨s₁, hs₁⟩ := blockImg_punchAll s c img_bit
  rw [CbtState.block, hs₁, Option.bind_some]
  exact blockFile_punchAll s₁ c file_bit

theorem run_punchAll (s : CbtState) (blocks : List CbtBlock) : ∃ s', CbtState.run punchAll s blocks = some s' := by
  induction blocks generalizing s with
  | nil => exact ⟨s, rfl⟩
  | cons x blocks ih =>
    obtain ⟨s₁, hs₁⟩ := block_punchAll s x.cbt_pos x.img_bit x.file_bit
    rw [run_cons, hs₁, Option.bind_some]
    exact ih s₁

/-- All commands work. -/
def eraEnv (era_dump file_era img_era : Bytes) : EraEnv :=
  ⟨true, true, some era_dump, 0, true, file_era, img_era⟩

variable {volsize sectors nr_blocks current_era : Nat} {blocks : List (Nat × Nat)}

section Accepted

variable (hacc : EraAccepted volsize sectors current_era blocks)

include hacc

theorem finishCbtEra_punchAll (file_era img_era file img : Bytes) :
    ∃ r, finishCbtEra punchAll (eraEnv (eraDump sectors nr_blocks current_era blocks) file_era img_era) (some file) (some img) 0 = some r ∧
      Ran (eraBlocks (sectors * 512) (watoi64 (trim file_era)) (watoi64 (trim img_era)) blocks)
        ⟨some (overwrite 0 img 0 (leBytes sizeof_shadow_id 0)), some file, false, false⟩ r.hashes := by
  obtain ⟨s, hs⟩ := run_punchAll ⟨some (overwrite 0 img 0 (leBytes sizeof_shadow_id 0)), some file, false, false⟩
    (eraBlocks (sectors * 512) (watoi64 (trim file_era)) (watoi64 (trim img_era)) blocks)
  refine ⟨⟨s, BitVec.ofNat 64 (current_era - 1), BitVec.ofNat 64 (current_era - 1)⟩, ?_, ran_run hs⟩
  have hid : writeShadowId punchAll 0 (some img) = some (some (overwrite 0 img 0 (leBytes sizeof_shadow_id 0))) := rfl
  simp only [finishCbtEra, eraEnv, hid, Option.bind_some, Option.isSome_some, if_true, Bool.not_true, Bool.false_eq_true, if_false, hs,
    eraBytes_eraDump _ hacc.listing hacc.block_size_le hacc.current_era_pos hacc.current_era_lt, Option.map_some, ne_eq, not_true]

/-- A hash of the image that the loop does not come to is still there. -/
theorem stale_img {file_era img_era : Bytes} {c : Nat}
    (hc : ¬ ZeroedImg (eraBlocks (sectors * 512) (watoi64 (trim file_era)) (watoi64 (trim img_era)) blocks) c) :
    ∃ file img r f i, finishCbtEra punchAll (eraEnv (eraDump sectors nr_blocks current_era blocks) file_era img_era) (some file) (some img) 0 =
      some r ∧ r.hashes.hdat_img = some f ∧ InImg c i ∧ f.getD i 0 ≠ 0 := by
  have hid : sizeof_shadow_id = 4 := rfl
  have hsize : SHA256_DIGEST_SIZE = 32 := rfl
  obtain ⟨r, hr, hran⟩ := finishCbtEra_punchAll hacc file_era img_era []
    (List.replicate (sizeof_shadow_id + c * SHA256_DIGEST_SIZE + 1) 255)
  obtain ⟨f, hf, hwiped⟩ := hran.img _ rfl
  have hin : InImg c (sizeof_shadow_id + c * SHA256_DIGEST_SIZE) := ⟨Nat.le_refl _, by omega⟩
  refine ⟨_, _, r, f, _, hr, hf, hin, ?_⟩
  rw [(hwiped _).2 fun ⟨c', hc', hin'⟩ => hc (inImg_unique hin hin' ▸ hc'), List.getD_eq_getElem?_getD, getElem?_overwrite 0 (by simp [hid, leBytes]),
    if_neg (by omega), if_neg (by rw [length_leBytes]; omega), List.getElem?_replicate, if_pos (by omega)]
  simp

theorem stale_file {file_era img_era : Bytes} {c : Nat}
    (hc : ¬ ZeroedFile (eraBlocks (sectors * 512) (watoi64 (trim file_era)) (watoi64 (trim img_era)) blocks) c) :
    ∃ file img r f i, finishCbtEra punchAll (eraEnv (eraDump sectors nr_blocks current_era blocks) file_era img_era) (some file) (some img) 0 =
      some r ∧ r.hashes.hdat_file = some f ∧ InFile c i ∧ f.getD i 0 ≠ 0 := by
  have hsize : sizeof_zero_chunk = 530 := rfl
  obtain ⟨r, hr, hran⟩ := finishCbtEra_punchAll hacc file_era img_era
    (List.replicate (c * sizeof_zero_chunk + 1) 255) []
  obtain ⟨-, -, f, hf, hwiped⟩ := hran.file _ rfl
  have hin : InFile c (c * sizeof_zero_chunk) := ⟨Nat.le_refl _, by omega⟩
  refine ⟨_, _, r, f, _, hr, hf, hin, ?_⟩
  rw [(hwiped _).2 fun ⟨c', hc', hin'⟩ => hc (inFile_unique hin hin' ▸ hc'), List.getD_eq_getElem?_getD, List.getElem?_replicate,
    if_pos (by omega)]
  simp

/-- Whatever the files hold, the hashes of changed blocks are zero exactly if the listing
has what it takes. -/
theorem finishCbtEra_iff (file_era img_era : Bytes) :
    (∀ io env hdat_file hdat_img shadow_id r, env.era_dump = some (eraDump sectors nr_blocks current_era blocks) →
      env.file_era = file_era → env.img_era = img_era → finishCbtEra io env hdat_file hdat_img shadow_id = some r →
        Invalidated volsize (sectors * 512) (ChangedSince (watoi64 (trim img_era)) blocks)
          (ChangedSince (watoi64 (trim file_era)) blocks) r.hashes) ↔
      ChunksListed volsize (sectors * 512) (watoi64 (trim file_era)) (watoi64 (trim img_era)) blocks := by
  constructor
  · intro h
    refine (chunksListed_iff hacc.listing hacc.block_size_le).mpr ⟨fun b c hb hc => ?_, fun b c hb hc => ⟨?_, fun hpos => ?_⟩⟩
    · by_contra hstale
      obtain ⟨file, img, r, f, i, hr, hf, hin, hne⟩ := stale_img hacc hstale
      exact hne ((h _ _ _ _ _ r rfl rfl rfl hr).img f hf b c hb hc i hin)
    · by_contra hstale
      obtain ⟨file, img, r, f, i, hr, hf, hin, hne⟩ := stale_file hacc hstale
      exact hne (((h _ _ _ _ _ r rfl rfl rfl hr).file f hf b c hb hc).1 i hin)
    · by_contra hstale
      obtain ⟨file, img, r, f, i, hr, hf, hin, hne⟩ := stale_file hacc hstale
      exact hne (((h _ _ _ _ _ r rfl rfl rfl hr).file f hf b c hb hc).2 hpos i hin)
  · rintro h io env hdat_file hdat_img shadow_id r hdump rfl rfl hr
    exact finishCbtEra_invalidated hacc hdump h hr

end Accepted

end Stale

section Invalidates

/-- With `finishCbtDatto` the hashes of changed blocks are always zero, with `finishCbtEra`
exactly if every changed block that reaches into a further chunk is not alone there. -/
theorem invalidates_enough (volsize sectors nr_blocks current_era : Nat) (blocks : List (Nat × Nat)) (file_era img_era : Bytes) :
    (∀ io dbd_info cow hdat_file hdat_img shadow_id s,
      finishCbtDatto io dbd_info (some cow) volsize hdat_file hdat_img shadow_id = some s →
        Invalidated volsize dbd_block_size (block_map cow · ≠ 0) (block_map cow · ≠ 0) s) ∧
    (EraAccepted volsize sectors current_era blocks →
      ((∀ io env hdat_file hdat_img shadow_id r, env.era_dump = some (eraDump sectors nr_blocks current_era blocks) →
        env.file_era = file_era → env.img_era = img_era → finishCbtEra io env hdat_file hdat_img shadow_id = some r →
          Invalidated volsize (sectors * 512) (ChangedSince (watoi64 (trim img_era)) blocks)
            (ChangedSince (watoi64 (trim file_era)) blocks) r.hashes) ↔
        ChunksListed volsize (sectors * 512) (watoi64 (trim file_era)) (watoi64 (trim img_era)) blocks)) :=
  ⟨fun _ _ _ _ _ _ _ h => finishCbtDatto_invalidated h, fun hacc => finishCbtEra_iff hacc file_era img_era⟩

/-- A volume of eleven blocks of 96 KiB, of which the one across the first border of
chunks has been written. -/
def straddling : List (Nat × Nat) :=
  (List.range 11).map fun b => (b, if b = 5 then 7 else 1)

theorem straddling_accepted : EraAccepted 1081344 192 9 straddling := by
  refine ⟨⟨by omega, by omega, ?_, ?_⟩, by decide, by omega, by omega⟩
  · decide
  · decide

theorem watoi64_five : watoi64 (trim [53]) = 5 := by
  decide

theorem changedSince_straddling {b : Nat} : ChangedSince 5 straddling b ↔ b = 5 := by
  constructor
  · rintro ⟨e, hmem, hera⟩
    have hlisted : ∀ x ∈ straddling, (5 : BitVec 64).toInt ≤ x.2 → x.1 = 5 := by decide
    exact hlisted _ hmem hera
  · rintro rfl
    exact ⟨7, by decide, by decide⟩

theorem not_invalidates_straddling : ∃ file img r,
    finishCbtEra punchAll (eraEnv (eraDump 192 11 9 straddling) [53] [53]) (some file) (some img) 0 = some r ∧
      ¬ Invalidated 1081344 (192 * 512) (ChangedSince (watoi64 (trim [53])) straddling)
        (ChangedSince (watoi64 (trim [53])) straddling) r.hashes := by
  have hstale : ¬ ZeroedImg (eraBlocks (192 * 512) (watoi64 (trim [53])) (watoi64 (trim [53])) straddling) 1 := by
    rw [watoi64_five, zeroedImg_eraBlocks]
    rintro ⟨b, hb, hpos⟩
    rw [changedSince_straddling.mp hb] at hpos
    exact absurd hpos (by decide)
  obtain ⟨file, img, r, f, i, hr, hf, hin, hne⟩ := stale_img straddling_accepted hstale
  refine ⟨file, img, r, hr, fun hinv => hne (hinv.img f hf 5 1 ?_ ?_ i hin)⟩
  · rw [watoi64_five]
    exact changedSince_straddling.mpr rfl
  · exact ⟨524288, by decide, by decide, by decide, by decide⟩

/-- A block of the device, of which the map says that it is changed. -/
def oneBlock : Bytes :=
  leBytes 4 DATTO_MAGIC ++ List.replicate 20 0 ++ leBytes 8 0 ++ List.replicate 16 7 ++ List.replicate 4048 0 ++ leBytes 8 1

theorem invalidates_oneBlock : (∃ s, finishCbtDatto punchAll (some ⟨1, List.replicate 16 7⟩) (some oneBlock) 4096 (some []) (some []) 2 = some s ∧
      Invalidated 4096 dbd_block_size (block_map oneBlock · ≠ 0) (block_map oneBlock · ≠ 0) s) ∧
    ((∀ io env hdat_file hdat_img shadow_id r, env.era_dump = some (eraDump 192 11 9 straddling) →
      env.file_era = [53] → env.img_era = [53] → finishCbtEra io env hdat_file hdat_img shadow_id = some r →
        Invalidated 1081344 (192 * 512) (ChangedSince (watoi64 (trim [53])) straddling)
          (ChangedSince (watoi64 (trim [53])) straddling) r.hashes) ↔
      ChunksListed 1081344 (192 * 512) (watoi64 (trim [53])) (watoi64 (trim [53])) straddling) := by
  have hsome : (finishCbtDatto punchAll (some ⟨1, List.replicate 16 7⟩) (some oneBlock) 4096 (some []) (some []) 2).isSome = true := by
    decide +kernel
  obtain ⟨s, hs⟩ := Option.isSome_iff_exists.mp hsome
  exact ⟨⟨s, hs, (invalidates_enough 4096 192 11 9 straddling [53] [53]).1 _ _ _ _ _ _ s hs⟩,
    (invalidates_enough 1081344 192 11 9 straddling [53] [53]).2 straddling_accepted⟩

end Invalidates

end urbackup.cbt
