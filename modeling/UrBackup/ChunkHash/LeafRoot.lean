import UrBackup.ChunkHash.CallSplitting
import UrBackup.ChunkHash.LeafTree
import UrBackup.Crypto.Sha2

namespace urbackup.chunkhash

open stringtools filedata merkle

namespace TreeHash

/-- How the checksum of a chunk changes that of its block. -/
def chunkAdler (hash_output : Bool) (data : Bytes) (tohash : Nat) : Nat → Nat :=
  if hash_output then (urb_adler32_combine · (urb_adler32 adler_init data) tohash) else (urb_adler32 · data)

/-- The leaves that the loop of `hash` adds. Each comes with the state after it. -/
def hashLoopAdds (d : Digests) (hash_output : Bool) (buf : Bytes) (th : TreeHash) (i offset_end buf_off : Nat) :
    List (Bytes × TreeHash) :=
  if i < offset_end then
    let tohash := min treehash_smallblock (offset_end - i)
    let tohash := if th.offset % treehash_smallblock ≠ 0 then
        min tohash (treehash_smallblock - th.offset % treehash_smallblock) else tohash
    let data := slice buf buf_off tohash
    let th := { th with
      adlers := th.adlers.modify (i / treehash_smallblock % 12) (chunkAdler hash_output data tohash)
      md5sum := th.md5sum ++ data
      offset := th.offset + tohash }
    if th.offset = treehash_blocksize then
      let offset_end := if offset_end > treehash_blocksize then offset_end - treehash_blocksize else offset_end
      (th.curr_hash d, { th with offset := 0 }.finalize_curr d) :: hashLoopAdds d hash_output buf
        ({ th with offset := 0 }.finalize_curr d) (i + treehash_smallblock) offset_end (buf_off + tohash)
    else hashLoopAdds d hash_output buf th (i + treehash_smallblock) offset_end (buf_off + tohash)
  else []
termination_by offset_end - i
decreasing_by
  · simp only [treehash_smallblock]
    split <;> omega
  · simp only [treehash_smallblock]
    omega

/-- The loop of `hash`, with a hash output or without one. -/
def hashLoopCall (d : Digests) (hash_output : Bool) (buf : Bytes) (th : TreeHash) (i offset_end buf_off : Nat) : TreeHash :=
  if hash_output then hashLoopOut d buf th i offset_end buf_off else hashLoop d buf th i offset_end buf_off

/-- The calls between the constructor and `finalize`. -/
inductive Op where
  | hash (buf : Bytes)
  | sparse_hash (buf : Bytes)
  | addHash (h : Bytes)
  | addHashAllAdler (h : Bytes) (hashed_size : Nat)

namespace Op

def apply (d : Digests) (hash_output : Bool) (th : TreeHash) : Op → TreeHash
  | hash buf => th.hashCall d hash_output buf
  | sparse_hash buf => th.sparse_hash buf
  | addHash h => th.addHash d h
  | addHashAllAdler h hashed_size => th.addHashAllAdler d h hashed_size

/-- The leaves that a call adds. -/
def adds (d : Digests) (hash_output : Bool) (th : TreeHash) : Op → List (Bytes × TreeHash)
  | hash buf => hashLoopAdds d hash_output buf th th.offset (th.offset + buf.length) 0
  | sparse_hash _ => []
  | addHash h => [(h, th.addHash d h)]
  | addHashAllAdler h hashed_size => [(allAdlerTo64byteHash h hashed_size, th.addHashAllAdler d h hashed_size)]

def sparse? : Op → Option Bytes
  | sparse_hash buf => some buf
  | _ => none

end Op

def run (d : Digests) (hash_output : Bool) (ops : List Op) (th : TreeHash) : TreeHash :=
  ops.foldl (Op.apply d hash_output) th

/-- The leaves that the calls and then `finalize` add. -/
def adds (d : Digests) (hash_output : Bool) : List Op → TreeHash → List (Bytes × TreeHash)
  | [], th => (pending d th).map (·, th.finish_curr d)
  | op :: ops, th => op.adds d hash_output th ++ adds d hash_output ops (op.apply d hash_output th)

def leaves (d : Digests) (hash_output : Bool) (ops : List Op) : List Bytes :=
  (adds d hash_output ops new).map Prod.fst

/-- The buffers of the calls to `sparse_hash`. -/
def sparseData (ops : List Op) : List Bytes :=
  ops.filterMap Op.sparse?

variable {d : Digests}

/-- Leaves are added to a tree, one after the other. -/
structure Adds (d : Digests) (th : TreeHash) (before : List Bytes) (added : List (Bytes × TreeHash)) (th' : TreeHash) : Prop where
  tracks : Tracks d th' (before ++ added.map Prod.fst)
  each : ∀ add ∈ added, ∃ leaves, Tracks d add.2 leaves
  has_sparse : th'.has_sparse = th.has_sparse
  sparse_ctx : th'.sparse_ctx = th.sparse_ctx

theorem adds_none {th : TreeHash} {before : List Bytes} (h : Tracks d th before) : Adds d th before [] th :=
  ⟨by simpa using h, by simp, rfl, rfl⟩

/-- A step that adds no leaf in front. -/
theorem Adds.of_eq {th next th' : TreeHash} {before : List Bytes} {added : List (Bytes × TreeHash)}
    (h : Adds d next before added th') (hsparse : next.has_sparse = th.has_sparse ∧ next.sparse_ctx = th.sparse_ctx) :
    Adds d th before added th' :=
  ⟨h.tracks, h.each, h.has_sparse.trans hsparse.1, h.sparse_ctx.trans hsparse.2⟩

/-- A leaf in front of others. -/
theorem Adds.cons {th th' : TreeHash} {before : List Bytes} {x : Bytes} {next : TreeHash} {added : List (Bytes × TreeHash)}
    (hnext : Tracks d next (before ++ [x])) (hsparse : next.has_sparse = th.has_sparse ∧ next.sparse_ctx = th.sparse_ctx)
    (h : Adds d next (before ++ [x]) added th') : Adds d th before ((x, next) :: added) th' := by
  obtain ⟨htracks, heach, hhas, hctx⟩ := h
  refine ⟨by simpa using htracks, ?_, hhas.trans hsparse.1, hctx.trans hsparse.2⟩
  intro add hadd
  obtain rfl | hadd := List.mem_cons.mp hadd
  · exact ⟨_, hnext⟩
  · exact heach add hadd

theorem adds_addHash {th : TreeHash} {before : List Bytes} (h : Tracks d th before) (x : Bytes) :
    Adds d th before [(x, th.addHash d x)] (th.addHash d x) := by
  apply Adds.cons (h.addHash x)
  · rw [h.addHash_eq]
    exact ⟨rfl, rfl⟩
  · exact adds_none (h.addHash x)

theorem hashLoopCall_eq (hash_output : Bool) (th : TreeHash) (buf : Bytes) (i offset_end buf_off : Nat) :
    hashLoopCall d hash_output buf th i offset_end buf_off =
      if i < offset_end then
        let tohash := min treehash_smallblock (offset_end - i)
        let tohash := if th.offset % treehash_smallblock ≠ 0 then
            min tohash (treehash_smallblock - th.offset % treehash_smallblock) else tohash
        let data := slice buf buf_off tohash
        let th := { th with
          adlers := th.adlers.modify (i / treehash_smallblock % 12) (chunkAdler hash_output data tohash)
          md5sum := th.md5sum ++ data
          offset := th.offset + tohash }
        if th.offset = treehash_blocksize then
          let offset_end := if offset_end > treehash_blocksize then offset_end - treehash_blocksize else offset_end
          hashLoopCall d hash_output buf ({ th with offset := 0 }.finalize_curr d) (i + treehash_smallblock) offset_end
            (buf_off + tohash)
        else hashLoopCall d hash_output buf th (i + treehash_smallblock) offset_end (buf_off + tohash)
      else th := by
  cases hash_output with
  | true =>
    rw [hashLoopCall, if_pos rfl, hashLoopOut]
    simp only [hashLoopCall, chunkAdler, if_true]
  | false =>
    rw [hashLoopCall, if_neg Bool.false_ne_true, hashLoop]
    simp only [hashLoopCall, chunkAdler, Bool.false_eq_true, if_false]

theorem adds_hashLoop {th : TreeHash} {before : List Bytes} (h : Tracks d th before) (hash_output : Bool) (buf : Bytes)
    (i offset_end buf_off : Nat) : Adds d th before (hashLoopAdds d hash_output buf th i offset_end buf_off)
      (hashLoopCall d hash_output buf th i offset_end buf_off) := by
  induction hm : offset_end - i using Nat.strong_induction_on generalizing th before i offset_end buf_off with
  | _ m ih =>
    rw [hashLoopCall_eq, hashLoopAdds]
    by_cases hi : i < offset_end
    · rw [if_pos hi, if_pos hi]
      dsimp only
      generalize (if th.offset % treehash_smallblock ≠ 0 then
        min (min treehash_smallblock (offset_end - i)) (treehash_smallblock - th.offset % treehash_smallblock)
        else min treehash_smallblock (offset_end - i)) = tohash
      have hs : 0 < treehash_smallblock := by simp [treehash_smallblock]
      split
      · apply Adds.cons
        · exact Tracks.finalize_curr ⟨h.ne_nil, h.holds⟩
        · exact Tracks.finalize_curr_sparse ⟨h.ne_nil, h.holds⟩
        · apply ih _ _ _ _ _ _ rfl
          · split <;> omega
          · exact Tracks.finalize_curr ⟨h.ne_nil, h.holds⟩
      · refine Adds.of_eq (ih _ ?_ ?_ _ _ _ rfl) ⟨rfl, rfl⟩
        · omega
        · exact ⟨h.ne_nil, h.holds⟩
    · rw [if_neg hi, if_neg hi]
      exact adds_none h

/-- What a call adds and what it does to the sparse data. -/
theorem adds_op {th : TreeHash} {before : List Bytes} (h : Tracks d th before) (hash_output : Bool) (op : Op) :
    Tracks d (op.apply d hash_output th) (before ++ (op.adds d hash_output th).map Prod.fst) ∧
      (∀ add ∈ op.adds d hash_output th, ∃ leaves, Tracks d add.2 leaves) ∧
      ((op.apply d hash_output th).has_sparse = true ↔ th.has_sparse = true ∨ op.sparse?.isSome) ∧
      (op.apply d hash_output th).sparse_ctx = th.sparse_ctx ++ op.sparse?.getD [] := by
  cases op with
  | hash buf =>
    have hadds := adds_hashLoop h hash_output buf th.offset (th.offset + buf.length) 0
    have hcall : hashLoopCall d hash_output buf th th.offset (th.offset + buf.length) 0 = th.hashCall d hash_output buf := by
      cases hash_output <;> rfl
    rw [hcall] at hadds
    obtain ⟨htracks, heach, hhas, hctx⟩ := hadds
    refine ⟨htracks, heach, ?_, ?_⟩
    · simp [Op.apply, Op.sparse?, hhas]
    · simp [Op.apply, Op.sparse?, hctx]
  | sparse_hash buf =>
    have htracks : Tracks d (th.sparse_hash buf) before := ⟨h.ne_nil, h.holds⟩
    refine ⟨?_, ?_, ?_, rfl⟩
    · rw [Op.adds, List.map_nil, List.append_nil]
      exact htracks
    · simp [Op.adds]
    · simp [Op.apply, sparse_hash, Op.sparse?]
  | addHash x =>
    obtain ⟨htracks, heach, hhas, hctx⟩ := adds_addHash h x
    refine ⟨htracks, heach, ?_, ?_⟩
    · simp [Op.apply, Op.sparse?, hhas]
    · simp [Op.apply, Op.sparse?, hctx]
  | addHashAllAdler x hashed_size =>
    obtain ⟨htracks, heach, hhas, hctx⟩ := adds_addHash h (allAdlerTo64byteHash x hashed_size)
    refine ⟨htracks, heach, ?_, ?_⟩
    · simp [Op.apply, Op.sparse?, addHashAllAdler, hhas]
    · simp [Op.apply, Op.sparse?, addHashAllAdler, hctx]

/-- A run adds the leaves in front of the pending one. -/
theorem adds_run {th : TreeHash} {before : List Bytes} (h : Tracks d th before) (hash_output : Bool) (ops : List Op) :
    (∃ xs, Tracks d (run d hash_output ops th) xs ∧
      xs ++ pending d (run d hash_output ops th) = before ++ (adds d hash_output ops th).map Prod.fst) ∧
      (∀ add ∈ adds d hash_output ops th, ∃ leaves, Tracks d add.2 leaves) ∧
      ((run d hash_output ops th).has_sparse = true ↔ th.has_sparse = true ∨ sparseData ops ≠ []) ∧
      (run d hash_output ops th).sparse_ctx = th.sparse_ctx ++ (sparseData ops).flatten := by
  induction ops generalizing th before with
  | nil =>
    refine ⟨⟨before, h, by simp [adds, run, Function.comp_def]⟩, ?_, by simp [run, sparseData], by simp [run, sparseData]⟩
    intro add hadd
    obtain ⟨_, _, rfl⟩ := List.mem_map.mp hadd
    exact ⟨_, h.finish_curr.1⟩
  | cons op ops ih =>
    obtain ⟨htracks, heach, hhas, hctx⟩ := adds_op h hash_output op
    obtain ⟨⟨xs, hxs, hleaves⟩, heach', hhas', hctx'⟩ := ih htracks
    refine ⟨⟨xs, hxs, ?_⟩, ?_, ?_, ?_⟩
    · rw [adds, List.map_append, ← List.append_assoc]
      exact hleaves
    · intro add hadd
      obtain hadd | hadd := List.mem_append.mp hadd
      · exact heach add hadd
      · exact heach' add hadd
    · refine hhas'.trans ?_
      rw [hhas, or_assoc]
      cases hop : op.sparse? <;> simp [sparseData, hop]
    · refine hctx'.trans ?_
      rw [hctx, List.append_assoc]
      cases hop : op.sparse? <;> simp [sparseData, hop]

theorem run_finalize (d : Digests) (hash_output : Bool) (ops : List Op) : (run d hash_output ops new).finalize d =
    if sparseData ops ≠ [] ∧ leaves d hash_output ops ≠ [] then
      d.sha512 ((sparseData ops).flatten ++ root (nodeHash d) max_level_size (leaves d hash_output ops))
    else root (nodeHash d) max_level_size (leaves d hash_output ops) := by
  obtain ⟨⟨xs, hxs, hleaves⟩, _, hhas, hctx⟩ := adds_run (tracks_new (d := d)) hash_output ops
  rw [List.nil_append] at hleaves
  rw [hxs.finalize, hleaves, hctx]
  have hsparse : (run d hash_output ops new).has_sparse = true ↔ sparseData ops ≠ [] := by
    simpa [new] using hhas
  simp only [hsparse]
  rfl

/-- `finalize` reads the first hash of the last level only if there is one. -/
def ReadsHash (d : Digests) (th : TreeHash) : Prop :=
  let low := (th.finish_curr d).finalize_lower d
  ¬(low.level_hash.length = 1 ∧ (low.level_hash.getD 0 []).isEmpty) → (low.finalize_top d).last_level ≠ []

theorem readsHash_run (d : Digests) (hash_output : Bool) (ops : List Op) : ReadsHash d (run d hash_output ops new) := by
  obtain ⟨⟨xs, hxs, _⟩, _⟩ := adds_run (tracks_new (d := d)) hash_output ops
  obtain ⟨hfinish, _⟩ := hxs.finish_curr
  intro hread hempty
  rw [hfinish.last_level fun hnil => hread (hfinish.finalize_lower_level.mpr hnil)] at hempty
  cases hempty

/-- After any calls, the levels hold incomplete groups only and `finalize`
returns the root of the tree over the leaves. The digest of sparse data, where
there is some, has that root at its end. -/
theorem run_root (d : Digests) (hash_output : Bool) (ops : List Op) :
    (∀ add ∈ adds d hash_output ops new,
      add.2.level_hash ≠ [] ∧ ∀ level ∈ add.2.level_hash, level.length < max_level_size) ∧
    ReadsHash d (run d hash_output ops new) ∧
    (run d hash_output ops new).finalize d =
      if sparseData ops ≠ [] ∧ leaves d hash_output ops ≠ [] then
        d.sha512 ((sparseData ops).flatten ++ root (nodeHash d) max_level_size (leaves d hash_output ops))
      else root (nodeHash d) max_level_size (leaves d hash_output ops) := by
  refine ⟨?_, readsHash_run d hash_output ops, run_finalize d hash_output ops⟩
  obtain ⟨_, heach, _⟩ := adds_run (tracks_new (d := d)) hash_output ops
  intro add hadd
  obtain ⟨xs, hxs⟩ := heach add hadd
  exact ⟨hxs.ne_nil, hxs.length_lt⟩

/-- One leaf of zeros is its own root, but the digest after sparse data is another. -/
theorem not_run_root : ¬ ∀ (d : Digests) (hash_output : Bool) (ops : List Op), d.sha512 = sha2.sha512 →
    (run d hash_output ops new).finalize d = root (nodeHash d) max_level_size (leaves d hash_output ops) := by
  intro h
  obtain ⟨d, hd⟩ : ∃ d : Digests, d.sha512 = sha2.sha512 := ⟨⟨fun _ => List.replicate 16 0, sha2.sha512, fun _ => rfl⟩, rfl⟩
  have hleaves : leaves d false [.sparse_hash (List.replicate 16 0), .addHash (List.replicate 64 0)] =
      [List.replicate 64 0] := by
    simp [leaves, adds, Op.adds, pending, Op.apply, addHash_offset, sparse_hash, new]
  have hsparse : sparseData [.sparse_hash (List.replicate 16 0), .addHash (List.replicate 64 0)] = [List.replicate 16 0] := rfl
  have hrun := h d false [.sparse_hash (List.replicate 16 0), .addHash (List.replicate 64 0)] hd
  rw [run_finalize, hleaves, hsparse, root_singleton, if_pos (by simp), List.flatten_singleton, hd] at hrun
  have hdigest : sha2.sha512 (List.replicate 16 0 ++ List.replicate 64 0) ≠ List.replicate 64 0 := by decide +kernel
  exact hdigest hrun

end TreeHash

end urbackup.chunkhash
