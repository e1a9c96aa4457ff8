import UrBackup.ChunkHash.Adler32
import UrBackup.ChunkHash.BlockHash

namespace urbackup.chunkhash

open stringtools filedata

namespace TreeHash

variable (d : Digests)

/-- The loop of `hash` with a hash output. Every chunk has a checksum of its own,
which the output gets as well, and which is combined with that of the block. -/
def hashLoopOut (buf : Bytes) (th : TreeHash) (i offset_end buf_off : Nat) : TreeHash :=
  if i < offset_end then
    let adler_idx := i / treehash_smallblock % 12
    let tohash := min treehash_smallblock (offset_end - i)
    let tohash := if th.offset % treehash_smallblock ≠ 0 then
        min tohash (treehash_smallblock - th.offset % treehash_smallblock) else tohash
    let data := slice buf buf_off tohash
    let adler_curr := urb_adler32 adler_init data
    let th := { th with
      adlers := th.adlers.modify adler_idx (urb_adler32_combine · adler_curr tohash)
      md5sum := th.md5sum ++ data
      offset := th.offset + tohash }
    if th.offset = treehash_blocksize then
      let offset_end := if offset_end > treehash_blocksize then offset_end - treehash_blocksize else offset_end
      hashLoopOut buf ({ th with offset := 0 }.finalize_curr d) (i + treehash_smallblock) offset_end (buf_off + tohash)
    else hashLoopOut buf th (i + treehash_smallblock) offset_end (buf_off + tohash)
  else th
termination_by offset_end - i
decreasing_by
  · simp only [treehash_smallblock]
    split <;> omega
  · simp only [treehash_smallblock]
    omega

/-- `hash`, with a hash output or without one. -/
def hashCall (hash_output : Bool) (th : TreeHash) (buf : Bytes) : TreeHash :=
  if hash_output then hashLoopOut d buf th th.offset (th.offset + buf.length) 0 else th.hash d buf

/-- The digest of what a sequence of calls is given. -/
def digest (hash_output : Bool) (bufs : List Bytes) : Bytes :=
  (bufs.foldl (hashCall d hash_output) new).finalize d

end TreeHash

section HashOutput

variable {d : Digests}

def Adlers (th : TreeHash) : Prop :=
  ∀ a ∈ th.adlers, IsAdler a

theorem adlers_init : ∀ a ∈ List.replicate 12 adler_init, IsAdler a := by
  intro a ha
  rw [List.eq_of_mem_replicate ha]
  exact isAdler_init

/-- A loop with an output hashes the same. -/
theorem hashLoopOut_eq {buf : Bytes} {th : TreeHash} {i offset_end buf_off : Nat} (hth : Adlers th)
    (hbuf : buf_off + (offset_end - i) ≤ buf.length) :
    TreeHash.hashLoopOut d buf th i offset_end buf_off = TreeHash.hashLoop d buf th i offset_end buf_off ∧
      Adlers (TreeHash.hashLoop d buf th i offset_end buf_off) := by
  induction hm : offset_end - i using Nat.strong_induction_on generalizing th i offset_end buf_off with
  | _ m ih =>
    rw [TreeHash.hashLoopOut, TreeHash.hashLoop]
    by_cases hi : i < offset_end
    · rw [if_pos hi, if_pos hi]
      dsimp only
      have hs := smallblock_pos
      generalize htohash : (if th.offset % treehash_smallblock ≠ 0 then
        min (min treehash_smallblock (offset_end - i)) (treehash_smallblock - th.offset % treehash_smallblock)
        else min treehash_smallblock (offset_end - i)) = tohash
      have hle : tohash ≤ treehash_smallblock ∧ tohash ≤ offset_end - i := by
        rw [← htohash]
        split <;> omega
      have hlen : (slice buf buf_off tohash).length = tohash := by
        rw [length_slice]
        omega
      have hmodify : th.adlers.modify (i / treehash_smallblock % 12)
            (urb_adler32_combine · (urb_adler32 adler_init (slice buf buf_off tohash)) tohash) =
          th.adlers.modify (i / treehash_smallblock % 12) (urb_adler32 · (slice buf buf_off tohash)) := by
        apply modify_congr fun a ha => ?_
        have hcombine := urb_adler32_combine_eq (hth a ha) (slice buf buf_off tohash)
        rw [hlen] at hcombine
        exact hcombine
      rw [hmodify]
      split
      · exact ih _ (by split <;> omega) adlers_init (by split <;> omega) rfl
      · exact ih _ (by omega) (isAdler_modify hth _ _) (by omega) rfl
    · rw [if_neg hi, if_neg hi]
      exact ⟨rfl, hth⟩

theorem hashCall_eq (hash_output : Bool) {th : TreeHash} (hth : Adlers th) (buf : Bytes) :
    th.hashCall d hash_output buf = th.hash d buf ∧ Adlers (th.hash d buf) := by
  obtain ⟨heq, hadlers⟩ := @hashLoopOut_eq d buf th th.offset (th.offset + buf.length) 0 hth (show 0 + (th.offset + buf.length - th.offset) ≤ _ by omega)
  refine ⟨?_, hadlers⟩
  cases hash_output with
  | true => exact heq
  | false => rfl

/-- The hash output does not change the digest. -/
theorem digest_eq (hash_output : Bool) (bufs : List Bytes) :
    TreeHash.digest d hash_output bufs = (bufs.foldl (TreeHash.hash d) TreeHash.new).finalize d := by
  rw [TreeHash.digest]
  congr 1
  have hth : Adlers TreeHash.new := adlers_init
  generalize TreeHash.new = th at hth ⊢
  induction bufs generalizing th with
  | nil => rfl
  | cons buf bufs ih =>
    obtain ⟨heq, hadlers⟩ := @hashCall_eq d hash_output th hth buf
    rw [List.foldl_cons, List.foldl_cons, heq]
    exact ih _ hadlers

end HashOutput

namespace TreeHash

/-- A hash that is given one byte. -/
def feed (d : Digests) (th : TreeHash) (ch : UInt8) : TreeHash :=
  let th := { th with
    adlers := th.adlers.modify (th.offset / treehash_smallblock % 12) (urb_adler32 · [ch])
    md5sum := th.md5sum ++ [ch]
    offset := th.offset + 1 }
  if th.offset = treehash_blocksize then { th with offset := 0 }.finalize_curr d else th

/-- More data of the same chunk. -/
def take (th : TreeHash) (data : Bytes) : TreeHash :=
  { th with
    adlers := th.adlers.modify (th.offset / treehash_smallblock % 12) (urb_adler32 · data)
    md5sum := th.md5sum ++ data
    offset := th.offset + data.length }

/-- The end of a block. -/
def wrap (d : Digests) (th : TreeHash) : TreeHash :=
  if th.offset = treehash_blocksize then { th with offset := 0 }.finalize_curr d else th

end TreeHash

/-- A call that stays in the chunk it starts in, or starts with a chunk and stays
in the block. -/
def CallFits (offset size : Nat) : Prop :=
  offset % treehash_smallblock + size ≤ treehash_smallblock ∨
    offset % treehash_smallblock = 0 ∧ offset + size ≤ treehash_blocksize

/-- All calls from an offset on do. -/
def CallsFit : Nat → List Bytes → Prop
  | _, [] => True
  | offset, buf :: bufs => CallFits offset buf.length ∧ CallsFit ((offset + buf.length) % treehash_blocksize) bufs

section Feed

variable {d : Digests} {th : TreeHash}

theorem urb_adler32_append (adler : Nat) (buf more : Bytes) :
    urb_adler32 (urb_adler32 adler buf) more = urb_adler32 adler (buf ++ more) := by
  have hbase : 0 < BASE := by decide
  generalize hsums : adlerSums (adler % 2 ^ 16) (adler / 2 ^ 16 % 2 ^ 16) buf = sums
  obtain ⟨hlow, hhigh⟩ := @adler_split _ (sums.2 % BASE) (Nat.mod_lt sums.1 hbase)
  have hhigh' : sums.2 % BASE % 2 ^ 16 = sums.2 % BASE :=
    Nat.mod_eq_of_lt ((Nat.mod_lt _ hbase).trans (by decide))
  obtain ⟨hfst, hsnd⟩ := adlerSums_mod sums.1 sums.2 more
  simp only [urb_adler32, adlerSums_append, hsums]
  rw [hlow, hhigh, hhigh', hfst, hsnd]

theorem modify_modify_same {xs : List Nat} (f g : Nat → Nat) (i : Nat) :
    (xs.modify i f).modify i g = xs.modify i (g ∘ f) := by
  apply List.ext_getElem? fun j => ?_
  simp only [List.getElem?_modify]
  cases xs[j]? with
  | none => rfl
  | some x => split <;> simp_all

theorem offset_succ {offset n : Nat} (h : offset % treehash_smallblock + (n + 2) ≤ treehash_smallblock) :
    (offset + 1) % treehash_smallblock = offset % treehash_smallblock + 1 ∧
      (offset + 1) / treehash_smallblock = offset / treehash_smallblock ∧ offset + 1 ≠ treehash_blocksize := by
  unfold treehash_smallblock treehash_blocksize at *
  omega

theorem take_take {buf more : Bytes}
    (h : (th.offset + buf.length) / treehash_smallblock = th.offset / treehash_smallblock) :
    (th.take buf).take more = th.take (buf ++ more) := by
  have hadlers : (th.adlers.modify (th.offset / treehash_smallblock % 12) (urb_adler32 · buf)).modify
        ((th.offset + buf.length) / treehash_smallblock % 12) (urb_adler32 · more) =
      th.adlers.modify (th.offset / treehash_smallblock % 12) (urb_adler32 · (buf ++ more)) := by
    rw [h, modify_modify_same]
    congr 1
    funext adler
    exact urb_adler32_append adler buf more
  unfold TreeHash.take
  dsimp only
  rw [hadlers, List.append_assoc, List.length_append, Nat.add_assoc]

/-- Bytes of a chunk that are given one by one. -/
theorem foldl_feed {data : Bytes} (hne : data ≠ []) (hfits : th.offset % treehash_smallblock + data.length ≤ treehash_smallblock) :
    data.foldl (TreeHash.feed d) th = (th.take data).wrap d := by
  induction data generalizing th with
  | nil => exact absurd rfl hne
  | cons ch data ih =>
    have hfeed : th.feed d ch = (th.take [ch]).wrap d := rfl
    cases data with
    | nil => exact hfeed
    | cons ch' data =>
      obtain ⟨hmod, hdiv, hnot⟩ := @offset_succ th.offset data.length hfits
      have hwrap : (th.take [ch]).wrap d = th.take [ch] := if_neg hnot
      have hrest : (th.take [ch]).offset % treehash_smallblock + (ch' :: data).length ≤ treehash_smallblock := by
        rw [List.length_cons] at hfits
        show (th.offset + 1) % _ + _ ≤ _
        omega
      rw [List.foldl_cons, hfeed, hwrap, ih (List.cons_ne_nil _ _) hrest, take_take hdiv]
      rfl

/-- One round of the loop of `hash`. -/
theorem hashLoop_round {buf : Bytes} {i offset_end buf_off tohash : Nat} (hi : i < offset_end)
    (hchunk : i / treehash_smallblock = th.offset / treehash_smallblock)
    (htohash : (if th.offset % treehash_smallblock ≠ 0 then
      min (min treehash_smallblock (offset_end - i)) (treehash_smallblock - th.offset % treehash_smallblock)
      else min treehash_smallblock (offset_end - i)) = tohash) (hlen : buf_off + tohash ≤ buf.length)
    (hend : offset_end ≤ treehash_blocksize) :
    TreeHash.hashLoop d buf th i offset_end buf_off =
      TreeHash.hashLoop d buf ((th.take (slice buf buf_off tohash)).wrap d) (i + treehash_smallblock) offset_end
        (buf_off + tohash) := by
  have hslice : (slice buf buf_off tohash).length = tohash := by
    rw [length_slice]
    omega
  have hend' : (if offset_end > treehash_blocksize then offset_end - treehash_blocksize else offset_end) = offset_end :=
    if_neg (by omega)
  rw [TreeHash.hashLoop, if_pos hi]
  dsimp only
  rw [htohash, hend', hchunk]
  unfold TreeHash.wrap TreeHash.take
  rw [hslice]
  dsimp only
  split <;> rfl

/-- The loop over a call that fits gives its bytes one by one. -/
theorem hashLoop_feed {buf : Bytes} {buf_off : Nat} (hle : buf_off ≤ buf.length) (hfits : CallFits th.offset (buf.length - buf_off))
    (hend : th.offset + (buf.length - buf_off) ≤ treehash_blocksize) :
    TreeHash.hashLoop d buf th th.offset (th.offset + (buf.length - buf_off)) buf_off =
      (buf.drop buf_off).foldl (TreeHash.feed d) th := by
  have hs := smallblock_pos
  induction hm : buf.length - buf_off using Nat.strong_induction_on generalizing th buf_off with
  | _ m ih =>
    by_cases hpos : m = 0
    · rw [hashLoop_done (by omega), List.drop_eq_nil_of_le (by omega)]
      rfl
    · rw [hm] at hfits hend
      have hdrop : buf.drop buf_off ≠ [] := by
        rw [ne_eq, List.drop_eq_nil_iff]
        omega
      by_cases hlast : th.offset % treehash_smallblock + m ≤ treehash_smallblock
      · have htohash : (if th.offset % treehash_smallblock ≠ 0 then
            min (min treehash_smallblock (th.offset + m - th.offset)) (treehash_smallblock - th.offset % treehash_smallblock)
            else min treehash_smallblock (th.offset + m - th.offset)) = m := by
          split <;> omega
        have hslice : slice buf buf_off m = buf.drop buf_off := by
          rw [slice, List.take_of_length_le]
          rw [List.length_drop]
          omega
        rw [hashLoop_round (by omega) rfl htohash (by omega) hend, hashLoop_done (by omega), hslice]
        exact (foldl_feed hdrop (by rw [List.length_drop]; omega)).symm
      · obtain hfits | ⟨haligned, _⟩ := hfits
        · exact absurd hfits hlast
        · have htohash : (if th.offset % treehash_smallblock ≠ 0 then
              min (min treehash_smallblock (th.offset + m - th.offset)) (treehash_smallblock - th.offset % treehash_smallblock)
              else min treehash_smallblock (th.offset + m - th.offset)) = treehash_smallblock := by
            rw [if_neg (not_not.mpr haligned)]
            omega
          have hslice : (slice buf buf_off treehash_smallblock).length = treehash_smallblock := by
            rw [length_slice]
            omega
          have hwrap : (th.take (slice buf buf_off treehash_smallblock)).wrap d = th.take (slice buf buf_off treehash_smallblock) := by
            apply if_neg
            show th.offset + _ ≠ _
            omega
          have hoffset : (th.take (slice buf buf_off treehash_smallblock)).offset = th.offset + treehash_smallblock :=
            congrArg (th.offset + ·) hslice
          have hsum : th.offset + m = (th.take (slice buf buf_off treehash_smallblock)).offset +
              (buf.length - (buf_off + treehash_smallblock)) := by
            rw [hoffset]
            omega
          have hrest : buf.drop buf_off = slice buf buf_off treehash_smallblock ++ buf.drop (buf_off + treehash_smallblock) := by
            rw [← List.drop_drop]
            exact (List.take_append_drop _ _).symm
          have hfeed := @foldl_feed d th (slice buf buf_off treehash_smallblock)
            (List.ne_nil_of_length_pos (by omega)) (by omega)
          rw [hashLoop_round (by omega) rfl htohash (by omega) hend, hwrap, hrest, List.foldl_append, hfeed, hwrap, hsum,
            ← hoffset]
          apply ih _ (by omega) (by omega) _ _ rfl
          · right
            rw [hoffset, Nat.add_mod_right]
            exact ⟨haligned, by omega⟩
          · rw [hoffset]
            omega

theorem hash_feed {buf : Bytes} (hfits : CallFits th.offset buf.length) (hend : th.offset + buf.length ≤ treehash_blocksize) :
    th.hash d buf = buf.foldl (TreeHash.feed d) th :=
  hashLoop_feed (Nat.zero_le _) hfits hend

end Feed

section Calls

variable {d : Digests} {th : TreeHash}

theorem CallFits.le {offset size : Nat} (h : CallFits offset size) (hoffset : offset < treehash_blocksize) :
    offset + size ≤ treehash_blocksize := by
  unfold CallFits treehash_smallblock treehash_blocksize at *
  omega

theorem addHash_offset (th : TreeHash) (h : Bytes) : (th.addHash d h).offset = th.offset := by
  have hwithin := congrArg TreeHash.offset (@addHash_within d th th.offset th.adlers th.md5sum h)
  exact hwithin

theorem feed_offset (hth : th.offset < treehash_blocksize) (ch : UInt8) :
    (th.feed d ch).offset = (th.offset + 1) % treehash_blocksize := by
  unfold TreeHash.feed
  dsimp only
  split
  · next h =>
    rw [h, Nat.mod_self]
    exact addHash_offset _ _
  · next h =>
    have hlt : th.offset + 1 < treehash_blocksize := Nat.lt_of_le_of_ne hth h
    exact (Nat.mod_eq_of_lt hlt).symm

theorem foldl_feed_offset (hth : th.offset < treehash_blocksize) (data : Bytes) :
    (data.foldl (TreeHash.feed d) th).offset = (th.offset + data.length) % treehash_blocksize := by
  induction data generalizing th with
  | nil => exact (Nat.mod_eq_of_lt hth).symm
  | cons ch data ih =>
    have hfeed := @feed_offset d th hth ch
    rw [List.foldl_cons, ih (hfeed ▸ Nat.mod_lt _ (by decide)), hfeed, Nat.mod_add_mod, List.length_cons]
    congr 1
    omega

/-- Calls that fit give their bytes one by one. -/
theorem foldl_hash_feed {bufs : List Bytes} (hth : th.offset < treehash_blocksize) (hfits : CallsFit th.offset bufs) :
    bufs.foldl (TreeHash.hash d) th = bufs.flatten.foldl (TreeHash.feed d) th := by
  induction bufs generalizing th with
  | nil => rfl
  | cons buf bufs ih =>
    obtain ⟨hbuf, hrest⟩ := hfits
    have hoffset := @foldl_feed_offset d th hth buf
    rw [List.foldl_cons, List.flatten_cons, List.foldl_append, hash_feed hbuf (hbuf.le hth)]
    exact ih (hoffset ▸ Nat.mod_lt _ (by decide)) (hoffset ▸ hrest)

/-- The digest of calls that fit is that of their bytes, however they are cut. -/
theorem digest_feed (hash_output : Bool) {bufs : List Bytes} (hfits : CallsFit 0 bufs) :
    TreeHash.digest d hash_output bufs = (bufs.flatten.foldl (TreeHash.feed d) TreeHash.new).finalize d := by
  rw [digest_eq, @foldl_hash_feed d TreeHash.new bufs (by decide) hfits]

end Calls

end urbackup.chunkhash
