import UrBackup.ChunkHash.Adler32
import UrBackup.FileData.LittleEndian
import UrBackup.FileData.Slices

namespace urbackup.chunkhash

open stringtools filedata

/-- The digest functions. -/
structure Digests where
  md5 : Bytes → Bytes
  sha512 : Bytes → Bytes
  length_md5 : ∀ data, (md5 data).length = 16

def treehash_blocksize : Nat := 512 * 1024

def treehash_smallblock : Nat := 4096

def max_level_size : Nat := 16

/-- A `TreeHash` without a hash output. A digest context is the data it was
given so far. -/
structure TreeHash where
  offset : Nat
  adlers : List Nat
  md5sum : Bytes
  has_sparse : Bool
  sparse_ctx : Bytes
  level_hash : List (List Bytes)

namespace TreeHash

def new : TreeHash :=
  ⟨0, List.replicate 12 adler_init, [], false, [], [[]]⟩

variable (d : Digests)

def finalize_level (th : TreeHash) (idx : Nat) : TreeHash :=
  let nh := d.sha512 (th.level_hash.getD idx []).flatten
  let level_hash := if idx + 1 ≥ th.level_hash.length then th.level_hash ++ [[]] else th.level_hash
  { th with level_hash := (level_hash.modify (idx + 1) (· ++ [nh])).set idx [] }

/-- The loop over the levels also visits a level that it creates. -/
def addHash (th : TreeHash) (h : Bytes) : TreeHash :=
  let th := { th with level_hash := th.level_hash.modify 0 (· ++ [h]) }
  (List.range (th.level_hash.length + 1)).foldl (fun th i =>
    if i < th.level_hash.length ∧ (th.level_hash.getD i []).length = max_level_size then th.finalize_level d i else th) th

def finalize_curr (th : TreeHash) : TreeHash :=
  let h := d.md5 th.md5sum ++ th.adlers.flatMap (leBytes 4)
  { th.addHash d h with md5sum := [], adlers := List.replicate 12 adler_init }

def hashLoop (buf : Bytes) (th : TreeHash) (i offset_end buf_off : Nat) : TreeHash :=
  if i < offset_end then
    let adler_idx := i / treehash_smallblock % 12
    let tohash := min treehash_smallblock (offset_end - i)
    let tohash := if th.offset % treehash_smallblock ≠ 0 then
        min tohash (treehash_smallblock - th.offset % treehash_smallblock) else tohash
    let data := slice buf buf_off tohash
    let th := { th with
      adlers := th.adlers.modify adler_idx (urb_adler32 · data)
      md5sum := th.md5sum ++ data
      offset := th.offset + tohash }
    if th.offset = treehash_blocksize then
      let offset_end := if offset_end > treehash_blocksize then offset_end - treehash_blocksize else offset_end
      hashLoop buf ({ th with offset := 0 }.finalize_curr d) (i + treehash_smallblock) offset_end (buf_off + tohash)
    else hashLoop buf th (i + treehash_smallblock) offset_end (buf_off + tohash)
  else th
termination_by offset_end - i
decreasing_by
  · simp only [treehash_smallblock]
    split <;> omega
  · simp only [treehash_smallblock]
    omega

def hash (th : TreeHash) (buf : Bytes) : TreeHash :=
  hashLoop d buf th th.offset (th.offset + buf.length) 0

def sparse_hash (th : TreeHash) (buf : Bytes) : TreeHash :=
  { th with has_sparse := true, sparse_ctx := th.sparse_ctx ++ buf }

def finalize (th : TreeHash) : Bytes :=
  let th := if th.offset ≠ 0 then { th with offset := 0 }.finalize_curr d else th
  let th := (List.range (th.level_hash.length - 1)).foldl (fun th i =>
    if (th.level_hash.getD i []).isEmpty then th else th.finalize_level d i) th
  if th.level_hash.length = 1 ∧ (th.level_hash.getD 0 []).isEmpty then d.sha512 []
  else
    let last := th.level_hash.length - 1
    let th := if (th.level_hash.getD last []).length > 1 then th.finalize_level d last else th
    let tree_hash := (th.level_hash.getD (th.level_hash.length - 1) []).headD []
    if th.has_sparse then d.sha512 (th.sparse_ctx ++ tree_hash) else tree_hash

/-- The stored checksum of a chunk. -/
def inputAdler (h : Bytes) (i : Nat) : Nat :=
  leValue (slice h (16 + 4 * i) 4)

def allAdlerTo64byteHash (h : Bytes) (hashed_size : Nat) : Bytes :=
  let num_adlers := (h.length - 16) / 4
  let n_adlers := (List.range 12).map fun i => if i ≥ num_adlers then adler_init else inputAdler h i
  let n_adlers := (List.range' 12 (num_adlers - 12)).foldl (fun n_adlers i =>
    let curr_len2 := if i + 1 = num_adlers ∧ hashed_size % treehash_smallblock ≠ 0 then
        hashed_size % treehash_smallblock else treehash_smallblock
    n_adlers.modify (i % 12) (urb_adler32_combine · (inputAdler h i) curr_len2)) n_adlers
  h.take 16 ++ n_adlers.flatMap (leBytes 4)

def addHashAllAdler (th : TreeHash) (h : Bytes) (hashed_size : Nat) : TreeHash :=
  th.addHash d (allAdlerTo64byteHash h hashed_size)

end TreeHash

structure HashSha512 where
  has_sparse : Bool
  ctx : Bytes
  sparse_ctx : Bytes

/-- The implementations of `IHashFunc` that hash files. -/
inductive HashFunc where
  | tree (th : TreeHash)
  | sha512 (sha : HashSha512)

namespace HashFunc

variable (d : Digests)

def hash (buf : Bytes) : HashFunc → HashFunc
  | tree th => tree (th.hash d buf)
  | sha512 sha => sha512 { sha with ctx := sha.ctx ++ buf }

def sparse_hash (buf : Bytes) : HashFunc → HashFunc
  | tree th => tree (th.sparse_hash buf)
  | sha512 sha => sha512 { sha with has_sparse := true, sparse_ctx := sha.sparse_ctx ++ buf }

def addHashAllAdler (h : Bytes) (hashed_size : Nat) : HashFunc → HashFunc
  | tree th => tree (th.addHashAllAdler d h hashed_size)
  | sha512 sha => sha512 sha

def finalize : HashFunc → Bytes
  | tree th => th.finalize d
  | sha512 sha => d.sha512 (sha.ctx ++ if sha.has_sparse then d.sha512 sha.sparse_ctx else [])

end HashFunc

end urbackup.chunkhash
