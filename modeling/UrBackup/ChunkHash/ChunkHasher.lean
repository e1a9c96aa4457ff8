import UrBackup.ChunkHash.TreeHash
import UrBackup.FileData.IFile

namespace urbackup.chunkhash

open stringtools filedata

def c_checkpoint_dist : Nat := 512 * 1024

def c_small_hash_dist : Nat := 4096

def big_hash_size : Nat := 16

def small_hash_size : Nat := 4

def chunkhash_file_off : Nat := 8

def chunkhash_single_size : Nat := big_hash_size + small_hash_size * (c_checkpoint_dist / c_small_hash_dist)

def get_hashdata_size (hashfilesize : Nat) : Nat :=
  let size := chunkhash_file_off + hashfilesize / c_checkpoint_dist * chunkhash_single_size
  let rest := hashfilesize % c_checkpoint_dist
  if rest ≠ 0 then
    size + (big_hash_size + rest / c_small_hash_dist * small_hash_size +
      if rest % c_small_hash_dist ≠ 0 then small_hash_size else 0)
  else size

/-- `curr_extent` and what the iterator still has. -/
structure Extents where
  curr : Option SSparseExtent
  rest : List SSparseExtent

namespace Extents

/-- An iterator after its first `nextExtent`. -/
def begin : List SSparseExtent → Extents
  | [] => ⟨none, []⟩
  | e :: rest => ⟨some e, rest⟩

/-- The extents that end before a position are passed over. -/
def advance (pos : Nat) : List SSparseExtent → Extents
  | [] => ⟨none, []⟩
  | e :: rest => if e.offset + e.size < pos then advance pos rest else ⟨some e, rest⟩

def skipTo (pos : Nat) (x : Extents) : Extents :=
  match x.curr with
  | none => x
  | some e => advance pos (e :: x.rest)

/-- The current extent, if it covers a range. -/
def covering (x : Extents) (pos epos : Nat) : Option SSparseExtent :=
  x.curr.filter fun e => e.offset ≤ pos ∧ e.offset + e.size ≥ epos

end Extents

def buf_is_zero (buf : Bytes) : Bool :=
  buf.all (· == 0)

/-- A hole as it goes into a digest. -/
def extentBytes (offset size : Nat) : Bytes :=
  leBytes 8 offset ++ leBytes 8 size

/-- The copy target of `build_chunk_hashs` and where it writes to it. -/
structure CopyState where
  file : IFile
  copy_write_pos : Nat
  copy_read_eof : Bool

/-- A chunk that has to be the same in the copy, with the old chunk hashes at
hand: unless the checksums agree, the old data is fed to the control digest and
the new data written. -/
def CopyState.putHashed (c : CopyState) (hashes : Bytes) (chunkidx : Nat) (small_hash cbuf : Bytes) :
    Bytes × CopyState :=
  if small_hash = slice hashes (big_hash_size + chunkidx * small_hash_size) small_hash_size then
    (cbuf, { c with copy_write_pos := c.copy_write_pos + cbuf.length })
  else
    let (copy_buf, file) := (c.file.Seek c.copy_write_pos).Read c_small_hash_dist
    (copy_buf,
      { file := (file.Seek c.copy_write_pos).Write cbuf
        copy_write_pos := c.copy_write_pos + cbuf.length
        copy_read_eof := c.copy_read_eof || copy_buf.length < c_small_hash_dist })

/-- Without them the old data itself is compared. -/
def CopyState.putCompared (c : CopyState) (cbuf : Bytes) : CopyState :=
  let (copy_buf, file) := if c.copy_read_eof then ([], c.file) else (c.file.Seek c.copy_write_pos).Read c_small_hash_dist
  let copy_read_eof := c.copy_read_eof || copy_buf.length < c_small_hash_dist
  { file := if copy_read_eof || copy_buf ≠ cbuf then (file.Seek c.copy_write_pos).Write cbuf else file
    copy_write_pos := c.copy_write_pos + cbuf.length
    copy_read_eof }

/-- The variables of the loop over the chunks of a block. The digests hold the
data they were given. -/
structure BlockState where
  pos : Nat
  chunkidx : Nat
  small_hash : Bytes
  big_hash : Bytes
  big_hash_copy_control : Bytes
  buf_off : Nat
  all_zeros : Bool
  sha_buf : Bytes
  copy : Option CopyState

/-- The variables of `build_chunk_hashs`. -/
structure HasherState where
  pos : Nat
  f : IFile
  hashoutput : Bytes
  hashoutputpos : Nat
  chunk_hashes : Option Bytes
  copy : Option CopyState
  buf : Bytes
  sha_buf : Bytes
  extents : Extents
  sparse_extent_start : Option Nat
  copy_sparse_extent_start : Option Nat
  copy_max_sparse : Option Nat
  hashf : Option HashFunc

section Chunk

variable (modify_inplace : Bool) (chunk_hashes : Option Bytes) (buf : Bytes) (cread : Nat)

/-- A chunk's part in the control digest, and the copy after it. -/
def copyChunk (chunkidx : Nat) (small_hash cbuf : Bytes) (copy : Option CopyState) : Bytes × Option CopyState :=
  match copy with
  | none => ([], none)
  | some c =>
    if modify_inplace then
      match chunk_hashes with
      | some hashes =>
        let (control, c) := c.putHashed hashes chunkidx small_hash cbuf
        (control, some c)
      | none => ([], some (c.putCompared cbuf))
    else ([], some c)

/-- One chunk. The length of its data is computed with unsigned integers, so
behind the data that was read it is a whole chunk. -/
def chunkStep (b : BlockState) : BlockState :=
  let r := min c_small_hash_dist ((cread + 2 ^ 64 - b.buf_off) % 2 ^ 64 % 2 ^ 32)
  let cbuf := slice buf b.buf_off r
  let small_hash := leBytes 4 (urb_adler32 adler_init cbuf)
  let copied := copyChunk modify_inplace chunk_hashes b.chunkidx small_hash cbuf b.copy
  { pos := b.pos + c_small_hash_dist
    chunkidx := b.chunkidx + 1
    small_hash := b.small_hash ++ small_hash
    big_hash := b.big_hash ++ cbuf
    big_hash_copy_control := b.big_hash_copy_control ++ copied.1
    buf_off := b.buf_off + c_small_hash_dist
    all_zeros := b.all_zeros && buf_is_zero cbuf
    sha_buf := overwrite 0 b.sha_buf (b.pos % c_checkpoint_dist) cbuf
    copy := copied.2 }

def chunkLoop (epos fsize : Nat) (b : BlockState) : BlockState :=
  if b.pos < epos ∧ b.pos < fsize then
    chunkLoop epos fsize (chunkStep modify_inplace chunk_hashes buf cread b)
  else b
termination_by epos - b.pos
decreasing_by
  simp only [chunkStep, c_small_hash_dist]
  omega

end Chunk

section HashBlock

variable (d : Digests)

/-- The hole before a position is over. -/
def finishHole (hashf : HashFunc) (sparse_extent_start : Option Nat) (end_pos : Nat) : HashFunc :=
  match sparse_extent_start with
  | some start => hashf.sparse_hash (extentBytes start (end_pos - start))
  | none => hashf

/-- The block's part in the hash of the file: whole blocks of zeros are holes. -/
def hashBlock (hashf : HashFunc) (sparse_extent_start : Option Nat) (start_pos : Nat) (b : BlockState)
    (new_chunk : Bytes) : HashFunc × Option Nat :=
  let buf_read := b.big_hash.length
  let end_pos := start_pos / c_checkpoint_dist * c_checkpoint_dist
  let zeros := match hashf with
    | .tree _ => b.all_zeros
    | .sha512 _ => buf_is_zero b.sha_buf
  if buf_read = c_checkpoint_dist ∧ zeros = true then (hashf, sparse_extent_start <|> some end_pos)
  else
    let hashf := finishHole hashf sparse_extent_start end_pos
    (match hashf with
      | .tree _ => hashf.addHashAllAdler d new_chunk buf_read
      | .sha512 _ => hashf.hash d (b.sha_buf.take buf_read), none)

end HashBlock

section Build

variable (d : Digests) (modify_inplace punch_hole : Bool) (hashinput : Bytes) (fsize : Nat)

/-- The old chunk hashes of the block that comes next; a short record leaves
the rest of the previous one in place. -/
def readChunkHashes (st : HasherState) : HasherState :=
  { st with chunk_hashes := st.chunk_hashes.bind fun old =>
      if st.pos < leValue (hashinput.take 8) then
        let read := slice hashinput st.hashoutputpos chunkhash_single_size
        if read.isEmpty then none else some (read ++ old.drop read.length)
      else none }

/-- The chunk hashes of a block of zeros. -/
def get_sparse_extent_content : Bytes :=
  d.md5 (List.replicate c_checkpoint_dist 0) ++ (List.replicate (c_checkpoint_dist / c_small_hash_dist)
    (leBytes 4 (urb_adler32 adler_init (List.replicate c_small_hash_dist 0)))).flatten

/-- A hole in the copy, punched or written, where a hole of the file begins. -/
def punchExtent (c : CopyState) (e : SSparseExtent) : CopyState × Option Nat :=
  let extent_size := min e.size (fsize - e.offset)
  if punch_hole then ({ c with file := c.file.PunchHole e.offset extent_size }, some (min fsize (e.offset + e.size)))
  else ({ c with file := (c.file.Seek e.offset).Write (List.replicate extent_size 0) }, none)

/-- A block within a hole of the file. -/
def skipBlock (e : SSparseExtent) (st : HasherState) : HasherState :=
  let content := get_sparse_extent_content d
  let epos := st.pos + c_checkpoint_dist
  let punched := st.copy_sparse_extent_start.isNone && e.offset < fsize
  let copy := st.copy.map fun c =>
    let c := if punched then (punchExtent punch_hole fsize c e).1 else c
    { c with
      file := c.file.Seek (c.copy_write_pos + c_checkpoint_dist)
      copy_write_pos := c.copy_write_pos + c_checkpoint_dist }
  { st with
    pos := epos
    f := st.f.Seek epos
    hashoutput := st.hashoutput ++ content
    hashoutputpos := st.hashoutputpos + content.length
    sparse_extent_start := if st.hashf.isSome then st.sparse_extent_start <|> some st.pos else st.sparse_extent_start
    copy_sparse_extent_start := st.copy_sparse_extent_start <|> some st.pos
    copy
    copy_max_sparse := if punched then
        (st.copy.bind fun c => (punchExtent punch_hole fsize c e).2) <|> st.copy_max_sparse
      else st.copy_max_sparse }

/-- The check after a block: if the control digest is not the old one, chunks
with the same checksum differed, and the block is copied as a whole. -/
def checkControl (start_pos copy_write_pos_start : Nat) (control : Bytes) (st : HasherState) : HasherState :=
  match st.copy, st.chunk_hashes with
  | some c, some hashes =>
    if modify_inplace ∧ d.md5 control ≠ hashes.take big_hash_size then
      let (data, f) := (st.f.Seek start_pos).Read c_checkpoint_dist
      { st with
        pos := start_pos
        f
        buf := data ++ st.buf.drop data.length
        copy := some { c with
          file := (c.file.Seek copy_write_pos_start).Write data
          copy_write_pos := copy_write_pos_start + data.length } }
    else st
  | _, _ => st

/-- The buffer after the block was read into it. -/
def readBlock (st : HasherState) : Bytes × HasherState :=
  let (data, f) := st.f.Read c_checkpoint_dist
  (data, { st with f, buf := data ++ st.buf.drop data.length })

/-- The chunks of a block that was read. -/
def scanBlock (cread : Nat) (st : HasherState) : BlockState :=
  chunkLoop modify_inplace st.chunk_hashes st.buf cread (st.pos + c_checkpoint_dist) fsize
    ⟨st.pos, 0, [], [], [], 0, true, st.sha_buf, st.copy⟩

/-- What the block adds to the copy and to the hashes. -/
def storeBlock (data : Bytes) (b : BlockState) (st : HasherState) : HasherState :=
  let copy := if modify_inplace then b.copy else b.copy.map fun c =>
    { c with file := c.file.Write data, copy_write_pos := c.copy_write_pos + data.length }
  let new_chunk := d.md5 b.big_hash ++ b.small_hash
  let hashed := st.hashf.map fun hashf => hashBlock d hashf st.sparse_extent_start st.pos b new_chunk
  { st with
    pos := b.pos
    hashoutput := st.hashoutput ++ new_chunk
    hashoutputpos := st.hashoutputpos + (big_hash_size + b.chunkidx * small_hash_size)
    copy
    sha_buf := b.sha_buf
    sparse_extent_start := (hashed.map Prod.snd).getD st.sparse_extent_start
    copy_sparse_extent_start := none
    hashf := hashed.map Prod.fst }

/-- A block that is read. -/
def hashDenseBlock (st : HasherState) : HasherState :=
  let copy_write_pos_start := (st.copy.map CopyState.copy_write_pos).getD 0
  let epos := st.pos + c_checkpoint_dist
  let (data, st) := readBlock st
  let b := scanBlock modify_inplace fsize data.length st
  checkControl d modify_inplace (epos - c_checkpoint_dist) copy_write_pos_start b.big_hash_copy_control
    (storeBlock d modify_inplace data b st)

/-- The body of the loop over the blocks. -/
def buildStep (st : HasherState) : HasherState :=
  let st := readChunkHashes hashinput st
  let st := { st with extents := st.extents.skipTo st.pos }
  let epos := st.pos + c_checkpoint_dist
  match st.extents.covering st.pos epos with
  | some e => if epos ≤ fsize then skipBlock d punch_hole fsize e st else hashDenseBlock d modify_inplace fsize st
  | none => hashDenseBlock d modify_inplace fsize st

end Build

section Loop

variable (d : Digests) (modify_inplace punch_hole : Bool) (hashinput : Bytes) (fsize : Nat)

/-- A block is hashed and copied, then checked. -/
theorem hashDenseBlock_checked (st : HasherState) :
    hashDenseBlock d modify_inplace fsize st =
      checkControl d modify_inplace st.pos ((st.copy.map CopyState.copy_write_pos).getD 0)
        (scanBlock modify_inplace fsize (readBlock st).1.length (readBlock st).2).big_hash_copy_control
        (storeBlock d modify_inplace (readBlock st).1
          (scanBlock modify_inplace fsize (readBlock st).1.length (readBlock st).2) (readBlock st).2) := by
  have hstart : st.pos + c_checkpoint_dist - c_checkpoint_dist = st.pos := Nat.add_sub_cancel _ _
  rw [← hstart]
  rfl

theorem chunkLoop_pos_le (modify_inplace : Bool) (chunk_hashes : Option Bytes) (buf : Bytes) (cread epos fsize : Nat)
    (b : BlockState) : b.pos ≤ (chunkLoop modify_inplace chunk_hashes buf cread epos fsize b).pos := by
  fun_induction chunkLoop with
  | case1 b _ ih => exact Nat.le_trans (by simp [chunkStep]) ih
  | case2 => exact Nat.le_refl _

theorem scanBlock_pos_lt {st : HasherState} (h : st.pos < fsize) (cread : Nat) :
    st.pos < (scanBlock modify_inplace fsize cread st).pos := by
  have hepos : st.pos < st.pos + c_checkpoint_dist := Nat.lt_add_of_pos_right (by decide)
  unfold scanBlock
  rw [chunkLoop, if_pos ⟨hepos, h⟩]
  refine Nat.lt_of_lt_of_le ?_ (chunkLoop_pos_le _ _ _ _ _ _ _)
  simp [chunkStep, c_small_hash_dist]

/-- The check only moves the position back, and only with old chunk hashes. -/
theorem checkControl_pos (start_pos copy_write_pos_start : Nat) (control : Bytes) (st : HasherState) :
    (checkControl d modify_inplace start_pos copy_write_pos_start control st).hashoutputpos = st.hashoutputpos ∧
      ((checkControl d modify_inplace start_pos copy_write_pos_start control st).pos = st.pos ∨
        st.chunk_hashes ≠ none) := by
  unfold checkControl
  split
  · next hhashes =>
    split
    · exact ⟨rfl, Or.inr (by simp [hhashes])⟩
    · exact ⟨rfl, Or.inl rfl⟩
  · exact ⟨rfl, Or.inl rfl⟩

/-- Every round of the loop advances in the file, or in the old chunk hashes
while there are any. -/
theorem buildStep_advances {st : HasherState} (h : st.pos < fsize) :
    let next := buildStep d modify_inplace punch_hole hashinput fsize st
    st.hashoutputpos ≤ next.hashoutputpos ∧
      (st.pos < next.pos ∨ (st.hashoutputpos < next.hashoutputpos ∧ st.hashoutputpos < hashinput.length)) := by
  have hdense : ∀ st : HasherState, st.pos < fsize → (st.chunk_hashes ≠ none → st.hashoutputpos < hashinput.length) →
      st.hashoutputpos ≤ (hashDenseBlock d modify_inplace fsize st).hashoutputpos ∧
      (st.pos < (hashDenseBlock d modify_inplace fsize st).pos ∨
        (st.hashoutputpos < (hashDenseBlock d modify_inplace fsize st).hashoutputpos ∧
          st.hashoutputpos < hashinput.length)) := by
    intro st hpos hhashes
    rw [hashDenseBlock_checked]
    -- the scanned block stays opaque: unfolding it makes the kernel count up to the block size
    obtain ⟨b, hb⟩ : ∃ b, b = scanBlock modify_inplace fsize (readBlock st).1.length (readBlock st).2 := ⟨_, rfl⟩
    rw [← hb]
    obtain ⟨hout, hcheck⟩ := checkControl_pos d modify_inplace st.pos ((st.copy.map CopyState.copy_write_pos).getD 0)
      b.big_hash_copy_control (storeBlock d modify_inplace (readBlock st).1 b (readBlock st).2)
    rw [hout]
    have hlt : st.pos < b.pos := by
      rw [hb]
      exact @scanBlock_pos_lt modify_inplace fsize (readBlock st).2 hpos _
    have hgrow : st.hashoutputpos < (storeBlock d modify_inplace (readBlock st).1 b (readBlock st).2).hashoutputpos := by
      simp [storeBlock, readBlock, big_hash_size]
    refine ⟨Nat.le_of_lt hgrow, ?_⟩
    obtain hcheck | hcheck := hcheck
    · rw [hcheck]
      exact Or.inl hlt
    · exact Or.inr ⟨hgrow, hhashes hcheck⟩
  have hread : ((readChunkHashes hashinput st).chunk_hashes ≠ none → st.hashoutputpos < hashinput.length) := by
    intro hne
    by_contra hcon
    apply hne
    have hempty : slice hashinput st.hashoutputpos chunkhash_single_size = [] := slice_eq_nil (by omega)
    simp only [readChunkHashes, hempty]
    cases st.chunk_hashes <;> simp
  unfold buildStep
  dsimp only
  split
  · split
    · exact ⟨Nat.le_add_right _ _, Or.inl (by simp [skipBlock, readChunkHashes, c_checkpoint_dist])⟩
    · exact hdense { readChunkHashes hashinput st with extents := st.extents.skipTo st.pos } h hread
  · exact hdense { readChunkHashes hashinput st with extents := st.extents.skipTo st.pos } h hread

def buildLoop (st : HasherState) : HasherState :=
  if h : st.pos < fsize then
    have := buildStep_advances d modify_inplace punch_hole hashinput fsize h
    buildLoop (buildStep d modify_inplace punch_hole hashinput fsize st)
  else st
termination_by (hashinput.length - st.hashoutputpos, fsize - st.pos)
decreasing_by
  rw [Prod.lex_def]
  omega

end Loop

/-- What `build_chunk_hashs` leaves behind. -/
structure BuildResult where
  hashoutput : Bytes
  copy : Option Bytes
  hashf : Option HashFunc

/-- The variables before the loop. `unset` is what the memory for the old chunk
hashes holds before the first record is read. -/
def initialState (f : Bytes) (copy hashinput : Option Bytes) (unset : Bytes) (hashf : Option HashFunc)
    (extents : List SSparseExtent) : HasherState where
  pos := 0
  f := ⟨f, 0⟩
  hashoutput := leBytes 8 f.length
  hashoutputpos := chunkhash_file_off
  chunk_hashes := hashinput.map fun _ => unset
  copy := copy.map fun content => ⟨⟨content, 0⟩, 0, false⟩
  buf := List.replicate c_checkpoint_dist 0
  sha_buf := List.replicate c_checkpoint_dist 0
  extents := Extents.begin extents
  sparse_extent_start := none
  copy_sparse_extent_start := none
  copy_max_sparse := none
  hashf := hashf

/-- `build_chunk_hashs` without errors of the files and without a file of
change-block-tracking hashes; it fails if the old chunk hashes have no size. -/
def build_chunk_hashs (d : Digests) (f : Bytes) (copy : Option Bytes) (modify_inplace : Bool) (hashinput : Option Bytes)
    (unset : Bytes) (hashf : Option HashFunc) (extents : List SSparseExtent) (punch_hole : Bool) :
    Option BuildResult :=
  if hashinput.any (·.length < 8) then none
  else
    let st := buildLoop d modify_inplace punch_hole (hashinput.getD []) f.length
      (initialState f copy hashinput unset hashf extents)
    some {
      hashoutput := st.hashoutput
      copy := st.copy.map fun c =>
        match st.copy_max_sparse with
        | some size => if size > c.file.content.length then (c.file.Resize size).content else c.file.content
        | none => c.file.content
      hashf := st.hashf.map fun hashf => finishHole hashf st.sparse_extent_start f.length }

end urbackup.chunkhash
