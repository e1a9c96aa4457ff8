import UrBackup.ChunkPatch.Delivers

namespace urbackup.sparseextents

open stringtools filedata chunkpatch

section Model

/-- `IFsFile::SSparseExtent`. -/
structure Extent where
  offset : Int
  size : Int
deriving DecidableEq

/-- What is returned behind the last one. -/
def Extent.last : Extent :=
  ⟨-1, -1⟩

structure ExtentIterator where
  sparse_extents_f : Option IFile
  num_sparse_extents : Int
  next_sparse_extent_num : Int
  blocksize : Nat

/-- An extent with both ends on blocks, and whether there is something between them. -/
def alignExtent (blocksize : Nat) (ret : Extent) : Extent × Bool :=
  let ret_end := roundDown (ret.offset + ret.size) blocksize
  let offset := roundUp ret.offset blocksize
  if offset < ret_end then (⟨offset, ret_end - offset⟩, true) else (⟨offset, ret.size⟩, false)

namespace ExtentIterator

variable (it : ExtentIterator)

def new (sparse_extents_f : Option Bytes) (blocksize : Nat) : ExtentIterator where
  sparse_extents_f := sparse_extents_f.map (⟨·, 0⟩)
  num_sparse_extents := -1
  next_sparse_extent_num := 0
  blocksize := blocksize

/-- The number of extents is read with the first call. -/
def readNum : ExtentIterator :=
  if it.num_sparse_extents = -1 then
    match it.sparse_extents_f with
    | none => { it with num_sparse_extents := 0 }
    | some f =>
      let (bytes, f) := f.Read 8
      { it with sparse_extents_f := some f, num_sparse_extents := if bytes.length = 8 then int64 bytes else 0 }
  else it

/-- The loop over the stored extents, which `ret` has to keep going. -/
def nextLoop (f : IFile) (it : ExtentIterator) (ret : Extent) : Extent × ExtentIterator :=
  if it.next_sparse_extent_num < it.num_sparse_extents ∧ ret.offset = -1 then
    if f.content.length < f.pos + 16 then (.last, { it with num_sparse_extents := 0, sparse_extents_f := some (f.Read 16).2 })
    else
      let ret : Extent := ⟨int64 (slice f.content f.pos 8), int64 (slice f.content (f.pos + 8) 8)⟩
      let it := { it with next_sparse_extent_num := it.next_sparse_extent_num + 1 }
      let f := f.Seek (f.pos + 16)
      match alignExtent it.blocksize ret with
      | (ret, true) => (ret, { it with sparse_extents_f := some f })
      | (ret, false) => nextLoop f it ret
  else (.last, { it with sparse_extents_f := some f })
termination_by f.content.length - f.pos
decreasing_by
  simp only [IFile.Seek]
  omega

def nextExtent : Extent × ExtentIterator :=
  let it := it.readNum
  match it.sparse_extents_f with
  | none => (.last, it)
  | some f => nextLoop f it .last

end ExtentIterator

/-- What a call returns after some others. -/
def nthExtent {σ : Type} (next : σ → Extent × σ) : Nat → σ → Extent
  | 0, s => (next s).1
  | n + 1, s => nthExtent next n (next s).2

end Model

section Spec

/-- The whole blocks of an extent, if there are any. -/
def innerPart (blocksize : Nat) (e : SSparseExtent) : Option Extent :=
  let start := (e.offset + blocksize - 1) / blocksize * blocksize
  let stop := (e.offset + e.size) / blocksize * blocksize
  if start < stop then some ⟨start, stop - start⟩ else none

/-- Repeated calls return these extents, and from then on that there is none. -/
def Iterates {σ : Type} (next : σ → Extent × σ) (s : σ) (parts : List Extent) : Prop :=
  ∀ n, nthExtent next n s = parts[n]?.getD .last

/-- The file that holds the extents. -/
def storedExtents (extents : List SSparseExtent) : Bytes :=
  leBytes 8 extents.length ++ extents.flatMap fun e => leBytes 8 e.offset ++ leBytes 8 e.size

end Spec

section Parts

variable {blocksize : Nat}

/-- What becomes of a stored extent. -/
theorem alignExtent_eq (hpos : 0 < blocksize) (e : SSparseExtent) :
    (∃ part, innerPart blocksize e = some part ∧ alignExtent blocksize ⟨e.offset, e.size⟩ = (part, true)) ∨
      (innerPart blocksize e = none ∧ ∃ ret, alignExtent blocksize ⟨e.offset, e.size⟩ = (ret, false) ∧ 0 ≤ ret.offset) := by
  have hsum : (e.offset + e.size : Int) = (e.offset + e.size : Nat) := by push_cast; rfl
  unfold innerPart alignExtent
  simp only [hsum, roundDown_natCast, roundUp_natCast (Nat.ne_of_gt hpos)]
  generalize (e.offset + blocksize - 1) / blocksize * blocksize = start
  generalize (e.offset + e.size) / blocksize * blocksize = stop
  by_cases hlt : start < stop
  · rw [if_pos hlt, if_pos (by exact_mod_cast hlt)]
    exact Or.inl ⟨_, rfl, rfl⟩
  · rw [if_neg hlt, if_neg (by exact_mod_cast hlt)]
    exact Or.inr ⟨rfl, _, rfl, Int.natCast_nonneg _⟩

/-- An extent that is left is no end marker. -/
theorem innerPart_ne_last {e : SSparseExtent} {part : Extent} (h : innerPart blocksize e = some part) : part ≠ .last := by
  simp only [innerPart, Option.ite_none_right_eq_some, Option.some.injEq] at h
  obtain ⟨_, rfl⟩ := h
  intro hlast
  have hoffset := congrArg Extent.offset hlast
  simp only [Extent.last] at hoffset
  omega

/-- Leaving an end marker where an extent has vanished shows the same only if all that follow have vanished, too. -/
theorem shown_iff (extents : List SSparseExtent) :
    (∀ n : Nat, (extents[n]?.bind (innerPart blocksize)).getD .last = (extents.filterMap (innerPart blocksize))[n]?.getD .last) ↔
      extents.Pairwise fun e e' => innerPart blocksize e = none → innerPart blocksize e' = none := by
  induction extents with
  | nil => simp
  | cons e extents ih =>
    rw [List.pairwise_cons]
    cases hpart : innerPart blocksize e with
    | some part =>
      rw [List.filterMap_cons_some hpart, ← Nat.and_forall_add_one]
      simpa [hpart] using ih
    | none =>
      rw [List.filterMap_cons_none hpart]
      constructor
      · intro h
        have hfirst := h 0
        simp only [List.getElem?_cons_zero, Option.bind_some, hpart, Option.getD_none] at hfirst
        have hnil : extents.filterMap (innerPart blocksize) = [] := by
          cases hparts : extents.filterMap (innerPart blocksize) with
          | nil => rfl
          | cons part parts =>
            rw [hparts] at hfirst
            have hmem : part ∈ extents.filterMap (innerPart blocksize) := hparts ▸ List.mem_cons_self
            obtain ⟨e', _, he'⟩ := List.mem_filterMap.mp hmem
            exact absurd hfirst.symm (innerPart_ne_last he')
        have hnone := List.filterMap_eq_nil_iff.mp hnil
        exact ⟨fun e' he' _ => hnone e' he', List.pairwise_of_forall_mem_list fun _ _ e' he' _ => hnone e' he'⟩
      · rintro ⟨hnone, -⟩ n
        have hnil : extents.filterMap (innerPart blocksize) = [] :=
          List.filterMap_eq_nil_iff.mpr fun e' he' => hnone e' he' rfl
        rw [hnil]
        cases n with
        | zero => simp [hpart]
        | succ n =>
          cases he' : extents[n]? with
          | none => simp [he']
          | some e' => simp [he', hnone e' (List.mem_of_getElem? he') rfl]

end Parts

section Calls

variable {blocksize : Nat} {it : ExtentIterator} {f : IFile} {extents rest : List SSparseExtent}

/-- The extents fit the numbers of the code, rounded up too. -/
def Fit (blocksize : Nat) (extents : List SSparseExtent) : Prop :=
  ∀ e ∈ extents, e.offset + e.size < 2 ^ 63 ∧ e.offset + blocksize - 1 < 2 ^ 63

/-- These extents are still to be read. -/
structure ToRead (it : ExtentIterator) (f : IFile) (rest : List SSparseExtent) : Prop where
  file : it.sparse_extents_f = some f
  tail : f.content.drop f.pos = rest.flatMap fun e => leBytes 8 e.offset ++ leBytes 8 e.size
  num : it.num_sparse_extents = it.next_sparse_extent_num + rest.length
  started : it.num_sparse_extents ≠ -1

/-- The numbers of the next extent. -/
theorem extent_encoded {e : SSparseExtent}
    (h : f.content.drop f.pos = (e :: rest).flatMap fun e => leBytes 8 e.offset ++ leBytes 8 e.size) :
    f.pos + 16 ≤ f.content.length ∧ slice f.content f.pos 8 = leBytes 8 e.offset ∧
      slice f.content (f.pos + 8) 8 = leBytes 8 e.size ∧
      f.content.drop (f.pos + 16) = rest.flatMap fun e => leBytes 8 e.offset ++ leBytes 8 e.size := by
  have hsplit := h
  rw [List.flatMap_cons, List.append_assoc] at hsplit
  have hlen := congrArg List.length hsplit
  simp only [List.length_drop, List.length_append, length_leBytes] at hlen
  have hsize : f.content.drop (f.pos + 8) =
      leBytes 8 e.size ++ rest.flatMap fun e => leBytes 8 e.offset ++ leBytes 8 e.size := by
    rw [← List.drop_drop, hsplit, List.drop_left' (length_leBytes 8 _)]
  refine ⟨by omega, ?_, ?_, ?_⟩
  · rw [slice, hsplit, List.take_left' (length_leBytes 8 _)]
  · rw [slice, hsize, List.take_left' (length_leBytes 8 _)]
  · rw [show f.pos + 16 = f.pos + 8 + 8 from rfl, ← List.drop_drop, hsize, List.drop_left' (length_leBytes 8 _)]

/-- One call reads one extent at most, and what it returns is the inner part or the end marker. -/
theorem nextLoop_toRead (hpos : 0 < it.blocksize) (hfit : Fit it.blocksize rest) (h : ToRead it f rest) :
    (it.nextLoop f .last).1 = (rest.head?.bind (innerPart it.blocksize)).getD .last ∧
      (it.nextLoop f .last).2.blocksize = it.blocksize ∧ ∃ f', ToRead (it.nextLoop f .last).2 f' rest.tail := by
  obtain ⟨hfile, htail, hnum, hstarted⟩ := h
  unfold ExtentIterator.nextLoop
  cases rest with
  | nil =>
    rw [if_neg (by simp [hnum])]
    exact ⟨rfl, rfl, f, rfl, htail, hnum, hstarted⟩
  | cons e rest =>
    obtain ⟨hlen, hoffset, hsize, hlater⟩ := extent_encoded htail
    obtain ⟨he, -⟩ := hfit e List.mem_cons_self
    rw [List.length_cons] at hnum
    rw [if_pos ⟨by omega, rfl⟩, if_neg (by omega), hoffset, hsize, int64_leBytes (by omega), int64_leBytes (by omega)]
    have hnext : ToRead { it with next_sparse_extent_num := it.next_sparse_extent_num + 1, sparse_extents_f := some (f.Seek (f.pos + 16)) }
        (f.Seek (f.pos + 16)) rest :=
      ⟨rfl, hlater, by simp only; omega, hstarted⟩
    obtain ⟨part, hpart, halign⟩ | ⟨hpart, ret, halign, hret⟩ := alignExtent_eq hpos e
    · simp only [halign, List.head?_cons, Option.bind_some, hpart, Option.getD_some, List.tail_cons]
      exact ⟨trivial, trivial, _, hnext⟩
    · -- The offset of the vanished extent ends the loop.
      simp only [halign, List.head?_cons, Option.bind_some, hpart, Option.getD_none, List.tail_cons]
      unfold ExtentIterator.nextLoop
      rw [if_neg (by omega)]
      exact ⟨rfl, rfl, _, hnext⟩

theorem nextExtent_toRead (hpos : 0 < it.blocksize) (hfit : Fit it.blocksize rest) (h : ToRead it f rest) :
    it.nextExtent.1 = (rest.head?.bind (innerPart it.blocksize)).getD .last ∧
      it.nextExtent.2.blocksize = it.blocksize ∧ ∃ f', ToRead it.nextExtent.2 f' rest.tail := by
  have hread : it.readNum = it := if_neg h.started
  unfold ExtentIterator.nextExtent
  simp only [hread, h.file]
  exact nextLoop_toRead hpos hfit h

/-- The calls show the extents one by one. -/
theorem nthExtent_toRead (hpos : 0 < it.blocksize) (hfit : Fit it.blocksize rest) (h : ToRead it f rest) (n : Nat) :
    nthExtent ExtentIterator.nextExtent n it = (rest[n]?.bind (innerPart it.blocksize)).getD .last := by
  induction n generalizing it f rest with
  | zero =>
    rw [nthExtent, (nextExtent_toRead hpos hfit h).1, List.head?_eq_getElem?]
  | succ n ih =>
    obtain ⟨_, hblocksize, f', hnext⟩ := nextExtent_toRead hpos hfit h
    rw [nthExtent, ih (hblocksize ▸ hpos) (hblocksize ▸ fun e he => hfit e (List.mem_of_mem_tail he)) hnext, hblocksize, List.getElem?_tail]

/-- The first call finds the number of the extents. -/
theorem readNum_toRead (hcount : extents.length < 2 ^ 63) :
    ∃ f, ToRead (ExtentIterator.new (some (storedExtents extents)) blocksize).readNum f extents := by
  have hbytes : slice (storedExtents extents) 0 8 = leBytes 8 extents.length := by
    rw [slice, List.drop_zero, storedExtents, List.take_left' (length_leBytes 8 _)]
  have hnum : int64 (leBytes 8 extents.length) = extents.length := int64_leBytes hcount
  have hread : (ExtentIterator.new (some (storedExtents extents)) blocksize).readNum =
      ⟨some ⟨storedExtents extents, 8⟩, extents.length, 0, blocksize⟩ := by
    simp [ExtentIterator.readNum, ExtentIterator.new, IFile.Read, hbytes, hnum]
  rw [hread]
  refine ⟨_, rfl, ?_, ?_, ?_⟩
  · exact List.drop_left' (length_leBytes 8 _)
  · simp
  · simp only
    omega

@[simp] theorem blocksize_readNum (it : ExtentIterator) : it.readNum.blocksize = it.blocksize := by
  unfold ExtentIterator.readNum
  split
  · split <;> rfl
  · rfl

theorem nextExtent_readNum (h : ToRead it.readNum f rest) : it.readNum.nextExtent = it.nextExtent := by
  have hread : it.readNum.readNum = it.readNum := if_neg h.started
  unfold ExtentIterator.nextExtent
  rw [hread]

/-- What the calls show, from the first on. -/
theorem nthExtent_new (hpos : 0 < blocksize) (hfit : Fit blocksize extents) (hcount : extents.length < 2 ^ 63) (n : Nat) :
    nthExtent ExtentIterator.nextExtent n (.new (some (storedExtents extents)) blocksize) =
      (extents[n]?.bind (innerPart blocksize)).getD .last := by
  obtain ⟨f, h⟩ := @readNum_toRead blocksize extents hcount
  have hblocksize : (ExtentIterator.new (some (storedExtents extents)) blocksize).readNum.blocksize = blocksize :=
    blocksize_readNum _
  have hcalls := nthExtent_toRead (hblocksize ▸ hpos) (hblocksize ▸ hfit) h n
  rw [hblocksize] at hcalls
  cases n with
  | zero => rwa [nthExtent, nextExtent_readNum h] at hcalls
  | succ n => rwa [nthExtent, nextExtent_readNum h] at hcalls

/-- The parts are the right ones just when after an extent without one there is no further part. -/
theorem nextExtent_iterates_iff (extents : List SSparseExtent) (blocksize : Nat) (hpos : 0 < blocksize) (hfit : Fit blocksize extents)
    (hcount : extents.length < 2 ^ 63) :
    Iterates ExtentIterator.nextExtent (.new (some (storedExtents extents)) blocksize) (extents.filterMap (innerPart blocksize)) ↔
      extents.Pairwise fun e e' => innerPart blocksize e = none → innerPart blocksize e' = none := by
  rw [← shown_iff]
  unfold Iterates
  simp only [nthExtent_new hpos hfit hcount]

theorem nextExtent_iterates_iff_small :
    Iterates ExtentIterator.nextExtent (.new (some (storedExtents [⟨0, 8⟩, ⟨9, 2⟩])) 4) ([⟨0, 8⟩, ⟨9, 2⟩].filterMap (innerPart 4)) ↔
      [(⟨0, 8⟩ : SSparseExtent), ⟨9, 2⟩].Pairwise fun e e' => innerPart 4 e = none → innerPart 4 e' = none :=
  nextExtent_iterates_iff [⟨0, 8⟩, ⟨9, 2⟩] 4 (by decide) (by simp [Fit]) (by decide)

/-- A small extent before a large one hides it. -/
theorem nextExtent_vanished :
    ¬ ∀ (extents : List SSparseExtent) (blocksize : Nat), 0 < blocksize → Fit blocksize extents → extents.length < 2 ^ 63 →
      (extents.Pairwise fun e e' => e.offset + e.size ≤ e'.offset) →
      Iterates ExtentIterator.nextExtent (.new (some (storedExtents extents)) blocksize)
        (extents.filterMap (innerPart blocksize)) := by
  intro h
  have hfirst := h [⟨1, 2⟩, ⟨4, 4⟩] 4 (by decide) (by simp [Fit]) (by decide) (by simp) 0
  revert hfirst
  decide +kernel

end Calls

end urbackup.sparseextents
