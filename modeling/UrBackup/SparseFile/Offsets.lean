import UrBackup.SparseFile.SparseFile

namespace urbackup.sparsefile

open stringtools filedata

/-- The block-rounded extents that are not empty, by their start and end. -/
def rounded (blocksize : Nat) (sparse_extents : List SSparseExtent) : List (Nat × Nat) :=
  sparse_extents.filterMap fun e =>
    if roundUp e.offset blocksize < roundDown (e.offset + e.size) blocksize then
      some (roundUp e.offset blocksize, roundDown (e.offset + e.size) blocksize)
    else none

/-- Holes in order, from a position on. -/
def Holes : Nat → List (Nat × Nat) → Prop
  | _, [] => True
  | last, (start, stop) :: hs => last ≤ start ∧ start < stop ∧ Holes stop hs

/-- No hole starts where another one stops. -/
def Apart (hs : List (Nat × Nat)) : Prop :=
  ∀ a ∈ hs, ∀ b ∈ hs, a.2 ≠ b.1

instance (hs : List (Nat × Nat)) : Decidable (Apart hs) :=
  inferInstanceAs (Decidable (∀ a ∈ hs, ∀ b ∈ hs, a.2 ≠ b.1))

/-- Without the holes; `content` is what is there from `last` on. -/
def removeHoles : (last : Nat) → List (Nat × Nat) → (content : Bytes) → Bytes
  | _, [], content => content
  | last, (start, stop) :: hs, content =>
    content.take (start - last) ++ removeHoles stop hs (content.drop (stop - last))

/-- Where the byte with an index is, counted from `last` on without the holes. -/
def place : (last : Nat) → List (Nat × Nat) → (i : Nat) → Nat
  | last, [], i => last + i
  | last, (start, stop) :: hs, i => if last + i < start then last + i else place stop hs (i - (start - last))

def offsetsFrom : (fpos last : Nat) → List (Nat × Nat) → List SPosMap
  | _, _, [] => []
  | fpos, last, (start, stop) :: hs =>
    ⟨fpos + (start - last), stop⟩ :: offsetsFrom (fpos + (start - last)) stop hs

section Init

theorem foldl_addSparseExtent (blocksize : Nat) (es : List SSparseExtent) (st : InitState) :
    (es.foldl (addSparseExtent blocksize) st).sparse_offsets =
      st.sparse_offsets ++ offsetsFrom st.fpos st.last_offset (rounded blocksize es) := by
  induction es generalizing st with
  | nil => simp [rounded, offsetsFrom]
  | cons e es ih =>
    rw [List.foldl_cons, ih]
    by_cases hlt : roundUp e.offset blocksize < roundDown (e.offset + e.size) blocksize
    · have hend : roundUp e.offset blocksize +
          (roundDown (e.offset + e.size) blocksize - roundUp e.offset blocksize) =
            roundDown (e.offset + e.size) blocksize := by omega
      simp [addSparseExtent, rounded, hlt, offsetsFrom, hend]
    · simp [addSparseExtent, rounded, hlt]

theorem le_roundUp {n multiple : Nat} (h : 0 < multiple) : n ≤ roundUp n multiple := by
  have hmod := Nat.div_add_mod (n + multiple - 1) multiple
  have hlt := Nat.mod_lt (n + multiple - 1) h
  rw [roundUp, Nat.mul_comm]
  omega

theorem roundDown_le (n multiple : Nat) : roundDown n multiple ≤ n :=
  Nat.div_mul_le_self n multiple

theorem holes_rounded {blocksize last : Nat} {es : List SSparseExtent}
    (hes : es.Pairwise fun a b => a.offset + a.size ≤ b.offset) (hlast : ∀ e ∈ es, last ≤ e.offset) :
    Holes last (rounded blocksize es) := by
  induction es generalizing last with
  | nil => trivial
  | cons e es ih =>
    obtain ⟨hhead, htail⟩ := List.pairwise_cons.mp hes
    unfold rounded
    rw [List.filterMap_cons]
    by_cases hlt : roundUp e.offset blocksize < roundDown (e.offset + e.size) blocksize
    · rw [if_pos hlt]
      obtain rfl | hpos := Nat.eq_zero_or_pos blocksize
      · exact absurd hlt (by simp [roundDown])
      · refine ⟨(hlast e List.mem_cons_self).trans (le_roundUp hpos), hlt, ih htail fun b hb => ?_⟩
        exact (roundDown_le _ _).trans (hhead b hb)
    · rw [if_neg hlt]
      exact ih htail fun b hb => hlast b (List.mem_cons_of_mem _ hb)

end Init

section Place

variable {last : Nat} {hs : List (Nat × Nat)}

theorem start_of_mem (hhs : Holes last hs) {h : Nat × Nat} (hmem : h ∈ hs) : last ≤ h.1 ∧ h.1 < h.2 := by
  induction hs generalizing last with
  | nil => cases hmem
  | cons g hs ih =>
    obtain ⟨hstart, hstop, hhs⟩ := hhs
    obtain rfl | hmem := List.mem_cons.mp hmem
    · exact ⟨hstart, hstop⟩
    · have := ih hhs hmem
      omega

theorem le_place (hhs : Holes last hs) (i : Nat) : last + i ≤ place last hs i := by
  induction hs generalizing last i with
  | nil => exact le_refl _
  | cons h hs ih =>
    obtain ⟨hstart, hstop, hhs⟩ := hhs
    rw [place]
    split
    · exact le_refl _
    · have := ih hhs (i - (h.1 - last))
      omega

theorem place_lt (hhs : Holes last hs) {i j : Nat} (hij : i < j) : place last hs i < place last hs j := by
  induction hs generalizing last i j with
  | nil => simpa [place] using hij
  | cons h hs ih =>
    obtain ⟨hstart, hstop, hhs⟩ := hhs
    rw [place, place]
    split
    · split
      · omega
      · have := le_place hhs (j - (h.1 - last))
        omega
    · split
      · omega
      · exact ih hhs (by omega)

/-- A hole that does not start at once moves nothing in front of it. -/
theorem place_zero (hhs : Holes last hs) (hne : ∀ h ∈ hs, last ≠ h.1) : place last hs 0 = last := by
  cases hs with
  | nil => rfl
  | cons h hs =>
    have hlt := lt_of_le_of_ne hhs.1 (hne h List.mem_cons_self)
    rw [place, if_pos (by omega)]
    rfl

/-- No byte is placed in a hole. -/
theorem place_not_mem (hhs : Holes last hs) (i : Nat) {h : Nat × Nat} (hmem : h ∈ hs) :
    place last hs i < h.1 ∨ h.2 ≤ place last hs i := by
  induction hs generalizing last i with
  | nil => cases hmem
  | cons g hs ih =>
    obtain ⟨hstart, hstop, hhs⟩ := hhs
    rw [place]
    obtain rfl | hmem := List.mem_cons.mp hmem
    · split
      · exact Or.inl ‹_›
      · have := le_place hhs (i - (h.1 - last))
        exact Or.inr (by omega)
    · split
      · have := (start_of_mem hhs hmem).1
        exact Or.inl (by omega)
      · exact ih hhs (i - (g.1 - last)) hmem

/-- What a view has is found at its place. -/
theorem getElem?_removeHoles (hhs : Holes last hs) (content : Bytes) (i : Nat) :
    (removeHoles last hs content)[i]? = content[place last hs i - last]? := by
  induction hs generalizing last content i with
  | nil => simp [removeHoles, place]
  | cons h hs ih =>
    obtain ⟨hstart, hstop, hhs⟩ := hhs
    rw [removeHoles, place]
    split
    · next hlt =>
      by_cases hlen : i < content.length
      · rw [List.getElem?_append_left (by simp; omega), List.getElem?_take_of_lt (by omega)]
        congr 1
        omega
      · rw [List.getElem?_eq_none (l := content) (by omega)]
        have hdrop : content.drop (h.2 - last) = [] := List.drop_eq_nil_of_le (by omega)
        rw [List.getElem?_append_right (by simp; omega), ih hhs, hdrop]
        rfl
    · next hge =>
      by_cases hlen : h.1 - last ≤ content.length
      · rw [List.getElem?_append_right (by simp; omega), ih hhs, List.getElem?_drop, List.length_take]
        have := le_place hhs (i - (h.1 - last))
        rw [show min (h.1 - last) content.length = h.1 - last by omega]
        congr 1
        omega
      · have := le_place hhs (i - (h.1 - last))
        have hdrop : content.drop (h.2 - last) = [] := List.drop_eq_nil_of_le (by omega)
        rw [List.getElem?_append_right (by simp; omega), ih hhs, hdrop, List.getElem?_eq_none (l := content) (by omega)]
        rfl

end Place

section Lookup

variable (fpos : Nat) {last : Nat} {hs : List (Nat × Nat)}

theorem place_eq_lastBackingOffset (hhs : Holes last hs) (i : Nat) :
    (match lastBackingOffset (offsetsFrom fpos last hs) (fpos + i) with
      | none => last + i
      | some m => m.backing_offset + (fpos + i - m.offset)) = place last hs i := by
  induction hs generalizing fpos last i with
  | nil => rfl
  | cons h hs ih =>
    obtain ⟨hstart, hstop, hhs⟩ := hhs
    have hrest := ih (fpos + (h.1 - last)) hhs (i - (h.1 - last))
    rw [offsetsFrom, place, lastBackingOffset, List.takeWhile_cons]
    by_cases hlt : last + i < h.1
    · rw [if_pos hlt, if_neg (by simp; omega), List.getLast?_nil]
    · rw [if_neg hlt, if_pos (by simp; omega), List.getLast?_cons, ← hrest, lastBackingOffset,
        show fpos + (h.1 - last) + (i - (h.1 - last)) = fpos + i by omega]
      cases (List.takeWhile (fun m => decide (m.offset ≤ fpos + i)) (offsetsFrom (fpos + (h.1 - last)) h.2 hs)).getLast? with
      | none =>
        show h.2 + (fpos + i - (fpos + (h.1 - last))) = h.2 + (i - (h.1 - last))
        omega
      | some m => rfl

/-- Positions are translated to places. -/
theorem mapToBackingOffset_eq (hhs : Holes 0 hs) (i : Nat) : mapToBackingOffset (offsetsFrom 0 0 hs) i = place 0 hs i := by
  have h := place_eq_lastBackingOffset 0 hhs i
  rw [Nat.zero_add] at h
  exact h

/-- Up to the next entry the places are next to each other. -/
theorem place_add_of_next_none (hhs : Holes last hs) {i : Nat}
    (hnext : nextBackingOffset (offsetsFrom fpos last hs) (fpos + i) = none) (j : Nat) :
    place last hs (i + j) = place last hs i + j := by
  induction hs generalizing fpos last i with
  | nil => exact (Nat.add_assoc last i j).symm
  | cons h hs ih =>
    obtain ⟨hstart, hstop, hhs⟩ := hhs
    rw [offsetsFrom, nextBackingOffset, List.dropWhile_cons] at hnext
    split at hnext
    · next hle =>
      have hle : fpos + (h.1 - last) ≤ fpos + i := by simpa using hle
      have hrest := ih (fpos + (h.1 - last)) (i := i - (h.1 - last)) hhs
        (by rwa [show fpos + (h.1 - last) + (i - (h.1 - last)) = fpos + i by omega])
      rw [place, if_neg (by omega), place, if_neg (by omega), ← hrest]
      congr 1
      omega
    · cases hnext

theorem place_add_of_next_some (hhs : Holes last hs) {i : Nat} {m : SPosMap}
    (hnext : nextBackingOffset (offsetsFrom fpos last hs) (fpos + i) = some m) :
    ∃ n, m.offset = fpos + n ∧ i < n ∧ (∀ j, i + j < n → place last hs (i + j) = place last hs i + j) ∧
      (Apart hs → m.backing_offset = place last hs n) := by
  induction hs generalizing fpos last i with
  | nil => cases hnext
  | cons h hs ih =>
    obtain ⟨hstart, hstop, hhs⟩ := hhs
    rw [offsetsFrom, nextBackingOffset, List.dropWhile_cons] at hnext
    split at hnext
    · next hle =>
      have hle : fpos + (h.1 - last) ≤ fpos + i := by simpa using hle
      obtain ⟨n, hoffset, hn, hplaces, hback⟩ := ih (fpos + (h.1 - last)) (i := i - (h.1 - last)) hhs
        (by rwa [show fpos + (h.1 - last) + (i - (h.1 - last)) = fpos + i by omega])
      refine ⟨h.1 - last + n, by omega, by omega, fun j hj => ?_, fun hapart => ?_⟩
      · rw [place, if_neg (by omega), place, if_neg (by omega), ← hplaces j (by omega)]
        congr 1
        omega
      · rw [hback fun a ha b hb => hapart a (List.mem_cons_of_mem _ ha) b (List.mem_cons_of_mem _ hb), place,
          if_neg (by omega)]
        congr 1
        omega
    · next hgt =>
      have hgt : ¬ fpos + (h.1 - last) ≤ fpos + i := by simpa using hgt
      cases hnext
      refine ⟨h.1 - last, rfl, by omega, fun j hj => ?_, fun hapart => ?_⟩
      · rw [place, if_pos (by omega), place, if_pos (by omega), Nat.add_assoc]
      · rw [place, if_neg (by omega), Nat.sub_self]
        exact (place_zero hhs fun g hg => hapart h List.mem_cons_self g (List.mem_cons_of_mem _ hg)).symm

theorem lt_backing_offset (hhs : Holes last hs) {m : SPosMap} (hm : m ∈ offsetsFrom fpos last hs) :
    last < m.backing_offset := by
  induction hs generalizing fpos last with
  | nil => cases hm
  | cons h hs ih =>
    obtain ⟨hstart, hstop, hhs⟩ := hhs
    obtain rfl | hm := List.mem_cons.mp hm
    · exact lt_of_le_of_lt hstart hstop
    · have := ih _ hhs hm
      omega

/-- Where holes touch, the first entry with an offset is not the one that the
offset is translated with. -/
theorem exists_touching (hhs : Holes last hs) (htouch : ¬ Apart hs) :
    ∃ n m, ((offsetsFrom fpos last hs).dropWhile fun m => m.offset < fpos + n).head? = some m ∧
      m.offset = fpos + n ∧ m.backing_offset < place last hs n := by
  induction hs generalizing fpos last with
  | nil => exact absurd (fun a ha => absurd ha List.not_mem_nil) htouch
  | cons h hs ih =>
    obtain ⟨hstart, hstop, hhs⟩ := hhs
    -- the head is the first entry with its offset
    have hhead : h.2 < place h.2 hs 0 →
        ∃ n m, ((offsetsFrom fpos last (h :: hs)).dropWhile fun m => m.offset < fpos + n).head? = some m ∧
          m.offset = fpos + n ∧ m.backing_offset < place last (h :: hs) n := by
      intro hlt
      refine ⟨h.1 - last, ⟨fpos + (h.1 - last), h.2⟩, ?_, rfl, ?_⟩
      · rw [offsetsFrom, List.dropWhile_cons, if_neg (by simp)]
        rfl
      · rw [place, if_neg (by omega), Nat.sub_self]
        exact hlt
    by_cases hrest : Apart hs
    · have hg : ∃ g ∈ hs, g.1 = h.2 := by
        by_contra hnone
        refine htouch fun a ha b hb heq => ?_
        obtain rfl | ha := List.mem_cons.mp ha
        · obtain rfl | hb := List.mem_cons.mp hb
          · omega
          · exact hnone ⟨b, hb, heq.symm⟩
        · obtain hb | hb := List.mem_cons.mp hb
          · have := start_of_mem hhs ha
            rw [hb] at heq
            omega
          · exact hrest a ha b hb heq
      obtain ⟨g, hg, hgh⟩ := hg
      apply hhead
      have hplace := place_not_mem hhs 0 hg
      have := le_place hhs 0
      have := (start_of_mem hhs hg).2
      omega
    · obtain ⟨n, m, hfirst, hoffset, hback⟩ := ih (fpos + (h.1 - last)) hhs hrest
      obtain rfl | hn := Nat.eq_zero_or_pos n
      · apply hhead
        have hmem := List.mem_of_mem_head? (Option.mem_def.mpr hfirst)
        have := lt_backing_offset _ hhs ((List.dropWhile_sublist _).subset hmem)
        omega
      · refine ⟨h.1 - last + n, m, ?_, by omega, ?_⟩
        · rw [offsetsFrom, List.dropWhile_cons, if_pos (by simp; omega), ← Nat.add_assoc]
          exact hfirst
        · rw [place, if_neg (by omega), Nat.add_sub_cancel_left]
          exact hback

end Lookup

/-- The bytes in the holes are the same; those behind the end count as zero. -/
def Kept (hs : List (Nat × Nat)) (content content' : Bytes) : Prop :=
  ∀ h ∈ hs, ∀ j, h.1 ≤ j → j < h.2 → content'.getD j 0 = content.getD j 0

theorem Kept.trans {hs : List (Nat × Nat)} {a b c : Bytes} (hab : Kept hs a b) (hbc : Kept hs b c) : Kept hs a c :=
  fun h hmem j hstart hstop => (hbc h hmem j hstart hstop).trans (hab h hmem j hstart hstop)

/-- A run of places without a hole in it. -/
def Solid (hs : List (Nat × Nat)) (p n : Nat) : Prop :=
  ∀ j, j < n → place 0 hs (p + j) = place 0 hs p + j

section Contents

variable {hs : List (Nat × Nat)} (hhs : Holes 0 hs)

include hhs

theorem slice_removeHoles {p n : Nat} (hsolid : Solid hs p n) (content : Bytes) :
    slice (removeHoles 0 hs content) p n = slice content (place 0 hs p) n := by
  refine List.ext_getElem? fun i => ?_
  rw [getElem?_slice, getElem?_slice]
  split
  · next hi => rw [getElem?_removeHoles hhs, hsolid i hi, Nat.sub_zero]
  · rfl

theorem place_lt_iff {i j : Nat} : place 0 hs i < place 0 hs j ↔ i < j := by
  constructor
  · intro hlt
    by_contra hge
    obtain heq | hgt := (Nat.le_of_not_lt hge).eq_or_lt
    · exact absurd hlt (by rw [heq]; exact lt_irrefl _)
    · exact absurd (place_lt hhs hgt) (by omega)
  · exact place_lt hhs

theorem removeHoles_overwrite {p : Nat} {tw : Bytes} (hsolid : Solid hs p tw.length) (content : Bytes) :
    removeHoles 0 hs (overwrite 0 content (place 0 hs p) tw) = overwrite 0 (removeHoles 0 hs content) p tw := by
  by_cases htw : tw = []
  · rw [htw]
    rfl
  refine List.ext_getElem? fun i => ?_
  rw [getElem?_removeHoles hhs, Nat.sub_zero, getElem?_overwrite 0 htw, getElem?_overwrite 0 htw,
    List.getD_eq_getElem?_getD, List.getD_eq_getElem?_getD, getElem?_removeHoles hhs, Nat.sub_zero]
  have hend := hsolid (tw.length - 1) (by have := List.length_pos_of_ne_nil htw; omega)
  have hlength := List.length_pos_of_ne_nil htw
  by_cases hfront : i < p
  · rw [if_pos hfront, if_pos ((place_lt_iff hhs).mpr hfront)]
  rw [if_neg hfront, if_neg fun h => hfront ((place_lt_iff hhs).mp h)]
  by_cases hmid : i < p + tw.length
  · have hplace := hsolid (i - p) (by omega)
    rw [show p + (i - p) = i by omega] at hplace
    rw [if_pos hmid, if_pos (by omega), hplace]
    congr 1
    omega
  · have hafter := (place_lt_iff hhs).mpr (show p + (tw.length - 1) < i by omega)
    rw [if_neg hmid, if_neg (by omega)]

theorem kept_overwrite {p : Nat} {tw : Bytes} (hsolid : Solid hs p tw.length) (content : Bytes) :
    Kept hs content (overwrite 0 content (place 0 hs p) tw) := by
  intro h hmem j hstart hstop
  by_cases htw : tw = []
  · rw [htw]
    rfl
  rw [List.getD_eq_getElem?_getD, List.getD_eq_getElem?_getD, getElem?_overwrite 0 htw]
  split
  · simp
  · next hge =>
    rw [if_neg]
    intro hlt
    have hplace := place_not_mem hhs (p + (j - place 0 hs p)) hmem
    have := hsolid (j - place 0 hs p) (by omega)
    omega

end Contents

/-- What the loop needs to know of an operation: on a run without a hole it does
the same to the view, and it can be done in parts. -/
structure IOrigOp.Lawful {σ : Type} (o : IOrigOp σ) (hs : List (Nat × Nat)) (total : Nat) : Prop where
  nothing : ∀ buffer_offset f ret, o.origOp buffer_offset 0 f ret = (0, f, ret)
  view : ∀ (ret) {buffer_offset n f a}, buffer_offset + n ≤ total → a.content = removeHoles 0 hs f.content →
    f.pos = place 0 hs a.pos → Solid hs a.pos n →
    ∃ k f' a' ret', o.origOp buffer_offset n f ret = (k, f', ret') ∧ o.origOp buffer_offset n a ret = (k, a', ret') ∧
      k ≤ n ∧ a'.content = removeHoles 0 hs f'.content ∧ a'.pos = a.pos + k ∧ f'.pos = f.pos + k ∧
      Kept hs f.content f'.content
  parts : ∀ {buffer_offset n m a k a' ret ret'}, buffer_offset + n + m ≤ total →
    o.origOp buffer_offset n a ret = (k, a', ret') →
    o.origOp buffer_offset (n + m) a ret =
      if k < n then (k, a', ret')
      else (k + (o.origOp (buffer_offset + n) m a' ret').1, (o.origOp (buffer_offset + n) m a' ret').2)

theorem lawful_read {hs : List (Nat × Nat)} (hhs : Holes 0 hs) (total : Nat) : BackingReadStrOp.Lawful hs total where
  nothing _ f ret := by simp [BackingReadStrOp, IFile.Read, slice]
  view ret buffer_offset n f a _ hcontent hpos hsolid := by
    have hslice : slice a.content a.pos n = slice f.content f.pos n := by
      rw [hcontent, slice_removeHoles hhs hsolid, hpos]
    have hread : BackingReadStrOp.origOp buffer_offset n a ret = ((slice f.content f.pos n).length,
        { a with pos := a.pos + (slice f.content f.pos n).length }, ret ++ slice f.content f.pos n) := by
      simp only [BackingReadStrOp, IFile.Read, hslice]
    refine ⟨_, _, _, _, rfl, hread, ?_, hcontent, rfl, rfl, fun _ _ _ _ _ => rfl⟩
    rw [length_slice]
    omega
  parts {_ n m a k a' ret ret'} _ hop := by
    simp only [BackingReadStrOp, IFile.Read, Prod.mk.injEq] at hop ⊢
    obtain ⟨rfl, rfl, rfl⟩ := hop
    have hlength := length_slice a.content a.pos n
    rw [slice_add]
    split
    · rw [slice_eq_nil (show a.content.length ≤ a.pos + n by omega), List.append_nil]
    · rw [show a.pos + (slice a.content a.pos n).length = a.pos + n by omega]
      simp only [List.length_append, List.append_assoc, Nat.add_assoc]
      congr 4
      omega

theorem lawful_write {hs : List (Nat × Nat)} (hhs : Holes 0 hs) (buffer : Bytes) :
    (BackingWriteBufOp buffer).Lawful hs buffer.length where
  nothing _ f _ := by simp [BackingWriteBufOp, IFile.Write, slice]
  view _ buffer_offset n f a hle hcontent hpos hsolid := by
    have hlength := length_slice buffer buffer_offset n
    refine ⟨_, _, _, _, rfl, rfl, by omega, ?_, rfl, rfl, ?_⟩
    · simp only [IFile.Write]
      rw [hcontent, hpos, removeHoles_overwrite hhs fun j hj => hsolid j (by omega)]
    · simp only [IFile.Write]
      rw [hpos]
      exact kept_overwrite hhs (fun j hj => hsolid j (by omega)) _
  parts {buffer_offset n m a k a' _ _} hle hop := by
    simp only [BackingWriteBufOp, IFile.Write, Prod.mk.injEq, and_true] at hop ⊢
    obtain ⟨rfl, rfl⟩ := hop
    have hlength := length_slice buffer buffer_offset n
    rw [if_neg (by omega), slice_add]
    simp only [List.length_append, overwrite_overwrite, Nat.add_assoc]

end urbackup.sparsefile
