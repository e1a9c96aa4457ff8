import Mathlib.Data.List.GetD
import UrBackup.ChunkHash.TreeHash
import UrBackup.Merkle.Levels

namespace urbackup.chunkhash

open stringtools filedata merkle

variable (d : Digests)

/-- The hash of a group of nodes. -/
def nodeHash (group : List Bytes) : Bytes :=
  d.sha512 group.flatten

namespace TreeHash

/-- The hash of the bytes since the last leaf. -/
def curr_hash (th : TreeHash) : Bytes :=
  d.md5 th.md5sum ++ th.adlers.flatMap (leBytes 4)

/-- The start of `finalize`. -/
def finish_curr (th : TreeHash) : TreeHash :=
  if th.offset ≠ 0 then { th with offset := 0 }.finalize_curr d else th

/-- The loop of `finalize`. -/
def finalize_lower (th : TreeHash) : TreeHash :=
  (List.range (th.level_hash.length - 1)).foldl (fun th i =>
    if (th.level_hash.getD i []).isEmpty then th else th.finalize_level d i) th

def finalize_top (th : TreeHash) : TreeHash :=
  let last := th.level_hash.length - 1
  if (th.level_hash.getD last []).length > 1 then th.finalize_level d last else th

/-- The level whose first hash `finalize` returns. -/
def last_level (th : TreeHash) : List Bytes :=
  th.level_hash.getD (th.level_hash.length - 1) []

theorem finalize_eq (th : TreeHash) : th.finalize d =
    let low := (th.finish_curr d).finalize_lower d
    if low.level_hash.length = 1 ∧ (low.level_hash.getD 0 []).isEmpty then d.sha512 []
    else
      let tree_hash := (low.finalize_top d).last_level.headD []
      if (low.finalize_top d).has_sparse then d.sha512 ((low.finalize_top d).sparse_ctx ++ tree_hash) else tree_hash :=
  rfl

variable {d}

theorem modify_append_right (lower upper : List (List Bytes)) (f : List Bytes → List Bytes) (i : Nat) :
    (lower ++ upper).modify (lower.length + i) f = lower ++ upper.modify i f := by
  induction lower with
  | nil => simp
  | cons level lower ih =>
    rw [List.cons_append, List.length_cons, Nat.add_right_comm, List.modify_succ_cons, ih, List.cons_append]

/-- A finished level becomes one node of the next level. -/
theorem finalize_level_split {th : TreeHash} {lower : List (List Bytes)} {level : List Bytes} {upper : List (List Bytes)}
    (h : th.level_hash = lower ++ level :: upper) :
    th.finalize_level d lower.length = { th with level_hash := lower ++ [] :: raise (nodeHash d level) upper } := by
  have hlevel : th.level_hash.getD lower.length [] = level := by
    rw [h]
    simp
  rw [finalize_level, hlevel, h]
  congr 1
  cases upper with
  | nil =>
    rw [if_pos (by simp), List.append_assoc, modify_append_right]
    simp [raise, nodeHash]
  | cons next upper =>
    rw [if_neg (by simp), modify_append_right]
    simp [raise, nodeHash]

section Adding

/-- A pass of the loop in `addHash`. -/
def carry_level (d : Digests) (th : TreeHash) (i : Nat) : TreeHash :=
  if i < th.level_hash.length ∧ (th.level_hash.getD i []).length = max_level_size then th.finalize_level d i else th

/-- Levels that are not full stay as they are. -/
theorem foldl_carry_idle {th : TreeHash} {lower upper : List (List Bytes)} (h : th.level_hash = lower ++ upper)
    (hnot : ∀ l ∈ upper, l.length ≠ max_level_size) (count : Nat) :
    (List.range' lower.length count).foldl (carry_level d) th = th := by
  have hidle : ∀ i ∈ List.range' lower.length count, carry_level d th i = th := by
    intro i hi
    obtain ⟨k, _, rfl⟩ := List.mem_range'.mp hi
    rw [carry_level, if_neg]
    rintro ⟨hlt, hfull⟩
    have hmem : th.level_hash.getD (lower.length + 1 * k) [] ∈ upper := by
      rw [h] at hlt ⊢
      rw [List.getD_eq_getElem _ _ hlt, List.getElem_append_right (by omega)]
      apply List.getElem_mem
    exact hnot _ hmem hfull
  generalize List.range' lower.length count = levels at hidle
  induction levels with
  | nil => rfl
  | cons i levels ih =>
    rw [List.foldl_cons, hidle i List.mem_cons_self]
    exact ih fun j hj => hidle j (List.mem_cons_of_mem i hj)

theorem carry_level_full {th : TreeHash} {lower : List (List Bytes)} {level : List Bytes} {upper : List (List Bytes)}
    (h : th.level_hash = lower ++ level :: upper) (hfull : level.length = max_level_size) :
    carry_level d th lower.length = { th with level_hash := lower ++ [] :: raise (nodeHash d level) upper } := by
  rw [carry_level, if_pos, finalize_level_split h]
  rw [h]
  simpa using hfull

/-- The loop of `addHash` from a level on that has got a node. -/
theorem foldl_carry {th : TreeHash} {lower : List (List Bytes)} {level : List Bytes} {upper : List (List Bytes)} {x : Bytes}
    (h : th.level_hash = lower ++ (level ++ [x]) :: upper) (hlt : ∀ l ∈ upper, l.length < max_level_size) :
    (List.range' lower.length (upper.length + 2)).foldl (carry_level d) th =
      { th with level_hash := lower ++ push (nodeHash d) max_level_size x (level :: upper) } := by
  induction upper generalizing th lower level x with
  | nil =>
    rw [push]
    split
    · next hfull =>
      rw [List.range'_succ, List.foldl_cons, carry_level_full h (by simpa using hfull)]
      have hlower : lower.length + 1 = (lower ++ [[]]).length := by simp
      rw [hlower]
      have hraised : lower ++ [] :: raise (nodeHash d (level ++ [x])) [] = (lower ++ [[]]) ++ [[nodeHash d (level ++ [x])]] := by
        simp [raise]
      refine foldl_carry_idle hraised ?_ 1
      simp [max_level_size]
    · next hfull =>
      rw [foldl_carry_idle h (by simpa using hfull), ← h]
  | cons next upper ih =>
    rw [push]
    split
    · next hfull =>
      rw [List.length_cons, List.range'_succ, List.foldl_cons, carry_level_full h (by simpa using hfull)]
      have hlower : lower.length + 1 = (lower ++ [[]]).length := by simp
      rw [hlower, @ih _ (lower ++ [[]]) next (nodeHash d (level ++ [x])) (by simp [raise]) fun l hl => hlt l (List.mem_cons_of_mem next hl)]
      simp
    · next hfull =>
      rw [foldl_carry_idle h, ← h]
      intro l hl
      obtain rfl | hl := List.mem_cons.mp hl
      · simpa using hfull
      · exact (hlt l hl).ne

theorem addHash_eq {th : TreeHash} (hne : th.level_hash ≠ []) (hlt : ∀ l ∈ th.level_hash, l.length < max_level_size) (h : Bytes) :
    th.addHash d h = { th with level_hash := push (nodeHash d) max_level_size h th.level_hash } := by
  obtain ⟨offset, adlers, md5sum, has_sparse, sparse_ctx, level_hash⟩ := th
  obtain ⟨level, upper, rfl⟩ := List.exists_cons_of_ne_nil hne
  have hloop := @foldl_carry d ⟨offset, adlers, md5sum, has_sparse, sparse_ctx, (level ++ [h]) :: upper⟩ [] level upper h rfl
    fun l hl => hlt l (List.mem_cons_of_mem level hl)
  rw [List.length_nil, ← List.range_eq_range'] at hloop
  exact hloop

end Adding

section Finalizing

/-- A pass of the loop in `finalize`. -/
def lower_level (d : Digests) (th : TreeHash) (i : Nat) : TreeHash :=
  if (th.level_hash.getD i []).isEmpty then th else th.finalize_level d i

/-- The loop of `finalize` from a level on that has got what is left below. -/
theorem foldl_lower {th : TreeHash} {lower : List (List Bytes)} {level carry : List Bytes} {upper : List (List Bytes)}
    (h : th.level_hash = lower ++ (level ++ carry) :: upper) :
    (List.range' lower.length upper.length).foldl (lower_level d) th =
      { th with level_hash := lower ++ List.replicate upper.length [] ++ [collapse (nodeHash d) carry (level :: upper)] } := by
  induction upper generalizing th lower level carry with
  | nil =>
    rw [List.length_nil, List.replicate_zero, List.append_nil, collapse, ← h]
    rfl
  | cons next upper ih =>
    have hlevel : th.level_hash.getD lower.length [] = level ++ carry := by
      rw [h]
      simp
    have hlower : lower.length + 1 = (lower ++ [[]]).length := by simp
    rw [List.length_cons, List.range'_succ, List.foldl_cons, lower_level, hlevel, hlower, collapse]
    split
    · next hempty =>
      have hempty := List.isEmpty_iff.mp hempty
      rw [if_pos hempty, @ih th (lower ++ [[]]) next [] (by rw [h, hempty]; simp)]
      simp [List.replicate_succ]
    · next hsome =>
      rw [if_neg fun hempty => hsome (List.isEmpty_iff.mpr hempty), finalize_level_split h,
        @ih _ (lower ++ [[]]) next [nodeHash d (level ++ carry)] (by simp [raise])]
      simp [List.replicate_succ]

theorem finalize_lower_eq {th : TreeHash} (hne : th.level_hash ≠ []) : th.finalize_lower d =
    { th with level_hash := List.replicate (th.level_hash.length - 1) [] ++ [collapse (nodeHash d) [] th.level_hash] } := by
  obtain ⟨offset, adlers, md5sum, has_sparse, sparse_ctx, level_hash⟩ := th
  obtain ⟨level, upper, rfl⟩ := List.exists_cons_of_ne_nil hne
  have hloop := @foldl_lower d ⟨offset, adlers, md5sum, has_sparse, sparse_ctx, level :: upper⟩ [] level [] upper (by simp)
  rw [List.length_nil, ← List.range_eq_range', List.nil_append] at hloop
  exact hloop

/-- The last step of `finalize` leaves one hash in the last level. -/
theorem last_level_finalize_top {th : TreeHash} {count : Nat} {top : List Bytes}
    (h : th.level_hash = List.replicate count [] ++ [top]) : (th.finalize_top d).last_level =
      if top.length > 1 then [nodeHash d top] else top := by
  have hlast : th.level_hash.getD (th.level_hash.length - 1) [] = top := by
    rw [h]
    simp
  rw [finalize_top, hlast]
  split
  · have hlength : th.level_hash.length - 1 = (List.replicate count ([] : List Bytes)).length := by
      rw [h]
      simp
    rw [hlength, finalize_level_split h]
    simp [last_level, raise]
  · exact hlast

theorem finalize_top_fields (th : TreeHash) :
    (th.finalize_top d).has_sparse = th.has_sparse ∧ (th.finalize_top d).sparse_ctx = th.sparse_ctx := by
  rw [finalize_top]
  split <;> exact ⟨rfl, rfl⟩

end Finalizing

/-- The levels are those of the tree over the leaves. -/
structure Tracks (d : Digests) (th : TreeHash) (leaves : List Bytes) : Prop where
  ne_nil : th.level_hash ≠ []
  holds : Holds (nodeHash d) max_level_size th.level_hash leaves

theorem tracks_new : Tracks d new [] :=
  ⟨by simp [new], [], rfl, by simp, by simp [max_level_size], fun _ => rfl, by simp [Holds]⟩

section Tracking

variable {th : TreeHash} {leaves : List Bytes} (h : Tracks d th leaves)

include h

theorem Tracks.length_lt : ∀ level ∈ th.level_hash, level.length < max_level_size :=
  h.holds.length_lt

theorem Tracks.addHash_eq (x : Bytes) :
    th.addHash d x = { th with level_hash := push (nodeHash d) max_level_size x th.level_hash } :=
  TreeHash.addHash_eq h.ne_nil h.length_lt x

theorem Tracks.addHash (x : Bytes) : Tracks d (th.addHash d x) (leaves ++ [x]) := by
  rw [h.addHash_eq]
  refine ⟨?_, h.holds.push (by simp [max_level_size]) x⟩
  dsimp only
  cases th.level_hash with
  | nil => simp [push]
  | cons level levels =>
    rw [push]
    split <;> simp

theorem Tracks.finalize_curr : Tracks d (th.finalize_curr d) (leaves ++ [th.curr_hash d]) := by
  obtain ⟨hne, hholds⟩ := h.addHash (th.curr_hash d)
  exact ⟨hne, hholds⟩

theorem Tracks.finalize_curr_sparse :
    (th.finalize_curr d).has_sparse = th.has_sparse ∧ (th.finalize_curr d).sparse_ctx = th.sparse_ctx := by
  rw [TreeHash.finalize_curr, h.addHash_eq]
  exact ⟨rfl, rfl⟩

end Tracking

/-- The leaf that `finalize` adds for the bytes since the last one. -/
def pending (d : Digests) (th : TreeHash) : List Bytes :=
  if th.offset ≠ 0 then [th.curr_hash d] else []

section Root

variable {th : TreeHash} {leaves : List Bytes} (h : Tracks d th leaves)

include h

theorem Tracks.finish_curr : Tracks d (th.finish_curr d) (leaves ++ pending d th) ∧
    (th.finish_curr d).has_sparse = th.has_sparse ∧ (th.finish_curr d).sparse_ctx = th.sparse_ctx := by
  rw [TreeHash.finish_curr, pending]
  split
  · have hzero : Tracks d { th with offset := 0 } leaves := ⟨h.ne_nil, h.holds⟩
    exact ⟨hzero.finalize_curr, hzero.finalize_curr_sparse⟩
  · rw [List.append_nil]
    exact ⟨h, rfl, rfl⟩

/-- The level that `finalize` reads has the root as its only hash. -/
theorem Tracks.last_level (hne : leaves ≠ []) :
    ((th.finalize_lower d).finalize_top d).last_level = [root (nodeHash d) max_level_size leaves] := by
  have hroot := h.holds.root_eq (by simp [max_level_size]) (List.length_nil.le.trans (Nat.zero_le 1))
  have htop : collapse (nodeHash d) [] th.level_hash ≠ [] :=
    h.holds.collapse_ne_nil (by simp [max_level_size]) (by simpa using hne)
  rw [List.append_nil] at hroot
  rw [finalize_lower_eq h.ne_nil, last_level_finalize_top rfl, hroot]
  generalize collapse (nodeHash d) [] th.level_hash = top at htop
  split
  · rfl
  · next hone =>
    obtain ⟨x, xs, rfl⟩ := List.exists_cons_of_ne_nil htop
    have hxs : xs = [] := List.length_eq_zero_iff.mp (by simpa using hone)
    rw [hxs]
    rfl

theorem Tracks.finalize_lower_level : ((th.finalize_lower d).level_hash.length = 1 ∧
    ((th.finalize_lower d).level_hash.getD 0 []).isEmpty) ↔ leaves = [] := by
  rw [finalize_lower_eq h.ne_nil]
  constructor
  · rintro ⟨hlength, hempty⟩
    by_contra hne
    have htop : collapse (nodeHash d) [] th.level_hash ≠ [] :=
      h.holds.collapse_ne_nil (by simp [max_level_size]) (by simpa using hne)
    have hzero : th.level_hash.length - 1 = 0 := by simpa using hlength
    rw [hzero] at hempty
    exact htop (List.isEmpty_iff.mp hempty)
  · rintro rfl
    rw [h.holds.eq_of_nil h.ne_nil]
    simp [collapse]

end Root

theorem Tracks.finalize {th : TreeHash} {leaves : List Bytes} (h : Tracks d th leaves) : th.finalize d =
    if th.has_sparse ∧ leaves ++ pending d th ≠ [] then
      d.sha512 (th.sparse_ctx ++ root (nodeHash d) max_level_size (leaves ++ pending d th))
    else root (nodeHash d) max_level_size (leaves ++ pending d th) := by
  obtain ⟨hfinish, hsparse, hctx⟩ := h.finish_curr
  obtain ⟨hsparse', hctx'⟩ := finalize_top_fields (d := d) ((th.finish_curr d).finalize_lower d)
  rw [finalize_eq]
  dsimp only
  by_cases hne : leaves ++ pending d th = []
  · rw [if_pos (hfinish.finalize_lower_level.mpr hne), hne, root_nil, if_neg (by simp)]
    rfl
  · have hlow : ((th.finish_curr d).finalize_lower d).has_sparse = th.has_sparse ∧
        ((th.finish_curr d).finalize_lower d).sparse_ctx = th.sparse_ctx := by
      rw [finalize_lower_eq hfinish.ne_nil]
      exact ⟨hsparse, hctx⟩
    rw [if_neg fun hempty => hne (hfinish.finalize_lower_level.mp hempty), hfinish.last_level hne, hsparse', hctx', hlow.1,
      hlow.2, List.headD_cons]
    simp only [hne, ne_eq, not_false_eq_true, and_true]

end TreeHash

end urbackup.chunkhash
