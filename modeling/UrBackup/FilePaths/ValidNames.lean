import Mathlib.Data.Nat.Bitwise
import UrBackup.FilePaths.SamePaths
import UrBackup.Text.Utf8

namespace urbackup.filepaths

open stringtools utf8

section Names

/-- The most bytes that are kept of a name that is cut. -/
def cutMax : Nat := nameMax - 11

/-- A name that needs no correction. -/
def IsValidName (n : Bytes) : Prop :=
  n ≠ [] ∧ n.length ≤ nameMax ∧ slash ∉ n

/-- A name that is cut. -/
def TooLong (n : Bytes) : Prop :=
  n.length > if slash ∈ n then cutMax else nameMax

/-- The name with `_` for the separator. -/
def underscored (n : Bytes) : Bytes :=
  n.map fun ch => if ch = slash then 95 else ch

/-- A byte that the repair of a cut name passes over. -/
def PassedOver (ch : UInt8) : Prop :=
  128 ≤ ch.toNat ∧ ch.toNat % 2 = 0

instance (ch : UInt8) : Decidable (PassedOver ch) :=
  inferInstanceAs (Decidable (_ ∧ _))

/-- The last byte before the final one of the cut name that is a character of its own
or odd. -/
def StopsAt (n : Bytes) (k : Nat) : Prop :=
  k + 1 < cutMax ∧ ¬ PassedOver (n.getD k 0) ∧ ∀ j, k < j → j + 1 < cutMax → PassedOver (n.getD j 0)

/-- How many bytes stay of a name that is cut: two more than those before a byte that
is a character of its own, one more than those before an odd byte, and one if there is
neither. -/
def CutAt (n : Bytes) (c : Nat) : Prop :=
  (∃ k, StopsAt n k ∧ c = if (n.getD k 0).toNat < 128 then k + 2 else k + 1) ∨
    (∀ j, j + 1 < cutMax → PassedOver (n.getD j 0)) ∧ c = 1

/-- The name is cut between two characters. -/
def CutFits (n : Bytes) : Prop :=
  ∃ k, StopsAt n k ∧
    ((n.getD k 0).toNat < 128 ∧ k + 2 = cutMax ∧ isContinuation (n.getD cutMax 0) = false ∨
      128 ≤ (n.getD k 0).toNat ∧ isContinuation (n.getD (k + 1) 0) = false)

variable (md5 : HexMD5)

/-- The digits that are put into a corrected name. -/
def hashDigits (n : Bytes) : Bytes :=
  (md5.GenerateHexMD5 n).take 10

/-- The digits of `orig_fn` stand in `name` before the last dot of `fn`, or behind it
where there is none. -/
def HashedAs (orig_fn fn name : Bytes) : Prop :=
  ∃ pre ext, fn = pre ++ ext ∧ (ext = [] ∧ 46 ∉ pre ∨ ∃ e, ext = 46 :: e ∧ 46 ∉ e) ∧
    name = pre ++ 45 :: hashDigits md5 orig_fn ++ ext

/-- The name `other` is what `n` is changed to. -/
def Clashes (n other : Bytes) : Prop :=
  ¬ TooLong n ∧ slash ∈ n ∧ HashedAs md5 n (underscored n) other ∨
    TooLong n ∧ ∃ c, CutAt n c ∧ HashedAs md5 n ((underscored n).take c) other

/-- What is asked of the names that the entries of a directory get. -/
structure NamesFixed (names : List Bytes) (curr_path : Bytes) (corrections : FilePathCorrections) : Prop where
  usable : ∀ n ∈ names, IsValidName (fixFilenameForOS md5 n curr_path corrections).1
  distinct : ∀ n ∈ names, ∀ m ∈ names, n ≠ m →
    (fixFilenameForOS md5 n curr_path corrections).1 ≠ (fixFilenameForOS md5 m curr_path corrections).1
  kept : ∀ n ∈ names, IsValidName n → (fixFilenameForOS md5 n curr_path corrections).1 = n
  utf8 : ∀ n ∈ names, IsUtf8 n → IsUtf8 (fixFilenameForOS md5 n curr_path corrections).1

structure NamesFit (names : List Bytes) : Prop where
  nonempty : [] ∉ names
  cut : ∀ n ∈ names, IsUtf8 n → TooLong n → CutFits n
  free : ∀ n ∈ names, ∀ m ∈ names, IsValidName m → ¬ Clashes md5 n m

/-- The checksums of the names differ in their first digits. -/
def DigitsDiffer (names : List Bytes) : Prop :=
  ∀ n ∈ names, ∀ m ∈ names, n ≠ m → hashDigits md5 n ≠ hashDigits md5 m

end Names

section Cut

theorem and_0x80_ne_zero (ch : UInt8) : ch &&& 0x80 ≠ 0 ↔ 128 ≤ ch.toNat := by
  have hlt := ch.toNat_lt
  have hnat : (ch &&& 0x80).toNat = (ch.toNat.testBit 7).toNat * 2 ^ 7 := by
    rw [UInt8.toNat_and, ← Nat.and_two_pow]
    rfl
  have hzero : ch &&& 0x80 = 0 ↔ (ch &&& 0x80).toNat = 0 := by
    rw [← UInt8.toNat_inj]
    rfl
  rw [ne_eq, hzero, hnat, Nat.testBit_eq_decide_div_mod_eq]
  by_cases h : ch.toNat / 2 ^ 7 % 2 = 1
  · rw [decide_eq_true h]
    simp only [Bool.toNat_true]
    omega
  · rw [decide_eq_false h]
    simp only [Bool.toNat_false]
    omega

theorem and_one_ne_zero (ch : UInt8) : ch &&& 1 ≠ 0 ↔ ch.toNat % 2 = 1 := by
  have hnat : (ch &&& 1).toNat = ch.toNat % 2 := by
    rw [UInt8.toNat_and, ← Nat.and_one_is_mod]
    rfl
  have hzero : ch &&& 1 = 0 ↔ (ch &&& 1).toNat = 0 := by
    rw [← UInt8.toNat_inj]
    rfl
  rw [ne_eq, hzero, hnat]
  omega

theorem rmBytes_cons (ch : UInt8) (l : Bytes) : rmBytes (ch :: l) =
    if PassedOver ch then rmBytes l + 1 else if ch.toNat < 128 then 0 else 1 := by
  rw [rmBytes]
  by_cases hhigh : 128 ≤ ch.toNat
  · rw [if_pos ((and_0x80_ne_zero ch).mpr hhigh)]
    by_cases hodd : ch.toNat % 2 = 1
    · have hstop : ¬ PassedOver ch := fun h => by have := h.2; omega
      rw [if_pos ((and_one_ne_zero ch).mpr hodd), if_neg hstop, if_neg (by omega)]
    · have hpassed : PassedOver ch := ⟨hhigh, by omega⟩
      rw [if_neg ((and_one_ne_zero ch).not.mpr hodd), if_pos hpassed]
  · have hstop : ¬ PassedOver ch := fun h => hhigh h.1
    rw [if_neg ((and_0x80_ne_zero ch).not.mpr hhigh), if_neg hstop, if_pos (by omega)]

/-- What the repair removes, for the first `q` bytes of a name. -/
theorem rmBytes_take (m : Bytes) : ∀ q, q ≤ m.length →
    (∃ k, k < q ∧ ¬ PassedOver (m.getD k 0) ∧ (∀ j, k < j → j < q → PassedOver (m.getD j 0)) ∧
        rmBytes (m.take q).reverse + (if (m.getD k 0).toNat < 128 then k + 1 else k) = q) ∨
      (∀ j, j < q → PassedOver (m.getD j 0)) ∧ rmBytes (m.take q).reverse = q := by
  intro q
  induction q with
  | zero => exact fun _ => Or.inr ⟨fun j hj => absurd hj (Nat.not_lt_zero j), rfl⟩
  | succ q ih =>
    intro hq
    have htake : (m.take (q + 1)).reverse = m.getD q 0 :: (m.take q).reverse := by
      rw [List.take_add_one, List.getD_eq_getElem?_getD, List.getElem?_eq_getElem (by omega)]
      simp
    rw [htake, rmBytes_cons]
    by_cases hpassed : PassedOver (m.getD q 0)
    · rw [if_pos hpassed]
      rcases ih (by omega) with ⟨k, hk, hstop, hbehind, hr⟩ | ⟨hall, hr⟩
      · refine Or.inl ⟨k, by omega, hstop, fun j hkj hj => ?_, by omega⟩
        rcases Nat.lt_or_ge j q with hjq | hjq
        · exact hbehind j hkj hjq
        · obtain rfl : j = q := by omega
          exact hpassed
      · refine Or.inr ⟨fun j hj => ?_, by omega⟩
        rcases Nat.lt_or_ge j q with hjq | hjq
        · exact hall j hjq
        · obtain rfl : j = q := by omega
          exact hpassed
    · rw [if_neg hpassed]
      refine Or.inl ⟨q, by omega, hpassed, fun j hqj hj => by omega, ?_⟩
      split <;> omega

theorem getD_underscored (n : Bytes) (j : Nat) :
    (underscored n).getD j 0 = if n.getD j 0 = slash then 95 else n.getD j 0 := by
  simp only [underscored, List.getD_eq_getElem?_getD, List.getElem?_map]
  cases n[j]? <;> rfl

theorem toNat_underscored (n : Bytes) (j : Nat) : ((underscored n).getD j 0).toNat = (n.getD j 0).toNat ∨
    ((underscored n).getD j 0).toNat = 95 ∧ (n.getD j 0).toNat = 47 := by
  rw [getD_underscored]
  split
  · next h => exact Or.inr ⟨rfl, by rw [h]; rfl⟩
  · exact Or.inl rfl

theorem passedOver_underscored (n : Bytes) (j : Nat) : PassedOver ((underscored n).getD j 0) ↔ PassedOver (n.getD j 0) := by
  unfold PassedOver
  have := toNat_underscored n j
  omega

theorem isContinuation_underscored (n : Bytes) (j : Nat) :
    isContinuation ((underscored n).getD j 0) = isContinuation (n.getD j 0) := by
  rw [Bool.eq_iff_iff, isContinuation_iff, isContinuation_iff]
  have := toNat_underscored n j
  omega

theorem length_underscored (n : Bytes) : (underscored n).length = n.length :=
  List.length_map _

/-- How many bytes stay of a cut name. -/
def cutLength (n : Bytes) : Nat :=
  cutMax - rmBytes ((underscored n).take cutMax).reverse.tail

theorem stopsAt_unique {n : Bytes} {k k' : Nat} (h : StopsAt n k) (h' : StopsAt n k') : k = k' := by
  rcases Nat.lt_trichotomy k k' with hlt | heq | hgt
  · exact absurd (h.2.2 k' hlt h'.1) h'.2.1
  · exact heq
  · exact absurd (h'.2.2 k hgt h.1) h.2.1

theorem cutAt_cutLength {n : Bytes} (h : cutMax < n.length) : CutAt n (cutLength n) := by
  have hmax : cutMax = 243 := rfl
  have htail : ((underscored n).take cutMax).reverse.tail = ((underscored n).take (cutMax - 1)).reverse := by
    rw [List.tail_reverse, List.dropLast_take]
    rw [length_underscored]
    omega
  have hspec := rmBytes_take (underscored n) (cutMax - 1) (by rw [length_underscored]; omega)
  rw [← htail] at hspec
  unfold cutLength
  generalize rmBytes ((underscored n).take cutMax).reverse.tail = r at hspec ⊢
  simp only [passedOver_underscored] at hspec
  rcases hspec with ⟨k, hk, hstop, hbehind, hr⟩ | ⟨hall, hr⟩
  · refine Or.inl ⟨k, ⟨by omega, hstop, fun j hkj hj => hbehind j hkj (by omega)⟩, ?_⟩
    have hlow := toNat_underscored n k
    split_ifs at hr ⊢ <;> omega
  · exact Or.inr ⟨fun j hj => hall j (by omega), by omega⟩

theorem cutAt_iff {n : Bytes} (h : cutMax < n.length) (c : Nat) : CutAt n c ↔ c = cutLength n := by
  constructor
  · intro hc
    rcases hc with ⟨k, hk, rfl⟩ | ⟨hnone, rfl⟩ <;> rcases cutAt_cutLength h with ⟨k', hk', heq⟩ | ⟨hnone', heq⟩
    · rw [heq, stopsAt_unique hk hk']
    · exact absurd (hnone' k hk.1) hk.2.1
    · exact absurd (hnone k' hk'.1) hk'.2.1
    · exact heq.symm
  · rintro rfl
    exact cutAt_cutLength h

theorem cutLength_pos {n : Bytes} (h : cutMax < n.length) : 0 < cutLength n ∧ cutLength n ≤ cutMax := by
  refine ⟨?_, Nat.sub_le _ _⟩
  rcases cutAt_cutLength h with ⟨k, -, heq⟩ | ⟨-, heq⟩
  · split at heq <;> omega
  · omega

end Cut

section Text

theorem isUtf8_underscored {n : Bytes} (h : IsUtf8 n) : IsUtf8 (underscored n) := by
  refine isUtf8_map (fun ch hch => ?_) (fun ch hch => ?_) h
  · split
    · decide
    · exact hch
  · rw [if_neg]
    rintro rfl
    exact absurd hch (by decide)

/-- The bytes around a position. -/
theorem eq_take_getD {b : Bytes} {c : Nat} (h : c < b.length) : b = b.take c ++ b.getD c 0 :: b.drop (c + 1) := by
  rw [List.getD_eq_getElem?_getD, List.getElem?_eq_getElem h, Option.getD_some, ← List.drop_eq_getElem_cons h,
    List.take_append_drop]

theorem isUtf8_take_iff {b : Bytes} (hb : IsUtf8 b) {c : Nat} (h : c < b.length) :
    IsUtf8 (b.take c) ↔ isContinuation (b.getD c 0) = false := by
  rw [eq_take_getD h] at hb
  exact ⟨fun htake => htake.not_isContinuation hb, fun hcont => (hb.split hcont).1⟩

/-- Behind a byte that is a character of its own another character starts. -/
theorem isContinuation_succ {b : Bytes} (hb : IsUtf8 b) {k : Nat} (hk : k + 1 < b.length) (hlow : (b.getD k 0).toNat < 128) :
    isContinuation (b.getD (k + 1) 0) = false := by
  have hfirst : isContinuation (b.getD k 0) = false := (not_isContinuation_iff _).mpr (Or.inl hlow)
  have htake := (isUtf8_take_iff hb (Nat.lt_of_succ_lt hk)).mpr hfirst
  have hsucc : b.take (k + 1) = b.take k ++ [b.getD k 0] := by
    rw [List.take_add_one, List.getD_eq_getElem?_getD, List.getElem?_eq_getElem (Nat.lt_of_succ_lt hk)]
    rfl
  rw [← isUtf8_take_iff hb hk, hsucc]
  exact htake.append (isUtf8_ascii (by simpa using hlow))

/-- A first byte from 128 on is followed by one of its own character. -/
theorem isContinuation_next {b : Bytes} (hb : IsUtf8 b) {k : Nat} (hk : k + 1 < b.length)
    (hfirst : isContinuation (b.getD k 0) = false) (hhigh : 128 ≤ (b.getD k 0).toNat) :
    isContinuation (b.getD (k + 1) 0) = true := by
  have hsplit := eq_take_getD (Nat.lt_of_succ_lt hk)
  rw [hsplit] at hb
  obtain ⟨ch, rest, hdrop, hcont⟩ := hb.next hfirst hhigh
  rw [List.drop_eq_getElem_cons hk, List.cons.injEq] at hdrop
  rw [List.getD_eq_getElem?_getD, List.getElem?_eq_getElem hk, Option.getD_some, hdrop.1]
  exact hcont

theorem cutFits_iff {n : Bytes} (hn : IsUtf8 n) (h : cutMax < n.length) :
    isContinuation (n.getD (cutLength n) 0) = false ↔ CutFits n := by
  have hmax : cutMax = 243 := rfl
  rcases cutAt_cutLength h with ⟨k, hk, heq⟩ | ⟨hnone, heq⟩
  · have hlt := hk.1
    rw [heq]
    by_cases hlow : (n.getD k 0).toNat < 128
    · rw [if_pos hlow]
      by_cases hend : k + 2 = cutMax
      · rw [hend]
        refine ⟨fun hcont => ⟨k, hk, Or.inl ⟨hlow, hend, hcont⟩⟩, ?_⟩
        rintro ⟨k', hk', ⟨-, -, hcont⟩ | ⟨hhigh, -⟩⟩
        · exact hcont
        · rw [stopsAt_unique hk' hk] at hhigh
          omega
      · have hfirst := isContinuation_succ hn (k := k) (by omega) hlow
        have hhigh := (hk.2.2 (k + 1) (by omega) (by omega)).1
        have hcont := isContinuation_next hn (k := k + 1) (by omega) hfirst hhigh
        refine iff_of_false (by rw [hcont]; simp) ?_
        rintro ⟨k', hk', ⟨-, hend', -⟩ | ⟨hhigh', -⟩⟩
        · rw [stopsAt_unique hk' hk] at hend'
          exact hend hend'
        · rw [stopsAt_unique hk' hk] at hhigh'
          omega
    · rw [if_neg hlow]
      refine ⟨fun hcont => ⟨k, hk, Or.inr ⟨by omega, hcont⟩⟩, ?_⟩
      rintro ⟨k', hk', ⟨hlow', -⟩ | ⟨-, hcont⟩⟩
      · rw [stopsAt_unique hk' hk] at hlow'
        exact absurd hlow' hlow
      · rwa [stopsAt_unique hk' hk] at hcont
  · have hfirst : isContinuation (n.getD 0 0) = false := by
      rw [← isUtf8_take_iff hn (by omega)]
      exact isUtf8_nil
    have hcont := isContinuation_next hn (k := 0) (by omega) hfirst (hnone 0 (by omega)).1
    rw [heq]
    refine iff_of_false (by rw [hcont]; simp) ?_
    rintro ⟨k, hk, -⟩
    exact hk.2.1 (hnone k hk.1)

end Text

section Hash

variable (md5 : HexMD5)

theorem mem_hashDigits {n : Bytes} {ch : UInt8} (h : ch ∈ hashDigits md5 n) : ch.toNat < 128 ∧ ch ≠ 45 ∧ ch ≠ 46 := by
  have hhex := md5.hex n ch (List.mem_of_mem_take h)
  simp only [isDigit, Bool.and_eq_true, decide_eq_true_eq, UInt8.le_iff_toNat_le, UInt8.reduceToNat] at hhex
  refine ⟨by omega, ?_, ?_⟩ <;> rintro rfl <;> revert hhex <;> decide

/-- A list has one last occurrence of an element. -/
theorem last_split_unique {c : UInt8} {x y x' y' : Bytes} (h : x ++ c :: y = x' ++ c :: y') (hy : c ∉ y) (hy' : c ∉ y') :
    x = x' ∧ y = y' := by
  rcases List.append_eq_append_iff.mp h with ⟨mid, rfl, hmid⟩ | ⟨mid, rfl, hmid⟩
  · cases mid with
    | nil => simpa using hmid
    | cons d mid =>
      rw [List.cons_append, List.cons.injEq] at hmid
      exact absurd (by rw [hmid.2]; simp) hy
  · cases mid with
    | nil => simpa [eq_comm] using hmid
    | cons d mid =>
      rw [List.cons_append, List.cons.injEq] at hmid
      exact absurd (by rw [hmid.2]; simp) hy'

/-- The end of a name is that from its last dot on. -/
theorem ext_unique {pre ext pre' ext' : Bytes} (h : pre ++ ext = pre' ++ ext')
    (hext : ext = [] ∧ 46 ∉ pre ∨ ∃ e, ext = 46 :: e ∧ 46 ∉ e)
    (hext' : ext' = [] ∧ 46 ∉ pre' ∨ ∃ e, ext' = 46 :: e ∧ 46 ∉ e) : pre = pre' ∧ ext = ext' := by
  rcases hext with ⟨rfl, hpre⟩ | ⟨e, rfl, he⟩ <;> rcases hext' with ⟨rfl, hpre'⟩ | ⟨e', rfl, he'⟩
  · simpa using h
  · rw [List.append_nil] at h
    exact absurd (by rw [h]; simp) hpre
  · rw [List.append_nil] at h
    exact absurd (by rw [← h]; simp) hpre'
  · obtain ⟨rfl, rfl⟩ := last_split_unique h he he'
    exact ⟨rfl, rfl⟩

/-- The part of a name from its last dot on. -/
theorem exists_last_dot {fn : Bytes} (h : 46 ∈ fn) :
    ∃ pre, fn = pre ++ 46 :: (fn.reverse.takeWhile (· ≠ 46)).reverse := by
  have hsplit := List.takeWhile_append_dropWhile (p := fun ch : UInt8 => decide (ch ≠ 46)) (l := fn.reverse)
  cases hdrop : fn.reverse.dropWhile (· ≠ 46) with
  | nil =>
    have hall := List.dropWhile_eq_nil_iff.mp hdrop 46 (List.mem_reverse.mpr h)
    simp at hall
  | cons ch rest =>
    have hch : ch = 46 := by
      have := List.head_dropWhile_not (fun ch : UInt8 => decide (ch ≠ 46)) (l := fn.reverse) (by rw [hdrop]; simp)
      simp only [hdrop, List.head_cons] at this
      simpa using this
    refine ⟨rest.reverse, ?_⟩
    rw [hdrop, hch] at hsplit
    have hrev := congrArg List.reverse hsplit
    rw [List.reverse_reverse, List.reverse_append, List.reverse_cons, List.append_assoc] at hrev
    exact hrev.symm

theorem hashedAs_insertHash (orig_fn fn : Bytes) : HashedAs md5 orig_fn fn (insertHash md5 orig_fn fn) := by
  unfold insertHash
  split
  · next hdot =>
    obtain ⟨pre, heq⟩ := exists_last_dot hdot
    have hext : 46 ∉ (fn.reverse.takeWhile (· ≠ 46)).reverse := by
      intro hmem
      have := List.mem_takeWhile_imp (List.mem_reverse.mp hmem)
      simp at this
    refine ⟨pre, _, heq, Or.inr ⟨_, rfl, hext⟩, ?_⟩
    have hlength := congrArg List.length heq
    simp only [List.length_append, List.length_cons, List.length_reverse] at hlength
    generalize fn.reverse.takeWhile (· ≠ 46) = ext at heq hlength ⊢
    have hpos : fn.length - (ext.length + 1) = pre.length := by omega
    have htake : fn.take pre.length = pre := by rw [heq, List.take_left']; rfl
    have hdrop : fn.drop pre.length = 46 :: ext.reverse := by rw [heq, List.drop_left']; rfl
    simp only [hpos, htake, hdrop]
    rfl
  · next hdot => exact ⟨fn, [], (List.append_nil _).symm, Or.inl ⟨rfl, hdot⟩, by rw [List.append_nil]; rfl⟩

theorem hashedAs_iff (orig_fn fn name : Bytes) : HashedAs md5 orig_fn fn name ↔ name = insertHash md5 orig_fn fn := by
  constructor
  · rintro ⟨pre, ext, hfn, hext, rfl⟩
    obtain ⟨pre', ext', hfn', hext', heq⟩ := hashedAs_insertHash md5 orig_fn fn
    obtain ⟨rfl, rfl⟩ := ext_unique (hfn.symm.trans hfn') hext hext'
    exact heq.symm
  · rintro rfl
    exact hashedAs_insertHash md5 orig_fn fn

/-- The digits can be read off a corrected name. -/
theorem hashedAs_digits {n m fn fm name : Bytes} (hn : HashedAs md5 n fn name) (hm : HashedAs md5 m fm name) :
    hashDigits md5 n = hashDigits md5 m := by
  obtain ⟨pre, ext, -, hext, rfl⟩ := hn
  obtain ⟨pre', ext', -, hext', heq⟩ := hm
  have hnot : ∀ (m pre ext : Bytes), (ext = [] ∧ 46 ∉ pre ∨ ∃ e, ext = 46 :: e ∧ 46 ∉ e) →
      (ext = [] ∧ 46 ∉ pre ++ 45 :: hashDigits md5 m ∨ ∃ e, ext = 46 :: e ∧ 46 ∉ e) := by
    intro m pre ext h
    refine h.imp_left fun ⟨hnil, hpre⟩ => ⟨hnil, fun hmem => ?_⟩
    rcases List.mem_append.mp hmem with hmem | hmem
    · exact hpre hmem
    · rcases List.mem_cons.mp hmem with hmem | hmem
      · cases hmem
      · exact (mem_hashDigits md5 hmem).2.2 rfl
  obtain ⟨hsame, -⟩ := ext_unique heq (hnot n pre ext hext) (hnot m pre' ext' hext')
  exact (last_split_unique hsame (fun h => (mem_hashDigits md5 h).2.1 rfl) fun h => (mem_hashDigits md5 h).2.1 rfl).2

theorem isUtf8_hashedAs {n fn name : Bytes} (h : HashedAs md5 n fn name) : IsUtf8 name ↔ IsUtf8 fn := by
  obtain ⟨pre, ext, rfl, hext, rfl⟩ := h
  have hlow : ∀ ch ∈ (45 : UInt8) :: hashDigits md5 n, ch.toNat < 128 := by
    intro ch hch
    rcases List.mem_cons.mp hch with rfl | hch
    · decide
    · exact (mem_hashDigits md5 hch).1
  rcases hext with ⟨rfl, -⟩ | ⟨e, rfl, -⟩
  · rw [List.append_nil, List.append_nil]
    exact isUtf8_append_ascii hlow
  · exact isUtf8_insert hlow (by decide)

theorem length_insertHash_le (n fn : Bytes) : (insertHash md5 n fn).length ≤ fn.length + 11 := by
  obtain ⟨pre, ext, hfn, -, heq⟩ := hashedAs_insertHash md5 n fn
  have hten : (hashDigits md5 n).length ≤ 10 := List.length_take_le 10 _
  rw [heq]
  have := congrArg List.length hfn
  simp only [List.length_append, List.length_cons] at this ⊢
  omega

end Hash

section Fixed

variable (md5 : HexMD5) {n : Bytes}

theorem tooLong_slash (h : slash ∈ n) : TooLong n ↔ cutMax < n.length := by
  rw [TooLong, if_pos h, gt_iff_lt]

theorem tooLong_plain (h : slash ∉ n) : TooLong n ↔ nameMax < n.length := by
  rw [TooLong, if_neg h, gt_iff_lt]

theorem TooLong.length (h : TooLong n) : cutMax < n.length := by
  unfold TooLong at h
  have : cutMax < nameMax := by decide
  split at h <;> omega

theorem fixFilename_long (h : TooLong n) : fixFilename md5 n = insertHash md5 n ((underscored n).take (cutLength n)) := by
  have hlong : (underscored n).length > if n.contains slash then nameMax - 11 else nameMax := by
    rw [length_underscored]
    simpa [TooLong, cutMax, List.contains_iff_mem] using h
  have hmin : min (cutLength n) cutMax = cutLength n := min_eq_left (cutLength_pos h.length).2
  have htake : ((underscored n).take cutMax).take (cutLength n) = (underscored n).take (cutLength n) := by
    rw [List.take_take, hmin]
  simp only [fixFilename]
  rw [← htake]
  exact if_pos hlong

theorem fixFilename_slash (h : ¬ TooLong n) (hslash : slash ∈ n) : fixFilename md5 n = insertHash md5 n (underscored n) := by
  have hshort : ¬ (underscored n).length > if n.contains slash then nameMax - 11 else nameMax := by
    rw [length_underscored]
    simpa [TooLong, cutMax, List.contains_iff_mem] using h
  simp only [fixFilename]
  refine (if_neg hshort).trans (if_pos ?_)
  exact List.contains_iff_mem.mpr hslash

theorem fixFilename_plain (h : ¬ TooLong n) (hslash : slash ∉ n) : fixFilename md5 n = n := by
  have hshort : ¬ (underscored n).length > if n.contains slash then nameMax - 11 else nameMax := by
    rw [length_underscored]
    simpa [TooLong, cutMax, List.contains_iff_mem] using h
  have hsame : underscored n = n := by
    refine (List.map_congr_left (g := id) fun ch hch => if_neg ?_).trans (List.map_id _)
    rintro rfl
    exact hslash hch
  simp only [fixFilename]
  refine (if_neg hshort).trans ((if_neg ?_).trans hsame)
  simpa [List.contains_iff_mem] using hslash

theorem clashes_iff (m : Bytes) : Clashes md5 n m ↔ (slash ∈ n ∨ TooLong n) ∧ m = fixFilename md5 n := by
  unfold Clashes
  simp only [hashedAs_iff]
  by_cases hlong : TooLong n
  · simp [hlong, fixFilename_long md5 hlong, cutAt_iff hlong.length]
  · by_cases hslash : slash ∈ n
    · simp [hlong, hslash, fixFilename_slash md5 hlong hslash]
    · simp [hlong, hslash]

/-- A name is changed, and then holds its digits, or stays. -/
theorem fixFilename_hashed (n : Bytes) : (slash ∉ n ∧ ¬ TooLong n ∧ fixFilename md5 n = n) ∨
    ((slash ∈ n ∨ TooLong n) ∧ ∃ fn, fn.length ≤ cutMax ∧ HashedAs md5 n fn (fixFilename md5 n) ∧
      (IsUtf8 n → (IsUtf8 fn ↔ (TooLong n → CutFits n)))) := by
  by_cases hlong : TooLong n
  · refine Or.inr ⟨Or.inr hlong, (underscored n).take (cutLength n), ?_, ?_, fun hn => ?_⟩
    · exact (List.length_take_le _ _).trans (cutLength_pos hlong.length).2
    · rw [hashedAs_iff]
      exact fixFilename_long md5 hlong
    · have hlt : cutLength n < (underscored n).length := by
        rw [length_underscored]
        exact (cutLength_pos hlong.length).2.trans_lt hlong.length
      rw [isUtf8_take_iff (isUtf8_underscored hn) hlt, isContinuation_underscored, cutFits_iff hn hlong.length]
      exact ⟨fun h _ => h, fun h => h hlong⟩
  · by_cases hslash : slash ∈ n
    · refine Or.inr ⟨Or.inl hslash, underscored n, ?_, ?_, fun hn => ?_⟩
      · rw [length_underscored]
        exact Nat.not_lt.mp ((tooLong_slash hslash).not.mp hlong)
      · rw [hashedAs_iff]
        exact fixFilename_slash md5 hlong hslash
      · exact iff_of_true (isUtf8_underscored hn) fun h => absurd h hlong
    · exact Or.inl ⟨hslash, hlong, fixFilename_plain md5 hlong hslash⟩

theorem fixFilenameForOS_fst (n curr_path : Bytes) (corrections : FilePathCorrections) :
    (fixFilenameForOS md5 n curr_path corrections).1 = fixFilename md5 n := by
  unfold fixFilenameForOS
  dsimp only
  repeat' split
  all_goals rfl

theorem IsValidName.unchanged (h : IsValidName n) : slash ∉ n ∧ ¬ TooLong n :=
  ⟨h.2.2, (tooLong_plain h.2.2).not.mpr (Nat.not_lt.mpr h.2.1)⟩

theorem isValidName_fixFilename (h : n ≠ []) : IsValidName (fixFilename md5 n) := by
  refine ⟨fixFilename_ne_nil md5 h, ?_, notMem_fixFilename md5 n⟩
  rcases fixFilename_hashed md5 n with ⟨hslash, hlong, heq⟩ | ⟨-, fn, hfn, hhash, -⟩
  · rw [heq]
    exact Nat.not_lt.mp ((tooLong_plain hslash).not.mp hlong)
  · rw [(hashedAs_iff md5 n fn _).mp hhash]
    have hmax : cutMax + 11 = nameMax := rfl
    exact (length_insertHash_le md5 n fn).trans (by omega)

end Fixed

section Siblings

variable {md5 : HexMD5} {names : List Bytes} (curr_path : Bytes) (corrections : FilePathCorrections)

theorem NamesFit.namesFixed (h : NamesFit md5 names) (hdigits : DigitsDiffer md5 names) :
    NamesFixed md5 names curr_path corrections := by
  have hne : ∀ n ∈ names, n ≠ [] := by
    rintro n hn rfl
    exact h.nonempty hn
  constructor
  · intro n hn
    rw [fixFilenameForOS_fst]
    exact isValidName_fixFilename md5 (hne n hn)
  · intro n hn m hm hnm heq
    rw [fixFilenameForOS_fst, fixFilenameForOS_fst] at heq
    rcases fixFilename_hashed md5 n with ⟨-, -, hsame⟩ | ⟨hchanged, fn, -, hhash, -⟩ <;>
      rcases fixFilename_hashed md5 m with ⟨-, -, hsame'⟩ | ⟨hchanged', fm, -, hhash', -⟩
    · exact hnm (hsame.symm.trans (heq.trans hsame'))
    · refine h.free m hm n hn (by rw [← hsame]; exact isValidName_fixFilename md5 (hne n hn)) ((clashes_iff md5 n).mpr ⟨hchanged', ?_⟩)
      rw [← heq, hsame]
    · refine h.free n hn m hm (by rw [← hsame']; exact isValidName_fixFilename md5 (hne m hm)) ((clashes_iff md5 m).mpr ⟨hchanged, ?_⟩)
      rw [heq, hsame']
    · rw [← heq] at hhash'
      exact hdigits n hn m hm hnm (hashedAs_digits md5 hhash hhash')
  · intro n hn hvalid
    rw [fixFilenameForOS_fst, fixFilename_plain md5 hvalid.unchanged.2 hvalid.unchanged.1]
  · intro n hn hutf8
    rw [fixFilenameForOS_fst]
    rcases fixFilename_hashed md5 n with ⟨-, -, hsame⟩ | ⟨-, fn, -, hhash, hcut⟩
    · rwa [hsame]
    · exact (isUtf8_hashedAs md5 hhash).mpr ((hcut hutf8).mpr (h.cut n hn hutf8))

theorem NamesFixed.namesFit (h : NamesFixed md5 names curr_path corrections) : NamesFit md5 names := by
  constructor
  · intro hnil
    exact (h.usable [] hnil).1 (by rw [fixFilenameForOS_fst]; rfl)
  · intro n hn hutf8 hlong
    have hfixed := h.utf8 n hn hutf8
    rw [fixFilenameForOS_fst] at hfixed
    rcases fixFilename_hashed md5 n with ⟨-, hshort, -⟩ | ⟨-, fn, -, hhash, hcut⟩
    · exact absurd hlong hshort
    · exact (hcut hutf8).mp ((isUtf8_hashedAs md5 hhash).mp hfixed) hlong
  · intro n hn m hm hvalid hclash
    obtain ⟨hchanged, heq⟩ := (clashes_iff md5 m).mp hclash
    have hnm : n ≠ m := by
      rintro rfl
      rcases hchanged with hslash | hlong
      · exact hvalid.unchanged.1 hslash
      · exact hvalid.unchanged.2 hlong
    refine h.distinct n hn m hm hnm ?_
    rw [fixFilenameForOS_fst, fixFilenameForOS_fst, ← heq, fixFilename_plain md5 hvalid.unchanged.2 hvalid.unchanged.1]

/-- The entries of a directory get names as they are asked for exactly where none of
their names is empty, text is not cut within a character, and no entry has the name that
another one is given. -/
theorem namesFixed_iff (hdigits : DigitsDiffer md5 names) :
    NamesFixed md5 names curr_path corrections ↔ NamesFit md5 names :=
  ⟨fun h => h.namesFit curr_path corrections, fun h => h.namesFixed curr_path corrections hdigits⟩

/-- The two bytes of an umlaut, 130 times. -/
def umlauts : Bytes :=
  (List.replicate 130 'ä').flatMap String.utf8EncodeChar

/-- The first digits for `a/b`, `c` and the umlauts. -/
def namesMD5 : HexMD5 where
  GenerateHexMD5 n :=
    if n = [97, 47, 98] then [97, 55, 101, 56, 54, 49, 51, 54, 53, 52]
    else if n = [99] then [52, 97, 56, 97, 48, 56, 102, 48, 57, 100]
    else [56, 50, 54, 102, 50, 102, 101, 99, 101, 50]
  hex n := by
    repeat' split
    all_goals decide +kernel

/-- The corrections when a directory is the first one. -/
def noCorrections : FilePathCorrections := fun _ => none

theorem namesFixed_separator : DigitsDiffer namesMD5 [[97, 47, 98], [99]] ∧
    (NamesFixed namesMD5 [[97, 47, 98], [99]] [] noCorrections ↔ NamesFit namesMD5 [[97, 47, 98], [99]]) := by
  have hdigits : DigitsDiffer namesMD5 [[97, 47, 98], [99]] := by
    unfold DigitsDiffer
    decide
  exact ⟨hdigits, namesFixed_iff [] noCorrections hdigits⟩

set_option maxRecDepth 4000 in
/-- 260 bytes are cut behind the first byte of an umlaut. -/
theorem not_namesFixed_umlauts : ¬ NamesFixed namesMD5 [umlauts] [] noCorrections := by
  intro h
  have hlong : nameMax < umlauts.length := by decide
  have hslash : slash ∉ umlauts := by decide
  have hutf8 : IsUtf8 umlauts := ⟨_, rfl⟩
  have hcut := (h.namesFit [] noCorrections).cut umlauts (by simp) hutf8 ((tooLong_plain hslash).mpr hlong)
  rw [← cutFits_iff hutf8 (by decide)] at hcut
  exact absurd hcut (by decide)

end Siblings

end urbackup.filepaths
