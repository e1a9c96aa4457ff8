import UrBackup.FilePaths.FilePathCorrections

namespace urbackup.filepaths

open stringtools filelist

def unescape_metadata_fn (fn : Bytes) : Bytes :=
  if metadata_dir_fn.isPrefixOf fn then
    let num_str := fn.drop metadata_dir_fn.length
    if num_str = [] then fn
    else if num_str.countP isDigit ≠ num_str.length then fn
    else
      let c := os_atoi64 num_str - 1
      if c = 0 then metadata_dir_fn else metadata_dir_fn ++ convert c
  else fn

/-- Where a signed 64-bit number ends. -/
def maxNumber : Nat := 2 ^ 63 - 1

/-- The number behind the reserved name. It goes up to the largest one, to which the
name that its successor wraps to belongs, too. -/
def numberOf (fn : Bytes) : Option Nat :=
  if metadata_dir_fn.isPrefixOf fn then
    let num_str := fn.drop metadata_dir_fn.length
    if num_str ≠ [] ∧ num_str.all isDigit = true then some (min (leadingNumber num_str) maxNumber)
    else if num_str = convert (BitVec.intMin 64) then some maxNumber
    else none
  else none

/-- The name is not the reserved one with a number, or with a number from 1 on without
leading zeros that has a successor. -/
def Renumbers (fn : Bytes) : Prop :=
  ∀ num_str, fn = metadata_dir_fn ++ num_str → num_str.all isDigit = true →
    ∃ n, 0 < n ∧ n < maxNumber ∧ num_str = digitBytes n

section Names

variable {fn num_str : Bytes}

/-- A name is the reserved one with something behind it, or does not begin with it. -/
theorem reserved_cases (fn : Bytes) :
    (∃ num_str, fn = metadata_dir_fn ++ num_str) ∨ metadata_dir_fn.isPrefixOf fn = false := by
  cases h : metadata_dir_fn.isPrefixOf fn with
  | true =>
    obtain ⟨num_str, rfl⟩ := List.isPrefixOf_iff_prefix.mp h
    exact Or.inl ⟨num_str, rfl⟩
  | false => exact Or.inr rfl

theorem isPrefixOf_reserved (num_str : Bytes) : metadata_dir_fn.isPrefixOf (metadata_dir_fn ++ num_str) = true :=
  List.isPrefixOf_iff_prefix.mpr (List.prefix_append _ _)

theorem countP_ne_iff (num_str : Bytes) : num_str.countP isDigit ≠ num_str.length ↔ num_str.all isDigit = false := by
  rw [ne_eq, List.countP_eq_length, ← Bool.not_eq_true, List.all_eq_true]

theorem os_atoi64_digits (hne : num_str ≠ []) (h : num_str.all isDigit = true) :
    os_atoi64 num_str = BitVec.ofNat 64 (min (leadingNumber num_str) maxNumber) := by
  obtain ⟨ch, rest, rfl⟩ := List.exists_cons_of_ne_nil hne
  have hdigit : isDigit ch = true := by
    simp only [List.all_cons, Bool.and_eq_true] at h
    exact h.1
  obtain ⟨hspace, hminus, hplus⟩ := not_isSpace_of_isDigit hdigit
  have hsaturate : saturate (leadingNumber (ch :: rest)) = BitVec.ofNat 64 (min (leadingNumber (ch :: rest)) maxNumber) := by
    have hmin : (max (-2 ^ 63) (min (2 ^ 63 - 1) (leadingNumber (ch :: rest) : Int)) : Int) =
        ((min (leadingNumber (ch :: rest)) maxNumber : Nat) : Int) := by
      rw [maxNumber]
      omega
    rw [saturate, hmin, BitVec.ofInt_natCast]
  unfold os_atoi64
  rw [List.dropWhile_cons_of_neg (by simp [hspace])]
  split
  next heq => exact absurd (List.cons.inj heq).1 hminus
  next heq => exact absurd (List.cons.inj heq).1 hplus
  next => exact hsaturate

theorem convert_injective {i j : BitVec 64} (h : convert i = convert j) : i = j := by
  have hi := @os_atoi64_convert i [] (by simp)
  have hj := @os_atoi64_convert j [] (by simp)
  rw [List.append_nil] at hi hj
  rw [← hi, h, hj]

theorem convert_ne_nil (i : BitVec 64) : convert i ≠ [] := by
  unfold convert
  obtain ⟨ch, ds, hds, _⟩ := digitBytes_cons i.toInt.natAbs
  split
  · simp
  · simp [hds]

/-- Below the largest number the successor is written with digits only. -/
theorem convert_succ {n : Nat} (h : n < maxNumber) : convert (BitVec.ofNat 64 n + 1) = digitBytes (n + 1) := by
  rw [maxNumber] at h
  have hsum : BitVec.ofNat 64 n + 1 = BitVec.ofNat 64 (n + 1) := by
    rw [BitVec.ofNat_add]
    rfl
  have hvalue : (BitVec.ofNat 64 (n + 1)).toInt = (n + 1 : Nat) := by
    rw [BitVec.toInt_eq_toNat_of_lt] <;> rw [BitVec.toNat_ofNat, Nat.mod_eq_of_lt (by omega)]
    omega
  rw [hsum, convert, hvalue, if_neg (by omega), Int.natAbs_natCast]

theorem toNat_one : (1 : BitVec 64).toNat = 1 :=
  rfl

theorem toNat_zero : (0 : BitVec 64).toNat = 0 :=
  rfl

theorem ofNat_maxNumber : BitVec.ofNat 64 maxNumber + 1 = BitVec.intMin 64 := by
  decide

/-- The largest number has none, and its successor is written with a sign. -/
theorem convert_intMin : (convert (BitVec.intMin 64)).all isDigit = false := by
  rw [convert, if_pos (by decide)]
  rfl

end Names

section Escaping

variable {fn num_str : Bytes} {n : Nat}

/-- The names with a number. -/
theorem numberOf_eq_some (h : numberOf fn = some n) :
    (∃ num_str, fn = metadata_dir_fn ++ num_str ∧ num_str ≠ [] ∧ num_str.all isDigit = true ∧
        n = min (leadingNumber num_str) maxNumber) ∨
      (fn = metadata_dir_fn ++ convert (BitVec.intMin 64) ∧ n = maxNumber) := by
  obtain ⟨num_str, rfl⟩ | hother := reserved_cases fn
  · unfold numberOf at h
    simp only [isPrefixOf_reserved, if_true, List.drop_left] at h
    split at h
    next hdigits => exact Or.inl ⟨num_str, rfl, hdigits.1, hdigits.2, (Option.some.inj h).symm⟩
    next =>
      split at h
      next hwrapped => exact Or.inr ⟨by rw [hwrapped], (Option.some.inj h).symm⟩
      next => simp at h
  · simp [numberOf, hother] at h

/-- The names without one. -/
theorem numberOf_eq_none (h : numberOf fn = none) :
    metadata_dir_fn.isPrefixOf fn = false ∨
      ∃ num_str, fn = metadata_dir_fn ++ num_str ∧ (num_str = [] ∨ num_str.all isDigit = false) := by
  obtain ⟨num_str, rfl⟩ | hother := reserved_cases fn
  · refine Or.inr ⟨num_str, rfl, ?_⟩
    unfold numberOf at h
    simp only [isPrefixOf_reserved, if_true, List.drop_left] at h
    split at h
    next => simp at h
    next hnot =>
      by_cases hnil : num_str = []
      · exact Or.inl hnil
      · exact Or.inr (by simpa [hnil] using hnot)
  · exact Or.inl hother

theorem escape_reserved (num_str : Bytes) : escape_metadata_fn (metadata_dir_fn ++ num_str) =
    if num_str = [] then metadata_dir_fn ++ [48]
    else if num_str.all isDigit = true then metadata_dir_fn ++ convert (os_atoi64 num_str + 1)
    else metadata_dir_fn ++ num_str := by
  unfold escape_metadata_fn
  simp only [isPrefixOf_reserved, if_true, List.drop_left, countP_ne_iff]
  by_cases hnil : num_str = []
  · rw [if_pos hnil, if_pos hnil, hnil, List.append_nil]
  · cases num_str.all isDigit <;> simp [hnil]

/-- A numbered name gets the next number. -/
theorem escape_number (h : numberOf fn = some n) :
    n ≤ maxNumber ∧ escape_metadata_fn fn = metadata_dir_fn ++ convert (BitVec.ofNat 64 n + 1) := by
  obtain ⟨num_str, rfl, hne, hdigits, rfl⟩ | ⟨rfl, rfl⟩ := numberOf_eq_some h
  · rw [escape_reserved, if_neg hne, if_pos hdigits, os_atoi64_digits hne hdigits]
    exact ⟨Nat.min_le_right _ _, rfl⟩
  · rw [escape_reserved, if_neg (convert_ne_nil _), if_neg (by simp [convert_intMin]), ofNat_maxNumber]
    exact ⟨Nat.le_refl _, rfl⟩

/-- What the number of a name is written as belongs to a numbered name again. -/
theorem numberOf_successor {m : Nat} (h : m ≤ maxNumber) : numberOf (metadata_dir_fn ++ convert (BitVec.ofNat 64 m + 1)) ≠ none := by
  unfold numberOf
  simp only [isPrefixOf_reserved, if_true, List.drop_left]
  obtain hlt | rfl := Nat.lt_or_eq_of_le h
  · rw [convert_succ hlt, if_pos]
    · simp
    · refine ⟨?_, List.all_eq_true.mpr (isDigit_digitBytes _)⟩
      obtain ⟨ch, ds, hds, _⟩ := digitBytes_cons (m + 1)
      simp [hds]
  · rw [ofNat_maxNumber, if_neg (by simp [convert_intMin]), if_pos rfl]
    simp

/-- Other names stay, but for the reserved name itself. -/
theorem escape_other (h : numberOf fn = none) :
    escape_metadata_fn fn = if fn = metadata_dir_fn then metadata_dir_fn ++ [48] else fn := by
  obtain hother | ⟨num_str, rfl, hnil | hdigits⟩ := numberOf_eq_none h
  · have hne : fn ≠ metadata_dir_fn := by
      rintro rfl
      exact absurd hother (by decide)
    rw [escape_metadata_fn, hother, if_neg hne, if_neg Bool.false_ne_true]
  · rw [escape_reserved, if_pos hnil, hnil, List.append_nil, if_pos rfl]
  · have hne : num_str ≠ [] := by
      rintro rfl
      simp at hdigits
    rw [escape_reserved, if_neg hne, if_neg (by simp [hdigits]), if_neg (by simpa using hne)]

theorem escape_ne_reserved (fn : Bytes) : escape_metadata_fn fn ≠ metadata_dir_fn := by
  cases hnumber : numberOf fn with
  | some n =>
    rw [(escape_number hnumber).2, ne_eq, List.append_right_eq_self]
    exact convert_ne_nil _
  | none =>
    rw [escape_other hnumber]
    split
    next => simp
    next hne => exact hne

theorem escape_number_ne_other {fn' : Bytes} (h : numberOf fn = some n) (h' : numberOf fn' = none) :
    escape_metadata_fn fn ≠ escape_metadata_fn fn' := by
  obtain ⟨hle, hescape⟩ := escape_number h
  rw [hescape, escape_other h']
  split
  next =>
    intro heq
    have hzero : convert (BitVec.ofNat 64 n + 1) = convert 0 := List.append_cancel_left heq
    have hvalue := congrArg BitVec.toNat (convert_injective hzero)
    rw [maxNumber] at hle
    simp only [BitVec.toNat_add, BitVec.toNat_ofNat, toNat_one, toNat_zero] at hvalue
    omega
  next =>
    rintro rfl
    exact numberOf_successor hle h'

/-- Two names become the same only if they have the same number. -/
theorem escape_eq_iff (fn fn' : Bytes) :
    escape_metadata_fn fn = escape_metadata_fn fn' ↔ fn = fn' ∨ (numberOf fn ≠ none ∧ numberOf fn = numberOf fn') := by
  cases h : numberOf fn with
  | some n =>
    cases h' : numberOf fn' with
    | some n' =>
      obtain ⟨hle, hescape⟩ := escape_number h
      obtain ⟨hle', hescape'⟩ := escape_number h'
      rw [hescape, hescape', List.append_cancel_left_eq]
      constructor
      · intro heq
        have hvalue := congrArg BitVec.toNat (convert_injective heq)
        rw [maxNumber] at hle hle'
        simp only [BitVec.toNat_add, BitVec.toNat_ofNat, toNat_one] at hvalue
        refine Or.inr ⟨by simp, ?_⟩
        congr 1
        omega
      · rintro (rfl | ⟨_, heq⟩)
        · rw [Option.some.inj (h.symm.trans h')]
        · rw [Option.some.inj heq]
    | none =>
      have hne := escape_number_ne_other h h'
      simp only [hne, ne_eq, reduceCtorEq, and_false, or_false, false_iff]
      rintro rfl
      exact hne rfl
  | none =>
    cases h' : numberOf fn' with
    | some n' =>
      have hne := (escape_number_ne_other h' h).symm
      simp only [hne, ne_eq, reduceCtorEq, and_false, or_false, false_iff]
      rintro rfl
      exact hne rfl
    | none =>
      have hzero : numberOf (metadata_dir_fn ++ [48]) ≠ none := by decide
      rw [escape_other h, escape_other h']
      simp only [ne_eq, not_true, false_and, or_false]
      split_ifs with hfn hfn' hfn'
      · simp [hfn, hfn']
      · refine ⟨?_, fun heq => absurd (heq ▸ hfn) hfn'⟩
        rintro rfl
        exact absurd h' hzero
      · refine ⟨?_, fun heq => absurd (heq ▸ hfn') hfn⟩
        rintro rfl
        exact absurd h hzero
      · rfl

theorem unescape_reserved (num_str : Bytes) : unescape_metadata_fn (metadata_dir_fn ++ num_str) =
    if num_str ≠ [] ∧ num_str.all isDigit = true then
      metadata_dir_fn ++ if os_atoi64 num_str = 1 then [] else convert (os_atoi64 num_str - 1)
    else metadata_dir_fn ++ num_str := by
  unfold unescape_metadata_fn
  simp only [isPrefixOf_reserved, if_true, List.drop_left, countP_ne_iff]
  have hone : os_atoi64 num_str - 1 = 0 ↔ os_atoi64 num_str = 1 := sub_eq_zero
  by_cases hnil : num_str = []
  · simp [hnil]
  · cases hall : num_str.all isDigit with
    | true =>
      simp only [hnil, if_false, Bool.true_eq_false, ne_eq, not_false_eq_true, and_self, if_true, hone]
      split <;> simp
    | false => simp [hnil]

/-- The digits of a number are the only ones that are read back as they were. -/
theorem digitBytes_leadingNumber {n : Nat} (h : digitBytes n = num_str) : leadingNumber num_str = n := by
  have hread := @leadingNumber_digitBytes n [] (by simp)
  rwa [List.append_nil, h] at hread

theorem unescape_next {m : Nat} (h : m < maxNumber) :
    unescape_metadata_fn (metadata_dir_fn ++ convert (BitVec.ofNat 64 m + 1)) =
      metadata_dir_fn ++ if m = 0 then [] else digitBytes m := by
  have hread : os_atoi64 (digitBytes (m + 1)) = BitVec.ofNat 64 m + 1 := by
    rw [← convert_succ h]
    simpa using @os_atoi64_convert (BitVec.ofNat 64 m + 1) [] (by simp)
  have hdigits : digitBytes (m + 1) ≠ [] ∧ (digitBytes (m + 1)).all isDigit = true := by
    obtain ⟨ch, ds, hds, _⟩ := digitBytes_cons (m + 1)
    exact ⟨by simp [hds], List.all_eq_true.mpr (isDigit_digitBytes _)⟩
  rw [convert_succ h, unescape_reserved, if_pos hdigits, hread]
  have hone : BitVec.ofNat 64 m + 1 = 1 ↔ m = 0 := by
    rw [maxNumber] at h
    rw [← BitVec.toNat_inj]
    simp only [BitVec.toNat_add, BitVec.toNat_ofNat, toNat_one]
    omega
  simp only [hone]
  split
  next => rfl
  next hpos =>
    have hpred : BitVec.ofNat 64 m + 1 - 1 = BitVec.ofNat 64 (m - 1) + 1 := by
      rw [← BitVec.toNat_inj]
      rw [maxNumber] at h
      simp only [BitVec.toNat_sub, BitVec.toNat_add, BitVec.toNat_ofNat, toNat_one]
      omega
    rw [hpred, convert_succ (by omega), Nat.sub_add_cancel (by omega)]

/-- A name comes back unless it is the reserved one, or the reserved one with a number
that is 0, too large or not written as numbers are. -/
theorem unescape_escape_iff (fn : Bytes) : unescape_metadata_fn (escape_metadata_fn fn) = fn ↔ Renumbers fn := by
  have hempty : ∀ n, digitBytes n ≠ [] := by
    intro n
    obtain ⟨ch, ds, hds, _⟩ := digitBytes_cons n
    simp [hds]
  cases h : numberOf fn with
  | none =>
    obtain hother | ⟨num_str, rfl, hnil | hdigits⟩ := numberOf_eq_none h
    · have hne : fn ≠ metadata_dir_fn := by
        rintro rfl
        exact absurd hother (by decide)
      rw [escape_other h, if_neg hne, unescape_metadata_fn, hother, if_neg Bool.false_ne_true]
      refine iff_of_true rfl ?_
      rintro num_str rfl
      simp [isPrefixOf_reserved] at hother
    · rw [hnil, List.append_nil]
      refine iff_of_false (by decide) fun hrenumbers => ?_
      obtain ⟨n, _, _, hn⟩ := hrenumbers [] (by simp) rfl
      exact hempty n hn.symm
    · have hne : num_str ≠ [] := by
        rintro rfl
        simp at hdigits
      rw [escape_reserved, if_neg hne, if_neg (by simp [hdigits]), unescape_reserved, if_neg (by simp [hdigits])]
      refine iff_of_true rfl ?_
      rintro num_str' heq hdigits'
      rw [List.append_cancel_left heq, hdigits'] at hdigits
      exact absurd hdigits (by simp)
  | some n =>
    obtain ⟨hle, hescape⟩ := escape_number h
    obtain ⟨num_str, rfl, hne, hdigits, hn⟩ | ⟨rfl, rfl⟩ := numberOf_eq_some h
    · have hrenumbers : Renumbers (metadata_dir_fn ++ num_str) ↔ 0 < n ∧ n < maxNumber ∧ num_str = digitBytes n := by
        constructor
        · intro hall
          obtain ⟨m, hpos, hlt, hm⟩ := hall num_str rfl hdigits
          have hvalue := digitBytes_leadingNumber hm.symm
          obtain rfl : n = m := by omega
          exact ⟨hpos, hlt, hm⟩
        · rintro ⟨hpos, hlt, hm⟩ num_str' heq _
          exact ⟨n, hpos, hlt, (List.append_cancel_left heq) ▸ hm⟩
      rw [hescape, hrenumbers]
      obtain hlt | heq := Nat.lt_or_eq_of_le hle
      · rw [unescape_next hlt, List.append_cancel_left_eq]
        split
        next hzero => exact iff_of_false (Ne.symm hne) (by omega)
        next hpos => exact ⟨fun heq => ⟨by omega, hlt, heq.symm⟩, fun hall => hall.2.2.symm⟩
      · rw [heq, ofNat_maxNumber, unescape_reserved, if_neg (by simp [convert_intMin]), List.append_cancel_left_eq]
        refine iff_of_false (fun hmin => ?_) (by omega)
        rw [← hmin, convert_intMin] at hdigits
        exact absurd hdigits (by simp)
    · rw [hescape, ofNat_maxNumber, unescape_reserved, if_neg (by simp [convert_intMin])]
      refine iff_of_true rfl ?_
      rintro num_str heq hdigits
      rw [← List.append_cancel_left heq, convert_intMin] at hdigits
      exact absurd hdigits (by simp)

/-- When a name comes back, when two names get the same metadata file, and that none gets
that of the directory. -/
theorem metadata_fn_iff (fn fn' : Bytes) :
    (unescape_metadata_fn (escape_metadata_fn fn) = fn ↔ Renumbers fn) ∧
    ((escape_metadata_fn fn = escape_metadata_fn fn' → fn = fn') ↔ numberOf fn = numberOf fn' → numberOf fn ≠ none → fn = fn') ∧
    escape_metadata_fn fn ≠ metadata_dir_fn := by
  refine ⟨unescape_escape_iff fn, ?_, escape_ne_reserved fn⟩
  rw [escape_eq_iff]
  tauto

/-- The reserved name does not come back, and two names get the same metadata file. -/
theorem metadata_fn_reserved :
    unescape_metadata_fn (escape_metadata_fn metadata_dir_fn) ≠ metadata_dir_fn ∧
    escape_metadata_fn (metadata_dir_fn ++ [48]) = escape_metadata_fn (metadata_dir_fn ++ [48, 48]) ∧
    metadata_dir_fn ++ [48] ≠ metadata_dir_fn ++ [48, 48] := by
  decide

end Escaping

end urbackup.filepaths
