import Mathlib.Algebra.Ring.Nat
import UrBackup.FileData.LittleEndian
import UrBackup.FileData.Slices

namespace utf8

open filedata

def is_trail (oc : UInt8) : Bool :=
  oc.toNat / 64 = 2

def is_surrogate (cp : Nat) : Bool :=
  0xd800 ≤ cp ∧ cp ≤ 0xdfff

def is_trail_surrogate (cp : Nat) : Bool :=
  0xdc00 ≤ cp ∧ cp ≤ 0xdfff

def is_code_point_valid (cp : Nat) : Bool :=
  cp ≤ 0x10ffff ∧ ¬ is_surrogate cp ∧ cp ≠ 0xfffe ∧ cp ≠ 0xffff

/-- Zero where no sequence begins. -/
def sequence_length (lead : UInt8) : Nat :=
  if lead.toNat < 0x80 then 1
  else if lead.toNat / 32 = 0x6 then 2
  else if lead.toNat / 16 = 0xe then 3
  else if lead.toNat / 8 = 0x1e then 4
  else 0

/-- The last checks of `validate_next`. -/
def checkedPoint (length cp : Nat) (it : List UInt8) : Option (Nat × List UInt8) :=
  if ¬ is_code_point_valid cp then none
  else if cp < 0x80 then none
  else if cp < 0x800 then if length ≠ 2 then none else some (cp, it)
  else if cp < 0x10000 then if length ≠ 3 then none else some (cp, it)
  else some (cp, it)

/-- The code point at the start and what is behind it; `none` is an exception. -/
def next : List UInt8 → Option (Nat × List UInt8)
  | [] => none
  | lead :: it =>
    match sequence_length lead, it with
    | 1, it => some (lead.toNat, it)
    | 2, b₁ :: it => if is_trail b₁ then checkedPoint 2 (lead.toNat * 64 % 0x800 + b₁.toNat % 64) it else none
    | 3, b₁ :: b₂ :: it =>
      if is_trail b₁ ∧ is_trail b₂ then
        checkedPoint 3 (lead.toNat * 4096 % 0x10000 + b₁.toNat * 64 % 0x1000 + b₂.toNat % 64) it
      else none
    | 4, b₁ :: b₂ :: b₃ :: it =>
      if is_trail b₁ ∧ is_trail b₂ ∧ is_trail b₃ then
        checkedPoint 4
          (lead.toNat * 262144 % 0x200000 + b₁.toNat * 4096 % 0x40000 + b₂.toNat * 64 % 0x1000 + b₃.toNat % 64) it
      else none
    | _, _ => none

def append (cp : Nat) : Option (List UInt8) :=
  if ¬ is_code_point_valid cp then none
  else if cp < 0x80 then some [UInt8.ofNat cp]
  else if cp < 0x800 then some [UInt8.ofNat (cp / 64 + 0xc0), UInt8.ofNat (cp % 64 + 0x80)]
  else if cp < 0x10000 then
    some [UInt8.ofNat (cp / 4096 + 0xe0), UInt8.ofNat (cp / 64 % 64 + 0x80), UInt8.ofNat (cp % 64 + 0x80)]
  else
    some [UInt8.ofNat (cp / 262144 + 0xf0), UInt8.ofNat (cp / 4096 % 64 + 0x80), UInt8.ofNat (cp / 64 % 64 + 0x80),
      UInt8.ofNat (cp % 64 + 0x80)]

def SURROGATE_OFFSET : UInt32 :=
  (0x10000 : UInt32) - (0xd800 : UInt32) <<< (10 : UInt32) - (0xdc00 : UInt32)

def fromSurrogates (cp trail_surrogate : UInt16) : Nat :=
  ((cp.toUInt32 <<< (10 : UInt32)) + trail_surrogate.toUInt32 + SURROGATE_OFFSET).toNat

/-- One round of `utf16to8`: the code point and the units behind it. -/
def nextPoint : List UInt16 → Option (Nat × List UInt16)
  | [] => none
  | cp :: start =>
    if is_surrogate cp.toNat then
      match start with
      | [] => none
      | trail_surrogate :: start =>
        if is_trail_surrogate trail_surrogate.toNat then some (fromSurrogates cp trail_surrogate, start) else none
    else some (cp.toNat, start)

theorem nextPoint_units {us rest : List UInt16} {cp : Nat} (h : nextPoint us = some (cp, rest)) :
    (if cp > 0xffff then 2 else 1) + rest.length ≤ us.length := by
  unfold nextPoint at h
  split at h
  · cases h
  · next cp start =>
    split at h
    · split at h
      · cases h
      · split at h
        · obtain ⟨-, rfl⟩ := Prod.mk.inj (Option.some.inj h)
          simp only [List.length_cons]
          split <;> omega
        · cases h
    · cases h
      have hcp : cp.toNat < 65536 := cp.toNat_lt
      rw [if_neg (by omega), List.length_cons]
      omega

/-- The bytes that are there when the input ends or an exception is thrown. -/
def utf16to8 (start : List UInt16) : List UInt8 :=
  match h : nextPoint start with
  | none => []
  | some (cp, rest) =>
    have : rest.length < start.length := by
      have := nextPoint_units h
      split at this <;> omega
    match append cp with
    | none => []
    | some result => result ++ utf16to8 rest
termination_by start.length

/-- How many units the code point of a sequence takes, seen at its first byte. -/
def unitsAt (b : UInt8) : Nat :=
  if is_trail b then 0 else if b.toNat / 8 = 0x1e then 2 else 1

def units (bs : List UInt8) : Nat :=
  (bs.map unitsAt).sum

@[simp] theorem units_append (bs cs : List UInt8) : units (bs ++ cs) = units bs + units cs := by
  simp [units]

section Next

theorem checkedPoint_eq {length cp n : Nat} {it rest : List UInt8} (h : checkedPoint length cp it = some (n, rest)) :
    n = cp ∧ rest = it := by
  unfold checkedPoint at h
  split_ifs at h
  all_goals
    cases h
    exact ⟨rfl, rfl⟩

theorem unitsAt_lead {lead : UInt8} {length : Nat} (h : sequence_length lead = length) (hlength : length ≠ 0) :
    unitsAt lead = if length = 4 then 2 else 1 := by
  unfold sequence_length at h
  simp only [unitsAt, is_trail, decide_eq_true_eq]
  split_ifs at h <;> grind

theorem unitsAt_trail {b : UInt8} (h : is_trail b = true) : unitsAt b = 0 := by
  rw [unitsAt, if_pos h]

theorem units_cons (b : UInt8) (bs : List UInt8) : units (b :: bs) = unitsAt b + units bs := by
  rw [units, List.map_cons, List.sum_cons, units]

/-- What is read has a first byte that tells the units. -/
theorem next_units {it rest : List UInt8} {cp : Nat} (h : next it = some (cp, rest)) :
    rest.length < it.length ∧ (if cp > 0xffff then 2 else 1) + units rest ≤ units it := by
  unfold next at h
  split at h
  · cases h
  · next lead it =>
    split at h
    · next hlen =>
      cases h
      have hlead : lead.toNat < 256 := lead.toNat_lt
      rw [units_cons, unitsAt_lead hlen (by omega), List.length_cons, if_neg (by omega), if_neg (by omega)]
      omega
    · next b₁ it hlen =>
      split at h
      · next htrail =>
        obtain ⟨rfl, rfl⟩ := checkedPoint_eq h
        rw [units_cons, units_cons, unitsAt_lead hlen (by omega), if_neg (by omega), if_neg (by omega)]
        simp only [List.length_cons]
        omega
      · cases h
    · next b₁ b₂ it hlen =>
      split at h
      · next htrail =>
        obtain ⟨rfl, rfl⟩ := checkedPoint_eq h
        have hb₁ : b₁.toNat / 64 = 2 := by simpa [is_trail] using htrail.1
        rw [units_cons, units_cons, units_cons, unitsAt_lead hlen (by omega), if_neg (by omega), if_neg (by omega)]
        simp only [List.length_cons]
        omega
      · cases h
    · next b₁ b₂ b₃ it hlen =>
      split at h
      · next htrail =>
        obtain ⟨rfl, rfl⟩ := checkedPoint_eq h
        rw [units_cons, units_cons, units_cons, units_cons, unitsAt_lead hlen (by omega), if_pos rfl]
        simp only [List.length_cons]
        split <;> omega
      · cases h
    · cases h

end Next

def utf8to16 (it : List UInt8) : Option (List Nat) :=
  match it with
  | [] => some []
  | lead :: start =>
    match h : next (lead :: start) with
    | none => none
    | some (cp, rest) =>
      have := (next_units h).1
      match utf8to16 rest with
      | none => none
      | some result =>
        if cp > 0xffff then some ((cp / 1024 + (0xd800 - 0x10000 / 1024)) :: (cp % 1024 + 0xdc00) :: result)
        else some (cp :: result)
termination_by it.length
decreasing_by exact this

theorem length_utf8to16 {s : List UInt8} {result : List Nat} (h : utf8to16 s = some result) : result.length ≤ units s := by
  induction hn : s.length using Nat.strongRecOn generalizing s result with
  | ind n ih =>
    subst hn
    unfold utf8to16 at h
    split at h
    · cases h
      exact Nat.zero_le _
    · next lead start =>
      split at h
      · cases h
      · next cp rest hnext =>
        obtain ⟨hlt, hunits⟩ := next_units hnext
        split at h
        · cases h
        · next result' hrest =>
          have hle := ih _ hlt hrest rfl
          split at h
          · next hcp =>
            cases h
            rw [if_pos hcp] at hunits
            simp only [List.length_cons]
            omega
          · next hcp =>
            cases h
            rw [if_neg hcp] at hunits
            simp only [List.length_cons]
            omega

theorem unitsAt_ofNat_trail (n : Nat) : unitsAt (UInt8.ofNat (n % 64 + 0x80)) = 0 := by
  refine unitsAt_trail ?_
  simp only [is_trail, UInt8.toNat_ofNat', decide_eq_true_eq]
  omega

/-- A code point above 0xffff takes two units. -/
theorem units_append_le {cp : Nat} {result : List UInt8} (h : append cp = some result) :
    units result ≤ if cp > 0xffff then 2 else 1 := by
  have hone (b : UInt8) (hb : b.toNat / 8 ≠ 0x1e) : unitsAt b ≤ 1 := by
    unfold unitsAt
    split_ifs <;> omega
  have htwo (b : UInt8) : unitsAt b ≤ 2 := by
    unfold unitsAt
    split_ifs <;> omega
  unfold append at h
  split at h
  · cases h
  · next hvalid =>
    have hcp : cp ≤ 0x10ffff := by
      rw [not_not, is_code_point_valid, decide_eq_true_eq] at hvalid
      exact hvalid.1
    split_ifs at h with hcp₁ hcp₂ hcp₃
    · cases h
      rw [if_neg (by omega), units_cons]
      exact hone _ (by rw [UInt8.toNat_ofNat']; omega)
    · cases h
      rw [if_neg (by omega), units_cons, units_cons, unitsAt_ofNat_trail]
      exact hone _ (by rw [UInt8.toNat_ofNat']; omega)
    · cases h
      rw [if_neg (by omega), units_cons, units_cons, units_cons, unitsAt_ofNat_trail, unitsAt_ofNat_trail]
      exact hone _ (by rw [UInt8.toNat_ofNat']; omega)
    · cases h
      rw [if_pos (by omega), units_cons, units_cons, units_cons, units_cons, unitsAt_ofNat_trail, unitsAt_ofNat_trail,
        unitsAt_ofNat_trail]
      exact htwo _

theorem units_utf16to8 (us : List UInt16) : units (utf16to8 us) ≤ us.length := by
  induction hn : us.length using Nat.strongRecOn generalizing us with
  | ind n ih =>
    subst hn
    unfold utf16to8
    split
    · exact Nat.zero_le _
    · next cp rest hnext =>
      have hunits := nextPoint_units hnext
      dsimp only
      split
      · exact Nat.zero_le _
      · next result happend =>
        have hpoint := units_append_le happend
        have hle := ih rest.length (by split at hunits <;> omega) rest rfl
        rw [units_append]
        omega

/-- A text has no more units than what it was made from. -/
theorem length_utf8to16_utf16to8 {us : List UInt16} {result : List Nat} (h : utf8to16 (utf16to8 us) = some result) :
    result.length ≤ us.length :=
  Nat.le_trans (length_utf8to16 h) (units_utf16to8 us)

theorem utf8to16_ascii {s : List UInt8} (hs : ∀ b ∈ s, b.toNat < 0x80) : utf8to16 s = some (s.map UInt8.toNat) := by
  induction s with
  | nil =>
    rw [utf8to16]
    rfl
  | cons b s ih =>
    have hb : b.toNat < 0x80 := hs b List.mem_cons_self
    have hnext : next (b :: s) = some (b.toNat, s) := by
      simp only [next, sequence_length, if_pos hb]
    unfold utf8to16
    split
    · next hnone => rw [hnext] at hnone; cases hnone
    · next cp rest hsome =>
      rw [hnext] at hsome
      cases hsome
      rw [ih fun c hc => hs c (List.mem_cons_of_mem _ hc)]
      dsimp only
      rw [if_neg (by omega), List.map_cons]

section Convert

/-- Nothing is left of what was converted when an exception is thrown. -/
def ConvertToUTF16 (input : List UInt8) : List UInt8 :=
  match utf8to16 input with
  | none => []
  | some tmp => tmp.flatMap (leBytes 2)

/-- `none` where a byte behind the end of the input is read. -/
def ConvertFromUTF16 (input : List UInt8) : Option (List UInt8) :=
  if input.length % 2 = 0 then some (utf16to8 ((pieces 2 input).map fun u => UInt16.ofNat (leValue u))) else none

theorem length_ConvertToUTF16_le {input s : List UInt8} (h : ConvertFromUTF16 input = some s) :
    (ConvertToUTF16 s).length ≤ input.length := by
  unfold ConvertFromUTF16 at h
  split at h
  · next heven =>
    cases h
    unfold ConvertToUTF16
    split
    · exact Nat.zero_le _
    · next tmp htmp =>
      have hle := length_utf8to16_utf16to8 htmp
      rw [List.length_map, length_pieces (by omega)] at hle
      rw [length_flatMap_fixed (fun _ => length_leBytes 2 _)]
      omega
  · cases h

end Convert

end utf8
