import Mathlib.Data.BitVec
import Mathlib.Data.Nat.Digits.Defs
import Mathlib.Logic.Function.Basic

namespace urbackup.stringtools

/-- The bytes of a `std::string`. -/
abbrev Bytes := List UInt8

/-- A `std::map<std::string, std::string>`, read through `find`. -/
abbrev StrMap := Bytes → Option Bytes

/-- `std::map::insert` leaves an existing key alone. -/
def insertParam (map : StrMap) (key value : Bytes) : StrMap :=
  if map key = none then Function.update map key (some value) else map

/-- The decimal digits of a number, most significant first. -/
def digitBytes (n : Nat) : Bytes :=
  if n = 0 then [48] else (Nat.digits 10 n).reverse.map fun d => UInt8.ofNat (d + 48)

/-- `convert(long long int)`. -/
def convert (i : BitVec 64) : Bytes :=
  if i.toInt < 0 then 45 :: digitBytes i.toInt.natAbs else digitBytes i.toInt.natAbs

def isDigit (ch : UInt8) : Bool :=
  48 ≤ ch && ch ≤ 57

/-- `isspace` in the C locale. -/
def isSpace (ch : UInt8) : Bool :=
  ch == 32 || (9 ≤ ch && ch ≤ 13)

/-- Blanks, line ends and tabs at both ends are left out. -/
def trim (str : Bytes) : Bytes :=
  let isBlank (ch : UInt8) : Bool := ch == 32 || ch == 13 || ch == 10 || ch == 9
  ((str.dropWhile isBlank).reverse.dropWhile isBlank).reverse

/-- The value of the digits up to the first byte that is none. -/
def leadingNumber (str : Bytes) : Nat :=
  (str.takeWhile isDigit).foldl (fun v ch => 10 * v + (ch.toNat - 48)) 0

/-- The range of a signed 64-bit integer; `strtoll` saturates. -/
def saturate (v : Int) : BitVec 64 :=
  BitVec.ofInt 64 (max (-2 ^ 63) (min (2 ^ 63 - 1) v))

/-- `strtoll(str.c_str(), NULL, 10)`. A NUL ends the number as any other byte
that is no digit does. -/
def os_atoi64 (str : Bytes) : BitVec 64 :=
  match str.dropWhile isSpace with
  | 45 :: rest => saturate (-(leadingNumber rest : Int))
  | 43 :: rest => saturate (leadingNumber rest)
  | rest => saturate (leadingNumber rest)

/-- `getuntil` for a separator of one byte: what stands before it, nothing if
it is missing. -/
def getuntil (sep : UInt8) (data : Bytes) : Bytes :=
  if sep ∈ data then data.takeWhile (· != sep) else []

/-- `getafter` for a separator of one byte. -/
def getafter (sep : UInt8) (data : Bytes) : Bytes :=
  (data.dropWhile (· != sep)).drop 1

/-- One byte of `EscapeParamString`. -/
def escapeParamChar (ch : UInt8) : Bytes :=
  if ch = 37 then [37, 50, 53]
  else if ch = 38 then [37, 50, 54]
  else if ch = 36 then [37, 50, 52]
  else if ch = 47 then [37, 50, 70]
  else if ch = 32 then [37, 50, 48]
  else if ch = 35 then [37, 50, 51]
  else if ch = 43 then [37, 50, 66]
  else if ch = 10 then [37, 48, 65]
  else if ch = 13 then [37, 48, 68]
  else [ch]

def EscapeParamString (pStr : Bytes) : Bytes :=
  pStr.flatMap escapeParamChar

/-- One byte of `EscapePathParamString`. -/
def escapePathParamChar (ch : UInt8) : Bytes :=
  if ch = 37 then [37, 50, 53]
  else if ch = 47 then [37, 50, 70]
  else if ch = 124 then [37, 55, 67]
  else if ch = 59 then [37, 51, 66]
  else [ch]

def EscapePathParamString (pStr : Bytes) : Bytes :=
  pStr.flatMap escapePathParamChar

def EscapeSQLString (pStr : Bytes) : Bytes :=
  pStr.flatMap fun ch => if ch = 39 then [39, 39] else [ch]

/-- `strlower` on one byte, then its place in `hexnum_array`. -/
def hexDigit (ch : UInt8) : Option Nat :=
  let ch := if 65 ≤ ch && ch ≤ 90 then ch + 32 else ch
  if 48 ≤ ch && ch ≤ 57 then some (ch.toNat - 48)
  else if 97 ≤ ch && ch ≤ 102 then some (ch.toNat - 87)
  else none

/-- Bytes that are no hexadecimal digit are passed over. -/
def hexToULong (data : Bytes) : Nat :=
  data.foldl (fun v ch => match hexDigit ch with
    | some j => (v * 16 + j) % 2 ^ 64
    | none => v) 0

/-- A decoded zero is left out, a `%` without two bytes behind it stays. -/
def UnescapeParamString : Bytes → Bytes
  | 37 :: h1 :: h2 :: rest =>
    let ch := UInt8.ofNat (hexToULong [h1, h2])
    (if ch = 0 then [] else [ch]) ++ UnescapeParamString rest
  | ch :: rest => ch :: UnescapeParamString rest
  | [] => []

/-- `htmldecode(str, html, '%')`. -/
def htmldecode (html : Bool) : Bytes → Bytes
  | 37 :: h1 :: h2 :: rest =>
    let ch := UInt8.ofNat (hexToULong [h1, h2])
    let decoded :=
      if ch = 0 then []
      else if html && ch != 45 && ch != 44 && ch != 35 then
        [38, 35] ++ digitBytes ch.toNat ++ [59]
      else [ch]
    decoded ++ htmldecode html rest
  | ch :: rest => (if ch = 43 && !html then 32 else ch) :: htmldecode html rest
  | [] => []

/-- The locals of `ParseParamStrHttp`; `inValue` is `pos==1`. -/
structure ParamState where
  key : Bytes
  value : Bytes
  inValue : Bool
  map : StrMap

def ParamState.insert (st : ParamState) (escape_params : Bool) : StrMap :=
  let wv := htmldecode false st.value
  insertParam st.map st.key (if escape_params then EscapeSQLString wv else wv)

def parseParamChar (escape_params : Bool) (st : ParamState) (ch : UInt8) : ParamState :=
  if ch = 61 && !st.inValue then { st with inValue := true }
  else if (ch = 38 || ch = 36) && st.inValue then
    { key := [], value := [], inValue := false, map := st.insert escape_params }
  else if st.inValue then { st with value := st.value ++ [ch] }
  else { st with key := st.key ++ [ch] }

def ParseParamStrHttp (pStr : Bytes) (map : StrMap) (escape_params : Bool) : StrMap :=
  let st := pStr.foldl (parseParamChar escape_params) ⟨[], [], false, map⟩
  if st.value ≠ [] ∨ st.key ≠ [] then st.insert escape_params else st.map

theorem digit_lt {d : Nat} (h : d < 10) : (UInt8.ofNat (d + 48)).toNat = d + 48 := by
  simp only [UInt8.toNat_ofNat']
  omega

theorem isDigit_ofNat {d : Nat} (h : d < 10) : isDigit (UInt8.ofNat (d + 48)) = true := by
  have := digit_lt h
  simp only [isDigit, Bool.and_eq_true, decide_eq_true_eq, UInt8.le_iff_toNat_le, UInt8.reduceToNat]
  omega

theorem isDigit_digitBytes (n : Nat) : ∀ ch ∈ digitBytes n, isDigit ch = true := by
  unfold digitBytes
  split
  · intro ch hch
    obtain rfl := List.mem_singleton.mp hch
    rfl
  · intro ch hch
    obtain ⟨d, hd, rfl⟩ := List.mem_map.mp hch
    exact isDigit_ofNat (Nat.digits_lt_base (by omega) (List.mem_reverse.mp hd))

/-- Reading digits most significant first undoes writing them so. -/
theorem foldl_digits (ds : List Nat) (hds : ∀ d ∈ ds, d < 10) :
    (ds.reverse.map fun d => UInt8.ofNat (d + 48)).foldl (fun v ch => 10 * v + (ch.toNat - 48)) 0 =
      Nat.ofDigits 10 ds := by
  induction ds with
  | nil => rfl
  | cons d ds ih =>
    obtain ⟨hd, hrest⟩ := List.forall_mem_cons.mp hds
    simp only [List.reverse_cons, List.map_append, List.foldl_append, ih hrest, List.map_cons, List.map_nil,
      List.foldl_cons, List.foldl_nil, digit_lt hd, Nat.ofDigits_cons]
    omega

theorem takeWhile_isDigit {ds rest : Bytes} (hds : ∀ ch ∈ ds, isDigit ch = true)
    (hrest : ∀ ch ∈ rest.head?, isDigit ch = false) : (ds ++ rest).takeWhile isDigit = ds := by
  rw [List.takeWhile_append_of_pos hds]
  cases rest with
  | nil => simp
  | cons ch rest => simp [hrest ch rfl]

theorem leadingNumber_digitBytes (n : Nat) {rest : Bytes} (hrest : ∀ ch ∈ rest.head?, isDigit ch = false) :
    leadingNumber (digitBytes n ++ rest) = n := by
  rw [leadingNumber, takeWhile_isDigit (isDigit_digitBytes n) hrest]
  unfold digitBytes
  split
  · next h => simp [h]
  · rw [foldl_digits _ fun d hd => Nat.digits_lt_base (by omega) hd, Nat.ofDigits_digits]

theorem saturate_toInt (i : BitVec 64) : saturate i.toInt = i := by
  have hlow := i.le_toInt
  have hhigh := i.toInt_lt
  rw [saturate, min_eq_right (by omega), max_eq_right (by omega), BitVec.ofInt_toInt]

theorem digitBytes_cons (n : Nat) : ∃ ch ds, digitBytes n = ch :: ds ∧ isDigit ch = true := by
  cases h : digitBytes n with
  | nil =>
    unfold digitBytes at h
    split at h
    · simp at h
    · next hn => simp [Nat.digits_eq_nil_iff_eq_zero, hn] at h
  | cons ch ds => exact ⟨ch, ds, rfl, isDigit_digitBytes n ch (by simp [h])⟩

theorem not_isSpace_of_isDigit {ch : UInt8} (h : isDigit ch = true) :
    isSpace ch = false ∧ ch ≠ 45 ∧ ch ≠ 43 := by
  simp only [isDigit, Bool.and_eq_true, decide_eq_true_eq] at h
  refine ⟨?_, ?_, ?_⟩
  · simp only [isSpace, Bool.or_eq_false_iff, beq_eq_false_iff_ne, ne_eq, Bool.and_eq_false_iff,
      decide_eq_false_iff_not]
    grind
  · grind
  · grind

/-- `os_atoi64` reads back what `convert` wrote, whatever follows the number. -/
theorem os_atoi64_convert (i : BitVec 64) {rest : Bytes} (hrest : ∀ ch ∈ rest.head?, isDigit ch = false) :
    os_atoi64 (convert i ++ rest) = i := by
  have hnum := leadingNumber_digitBytes i.toInt.natAbs hrest
  unfold convert os_atoi64
  by_cases hneg : i.toInt < 0
  · rw [if_pos hneg, List.cons_append, List.dropWhile_cons_of_neg (by decide)]
    simp only [hnum]
    rw [show -(i.toInt.natAbs : Int) = i.toInt by omega, saturate_toInt]
  · rw [if_neg hneg]
    obtain ⟨ch, ds, hds, hdigit⟩ := digitBytes_cons i.toInt.natAbs
    obtain ⟨hspace, hminus, hplus⟩ := not_isSpace_of_isDigit hdigit
    rw [hds, List.cons_append] at hnum ⊢
    rw [List.dropWhile_cons_of_neg (by simp [hspace])]
    split
    · next heq => exact absurd (List.cons.inj heq).1 hminus
    · next heq => exact absurd (List.cons.inj heq).1 hplus
    · rw [hnum, show (i.toInt.natAbs : Int) = i.toInt by omega, saturate_toInt]

/-- Numbers are written without separators. -/
theorem mem_convert {i : BitVec 64} {ch : UInt8} (h : ch ∈ convert i) : ch = 45 ∨ isDigit ch = true := by
  unfold convert at h
  split at h
  · rcases List.mem_cons.mp h with h | h
    · exact Or.inl h
    · exact Or.inr (isDigit_digitBytes _ ch h)
  · exact Or.inr (isDigit_digitBytes _ ch h)

theorem htmldecode_escapeParamChar (ch : UInt8) (rest : Bytes) :
    htmldecode false (escapeParamChar ch ++ rest) = ch :: htmldecode false rest := by
  unfold escapeParamChar
  repeat' split
  all_goals (try subst_vars)
  all_goals try rfl
  rw [List.singleton_append, htmldecode]
  · simp_all
  · simp_all

theorem htmldecode_EscapeParamString (pStr : Bytes) : htmldecode false (EscapeParamString pStr) = pStr := by
  unfold EscapeParamString
  induction pStr with
  | nil => rfl
  | cons ch pStr ih => rw [List.flatMap_cons, htmldecode_escapeParamChar, ih]

end urbackup.stringtools
