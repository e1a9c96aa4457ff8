import UrBackup.FileList.StringTools

namespace urbackup.glob

open stringtools

def isWild (c : UInt8) : Bool :=
  c = '*'.toUInt8 ∨ c = ':'.toUInt8

def isSep (c : UInt8) : Bool :=
  c = '/'.toUInt8 ∨ c = '\\'.toUInt8

/-- A `char` is a signed number. -/
def less (c d : UInt8) : Bool :=
  c.toInt8 < d.toInt8

section Sets

/-- The loop over a set, which ends with a match or in front of the bracket that closes the set. `none` if the
pattern ends. -/
def csetLoop (s : UInt8) : Bytes → Option (Bool × Bytes)
  | [] => none
  | [_] => none
  | c :: d :: p =>
    if d = '-'.toUInt8 then
      match p with
      | [] => none
      | e :: p =>
        if e ≠ ']'.toUInt8 then
          if s = c ∨ s = e ∨ (less c s ∧ less s e) then some (true, e :: p) else csetLoop s (e :: p)
        else some (s = c ∨ less c s, e :: p)
    else if d ≠ ']'.toUInt8 then
      if c = s ∨ d = s then some (true, d :: p) else csetLoop s (d :: p)
    else some (c = s, d :: p)

/-- What a set comes to. -/
inductive Cset
  | failed
  | matched (p : Bytes)
  | behind

/-- A set from behind its opening bracket on. With nothing behind a negation the loop leaves the pattern. -/
def cset (s : UInt8) (p : Bytes) : Cset :=
  let negate : Bool := p.head? = some '^'.toUInt8
  let p := if negate then p.tail else p
  if p = [] then if negate then .behind else .failed
  else
    match csetLoop s p with
    | none => .failed
    | some (found, p) =>
      if negate = found then .failed
      else
        match p.dropWhile (· ≠ ']'.toUInt8) with
        | [] => .failed
        | _ :: p => .matched p

theorem csetLoop_pair {s c d : UInt8} (hd : d ≠ '-'.toUInt8) (p : Bytes) : csetLoop s (c :: d :: p) =
    if d ≠ ']'.toUInt8 then if c = s ∨ d = s then some (true, d :: p) else csetLoop s (d :: p) else some (c = s, d :: p) := by
  rw [csetLoop.eq_def]
  simp only [if_neg hd]

/-- Only what is behind the first character is left. -/
theorem csetLoop_suffix {s : UInt8} {p p' : Bytes} {found : Bool} (h : csetLoop s p = some (found, p')) : p' <:+ p.tail := by
  fun_induction csetLoop s p with
  | case1 | case2 | case3 => cases h
  | case4 | case6 =>
    cases h
    exact List.suffix_cons _ _
  | case7 | case9 =>
    cases h
    exact List.suffix_rfl
  | case5 c e p _ _ ih => exact (ih h).trans ((List.suffix_cons _ _).trans (List.suffix_cons _ _))
  | case8 c d p _ _ _ ih => exact (ih h).trans (List.suffix_cons _ _)

theorem cset_length {s : UInt8} {p p' : Bytes} (h : cset s p = .matched p') : p'.length < p.length := by
  unfold cset at h
  simp only at h
  generalize hp : (if (decide (p.head? = some '^'.toUInt8)) = true then p.tail else p) = body at h
  have hbody : body.length ≤ p.length := by
    rw [← hp]
    split
    · simp
    · exact Nat.le_refl _
  split at h
  · split at h <;> cases h
  · split at h
    · cases h
    next found q hloop =>
      split at h
      · cases h
      · split at h
        · cases h
        next c rest hrest =>
          cases h
          have hle := (csetLoop_suffix hloop).length_le
          rw [List.length_tail] at hle
          have hdrop := (List.dropWhile_suffix (l := q) (p := fun x => decide (x ≠ ']'.toUInt8))).length_le
          rw [hrest, List.length_cons] at hdrop
          omega

end Sets

section Wildcards

/-- Whether the character behind a wildcard is one to look for. -/
def looksFor (p : Bytes) : Bool :=
  p.head? ≠ some '?'.toUInt8 ∧ p.head? ≠ some '['.toUInt8 ∧ p.head? ≠ some '\\'.toUInt8

def skip (np : Bool) (p str : Bytes) : Bytes :=
  str.dropWhile fun s => (!np || !isSep s) && p.head? ≠ some s

/-- The rest of a pattern, tried at one place after the other. -/
def tryLoop (np : Bool) (rest : Bytes → Option Bool) : Bytes → Option Bool
  | [] => some false
  | s :: str =>
    match rest (s :: str) with
    | none => none
    | some true => some true
    | some false => if np && isSep s then some false else tryLoop np rest str

end Wildcards

/-- The character that a backslash escapes, itself at the end, and what follows. -/
def escaped : Bytes → UInt8 × Bytes
  | [] => ('\\'.toUInt8, [])
  | c :: p => (c, p)

theorem escaped_length (p : Bytes) : (escaped p).2.length ≤ p.length := by
  cases p <;> simp [escaped]

/-- `none` if what lies behind the pattern is read. -/
def amatch (str : Bytes) : Bytes → Option Bool
  | [] => some str.isEmpty
  | c :: p =>
    if isWild c then
      let np : Bool := c = ':'.toUInt8
      let p' := p.dropWhile isWild
      if !np && p'.isEmpty then some true
      else
        let str := if looksFor p' then skip np p' str else str
        if np && p'.isEmpty && str.isEmpty then some true else tryLoop np (fun str => amatch str p') str
    else
      match str with
      | [] => some false
      | s :: str =>
        if c = '?'.toUInt8 then amatch str p
        else if c = '['.toUInt8 then
          match _hset : cset s p with
          | .failed => some false
          | .behind => none
          | .matched p' => amatch str p'
        else if c = '\\'.toUInt8 then
          if (escaped p).1 ≠ s then some false else amatch str (escaped p).2
        else if c ≠ s then some false
        else amatch str p
termination_by p => p.length
decreasing_by
  · have hle := (List.dropWhile_suffix (l := p) isWild).length_le
    simp only [List.length_cons]
    omega
  · simp
  · have hlt := cset_length _hset
    simp only [List.length_cons]
    omega
  · exact Nat.lt_succ_of_le (escaped_length p)
  · simp

end urbackup.glob
