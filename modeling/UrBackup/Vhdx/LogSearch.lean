import UrBackup.Vhdx.LogEntry

namespace urbackup.vhdxlog

open stringtools filedata vhdxheader

structure LogSequence where
  entries : List Nat
  max_sequence : Int64
  fsize : Int64
  deriving DecidableEq

def LogSequence.empty : LogSequence :=
  ⟨[], -1, -1⟩

/-- The file of an image with the place of its log and the GUID of the entries. -/
structure LogArea where
  file : Bytes
  LogGuid : Bytes
  LogOffset : Nat
  LogLength : Nat

namespace LogArea

variable (l : LogArea)

def stop : Nat :=
  l.LogOffset + l.LogLength

def readLogEntry (off : Nat) : Option LogEntry :=
  vhdxlog.readLogEntry l.file l.LogGuid off

section Search

def validateSequence (seq : LogSequence) : Option LogSequence :=
  match seq.entries.head?, seq.entries.getLast? with
  | some first, some last =>
    match l.readLogEntry last with
    | none => none
    | some head =>
      if head.sequence_number = -1 then some { seq with entries := [] }
      else if l.LogOffset + head.tail_pos ≠ first then some { seq with entries := [] }
      else some seq
  | _, _ => some seq

def wrap (off : Nat) : Nat :=
  (off - l.LogOffset) % l.LogLength + l.LogOffset

/-- The sequence that starts at `off`, and where the search goes on. `none` where the
fuel is used up, something is read outside of a buffer or a number overflows. -/
def findSequence : Nat → Nat → Int64 → LogSequence → Option (LogSequence × Nat)
  | 0, _, _, _ => none
  | fuel + 1, off, expected_seq, seq =>
    match l.readLogEntry off with
    | none => none
    | some loge =>
      if loge.sequence_number = -1 then (l.validateSequence seq).map fun seq => (seq, off + 4096)
      else if expected_seq ≠ 0 ∧ expected_seq ≠ loge.sequence_number then (l.validateSequence seq).map fun seq => (seq, off)
      else if loge.sequence_number = Int64.maxValue then none
      else
        findSequence fuel (l.wrap (off + loge.length)) (loge.sequence_number + 1)
          ⟨seq.entries ++ [off], loge.sequence_number, loge.fsize⟩

def searchLog : Nat → Nat → LogSequence → Option LogSequence
  | 0, _, _ => none
  | fuel + 1, log_pos, max_seq =>
    if log_pos < l.stop then
      match l.findSequence fuel log_pos 0 .empty with
      | none => none
      | some (seq, log_pos) => searchLog fuel log_pos (if seq.max_sequence > max_seq.max_sequence then seq else max_seq)
    else some max_seq

def findLogSequence (fuel : Nat) : Option LogSequence :=
  l.searchLog fuel l.LogOffset { LogSequence.empty with max_sequence := 0 }

end Search

section Walk

/-- What is read at a position; an entry that is not valid where nothing is. -/
def entryAt (pos : Nat) : LogEntry :=
  (l.readLogEntry pos).getD .unread

/-- Behind an entry, around the end of the log, or one sector on where there is none. -/
def behind (pos : Nat) : Nat :=
  if (l.entryAt pos).sequence_number = -1 then pos + 4096 else l.wrap (pos + (l.entryAt pos).length)

/-- The positions one comes to from the start of the log. -/
def walk : Nat → Nat
  | 0 => l.LogOffset
  | i + 1 => l.behind (walk i)

def number (i : Nat) : Int64 :=
  (l.entryAt (l.walk i)).sequence_number

def IsEntry (i : Nat) : Prop :=
  l.number i ≠ -1

/-- The entry `i` is continued by the one behind it. -/
def Follows (i : Nat) : Prop :=
  l.IsEntry i ∧ l.IsEntry (i + 1) ∧ l.number (i + 1) = l.number i + 1

instance (i : Nat) : Decidable (l.IsEntry i) :=
  inferInstanceAs (Decidable (_ ≠ _))

instance (i : Nat) : Decidable (l.Follows i) :=
  inferInstanceAs (Decidable (_ ∧ _ ∧ _))

/-- The walk did not leave the log yet. -/
def Within (i : Nat) : Prop :=
  ∀ j ≤ i, l.walk j < l.stop

/-- The entry can be read without leaving its buffer, and there is a number after its
own. -/
def Readable (i : Nat) : Prop :=
  l.readLogEntry (l.walk i) ≠ none ∧ l.number i ≠ Int64.maxValue

/-- The walk comes to the end of the log. -/
def Leaves : Prop :=
  ∃ n, l.stop ≤ l.walk n ∧ ∀ i < n, l.walk i < l.stop ∧ l.Readable i

/-- Where the sequence of the entry `i` starts. -/
def chainStart : Nat → Nat
  | 0 => 0
  | i + 1 => if l.Follows i then chainStart i else i + 1

/-- The tail of the last entry is the first one. -/
def Valid (a b : Nat) : Prop :=
  l.LogOffset + (l.entryAt (l.walk b)).tail_pos = l.walk a

/-- The entries from `a` to `b`, one the continuation of the other, with the tail at
the first one. -/
structure ValidSequence (a b : Nat) : Prop where
  le : a ≤ b
  within : l.Within b
  entry : l.IsEntry b
  follows : ∀ i, a ≤ i → i < b → l.Follows i
  valid : l.Valid a b

instance (a b : Nat) : Decidable (l.Valid a b) :=
  inferInstanceAs (Decidable (_ = _))

def positions (a n : Nat) : List Nat :=
  (List.range' a n).map l.walk

/-- The valid sequence with the highest number, or no entries where none is valid. -/
def IsHighest (seq : LogSequence) : Prop :=
  (∃ a b, l.ValidSequence a b ∧ seq.entries = l.positions a (b + 1 - a) ∧ seq.max_sequence = l.number b ∧
    ∀ a' b', l.ValidSequence a' b' → l.number b' ≤ l.number b) ∨
  (seq.entries = [] ∧ ∀ a b, ¬ l.ValidSequence a b)

/-- The search ends with the valid sequence of the highest number. -/
def FindsHighest : Prop :=
  ∃ fuel seq, l.findLogSequence fuel = some seq ∧ l.IsHighest seq

/-- The first of the entries with the highest number. -/
structure FirstHighest (i : Nat) : Prop where
  within : l.Within i
  entry : l.IsEntry i
  first : ∀ j < i, l.IsEntry j → l.number j < l.number i
  highest : ∀ j, l.Within j → l.IsEntry j → l.number j ≤ l.number i

/-- The entry with the highest number ends a valid sequence, if there is a valid one
at all. -/
def HighestIsValid : Prop :=
  (∀ a b, ¬ l.ValidSequence a b) ∨ ∃ i, l.FirstHighest i ∧ 0 < l.number i ∧ l.Valid (l.chainStart i) i

end Walk

end LogArea

theorem lt_add_one {n : Int64} (h : n ≠ Int64.maxValue) : n < n + 1 := by
  have hlt := n.toInt_lt
  have hge := n.le_toInt
  have hne : n.toInt ≠ 2 ^ 63 - 1 := fun heq => h (Int64.toInt_inj.mp (heq.trans Int64.toInt_maxValue.symm))
  have hone : (1 : Int64).toInt = 1 := rfl
  rw [Int64.lt_iff_toInt_lt, Int64.toInt_add, hone, Int.bmod_eq_of_le (by omega) (by omega)]
  omega

namespace LogArea

variable {l : LogArea}

section Chain

/-- The entries from `a` on, before `j`, follow each other. -/
structure Chain (l : LogArea) (a j : Nat) : Prop where
  le : a ≤ j
  entry : ∀ i, a ≤ i → i < j → l.IsEntry i ∧ l.Readable i
  follows : ∀ i, a ≤ i → i + 1 < j → l.Follows i

/-- What is collected for them. -/
def seqOf (l : LogArea) (a j : Nat) : LogSequence :=
  if a < j then ⟨l.positions a (j - a), l.number (j - 1), (l.entryAt (l.walk (j - 1))).fsize⟩ else .empty

def expectedOf (l : LogArea) (a j : Nat) : Int64 :=
  if a < j then l.number (j - 1) + 1 else 0

theorem positions_succ {a j : Nat} (h : a ≤ j) : l.positions a (j + 1 - a) = l.positions a (j - a) ++ [l.walk j] := by
  have hlen : j + 1 - a = j - a + 1 := by omega
  have hlast : a + 1 * (j - a) = j := by omega
  rw [positions, hlen, List.range'_concat, List.map_append, hlast]
  rfl

theorem entryAt_of_read {pos : Nat} {loge : LogEntry} (h : l.readLogEntry pos = some loge) : l.entryAt pos = loge := by
  rw [entryAt, h]
  rfl

theorem seqOf_succ {a j : Nat} (h : a ≤ j) :
    l.seqOf a (j + 1) =
      ⟨(l.seqOf a j).entries ++ [l.walk j], l.number j, (l.entryAt (l.walk j)).fsize⟩ := by
  have hentries : (l.seqOf a j).entries = l.positions a (j - a) := by
    unfold seqOf
    split
    · rfl
    · have hzero : j - a = 0 := by omega
      rw [hzero]
      rfl
  rw [hentries, ← positions_succ h, seqOf, if_pos (by omega), Nat.add_sub_cancel]

theorem Chain.succ {a j : Nat} (h : Chain l a j) (hentry : l.IsEntry j) (hread : l.Readable j)
    (hfollows : a < j → l.Follows (j - 1)) : Chain l a (j + 1) := by
  refine ⟨Nat.le_succ_of_le h.le, fun i hai hij => ?_, fun i hai hij => ?_⟩
  · obtain hij | rfl := Nat.lt_succ_iff_lt_or_eq.mp hij
    · exact h.entry i hai hij
    · exact ⟨hentry, hread⟩
  · by_cases hlast : i + 1 < j
    · exact h.follows i hai hlast
    · have hj : i = j - 1 := by omega
      rw [hj]
      exact hfollows (by omega)

theorem Chain.chainStart {a j : Nat} (h : Chain l a (j + 1)) (haj : a ≤ j) (ha : a = 0 ∨ ¬ l.Follows (a - 1)) :
    l.chainStart j = a := by
  obtain ⟨n, rfl⟩ := Nat.exists_eq_add_of_le haj
  induction n with
  | zero =>
    cases a with
    | zero => rfl
    | succ a =>
      obtain hzero | hfirst := ha
      · omega
      · exact if_neg hfirst
  | succ n ih =>
    have hfollows := h.follows (a + n) (by omega) (by omega)
    rw [← Nat.add_assoc, LogArea.chainStart, if_pos hfollows]
    exact ih ⟨by omega, fun i hai hi => h.entry i hai (by omega), fun i hai hi => h.follows i hai (by omega)⟩ (by omega)

/-- The numbers grow. -/
theorem Chain.number_lt {a j : Nat} (h : Chain l a j) {i k : Nat} (hai : a ≤ i) (hik : i < k) (hkj : k < j) :
    l.number i < l.number k := by
  induction k, hik using Nat.le_induction with
  | base =>
    obtain ⟨-, -, hnumber⟩ := h.follows i hai hkj
    rw [hnumber]
    exact lt_add_one (h.entry i hai (by omega)).2.2
  | succ k hik ih =>
    obtain ⟨-, -, hnumber⟩ := h.follows k (by omega) hkj
    rw [hnumber]
    exact Int64.lt_trans (ih (by omega)) (lt_add_one (h.entry k (by omega) (by omega)).2.2)

/-- What is validated stays if the tail of the last entry is the first one. -/
theorem validateSequence_seqOf {a j : Nat} (h : Chain l a j) :
    l.validateSequence (l.seqOf a j) =
      some (if a < j ∧ ¬ l.Valid a (j - 1) then { l.seqOf a j with entries := [] } else l.seqOf a j) := by
  by_cases haj : a < j
  · obtain ⟨n, rfl⟩ := Nat.exists_eq_add_of_lt haj
    obtain ⟨hentry, hread, -⟩ := h.entry (a + n) (by omega) (by omega)
    obtain ⟨loge, hloge⟩ := Option.ne_none_iff_exists'.mp hread
    have hat := entryAt_of_read hloge
    have hnumber : loge.sequence_number ≠ -1 := by
      rw [← hat]
      exact hentry
    have hlen : a + n + 1 - a = n + 1 := by omega
    have hhead : (l.positions a (n + 1)).head? = some (l.walk a) := rfl
    have hlast : (l.positions a (n + 1)).getLast? = some (l.walk (a + n)) := by
      rw [positions, List.range'_concat, List.map_append, List.map_singleton, List.getLast?_concat, Nat.one_mul]
    rw [seqOf, if_pos haj, hlen, Nat.add_sub_cancel, validateSequence]
    dsimp only
    rw [hhead, hlast]
    dsimp only
    rw [hloge]
    dsimp only
    rw [if_neg hnumber, ← hat]
    by_cases hvalid : l.Valid a (a + n)
    · have htail : l.LogOffset + (l.entryAt (l.walk (a + n))).tail_pos = l.walk a := hvalid
      rw [if_neg (not_not.mpr htail), if_neg fun hcon => hcon.2 hvalid]
    · have htail : l.LogOffset + (l.entryAt (l.walk (a + n))).tail_pos ≠ l.walk a := hvalid
      rw [if_pos htail, if_pos ⟨haj, hvalid⟩]
  · rw [seqOf, if_neg haj, if_neg fun hcon => haj hcon.1]
    rfl

end Chain

section Round

/-- What a round of the search finds: the entries from `a` to before `j`, with the
search to go on at `k`. -/
structure Round (l : LogArea) (a j k : Nat) : Prop where
  chain : Chain l a j
  within : ∀ i, a ≤ i → i ≤ j → l.walk i < l.stop
  read : l.readLogEntry (l.walk j) ≠ none
  next : (¬ l.IsEntry j ∧ k = j + 1) ∨ (l.IsEntry j ∧ a < j ∧ ¬ l.Follows (j - 1) ∧ k = j)

/-- What is found in a round. -/
def found (l : LogArea) (a j : Nat) : LogSequence :=
  if a < j ∧ ¬ l.Valid a (j - 1) then { l.seqOf a j with entries := [] } else l.seqOf a j

theorem walk_succ_lt {i : Nat} (hentry : l.IsEntry i) (hlt : l.walk i < l.stop) (hge : l.LogOffset ≤ l.walk i) :
    l.walk (i + 1) < l.stop := by
  have hlength : 0 < l.LogLength := by
    rw [stop] at hlt
    omega
  have hmod := Nat.mod_lt (l.walk i + (l.entryAt (l.walk i)).length - l.LogOffset) hlength
  have hbehind : l.walk (i + 1) = l.wrap (l.walk i + (l.entryAt (l.walk i)).length) := if_neg hentry
  rw [hbehind, wrap, stop]
  omega

theorem LogOffset_le_walk (i : Nat) : l.LogOffset ≤ l.walk i := by
  induction i with
  | zero => exact Nat.le_refl _
  | succ i ih =>
    rw [walk, behind]
    split
    · omega
    · rw [wrap]
      omega

/-- The number that is expected tells whether an entry continues the ones before. -/
theorem expected_iff {a i : Nat} (hchain : Chain l a i) (hentry : l.IsEntry i) :
    (l.expectedOf a i ≠ 0 ∧ l.expectedOf a i ≠ l.number i) ↔ a < i ∧ ¬ l.Follows (i - 1) := by
  by_cases hai : a < i
  · obtain ⟨n, rfl⟩ := Nat.exists_eq_add_of_lt hai
    obtain ⟨hbefore, -⟩ := hchain.entry (a + n) (by omega) (by omega)
    have hne : l.number (a + n) + 1 ≠ 0 := by
      intro hzero
      refine hbefore ?_
      have := congrArg (· - 1) hzero
      simpa using this
    rw [expectedOf, if_pos hai, Nat.add_sub_cancel]
    constructor
    · rintro ⟨-, hmismatch⟩
      exact ⟨hai, fun hfollows => hmismatch hfollows.2.2.symm⟩
    · rintro ⟨-, hfollows⟩
      exact ⟨hne, fun heq => hfollows ⟨hbefore, hentry, heq.symm⟩⟩
  · rw [expectedOf, if_neg hai]
    exact iff_of_false (fun h => h.1 rfl) fun h => hai h.1

/-- The cases of a round in terms of the walk. -/
theorem findSequence_walk {fuel a i : Nat} (hchain : Chain l a i) (hread : l.readLogEntry (l.walk i) ≠ none) :
    l.findSequence (fuel + 1) (l.walk i) (l.expectedOf a i) (l.seqOf a i) =
      if l.number i = -1 then some (l.found a i, l.walk (i + 1))
      else if a < i ∧ ¬ l.Follows (i - 1) then some (l.found a i, l.walk i)
      else if l.number i = Int64.maxValue then none
      else l.findSequence fuel (l.walk (i + 1)) (l.expectedOf a (i + 1)) (l.seqOf a (i + 1)) := by
  obtain ⟨loge, hloge⟩ := Option.ne_none_iff_exists'.mp hread
  have hat := entryAt_of_read hloge
  have hnumber : loge.sequence_number = l.number i := by rw [number, hat]
  have hseq := seqOf_succ (l := l) hchain.le
  have hexpect : l.expectedOf a (i + 1) = l.number i + 1 := by
    have := hchain.le
    rw [expectedOf, if_pos (by omega), Nat.add_sub_cancel]
  rw [hat] at hseq
  rw [findSequence, hloge, validateSequence_seqOf hchain, hseq, hexpect]
  dsimp only [Option.map_some]
  rw [hnumber]
  by_cases hentry : l.number i = -1
  · have hnext : l.walk i + 4096 = l.walk (i + 1) := (if_pos hentry).symm
    rw [if_pos hentry, if_pos hentry, hnext]
    rfl
  · have hnext : l.wrap (l.walk i + loge.length) = l.walk (i + 1) := by
      rw [← hat]
      exact (if_neg hentry).symm
    rw [if_neg hentry, if_neg hentry, hnext]
    simp only [expected_iff hchain hentry]
    rfl

theorem Chain.next {a i : Nat} (hchain : Chain l a i) (hentry : ¬ l.number i = -1) (hread : l.Readable i)
    (hfollows : ¬ (a < i ∧ ¬ l.Follows (i - 1))) : Chain l a (i + 1) :=
  hchain.succ hentry hread fun hai => Decidable.of_not_not fun hcon => hfollows ⟨hai, hcon⟩

theorem findSequence_sound {fuel a i : Nat} {seq : LogSequence} {pos : Nat} (hchain : Chain l a i)
    (hwithin : ∀ j, a ≤ j → j ≤ i → l.walk j < l.stop)
    (h : l.findSequence fuel (l.walk i) (l.expectedOf a i) (l.seqOf a i) = some (seq, pos)) :
    ∃ j k, i ≤ j ∧ Round l a j k ∧ seq = l.found a j ∧ pos = l.walk k := by
  induction fuel generalizing i with
  | zero => cases h
  | succ fuel ih =>
    have hread : l.readLogEntry (l.walk i) ≠ none := by
      intro hnone
      rw [findSequence, hnone] at h
      cases h
    rw [findSequence_walk hchain hread] at h
    split at h
    · next hinvalid =>
      cases h
      exact ⟨i, i + 1, Nat.le_refl i, ⟨hchain, hwithin, hread, Or.inl ⟨not_not.mpr hinvalid, rfl⟩⟩, rfl, rfl⟩
    · next hentry =>
      split at h
      · next hbreak =>
        cases h
        exact ⟨i, i, Nat.le_refl i, ⟨hchain, hwithin, hread, Or.inr ⟨hentry, hbreak.1, hbreak.2, rfl⟩⟩, rfl, rfl⟩
      · next hbreak =>
        split at h
        · cases h
        · next hmax =>
          obtain ⟨j, k, hij, hround⟩ := ih (hchain.next hentry ⟨hread, hmax⟩ hbreak) (fun j haj hj => by
            obtain hj | rfl := Nat.le_succ_iff.mp hj
            · exact hwithin j haj hj
            · exact walk_succ_lt hentry (hwithin i hchain.le (Nat.le_refl i)) (LogOffset_le_walk i)) h
          exact ⟨j, k, by omega, hround⟩

/-- With enough fuel a round ends before the walk leaves the log. -/
theorem findSequence_total {fuel a i n : Nat} (hchain : Chain l a i) (hfuel : n - i ≤ fuel) (hin : i < n)
    (hstop : l.stop ≤ l.walk n) (hread : ∀ j < n, l.walk j < l.stop ∧ l.Readable j) :
    ∃ seq pos, l.findSequence fuel (l.walk i) (l.expectedOf a i) (l.seqOf a i) = some (seq, pos) := by
  induction fuel generalizing i with
  | zero => omega
  | succ fuel ih =>
    obtain ⟨hwithin, hreadable⟩ := hread i hin
    rw [findSequence_walk hchain hreadable.1]
    split
    · exact ⟨_, _, rfl⟩
    · next hentry =>
      split
      · exact ⟨_, _, rfl⟩
      · next hbreak =>
        rw [if_neg hreadable.2]
        have hlt := walk_succ_lt hentry hwithin (LogOffset_le_walk i)
        refine ih (hchain.next hentry hreadable hbreak) (by omega) ?_
        obtain hlast | rfl := Nat.lt_or_eq_of_le (Nat.succ_le_of_lt hin)
        · exact hlast
        · exact absurd hstop (Nat.not_le.mpr hlt)

theorem Round.lt {a j k : Nat} (h : Round l a j k) : a < k := by
  have := h.chain.le
  obtain ⟨-, rfl⟩ | ⟨-, haj, -, rfl⟩ := h.next
  · omega
  · exact haj

theorem Round.breaks {a j k : Nat} (h : Round l a j k) : ¬ l.Follows (k - 1) := by
  obtain ⟨hentry, rfl⟩ | ⟨-, -, hfollows, rfl⟩ := h.next
  · rw [Nat.add_sub_cancel]
    exact fun hfollows => hentry hfollows.1
  · exact hfollows

/-- The positions of a round are within the log. -/
theorem Round.readable {a j k : Nat} (h : Round l a j k) {i : Nat} (hai : a ≤ i) (hik : i < k) :
    l.walk i < l.stop ∧ l.Readable i := by
  by_cases hij : i < j
  · exact ⟨h.within i hai (Nat.le_of_lt hij), (h.chain.entry i hai hij).2⟩
  · obtain ⟨hentry, rfl⟩ | ⟨-, -, -, rfl⟩ := h.next
    · obtain rfl : i = j := by omega
      refine ⟨h.within i hai (Nat.le_refl i), h.read, fun hmax => ?_⟩
      rw [IsEntry, not_not, hmax] at hentry
      exact absurd hentry (by decide)
    · omega

theorem Round.entries {a j k : Nat} (h : Round l a j k) {i : Nat} (hik : i < k) (hentry : l.IsEntry i) : i < j := by
  obtain ⟨hnone, rfl⟩ | ⟨-, -, -, rfl⟩ := h.next
  · obtain hij | rfl := Nat.lt_succ_iff_lt_or_eq.mp hik
    · exact hij
    · exact absurd hentry hnone
  · exact hik

theorem found_max {a j : Nat} : (l.found a j).max_sequence = if a < j then l.number (j - 1) else -1 := by
  have hmax : (l.found a j).max_sequence = (l.seqOf a j).max_sequence := by
    unfold found
    split
    · rfl
    · rfl
  rw [hmax, seqOf]
  split
  · rfl
  · rfl

end Round

section Rounds

/-- What the search has found before the entry `n`. -/
structure Best (l : LogArea) (n : Nat) (m : LogSequence) : Prop where
  positive : 0 ≤ m.max_sequence
  highest : ∀ i < n, l.IsEntry i → l.number i ≤ m.max_sequence
  found : (m.entries = [] ∧ m.max_sequence = 0) ∨ ∃ h < n, Chain l (l.chainStart h) (h + 1) ∧ l.chainStart h ≤ h ∧
    (∀ i < h, l.IsEntry i → l.number i < l.number h) ∧ 0 < l.number h ∧ m = l.found (l.chainStart h) (h + 1)

theorem best_round {a j k : Nat} {m : LogSequence} (hbest : Best l a m) (hround : Round l a j k)
    (hbreak : a = 0 ∨ ¬ l.Follows (a - 1)) :
    Best l k (if (l.found a j).max_sequence > m.max_sequence then l.found a j else m) := by
  have hak := hround.lt
  rw [found_max]
  by_cases haj : a < j
  · rw [if_pos haj]
    obtain ⟨n, rfl⟩ := Nat.exists_eq_add_of_lt haj
    rw [Nat.add_sub_cancel]
    have hlast : ∀ i, a ≤ i → i < a + n → l.number i < l.number (a + n) := fun i hai hi =>
      hround.chain.number_lt hai hi (by omega)
    split
    · next hmore =>
      have hbefore : ∀ i < a, l.IsEntry i → l.number i < l.number (a + n) := fun i hia hentry =>
        Int64.lt_of_le_of_lt (hbest.highest i hia hentry) hmore
      have hstart := hround.chain.chainStart (Nat.le_add_right a n) hbreak
      have hk : a + n < k := by
        obtain ⟨-, rfl⟩ | ⟨-, -, -, rfl⟩ := hround.next
        · omega
        · omega
      refine ⟨?_, fun i hik hentry => ?_, Or.inr ⟨a + n, hk, ?_, ?_, fun i hi hentry => ?_, ?_, ?_⟩⟩
      · rw [found_max, if_pos haj, Nat.add_sub_cancel]
        exact Int64.le_of_lt (Int64.lt_of_le_of_lt hbest.positive hmore)
      · rw [found_max, if_pos haj, Nat.add_sub_cancel]
        have hij := hround.entries hik hentry
        by_cases hai : a ≤ i
        · obtain hi | rfl := Nat.lt_succ_iff_lt_or_eq.mp hij
          · exact Int64.le_of_lt (hlast i hai hi)
          · exact Int64.le_refl _
        · exact Int64.le_of_lt (hbefore i (by omega) hentry)
      · rw [hstart]
        exact hround.chain
      · rw [hstart]
        omega
      · by_cases hai : a ≤ i
        · exact hlast i hai hi
        · exact hbefore i (by omega) hentry
      · exact Int64.lt_of_le_of_lt hbest.positive hmore
      · rw [hstart]
    · next hless =>
      refine ⟨hbest.positive, fun i hik hentry => ?_, ?_⟩
      · by_cases hai : a ≤ i
        · have hle : l.number i ≤ l.number (a + n) := by
            obtain hi | rfl := Nat.lt_succ_iff_lt_or_eq.mp (hround.entries hik hentry)
            · exact Int64.le_of_lt (hlast i hai hi)
            · exact Int64.le_refl _
          exact Int64.le_trans hle (Int64.not_lt.mp hless)
        · exact hbest.highest i (by omega) hentry
      · obtain hnone | ⟨h, hha, hrest⟩ := hbest.found
        · exact Or.inl hnone
        · exact Or.inr ⟨h, by omega, hrest⟩
  · have hneg : ¬ (-1 : Int64) > m.max_sequence := fun hlt =>
      absurd (Int64.lt_of_le_of_lt hbest.positive hlt) (by decide)
    rw [if_neg haj, if_neg hneg]
    refine ⟨hbest.positive, fun i hik hentry => hbest.highest i ?_ hentry, ?_⟩
    · have := hround.entries hik hentry
      omega
    · obtain hnone | ⟨h, hha, hrest⟩ := hbest.found
      · exact Or.inl hnone
      · exact Or.inr ⟨h, by omega, hrest⟩

theorem chain_refl (a : Nat) : Chain l a a :=
  ⟨Nat.le_refl a, fun i hai hia => absurd hia (Nat.not_lt.mpr hai), fun i hai hia => by omega⟩

theorem findSequence_start (fuel a : Nat) : l.findSequence fuel (l.walk a) 0 .empty =
    l.findSequence fuel (l.walk a) (l.expectedOf a a) (l.seqOf a a) := by
  rw [expectedOf, seqOf, if_neg (Nat.lt_irrefl a), if_neg (Nat.lt_irrefl a)]

theorem searchLog_sound {fuel a : Nat} {m r : LogSequence} (hbest : Best l a m) (hbreak : a = 0 ∨ ¬ l.Follows (a - 1))
    (hgood : ∀ i < a, l.walk i < l.stop ∧ l.Readable i) (h : l.searchLog fuel (l.walk a) m = some r) :
    ∃ n, l.stop ≤ l.walk n ∧ (∀ i < n, l.walk i < l.stop ∧ l.Readable i) ∧ Best l n r := by
  induction fuel generalizing a m with
  | zero => cases h
  | succ fuel ih =>
    rw [searchLog] at h
    split at h
    · next hlt =>
      split at h
      · cases h
      · next seq pos hfind =>
        rw [findSequence_start] at hfind
        obtain ⟨j, k, -, hround, rfl, rfl⟩ := findSequence_sound (chain_refl a) (fun i hai hia => by
          obtain rfl : i = a := by omega
          exact hlt) hfind
        refine ih (best_round hbest hround hbreak) (Or.inr hround.breaks) (fun i hik => ?_) h
        by_cases hai : a ≤ i
        · exact hround.readable hai hik
        · exact hgood i (by omega)
    · next hge =>
      cases h
      exact ⟨a, Nat.not_lt.mp hge, hgood, hbest⟩

theorem searchLog_total {fuel a n : Nat} (m : LogSequence) (hfuel : n - a < fuel) (han : a ≤ n) (hstop : l.stop ≤ l.walk n)
    (hread : ∀ i < n, l.walk i < l.stop ∧ l.Readable i) : ∃ r, l.searchLog fuel (l.walk a) m = some r := by
  induction fuel generalizing a m with
  | zero => omega
  | succ fuel ih =>
    rw [searchLog]
    split
    · next hlt =>
      have han' : a < n := by
        obtain h | rfl := Nat.lt_or_eq_of_le han
        · exact h
        · omega
      obtain ⟨seq, pos, hfind⟩ := @findSequence_total _ fuel _ _ _ (chain_refl a) (by omega) han' hstop hread
      obtain ⟨j, k, -, hround, rfl, rfl⟩ := findSequence_sound (chain_refl a) (fun i hai hia => by
        obtain rfl : i = a := by omega
        exact hlt) hfind
      have hak := hround.lt
      have hkn : k ≤ n := by
        by_contra hcon
        exact absurd hstop (Nat.not_le.mpr (hround.readable han (by omega)).1)
      rw [findSequence_start, hfind]
      exact ih _ (by omega) hkn
    · exact ⟨m, rfl⟩

end Rounds

section Highest

theorem within_iff {n : Nat} (hstop : l.stop ≤ l.walk n) (hread : ∀ i < n, l.walk i < l.stop ∧ l.Readable i) (i : Nat) :
    l.Within i ↔ i < n := by
  constructor
  · intro h
    by_contra hcon
    exact absurd hstop (Nat.not_le.mpr (h n (Nat.not_lt.mp hcon)))
  · intro hin j hj
    exact (hread j (by omega)).1

theorem FirstHighest.unique {i j : Nat} (hi : l.FirstHighest i) (hj : l.FirstHighest j) : i = j := by
  obtain hlt | heq | hlt := Nat.lt_trichotomy i j
  · exact absurd (hi.highest j hj.within hj.entry) (Int64.not_le.mpr (hj.first i hlt hi.entry))
  · exact heq
  · exact absurd (hj.highest i hi.within hi.entry) (Int64.not_le.mpr (hi.first j hlt hj.entry))

/-- Without entries there is no valid sequence. -/
theorem isHighest_nil {seq : LogSequence} (h : seq.entries = []) : l.IsHighest seq ↔ ∀ a b, ¬ l.ValidSequence a b := by
  constructor
  · rintro (⟨a, b, hvalid, hentries, -⟩ | ⟨-, hnone⟩)
    · have hlen := congrArg List.length hentries
      have := hvalid.le
      rw [h, positions, List.length_map, List.length_range', List.length_nil] at hlen
      omega
    · exact hnone
  · exact fun hnone => Or.inr ⟨h, hnone⟩

theorem isHighest_iff {n : Nat} {r : LogSequence} (hstop : l.stop ≤ l.walk n)
    (hread : ∀ i < n, l.walk i < l.stop ∧ l.Readable i) (hbest : Best l n r) : l.IsHighest r ↔ l.HighestIsValid := by
  have hwithin := within_iff hstop hread
  obtain ⟨hentries, hzero⟩ | ⟨h, hhn, hchain, hle, hfirst, hpositive, rfl⟩ := hbest.found
  · rw [isHighest_nil hentries]
    refine ⟨Or.inl, ?_⟩
    rintro (hnone | ⟨i, hi, hpositive, -⟩)
    · exact hnone
    · have hi' := hbest.highest i ((hwithin i).mp hi.within) hi.entry
      rw [hzero] at hi'
      exact absurd hi' (Int64.not_le.mpr hpositive)
  · have hnumber : (l.found (l.chainStart h) (h + 1)).max_sequence = l.number h := by
      rw [found_max, if_pos (by omega), Nat.add_sub_cancel]
    have hhighest : l.FirstHighest h := by
      refine ⟨(hwithin h).mpr hhn, (hchain.entry h hle (by omega)).1, hfirst, fun j hj hentry => ?_⟩
      rw [← hnumber]
      exact hbest.highest j ((hwithin j).mp hj) hentry
    by_cases hvalid : l.Valid (l.chainStart h) h
    · have hfound : l.found (l.chainStart h) (h + 1) = l.seqOf (l.chainStart h) (h + 1) :=
        if_neg fun hcon => hcon.2 hvalid
      refine iff_of_true (Or.inl ⟨l.chainStart h, h, ?_, ?_, hnumber, fun a b hab => ?_⟩)
        (Or.inr ⟨h, hhighest, hpositive, hvalid⟩)
      · exact ⟨hle, hhighest.within, hhighest.entry, fun i hai hih => hchain.follows i hai (by omega), hvalid⟩
      · rw [hfound, seqOf, if_pos (by omega)]
      · exact hhighest.highest b hab.within hab.entry
    · have hnone : (l.found (l.chainStart h) (h + 1)).entries = [] := by
        rw [found, if_pos ⟨by omega, hvalid⟩]
      rw [isHighest_nil hnone]
      refine ⟨Or.inl, ?_⟩
      rintro (hnone | ⟨i, hi, -, hi'⟩)
      · exact hnone
      · rw [hi.unique hhighest] at hi'
        exact absurd hi' hvalid

/-- The search ends with the highest valid sequence exactly if one comes to the end of
the log and the entry with the highest number ends a valid sequence. -/
theorem findsHighest_iff (l : LogArea) : l.FindsHighest ↔ l.Leaves ∧ l.HighestIsValid := by
  have hstart : Best l 0 { LogSequence.empty with max_sequence := 0 } :=
    ⟨Int64.le_refl 0, fun i hi => absurd hi (Nat.not_lt_zero i), Or.inl ⟨rfl, rfl⟩⟩
  have hnothing : ∀ i < 0, l.walk i < l.stop ∧ l.Readable i := fun i hi => absurd hi (Nat.not_lt_zero i)
  constructor
  · rintro ⟨fuel, seq, hfind, hhighest⟩
    obtain ⟨n, hstop, hread, hbest⟩ := searchLog_sound hstart (Or.inl rfl) hnothing hfind
    exact ⟨⟨n, hstop, hread⟩, (isHighest_iff hstop hread hbest).mp hhighest⟩
  · rintro ⟨⟨n, hstop, hread⟩, hvalid⟩
    obtain ⟨seq, hfind⟩ := searchLog_total (a := 0) { LogSequence.empty with max_sequence := 0 } (Nat.lt_succ_self n)
      (Nat.zero_le n) hstop hread
    obtain ⟨n', hstop', hread', hbest⟩ := searchLog_sound hstart (Or.inl rfl) hnothing hfind
    exact ⟨n + 1, seq, hfind, (isHighest_iff hstop' hread' hbest).mpr hvalid⟩

end Highest

end LogArea

end urbackup.vhdxlog
