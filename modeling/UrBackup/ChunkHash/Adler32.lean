import Mathlib.Data.Nat.ModEq
import UrBackup.FileList.StringTools

namespace urbackup.chunkhash

open stringtools

/-- The largest prime below 65536. -/
def BASE : Nat := 65521

/-- `DO1` for every byte. -/
def adlerSums (adler sum2 : Nat) (buf : Bytes) : Nat × Nat :=
  buf.foldl (fun sums ch => (sums.1 + ch.toNat, sums.2 + (sums.1 + ch.toNat))) (adler, sum2)

/-- The remainders are taken once at the end; the source takes them early
enough that its 32-bit sums never overflow. -/
def urb_adler32 (adler : Nat) (buf : Bytes) : Nat :=
  let sums := adlerSums (adler % 2 ^ 16) (adler / 2 ^ 16 % 2 ^ 16) buf
  sums.1 % BASE + sums.2 % BASE * 2 ^ 16

/-- `urb_adler32(0, NULL, 0)`. -/
def adler_init : Nat := 1

def urb_adler32_combine (adler1 adler2 len2 : Nat) : Nat :=
  let rem := len2 % BASE
  let sum1 := adler1 % 2 ^ 16
  let sum2 := rem * sum1 % BASE
  let sum1 := sum1 + adler2 % 2 ^ 16 + BASE - 1
  let sum2 := sum2 + adler1 / 2 ^ 16 % 2 ^ 16 + adler2 / 2 ^ 16 % 2 ^ 16 + BASE - rem
  let sum1 := if sum1 ≥ BASE then sum1 - BASE else sum1
  let sum1 := if sum1 ≥ BASE then sum1 - BASE else sum1
  let sum2 := if sum2 ≥ 2 * BASE then sum2 - 2 * BASE else sum2
  let sum2 := if sum2 ≥ BASE then sum2 - BASE else sum2
  sum1 + sum2 * 2 ^ 16

/-- Both sums of a checksum are remainders. -/
def IsAdler (adler : Nat) : Prop :=
  adler % 2 ^ 16 < BASE ∧ adler / 2 ^ 16 < BASE

theorem isAdler_init : IsAdler adler_init :=
  ⟨by decide, by decide⟩

theorem adler_split {a s : Nat} (ha : a < BASE) : (a + s * 2 ^ 16) % 2 ^ 16 = a ∧ (a + s * 2 ^ 16) / 2 ^ 16 = s := by
  unfold BASE at ha
  omega

theorem isAdler_urb_adler32 (adler : Nat) (buf : Bytes) : IsAdler (urb_adler32 adler buf) := by
  have hbase : 0 < BASE := by decide
  obtain ⟨hlow, hhigh⟩ := @adler_split _ ((adlerSums (adler % 2 ^ 16) (adler / 2 ^ 16 % 2 ^ 16) buf).2 % BASE)
    (Nat.mod_lt (adlerSums (adler % 2 ^ 16) (adler / 2 ^ 16 % 2 ^ 16) buf).1 hbase)
  unfold IsAdler urb_adler32
  rw [hlow, hhigh]
  exact ⟨Nat.mod_lt _ hbase, Nat.mod_lt _ hbase⟩

theorem IsAdler.lt {adler : Nat} (h : IsAdler adler) : adler < 256 ^ 4 := by
  have := h.2
  unfold BASE at this
  omega

/-- The sums from another start. -/
theorem adlerSums_start (adler sum2 : Nat) (buf : Bytes) :
    (adlerSums adler sum2 buf).1 = adler + (adlerSums 0 0 buf).1 ∧
      (adlerSums adler sum2 buf).2 = sum2 + buf.length * adler + (adlerSums 0 0 buf).2 := by
  have hgen : ∀ (buf : Bytes) (a s a0 s0 : Nat), (adlerSums (a0 + a) (s0 + s) buf).1 = a0 + (adlerSums a s buf).1 ∧
      (adlerSums (a0 + a) (s0 + s) buf).2 = s0 + buf.length * a0 + (adlerSums a s buf).2 := by
    intro buf
    induction buf with
    | nil => intro a s a0 s0; simp [adlerSums]
    | cons ch buf ih =>
      intro a s a0 s0
      have h := ih (a + ch.toNat) (s + (a + ch.toNat)) a0 (s0 + a0)
      have hstep : ∀ x y, adlerSums x y (ch :: buf) = adlerSums (x + ch.toNat) (y + (x + ch.toNat)) buf := fun _ _ => rfl
      rw [hstep, hstep]
      have hsum : s0 + s + (a0 + a + ch.toNat) = s0 + a0 + (s + (a + ch.toNat)) := by omega
      rw [hsum, Nat.add_assoc a0 a, h.1, h.2, List.length_cons, Nat.succ_mul]
      exact ⟨rfl, by omega⟩
  simpa using hgen buf 0 0 adler sum2

/-- The reduced first sum of a combination. -/
theorem combine_sum1 {a A : Nat} (ha : a < BASE) :
    (let sum1 := a + (1 + A) % BASE + BASE - 1
     let sum1 := if sum1 ≥ BASE then sum1 - BASE else sum1
     if sum1 ≥ BASE then sum1 - BASE else sum1) = (a + A) % BASE := by
  unfold BASE at *
  dsimp only
  split
  · split <;> omega
  · omega

/-- The reduced second sum of a combination. -/
theorem combine_sum2 {t s n S : Nat} (ht : t < BASE) (hs : s < BASE) :
    (let sum2 := t + s + (n + S) % BASE + BASE - n % BASE
     let sum2 := if sum2 ≥ 2 * BASE then sum2 - 2 * BASE else sum2
     if sum2 ≥ BASE then sum2 - BASE else sum2) = (s + t + S) % BASE := by
  unfold BASE at *
  dsimp only
  split <;> split <;> omega

/-- Continuing a checksum is the same as combining it with that of the new
data. -/
theorem urb_adler32_combine_eq {adler : Nat} (h : IsAdler adler) (buf : Bytes) :
    urb_adler32_combine adler (urb_adler32 adler_init buf) buf.length = urb_adler32 adler buf := by
  obtain ⟨ha, hs⟩ := h
  have hinit := adlerSums_start 1 0 buf
  have hcont := adlerSums_start (adler % 2 ^ 16) (adler / 2 ^ 16) buf
  have hs' : adler / 2 ^ 16 % 2 ^ 16 = adler / 2 ^ 16 := Nat.mod_eq_of_lt (by unfold BASE at hs; omega)
  generalize (adlerSums 0 0 buf).1 = A at hinit hcont
  generalize (adlerSums 0 0 buf).2 = S at hinit hcont
  have hstart : urb_adler32 adler_init buf = (1 + A) % BASE + (buf.length + S) % BASE * 2 ^ 16 := by
    show (adlerSums 1 0 buf).1 % BASE + (adlerSums 1 0 buf).2 % BASE * 2 ^ 16 = _
    rw [hinit.1, hinit.2]
    simp
  have hfull : urb_adler32 adler buf = (adler % 2 ^ 16 + A) % BASE +
      (adler / 2 ^ 16 + buf.length * (adler % 2 ^ 16) + S) % BASE * 2 ^ 16 := by
    show (adlerSums (adler % 2 ^ 16) (adler / 2 ^ 16 % 2 ^ 16) buf).1 % BASE +
      (adlerSums (adler % 2 ^ 16) (adler / 2 ^ 16 % 2 ^ 16) buf).2 % BASE * 2 ^ 16 = _
    rw [hs', hcont.1, hcont.2]
  obtain ⟨hlow, hhigh⟩ := @adler_split _ ((buf.length + S) % BASE) (Nat.mod_lt (1 + A) (by decide : 0 < BASE))
  have hhigh' : (buf.length + S) % BASE % 2 ^ 16 = (buf.length + S) % BASE :=
    Nat.mod_eq_of_lt ((Nat.mod_lt _ (by decide : 0 < BASE)).trans (by decide))
  have hprod : (adler / 2 ^ 16 + buf.length * (adler % 2 ^ 16) + S) % BASE =
      (adler / 2 ^ 16 + buf.length % BASE * (adler % 2 ^ 16) % BASE + S) % BASE := by
    have hmul : buf.length * (adler % 2 ^ 16) ≡ buf.length % BASE * (adler % 2 ^ 16) % BASE [MOD BASE] := by
      rw [Nat.ModEq, Nat.mod_mod, Nat.mod_mul_mod]
    exact (hmul.add_left _).add_right _
  rw [hstart, hfull, hprod]
  unfold urb_adler32_combine
  rw [hlow, hhigh, hhigh', hs', ← combine_sum1 ha, ← combine_sum2 (Nat.mod_lt _ (by decide)) hs]

/-- How many bytes can be summed before a remainder has to be taken. -/
def NMAX : Nat := 5552

/-- `DO1` for every byte, in 32-bit sums. -/
def wordSums (adler sum2 : Nat) (buf : Bytes) : Nat × Nat :=
  buf.foldl (fun sums ch => ((sums.1 + ch.toNat) % 2 ^ 32, (sums.2 + (sums.1 + ch.toNat) % 2 ^ 32) % 2 ^ 32)) (adler, sum2)

/-- The loop over the blocks of `NMAX` bytes, and the bytes that remain. -/
def wordBlocks (adler sum2 : Nat) (buf : Bytes) : Nat × Nat :=
  if NMAX ≤ buf.length then
    let sums := wordSums adler sum2 (buf.take NMAX)
    wordBlocks (sums.1 % BASE) (sums.2 % BASE) (buf.drop NMAX)
  else if buf.isEmpty then (adler, sum2)
  else
    let sums := wordSums adler sum2 buf
    (sums.1 % BASE, sums.2 % BASE)
termination_by buf.length
decreasing_by
  simp only [NMAX, List.length_drop] at *
  omega

/-- `urb_adler32` with the ways that the source has for one byte, for less than
sixteen, and for more. -/
def urb_adler32_words (adler : Nat) (buf : Bytes) : Nat :=
  let sum2 := adler / 2 ^ 16 % 2 ^ 16
  let adler := adler % 2 ^ 16
  match buf with
  | [ch] =>
    let adler := adler + ch.toNat
    let adler := if adler ≥ BASE then adler - BASE else adler
    let sum2 := sum2 + adler
    let sum2 := if sum2 ≥ BASE then sum2 - BASE else sum2
    adler ||| sum2 <<< 16
  | buf =>
    if buf.length < 16 then
      let sums := wordSums adler sum2 buf
      let adler := if sums.1 ≥ BASE then sums.1 - BASE else sums.1
      adler ||| (sums.2 % BASE) <<< 16
    else
      let sums := wordBlocks adler sum2 buf
      sums.1 ||| sums.2 <<< 16

theorem adlerSums_cons (adler sum2 : Nat) (ch : UInt8) (buf : Bytes) :
    adlerSums adler sum2 (ch :: buf) = adlerSums (adler + ch.toNat) (sum2 + (adler + ch.toNat)) buf := rfl

theorem adlerSums_append (adler sum2 : Nat) (buf more : Bytes) :
    adlerSums adler sum2 (buf ++ more) =
      adlerSums (adlerSums adler sum2 buf).1 (adlerSums adler sum2 buf).2 more := by
  rw [adlerSums, adlerSums, adlerSums, List.foldl_append]

/-- The remainders of the sums depend on those of the start only. -/
theorem adlerSums_mod (adler sum2 : Nat) (buf : Bytes) :
    (adlerSums (adler % BASE) (sum2 % BASE) buf).1 % BASE = (adlerSums adler sum2 buf).1 % BASE ∧
      (adlerSums (adler % BASE) (sum2 % BASE) buf).2 % BASE = (adlerSums adler sum2 buf).2 % BASE := by
  obtain ⟨hfst, hsnd⟩ := adlerSums_start adler sum2 buf
  obtain ⟨hfst', hsnd'⟩ := adlerSums_start (adler % BASE) (sum2 % BASE) buf
  rw [hfst, hsnd, hfst', hsnd']
  have hadler : adler % BASE ≡ adler [MOD BASE] := Nat.mod_modEq _ _
  have hsum2 : sum2 % BASE ≡ sum2 [MOD BASE] := Nat.mod_modEq _ _
  exact ⟨hadler.add_right _, (hsum2.add (hadler.mul_left _)).add_right _⟩

/-- How large the sums get. -/
theorem adlerSums_le (adler sum2 : Nat) (buf : Bytes) : (adlerSums adler sum2 buf).1 ≤ adler + 255 * buf.length := by
  induction buf generalizing adler sum2 with
  | nil => exact Nat.le_refl _
  | cons ch buf ih =>
    have hch := ch.toNat_lt
    have hrest := ih (adler + ch.toNat) (sum2 + (adler + ch.toNat))
    rw [adlerSums_cons, List.length_cons]
    omega

/-- Sums of few bytes do not overflow. -/
theorem wordSums_eq (adler sum2 : Nat) (buf : Bytes)
    (ha : adler + 255 * buf.length < 2 ^ 32)
    (h : 2 * sum2 + 2 * (buf.length * adler) + 255 * (buf.length * (buf.length + 1)) < 2 ^ 33) :
    wordSums adler sum2 buf = adlerSums adler sum2 buf := by
  induction buf generalizing adler sum2 with
  | nil => rfl
  | cons ch buf ih =>
    have hch := ch.toNat_lt
    have hmul : buf.length * ch.toNat ≤ buf.length * 255 := Nat.mul_le_mul_left _ (by omega)
    simp only [List.length_cons, Nat.add_mul, Nat.mul_add] at ha h
    have hstep : wordSums adler sum2 (ch :: buf) = wordSums (adler + ch.toNat) (sum2 + (adler + ch.toNat)) buf := by
      rw [wordSums, List.foldl_cons]
      dsimp only
      rw [Nat.mod_eq_of_lt (show adler + ch.toNat < 2 ^ 32 by omega),
        Nat.mod_eq_of_lt (show sum2 + (adler + ch.toNat) < 2 ^ 32 by omega)]
      rfl
    rw [hstep, adlerSums_cons]
    apply ih
    · omega
    · simp only [Nat.mul_add]
      omega

theorem wordSums_nmax {adler sum2 : Nat} (ha : adler < BASE) (hs : sum2 < BASE) {buf : Bytes} (hlen : buf.length ≤ NMAX) :
    wordSums adler sum2 buf = adlerSums adler sum2 buf := by
  have hmul : buf.length * adler ≤ NMAX * BASE := Nat.mul_le_mul hlen ha.le
  have hsquare : buf.length * (buf.length + 1) ≤ NMAX * (NMAX + 1) := Nat.mul_le_mul hlen (Nat.succ_le_succ hlen)
  simp only [NMAX, BASE] at *
  apply wordSums_eq
  · omega
  · omega

theorem wordBlocks_eq {adler sum2 : Nat} (ha : adler < BASE) (hs : sum2 < BASE) (buf : Bytes) :
    wordBlocks adler sum2 buf = ((adlerSums adler sum2 buf).1 % BASE, (adlerSums adler sum2 buf).2 % BASE) := by
  have hbase : 0 < BASE := by decide
  induction hlen : buf.length using Nat.strong_induction_on generalizing adler sum2 buf with
  | _ n ih =>
    rw [wordBlocks]
    split
    · next hle =>
      have htake : wordSums adler sum2 (buf.take NMAX) = adlerSums adler sum2 (buf.take NMAX) :=
        wordSums_nmax ha hs (List.length_take_le _ _)
      dsimp only
      rw [ih (buf.drop NMAX).length (by rw [List.length_drop]; unfold NMAX at *; omega) (Nat.mod_lt _ hbase)
        (Nat.mod_lt _ hbase) _ rfl, (adlerSums_mod _ _ _).1, (adlerSums_mod _ _ _).2, htake, ← adlerSums_append,
        List.take_append_drop]
    · next hlt =>
      split
      · next hempty =>
        obtain rfl := List.isEmpty_iff.mp hempty
        simp [adlerSums, Nat.mod_eq_of_lt ha, Nat.mod_eq_of_lt hs]
      · rw [wordSums_nmax ha hs (by omega)]

theorem or_shiftLeft {a s : Nat} (ha : a < BASE) : a ||| s <<< 16 = a + s * 2 ^ 16 := by
  rw [Nat.or_comm, ← Nat.shiftLeft_add_eq_or_of_lt (by unfold BASE at ha; omega), Nat.shiftLeft_eq, Nat.add_comm]

/-- The ways of the source have the same result. -/
theorem urb_adler32_words_eq {adler : Nat} (h : IsAdler adler) (buf : Bytes) :
    urb_adler32_words adler buf = urb_adler32 adler buf := by
  obtain ⟨ha, hs⟩ := h
  have hs' : adler / 2 ^ 16 % 2 ^ 16 = adler / 2 ^ 16 := Nat.mod_eq_of_lt (by unfold BASE at hs; omega)
  have hbase : 0 < BASE := by decide
  unfold urb_adler32_words urb_adler32
  rw [hs']
  dsimp only
  split
  · next ch =>
    have hch := ch.toNat_lt
    rw [or_shiftLeft (by split <;> (unfold BASE at *; omega))]
    simp only [adlerSums, List.foldl_cons, List.foldl_nil]
    unfold BASE at *
    split <;> split <;> omega
  · split
    · next hlen =>
      have hle := adlerSums_le (adler % 2 ^ 16) (adler / 2 ^ 16) buf
      rw [wordSums_nmax ha hs (by unfold NMAX; omega)]
      have hfirst : (if (adlerSums (adler % 2 ^ 16) (adler / 2 ^ 16) buf).1 ≥ BASE then
            (adlerSums (adler % 2 ^ 16) (adler / 2 ^ 16) buf).1 - BASE
          else (adlerSums (adler % 2 ^ 16) (adler / 2 ^ 16) buf).1) =
            (adlerSums (adler % 2 ^ 16) (adler / 2 ^ 16) buf).1 % BASE := by
        unfold BASE at *
        split <;> omega
      rw [hfirst, or_shiftLeft (Nat.mod_lt _ hbase)]
    · rw [wordBlocks_eq ha hs, or_shiftLeft (Nat.mod_lt _ hbase)]

/-- Sixteen bytes at once, and three behind them. -/
theorem urb_adler32_words_eq_init :
    urb_adler32_words adler_init (List.replicate 16 7 ++ [1, 2, 3]) = urb_adler32 adler_init (List.replicate 16 7 ++ [1, 2, 3]) :=
  urb_adler32_words_eq isAdler_init (List.replicate 16 7 ++ [1, 2, 3])

end urbackup.chunkhash
