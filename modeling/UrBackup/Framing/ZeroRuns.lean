import Mathlib.Data.List.Basic

/-- The symbols of a framing: a message ends with a run of `zeros` zeros and
`stop`, and such a run in a message is followed by `esc`. -/
structure Marks (α : Type) where
  zero : α
  stop : α
  esc : α
  zeros : Nat
  zeros_pos : 0 < zeros
  stop_ne : stop ≠ zero
  esc_ne : esc ≠ zero
  esc_ne_stop : esc ≠ stop

namespace Marks

variable {α : Type} [DecidableEq α] (k : Marks α)

section Sender

/-- The zeros at the end, after one more symbol. A run that is complete does
not count any more. -/
def count (held : Nat) (x : α) : Nat :=
  if x = k.zero then if held + 1 = k.zeros then 0 else held + 1 else 0

def countAll (held : Nat) (xs : List α) : Nat :=
  xs.foldl k.count held

/-- Does a symbol complete a run? -/
def completes (held : Nat) (x : α) : Prop :=
  x = k.zero ∧ held + 1 = k.zeros

instance (held : Nat) (x : α) : Decidable (k.completes held x) :=
  inferInstanceAs (Decidable (_ ∧ _))

def escape : (held : Nat) → List α → List α
  | _, [] => []
  | held, x :: xs => x :: (if k.completes held x then [k.esc] else []) ++ escape (k.count held x) xs

/-- How many runs are completed. -/
def escapes : (held : Nat) → List α → Nat
  | _, [] => 0
  | held, x :: xs => (if k.completes held x then 1 else 0) + escapes (k.count held x) xs

def endMarker : List α :=
  List.replicate k.zeros k.zero ++ [k.stop]

def frame (message : List α) : List α :=
  k.escape 0 message ++ k.endMarker

end Sender

/-- What a receiver has of the message it is in, without the zeros at the end,
and the messages before it. -/
structure Receiver (α : Type) where
  held : Nat
  current : List α
  ended : List (List α)

section Definitions

def feed (r : Receiver α) (x : α) : Option (Receiver α) :=
  if r.held = k.zeros then
    if x = k.esc then some { r with held := 0, current := r.current ++ List.replicate k.zeros k.zero }
    else if x = k.stop then some { held := 0, current := [], ended := r.ended ++ [r.current] }
    else if x = k.zero then some { r with current := r.current ++ [k.zero] }
    else none
  else if x = k.zero then some { r with held := r.held + 1 }
  else some { r with held := 0, current := r.current ++ List.replicate r.held k.zero ++ [x] }

def feedAll : Receiver α → List α → Option (Receiver α)
  | r, [] => some r
  | r, x :: xs => (k.feed r x).bind fun r' => feedAll r' xs

end Definitions

variable {k}

section Counting

theorem countAll_cons (held : Nat) (x : α) (xs : List α) : k.countAll held (x :: xs) = k.countAll (k.count held x) xs := rfl

theorem countAll_append (held : Nat) (xs ys : List α) : k.countAll held (xs ++ ys) = k.countAll (k.countAll held xs) ys :=
  List.foldl_append

theorem count_lt {held : Nat} (h : held < k.zeros) (x : α) : k.count held x < k.zeros := by
  have hpos := k.zeros_pos
  unfold count
  split
  · split <;> omega
  · exact hpos

theorem countAll_lt {held : Nat} (h : held < k.zeros) (xs : List α) : k.countAll held xs < k.zeros := by
  induction xs generalizing held with
  | nil => exact h
  | cons x xs ih => exact ih (count_lt h x)

theorem count_of_ne {held : Nat} {x : α} (h : x ≠ k.zero) : k.count held x = 0 :=
  if_neg h

theorem count_of_completes {held : Nat} {x : α} (h : k.completes held x) : k.count held x = 0 := by
  rw [count, if_pos h.1, if_pos h.2]

theorem count_zero {held : Nat} (h : held + 1 ≠ k.zeros) : k.count held k.zero = held + 1 := by
  rw [count, if_pos rfl, if_neg h]

theorem escape_cons_run {held : Nat} {x : α} (h : k.completes held x) (xs : List α) :
    k.escape held (x :: xs) = [x, k.esc] ++ k.escape 0 xs ∧ k.escapes held (x :: xs) = 1 + k.escapes 0 xs ∧
      k.countAll held (x :: xs) = k.countAll 0 xs := by
  rw [escape, escapes, if_pos h, if_pos h, countAll_cons, count_of_completes h]
  exact ⟨rfl, rfl, rfl⟩

theorem escape_cons {held : Nat} {x : α} (h : ¬ k.completes held x) (xs : List α) :
    k.escape held (x :: xs) = [x] ++ k.escape (k.count held x) xs ∧ k.escapes held (x :: xs) = k.escapes (k.count held x) xs := by
  rw [escape, escapes, if_neg h, if_neg h, Nat.zero_add]
  exact ⟨rfl, rfl⟩

theorem escape_append (held : Nat) (xs ys : List α) :
    k.escape held (xs ++ ys) = k.escape held xs ++ k.escape (k.countAll held xs) ys := by
  induction xs generalizing held with
  | nil => rfl
  | cons x xs ih =>
    rw [List.cons_append, escape, escape, ih, countAll_cons, List.append_assoc]

theorem escapes_append (held : Nat) (xs ys : List α) :
    k.escapes held (xs ++ ys) = k.escapes held xs + k.escapes (k.countAll held xs) ys := by
  induction xs generalizing held with
  | nil => exact (Nat.zero_add _).symm
  | cons x xs ih =>
    rw [List.cons_append, escapes, escapes, ih, countAll_cons, Nat.add_assoc]

theorem escape_of_ne {held : Nat} {xs : List α} (h : ∀ x ∈ xs, x ≠ k.zero) : k.escape held xs = xs ∧ k.escapes held xs = 0 := by
  induction xs generalizing held with
  | nil => exact ⟨rfl, rfl⟩
  | cons x xs ih =>
    have hx : ¬ k.completes held x := fun hc => h x List.mem_cons_self hc.1
    obtain ⟨hxs, hcount⟩ : k.escape (k.count held x) xs = xs ∧ k.escapes (k.count held x) xs = 0 :=
      ih fun y hy => h y (List.mem_cons_of_mem _ hy)
    rw [escape, escapes, if_neg hx, if_neg hx, hxs, hcount]
    exact ⟨rfl, rfl⟩

theorem countAll_of_ne {held : Nat} {xs : List α} (hne : xs ≠ []) (h : ∀ x ∈ xs, x ≠ k.zero) : k.countAll held xs = 0 := by
  induction xs generalizing held with
  | nil => exact absurd rfl hne
  | cons x xs ih =>
    rw [countAll_cons, count_of_ne (h x List.mem_cons_self)]
    by_cases hxs : xs = []
    · rw [hxs]
      rfl
    · exact ih hxs fun y hy => h y (List.mem_cons_of_mem _ hy)

/-- No run is completed in fewer symbols than it needs. -/
theorem escape_of_short {held : Nat} {xs : List α} (h : held + xs.length < k.zeros) :
    k.escape held xs = xs ∧ k.escapes held xs = 0 ∧ k.countAll held xs ≤ held + xs.length := by
  induction xs generalizing held with
  | nil => exact ⟨rfl, rfl, Nat.le_refl _⟩
  | cons x xs ih =>
    rw [List.length_cons] at h
    have hx : ¬ k.completes held x := by
      rintro ⟨-, hc⟩
      omega
    have hcount : k.count held x ≤ held + 1 := by
      unfold count
      split
      · split <;> omega
      · exact Nat.zero_le _
    obtain ⟨hxs, hno, hle⟩ := ih (show k.count held x + xs.length < k.zeros by omega)
    rw [escape, escapes, if_neg hx, if_neg hx, hxs, hno, countAll_cons, List.length_cons]
    exact ⟨rfl, rfl, by omega⟩

/-- A part that is too short for a run, up to a symbol that is not zero. -/
theorem escape_of_short_ne {xs : List α} {x : α} (h : xs.length < k.zeros) (hx : x ≠ k.zero) :
    k.escape 0 (xs ++ [x]) = xs ++ [x] ∧ k.escapes 0 (xs ++ [x]) = 0 ∧ k.countAll 0 (xs ++ [x]) = 0 := by
  obtain ⟨hescape, hescapes, -⟩ : k.escape 0 xs = xs ∧ k.escapes 0 xs = 0 ∧ _ := escape_of_short (by omega)
  have hlast : ¬ k.completes (k.countAll 0 xs) x := fun hc => hx hc.1
  rw [escape_append, escapes_append, countAll_append, hescape, hescapes, escape, escapes, if_neg hlast, if_neg hlast, countAll_cons,
    count_of_ne hx]
  exact ⟨rfl, rfl, rfl⟩

end Counting

section Receiving

theorem feedAll_append (r : Receiver α) (xs ys : List α) :
    k.feedAll r (xs ++ ys) = (k.feedAll r xs).bind fun r' => k.feedAll r' ys := by
  induction xs generalizing r with
  | nil => rfl
  | cons x xs ih =>
    rw [List.cons_append, feedAll, feedAll, Option.bind_assoc]
    congr 1
    funext r'
    exact ih r'

theorem feedAll_singleton (r : Receiver α) (x : α) : k.feedAll r [x] = k.feed r x := by
  rw [feedAll]
  cases k.feed r x <;> rfl

theorem feed_zero {held : Nat} (h : held ≠ k.zeros) (current : List α) (ended : List (List α)) :
    k.feed ⟨held, current, ended⟩ k.zero = some ⟨held + 1, current, ended⟩ := by
  rw [feed, if_neg h, if_pos rfl]

theorem feed_other {held : Nat} {x : α} (h : held ≠ k.zeros) (hx : x ≠ k.zero) (current : List α) (ended : List (List α)) :
    k.feed ⟨held, current, ended⟩ x = some ⟨0, current ++ (List.replicate held k.zero ++ [x]), ended⟩ := by
  rw [feed, if_neg h, if_neg hx, List.append_assoc]

theorem feed_esc (current : List α) (ended : List (List α)) :
    k.feed ⟨k.zeros, current, ended⟩ k.esc = some ⟨0, current ++ List.replicate k.zeros k.zero, ended⟩ := by
  rw [feed, if_pos rfl, if_pos rfl]

theorem feed_stop (current : List α) (ended : List (List α)) :
    k.feed ⟨k.zeros, current, ended⟩ k.stop = some ⟨0, [], ended ++ [current]⟩ := by
  rw [feed, if_pos rfl, if_neg k.esc_ne_stop.symm, if_pos rfl]

theorem feed_more (current : List α) (ended : List (List α)) :
    k.feed ⟨k.zeros, current, ended⟩ k.zero = some ⟨k.zeros, current ++ [k.zero], ended⟩ := by
  rw [feed, if_pos rfl, if_neg k.esc_ne.symm, if_neg k.stop_ne.symm, if_pos rfl]

theorem feed_bad {x : α} (hesc : x ≠ k.esc) (hstop : x ≠ k.stop) (hzero : x ≠ k.zero) (current : List α) (ended : List (List α)) :
    k.feed ⟨k.zeros, current, ended⟩ x = none := by
  rw [feed, if_pos rfl, if_neg hesc, if_neg hstop, if_neg hzero]

theorem feedAll_zeros {r : Receiver α} {n : Nat} (h : r.held + n ≤ k.zeros) :
    k.feedAll r (List.replicate n k.zero) = some { r with held := r.held + n } := by
  induction n generalizing r with
  | zero => rfl
  | succ n ih =>
    have hfeed : k.feed r k.zero = some { r with held := r.held + 1 } := feed_zero (by omega) r.current r.ended
    rw [List.replicate_succ, feedAll, hfeed, Option.bind_some, ih (by dsimp only; omega)]
    dsimp only
    rw [Nat.add_assoc, Nat.add_comm 1 n]

theorem feedAll_more (current : List α) (ended : List (List α)) (n : Nat) :
    k.feedAll ⟨k.zeros, current, ended⟩ (List.replicate n k.zero) = some ⟨k.zeros, current ++ List.replicate n k.zero, ended⟩ := by
  induction n generalizing current with
  | zero =>
    rw [List.replicate_zero, List.append_nil]
    rfl
  | succ n ih =>
    rw [List.replicate_succ, feedAll, feed_more, Option.bind_some, ih, List.append_assoc, List.singleton_append]

/-- An escaped part of a message arrives as it was, but for the zeros at its end. -/
theorem feedAll_escape {held : Nat} (h : held < k.zeros) (current xs : List α) (ended : List (List α)) :
    ∃ current', k.feedAll ⟨held, current, ended⟩ (k.escape held xs) = some ⟨k.countAll held xs, current', ended⟩ ∧
      current' ++ List.replicate (k.countAll held xs) k.zero = current ++ List.replicate held k.zero ++ xs := by
  induction xs generalizing held current with
  | nil => exact ⟨current, rfl, (List.append_nil _).symm⟩
  | cons x xs ih =>
    rw [escape, countAll_cons, List.cons_append, feedAll]
    by_cases hx : x = k.zero
    · subst hx
      rw [feed_zero (Nat.ne_of_lt h), Option.bind_some]
      by_cases hrun : held + 1 = k.zeros
      · have hcount : k.count held k.zero = 0 := count_of_completes ⟨rfl, hrun⟩
        have hesc : k.feed ⟨held + 1, current, ended⟩ k.esc = some ⟨0, current ++ List.replicate k.zeros k.zero, ended⟩ := by
          rw [hrun, feed_esc]
        obtain ⟨current', hfeed, hcurrent⟩ := ih k.zeros_pos (current ++ List.replicate k.zeros k.zero)
        refine ⟨current', ?_, ?_⟩
        · rw [if_pos ⟨rfl, hrun⟩, List.singleton_append, hcount, feedAll, hesc, Option.bind_some, hfeed]
        · rw [hcount, hcurrent, ← hrun, List.replicate_succ', List.replicate_zero]
          simp only [List.append_assoc, List.singleton_append]
      · have hcount : k.count held k.zero = held + 1 := count_zero hrun
        obtain ⟨current', hfeed, hcurrent⟩ := ih (show held + 1 < k.zeros by omega) current
        refine ⟨current', ?_, ?_⟩
        · rw [if_neg (fun hc => hrun hc.2), hcount, List.nil_append, hfeed]
        · rw [hcount, hcurrent, List.replicate_succ']
          simp only [List.append_assoc, List.singleton_append]
    · have hcount : k.count held x = 0 := count_of_ne hx
      obtain ⟨current', hfeed, hcurrent⟩ := ih k.zeros_pos (current ++ (List.replicate held k.zero ++ [x]))
      refine ⟨current', ?_, ?_⟩
      · rw [feed_other (Nat.ne_of_lt h) hx, if_neg (fun hc => hx hc.1), hcount, Option.bind_some, List.nil_append, hfeed]
      · rw [hcount, hcurrent, List.replicate_zero]
        simp only [List.append_assoc, List.append_nil, List.singleton_append]

theorem feedAll_endMarker {held : Nat} (h : held ≤ k.zeros) (current : List α) (ended : List (List α)) :
    k.feedAll ⟨held, current, ended⟩ k.endMarker = some ⟨0, [], ended ++ [current ++ List.replicate held k.zero]⟩ := by
  have hsplit : List.replicate k.zeros k.zero = List.replicate (k.zeros - held) k.zero ++ List.replicate held k.zero := by
    rw [List.replicate_append_replicate, Nat.sub_add_cancel h]
  have hfirst : k.feedAll ⟨held, current, ended⟩ (List.replicate (k.zeros - held) k.zero) = some ⟨k.zeros, current, ended⟩ := by
    rw [feedAll_zeros (by dsimp only; omega)]
    dsimp only
    rw [Nat.add_sub_cancel' h]
  have hsecond : k.feedAll ⟨k.zeros, current, ended⟩ (List.replicate held k.zero) =
      some ⟨k.zeros, current ++ List.replicate held k.zero, ended⟩ := feedAll_more current ended held
  rw [endMarker, hsplit, feedAll_append, feedAll_append, hfirst, Option.bind_some, hsecond, Option.bind_some,
    feedAll_singleton, feed_stop]

theorem feedAll_frame (message : List α) (ended : List (List α)) :
    k.feedAll ⟨0, [], ended⟩ (k.frame message) = some ⟨0, [], ended ++ [message]⟩ := by
  obtain ⟨current, hfeed, hcurrent⟩ := feedAll_escape k.zeros_pos [] message ended
  rw [frame, feedAll_append, hfeed, Option.bind_some, feedAll_endMarker (Nat.le_of_lt (countAll_lt k.zeros_pos message)), hcurrent]
  rfl

theorem feedAll_frames (messages ended : List (List α)) :
    k.feedAll ⟨0, [], ended⟩ (messages.flatMap k.frame) = some ⟨0, [], ended ++ messages⟩ := by
  induction messages generalizing ended with
  | nil =>
    rw [List.append_nil]
    rfl
  | cons message messages ih =>
    rw [List.flatMap_cons, feedAll_append, feedAll_frame, Option.bind_some, ih, List.append_assoc, List.singleton_append]

/-- A receiver only adds to what it has. -/
theorem feed_grows {r r' : Receiver α} {x : α} (h : k.feed r x = some r') :
    r'.ended = r.ended ∧ r.current <+: r'.current ∨ r'.ended = r.ended ++ [r.current] := by
  unfold feed at h
  split at h
  · split at h
    · cases h
      exact Or.inl ⟨rfl, List.prefix_append _ _⟩
    · split at h
      · cases h
        exact Or.inr rfl
      · split at h
        · cases h
          exact Or.inl ⟨rfl, List.prefix_append _ _⟩
        · cases h
  · split at h
    · cases h
      exact Or.inl ⟨rfl, List.prefix_rfl⟩
    · cases h
      exact Or.inl ⟨rfl, by rw [List.append_assoc]; exact List.prefix_append _ _⟩

theorem feedAll_grows {r r' : Receiver α} {xs : List α} (h : k.feedAll r xs = some r') :
    r'.ended = r.ended ∧ r.current <+: r'.current ∨
      ∃ message messages, r'.ended = r.ended ++ message :: messages ∧ r.current <+: message := by
  induction xs generalizing r with
  | nil =>
    cases h
    exact Or.inl ⟨rfl, List.prefix_rfl⟩
  | cons x xs ih =>
    rw [feedAll] at h
    obtain ⟨t, hfeed, hrest⟩ := Option.bind_eq_some_iff.mp h
    obtain ⟨htended, htcurrent⟩ | htended := feed_grows hfeed
    · obtain ⟨hended, hcurrent⟩ | ⟨message, messages, hended, hcurrent⟩ := ih hrest
      · exact Or.inl ⟨hended.trans htended, htcurrent.trans hcurrent⟩
      · exact Or.inr ⟨message, messages, by rw [hended, htended], htcurrent.trans hcurrent⟩
    · refine Or.inr ⟨r.current, ?_⟩
      obtain ⟨hended, -⟩ | ⟨message, messages, hended, -⟩ := ih hrest
      · exact ⟨[], by rw [hended, htended], List.prefix_rfl⟩
      · exact ⟨message :: messages, by rw [hended, htended, List.append_assoc, List.singleton_append], List.prefix_rfl⟩

theorem feedAll_prefix {r r' : Receiver α} {xs : List α} (h : k.feedAll r xs = some r') : r.ended <+: r'.ended := by
  obtain ⟨hended, -⟩ | ⟨message, messages, hended, -⟩ := feedAll_grows h
  · exact ⟨[], (List.append_nil _).trans hended.symm⟩
  · rw [hended]
    exact List.prefix_append _ _

end Receiving

end Marks
