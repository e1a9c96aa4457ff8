import UrBackup.Crypto.Encryption

namespace urbackup.cryptoplugin

open stringtools

namespace Cipher

variable (c : Cipher)

def decryptAll : (iv : Bytes) → (messages : List Bytes) → Option (List Bytes)
  | _, [] => some []
  | iv, message :: messages =>
    (c.decrypt iv message).bind fun plain => (decryptAll (c.IncrementCounterByOne iv) messages).map (plain :: ·)

variable {c}

theorem decryptAll_append (iv : Bytes) (messages more : List Bytes) :
    c.decryptAll iv (messages ++ more) = (c.decryptAll iv messages).bind fun plains =>
      (c.decryptAll (c.ivAfter iv messages.length) more).map (plains ++ ·) := by
  induction messages generalizing iv with
  | nil =>
    cases h : c.decryptAll iv more <;> simp [decryptAll, ivAfter, h]
  | cons message messages ih =>
    rw [List.cons_append, decryptAll, decryptAll, ih]
    cases hfirst : c.decrypt iv message with
    | none => rfl
    | some plain =>
      have hiv : c.ivAfter iv (message :: messages).length = c.ivAfter (c.IncrementCounterByOne iv) messages.length := rfl
      rw [hiv]
      cases hmessages : c.decryptAll (c.IncrementCounterByOne iv) messages with
      | none => rfl
      | some plains =>
        cases hmore : c.decryptAll (c.ivAfter (c.IncrementCounterByOne iv) messages.length) more <;> simp

theorem decryptAll_start {iv : Bytes} {messages all : List Bytes} (hpre : messages <+: all)
    (h : (c.decryptAll iv all).isSome) : (c.decryptAll iv messages).isSome := by
  obtain ⟨more, rfl⟩ := hpre
  rw [decryptAll_append] at h
  cases hmessages : c.decryptAll iv messages with
  | none =>
    rw [hmessages] at h
    cases h
  | some plains => rfl

theorem decryptAll_concat {iv : Bytes} {messages plains : List Bytes} {message : Bytes}
    (hmessages : c.decryptAll iv messages = some plains) (h : (c.decryptAll iv (messages ++ [message])).isSome) :
    ∃ plain, c.decrypt (c.ivAfter iv messages.length) message = some plain ∧
      c.decryptAll iv (messages ++ [message]) = some (plains ++ [plain]) := by
  rw [decryptAll_append, hmessages, Option.bind_some, decryptAll] at h ⊢
  cases hplain : c.decrypt (c.ivAfter iv messages.length) message with
  | none =>
    rw [hplain] at h
    cases h
  | some plain => exact ⟨plain, rfl, rfl⟩

theorem decryptAll_encryptAll (h : c.Faithful) (iv : Bytes) (messages : List (List Bytes)) :
    c.decryptAll iv (c.encryptAll iv messages) = some (messages.map List.flatten) := by
  induction messages generalizing iv with
  | nil => rfl
  | cons message messages ih =>
    rw [encryptAll, decryptAll, h.decrypt_encrypt, Option.bind_some, ih]
    rfl

end Cipher

namespace AESGCMDecryption

/-- The bytes that `put` gets wrong, with zeros kept back. A byte that was
escaped is taken for data if nothing of the buffer is left without it, and the
zeros that were kept back are lost if the message ends too early in the buffer. -/
def Lossy (carry_zeros : Nat) (data : Bytes) : Prop :=
  (carry_zeros = end_marker_zeros ∧ ∃ n ≤ end_marker_zeros, data = 2 :: List.replicate n 0) ∨
  (∃ n rest, n ≤ end_marker_zeros ∧ end_marker_zeros < carry_zeros + n ∧ data = List.replicate n 0 ++ 1 :: rest) ∨
  (carry_zeros = end_marker_zeros ∧ ∃ rest, data = 2 :: List.replicate end_marker_zeros 0 ++ 1 :: rest)

/-- Where the bytes before a position can be: only zeros, at least one byte
that is neither escaped nor kept back, or an escaped run and the zeros kept back. -/
inductive Shape (carry_zeros : Nat) (data : Bytes) (i state : Nat) (has_copy : Bool) (unescaped : Bytes) : Prop
  | zeros : has_copy = false → data.take i = List.replicate i 0 → carry_zeros ≤ state → Shape carry_zeros data i state has_copy unescaped
  | more : state < unescaped.length → Shape carry_zeros data i state has_copy unescaped
  | run : carry_zeros = end_marker_zeros → has_copy = true → data.take i = 2 :: List.replicate state 0 →
    unescaped = List.replicate state 0 → Shape carry_zeros data i state has_copy unescaped

/-- What `findAndUnescapeEndMarker` knows at a position: the bytes before it
without escapes, and the part of them that is not kept back. -/
structure Scanning (carry_zeros : Nat) (data : Bytes) (i state : Nat) (out : Scanned) (unescaped emitted : Bytes) : Prop where
  le : i ≤ data.length
  fed : ∀ current ended, marks.feedAll ⟨carry_zeros, current, ended⟩ (data.take i) = some ⟨state, current ++ emitted, ended⟩
  parts : List.replicate carry_zeros 0 ++ unescaped = emitted ++ List.replicate state 0
  size : unescaped.length + out.escaped_zeros = i
  copy : out.has_copy = true → out.data_copy = unescaped ++ data.drop i
  original : out.has_copy = false → out.data_copy = [] ∧ out.escaped_zeros = 0 ∧ unescaped = data.take i
  open_end : out.end_marker_pos = none ∧ out.has_error = false
  state_le : state ≤ end_marker_zeros
  shape : Shape carry_zeros data i state out.has_copy unescaped

variable {carry_zeros i state : Nat} {data unescaped emitted : Bytes} {out : Scanned}

theorem start_scanning (data : Bytes) (h : carry_zeros ≤ end_marker_zeros) :
    Scanning carry_zeros data 0 carry_zeros ⟨none, false, [], false, 0⟩ [] [] where
  le := Nat.zero_le _
  fed := fun current ended => by
    rw [List.append_nil]
    rfl
  parts := List.append_nil _
  size := rfl
  copy := fun h => nomatch h
  original := fun _ => ⟨rfl, rfl, rfl⟩
  open_end := ⟨rfl, rfl⟩
  state_le := h
  shape := .zeros rfl rfl (le_refl _)

namespace Scanning

theorem take_succ {ch : UInt8} (hch : data[i]? = some ch) : data.take (i + 1) = data.take i ++ [ch] := by
  rw [List.take_add_one, hch]
  rfl

theorem drop_eq {ch : UInt8} (hch : data[i]? = some ch) : data.drop i = ch :: data.drop (i + 1) := by
  obtain ⟨hlt, rfl⟩ := List.getElem?_eq_some_iff.mp hch
  exact List.drop_eq_getElem_cons hlt

section Marker

variable (h : Scanning carry_zeros data i state out unescaped emitted)

include h

theorem fed_succ {ch : UInt8} (hch : data[i]? = some ch)
    {state' : Nat} {more : Bytes}
    (hfeed : ∀ current ended, marks.feed ⟨state, current, ended⟩ ch = some ⟨state', current ++ more, ended⟩) :
    ∀ current ended, marks.feedAll ⟨carry_zeros, current, ended⟩ (data.take (i + 1)) =
      some ⟨state', current ++ (emitted ++ more), ended⟩ := by
  intro current ended
  rw [take_succ hch, Marks.feedAll_append, h.fed, Option.bind_some, Marks.feedAll_singleton, hfeed, List.append_assoc]

/-- A byte that is not an escape. -/
theorem step {ch : UInt8} (hch : data[i]? = some ch)
    {state' : Nat} {more : Bytes} (hle : state' ≤ end_marker_zeros)
    (hfeed : ∀ current ended, marks.feed ⟨state, current, ended⟩ ch = some ⟨state', current ++ more, ended⟩)
    (hparts : List.replicate state 0 ++ [ch] = more ++ List.replicate state' 0)
    (hshape : Shape carry_zeros data (i + 1) state' out.has_copy (unescaped ++ [ch])) :
    Scanning carry_zeros data (i + 1) state' out (unescaped ++ [ch]) (emitted ++ more) where
  le := (List.getElem?_eq_some_iff.mp hch).1
  fed := h.fed_succ hch hfeed
  parts := by
    rw [← List.append_assoc, h.parts, List.append_assoc, hparts, List.append_assoc]
  size := by
    have hsize := h.size
    rw [List.length_append, List.length_singleton]
    omega
  copy := fun hcopy => by
    rw [h.copy hcopy, drop_eq hch, List.append_assoc, List.singleton_append]
  original := fun hcopy => by
    obtain ⟨hnone, hzeros, hsame⟩ := h.original hcopy
    exact ⟨hnone, hzeros, by rw [take_succ hch, hsame]⟩
  open_end := h.open_end
  state_le := hle
  shape := hshape

theorem shape_zero (hch : data[i]? = some 0) {state' : Nat}
    (hstate : state' = state + 1 ∨ state = end_marker_zeros ∧ state' = state) :
    Shape carry_zeros data (i + 1) state' out.has_copy (unescaped ++ [0]) := by
  have hlength : (unescaped ++ [0]).length = unescaped.length + 1 := List.length_append
  cases h.shape with
  | zeros hcopy htake hle =>
    refine .zeros hcopy ?_ (by omega)
    rw [take_succ hch, htake, ← List.replicate_succ']
  | more hlt => exact .more (by omega)
  | run hcarry hcopy htake hsame =>
    obtain rfl | ⟨-, rfl⟩ := hstate
    · refine .run hcarry hcopy ?_ ?_
      · rw [take_succ hch, htake, List.replicate_succ', List.cons_append]
      · rw [hsame, ← List.replicate_succ']
    · refine .more ?_
      rw [hlength, hsame, List.length_replicate]
      exact Nat.lt_succ_self _

theorem zero (hch : data[i]? = some 0)
    (hstate : state ≠ end_marker_zeros) :
    Scanning carry_zeros data (i + 1) (state + 1) out (unescaped ++ [0]) emitted := by
  have hle := h.state_le
  have hfeed : ∀ current ended, marks.feed ⟨state, current, ended⟩ 0 = some ⟨state + 1, current ++ [], ended⟩ := by
    intro current ended
    rw [List.append_nil]
    exact Marks.feed_zero hstate current ended
  have hnext := h.step hch (by omega) hfeed (by rw [List.replicate_succ', List.nil_append]) (h.shape_zero hch (Or.inl rfl))
  rw [List.append_nil] at hnext
  exact hnext

end Marker

theorem zero_more (h : Scanning carry_zeros data i end_marker_zeros out unescaped emitted) (hch : data[i]? = some 0) :
    Scanning carry_zeros data (i + 1) end_marker_zeros out (unescaped ++ [0]) (emitted ++ [0]) :=
  h.step hch (le_refl _) Marks.feed_more rfl (h.shape_zero hch (Or.inr ⟨rfl, rfl⟩))

theorem other (h : Scanning carry_zeros data i state out unescaped emitted) {ch : UInt8} (hch : data[i]? = some ch) (hne : ch ≠ 0)
    (hstate : state ≠ end_marker_zeros) :
    Scanning carry_zeros data (i + 1) 0 out (unescaped ++ [ch]) (emitted ++ (List.replicate state 0 ++ [ch])) := by
  refine h.step hch (Nat.zero_le _) (Marks.feed_other hstate hne) (List.append_nil _).symm (.more ?_)
  rw [List.length_append]
  exact Nat.succ_pos _

/-- Four bytes, the last of which is not zero, with nothing kept back. -/
theorem skip (h : Scanning carry_zeros data i 0 out unescaped emitted) {three rest : Bytes} {x : UInt8}
    (hdata : data.drop i = three ++ [x] ++ rest) (hthree : three.length = 3) (hx : x ≠ 0) :
    Scanning carry_zeros data (i + end_marker_zeros) 0 out (unescaped ++ (three ++ [x])) (emitted ++ (three ++ [x])) := by
  have hfour : (three ++ [x]).length = end_marker_zeros := by
    rw [List.length_append, hthree]
    rfl
  have htake : data.take (i + end_marker_zeros) = data.take i ++ (three ++ [x]) := by
    rw [List.take_add, hdata, ← hfour, List.take_left]
  have hdrop : data.drop (i + end_marker_zeros) = rest := by
    rw [← List.drop_drop, hdata, ← hfour, List.drop_left]
  refine ⟨?_, ?_, ?_, ?_, ?_, ?_, h.open_end, Nat.zero_le _, .more ?_⟩
  · have hlength := congrArg List.length hdata
    rw [List.length_drop, List.length_append, hfour] at hlength
    have hle := h.le
    unfold end_marker_zeros at hlength ⊢
    omega
  · intro current ended
    obtain ⟨hescape, -, hcount⟩ : marks.escape 0 (three ++ [x]) = three ++ [x] ∧ _ ∧ marks.countAll 0 (three ++ [x]) = 0 :=
      Marks.escape_of_short_ne (show three.length < end_marker_zeros by unfold end_marker_zeros; omega) hx
    obtain ⟨current', hfeed, hcurrent⟩ := Marks.feedAll_escape marks.zeros_pos (current ++ emitted) (three ++ [x]) ended
    rw [hcount, List.replicate_zero, List.append_nil, List.append_nil] at hcurrent
    rw [hescape, hcount, hcurrent] at hfeed
    rw [htake, Marks.feedAll_append, h.fed, Option.bind_some, hfeed, List.append_assoc]
  · rw [← List.append_assoc, h.parts, List.replicate_zero, List.append_nil, List.append_nil]
  · have hsize := h.size
    rw [List.length_append, hfour]
    omega
  · intro hcopy
    rw [h.copy hcopy, hdata, hdrop, List.append_assoc unescaped]
  · intro hcopy
    obtain ⟨hnone, hzeros, hsame⟩ := h.original hcopy
    exact ⟨hnone, hzeros, by rw [htake, hsame]⟩
  · rw [List.length_append, hfour]
    exact Nat.lt_add_left _ (by decide)

/-- The buffer without the escapes so far, and with the byte that is one. -/
theorem copied (h : Scanning carry_zeros data i state out unescaped emitted) (hlt : i < data.length) :
    (if out.data_copy.isEmpty then data else out.data_copy) = unescaped ++ data.drop i := by
  cases hcopy : out.has_copy with
  | true =>
    have hdata := h.copy hcopy
    rw [if_neg, hdata]
    rw [hdata, List.isEmpty_iff]
    intro hnone
    have hlength := congrArg List.length hnone
    rw [List.length_append, List.length_drop, List.length_nil] at hlength
    omega
  | false =>
    obtain ⟨hnone, -, hsame⟩ := h.original hcopy
    rw [hnone, if_pos List.isEmpty_nil, hsame, List.take_append_drop]

theorem escaped (h : Scanning carry_zeros data i end_marker_zeros out unescaped emitted) (hcarry : carry_zeros ≤ end_marker_zeros)
    (hch : data[i]? = some 2) :
    Scanning carry_zeros data (i + 1) 0
      { out with
        data_copy := (if out.data_copy.isEmpty then data else out.data_copy).eraseIdx (i - out.escaped_zeros)
        escaped_zeros := out.escaped_zeros + 1
        has_copy := true }
      unescaped (emitted ++ List.replicate end_marker_zeros 0) where
  le := (List.getElem?_eq_some_iff.mp hch).1
  fed := h.fed_succ hch Marks.feed_esc
  parts := by
    rw [h.parts, List.replicate_zero, List.append_nil]
  size := by
    have hsize := h.size
    dsimp only
    omega
  copy := fun _ => by
    have hsize := h.size
    have hindex : i - out.escaped_zeros = unescaped.length := by
      omega
    dsimp only
    rw [h.copied (List.getElem?_eq_some_iff.mp hch).1, drop_eq hch, hindex, List.eraseIdx_append_of_length_le (le_refl _),
      Nat.sub_self]
    rfl
  original := fun hcopy => nomatch hcopy
  open_end := h.open_end
  state_le := Nat.zero_le _
  shape := by
    have hsize := h.size
    by_cases hnone : unescaped = []
    · subst hnone
      -- nothing of the buffer is left, so the run was kept back and this is its first byte
      have hlength := congrArg List.length h.parts
      rw [List.append_nil, List.length_append, List.length_replicate, List.length_replicate] at hlength
      obtain rfl : i = 0 := by
        cases h.shape with
        | zeros hcopy htake _ =>
          obtain ⟨-, hzeros, -⟩ := h.original hcopy
          rw [hzeros] at hsize
          exact hsize.symm
        | more hlt => exact absurd hlt (Nat.not_lt_zero _)
        | run _ _ _ hsame =>
          have hlength := congrArg List.length hsame
          rw [List.length_replicate] at hlength
          exact absurd hlength (by decide)
      refine .run (by omega) rfl ?_ rfl
      rw [take_succ hch]
      rfl
    · exact .more (List.length_pos_iff.mpr hnone)

end Scanning

/-- What `findAndUnescapeEndMarker` returns for a buffer without an error in it. -/
inductive Found (carry_zeros : Nat) (data : Bytes) (d : AESGCMDecryption) : Scanned × AESGCMDecryption → Prop
  | nothing {out : Scanned} {state overhead_bytes : Nat} {unescaped emitted : Bytes} :
    Scanning carry_zeros data data.length state out unescaped emitted →
    Found carry_zeros data d (out, { d with end_marker_state := state, overhead_bytes })
  | marker {out : Scanned} {i overhead_bytes : Nat} {unescaped emitted : Bytes} :
    Scanning carry_zeros data i end_marker_zeros out unescaped emitted → data[i]? = some 1 →
    Found carry_zeros data d
      ({ out with end_marker_pos := some (unescaped.length + 1) }, { d with end_marker_state := 0, overhead_bytes })

theorem findAndUnescapeEndMarker_found {fuel : Nat} {d d' : AESGCMDecryption} {i state : Nat} {out : Scanned}
    {unescaped emitted : Bytes} (hcarry : carry_zeros ≤ end_marker_zeros) (hfuel : data.length < i + fuel)
    (h : Scanning carry_zeros data i state out unescaped emitted) {overhead_bytes : Nat}
    (hd : d' = { d with end_marker_state := state, overhead_bytes })
    {r r' : Marks.Receiver UInt8} (hr : r.held = carry_zeros) (hfeed : marks.feedAll r data = some r') :
    Found carry_zeros data d (findAndUnescapeEndMarker fuel d' data i out) := by
  induction fuel generalizing d' i state out unescaped emitted overhead_bytes with
  | zero =>
    have hle := h.le
    omega
  | succ fuel ih =>
    subst hd
    rw [findAndUnescapeEndMarker]
    cases hch : data[i]? with
    | none =>
      obtain rfl : i = data.length := by
        have hle := h.le
        have hge := List.getElem?_eq_none_iff.mp hch
        omega
      exact .nothing h
    | some ch =>
      dsimp only
      split
      next hskip =>
        obtain ⟨rfl, hfour, hx⟩ := hskip
        have hlong : 3 < (data.drop i).length := by
          rw [List.length_drop]
          unfold end_marker_zeros at hfour
          omega
        obtain ⟨three, x, rest, hdata, hthree⟩ := AESGCMEncryption.split_at hlong
        have hlast : data[i + end_marker_zeros - 1]? = some x := by
          have hindex : i + end_marker_zeros - 1 = i + three.length := by
            rw [hthree]
            rfl
          rw [hindex, ← List.getElem?_drop, hdata, List.append_assoc, List.getElem?_append_right (le_refl _), Nat.sub_self]
          rfl
        rw [hlast] at hx
        refine ih ?_ (h.skip hdata hthree fun hzero => hx (by rw [hzero])) rfl
        unfold end_marker_zeros
        omega
      next hskip =>
        split
        next hfull =>
          subst hfull
          split
          next hesc =>
            subst hesc
            exact ih (by omega) (h.escaped hcarry hch) rfl
          next hesc =>
            split
            next hstop =>
              subst hstop
              have hsize := h.size
              have hpos : i + 1 - out.escaped_zeros = unescaped.length + 1 := by
                omega
              rw [if_pos (by omega), hpos]
              exact .marker h hch
            next hstop =>
              split
              next hbad =>
                -- the bytes up to here are an error for every receiver
                obtain ⟨held, current, ended⟩ := r
                obtain rfl : held = carry_zeros := hr
                have hnone : marks.feed ⟨end_marker_zeros, current ++ emitted, ended⟩ ch = none :=
                  Marks.feed_bad hesc hstop hbad _ _
                rw [← List.take_append_drop i data, Scanning.drop_eq hch, Marks.feedAll_append, h.fed, Option.bind_some, Marks.feedAll,
                  hnone] at hfeed
                cases hfeed
              next hzero =>
                rw [Decidable.not_not] at hzero
                subst hzero
                exact ih (by omega) (h.zero_more hch) rfl
        next hfull =>
          split
          next hzero =>
            subst hzero
            exact ih (by omega) (h.zero hch hfull) rfl
          next hzero => exact ih (by omega) (h.other hch hzero hfull) rfl

theorem put_put (f : DecryptionFilter) (xs ys : Bytes) : (f.Put xs).Put ys = f.Put (xs ++ ys) := by
  unfold DecryptionFilter.Put
  dsimp only
  rw [List.append_assoc]

theorem put_nil (f : DecryptionFilter) : f.Put [] = f := by
  unfold DecryptionFilter.Put
  rw [List.append_nil]

namespace Scanning

/-- Enough bytes of the buffer are left to keep the zeros back from them. -/
theorem emitted_eq (h : Scanning carry_zeros data i state out unescaped emitted) (hle : state ≤ unescaped.length) :
    emitted = List.replicate carry_zeros 0 ++ unescaped.take (unescaped.length - state) := by
  have hlength := congrArg List.length h.parts
  rw [List.length_append, List.length_append, List.length_replicate, List.length_replicate] at hlength
  have htake := congrArg (List.take emitted.length) h.parts
  rw [List.take_left] at htake
  have hcut : emitted.length = (List.replicate carry_zeros (0 : UInt8)).length + (unescaped.length - state) := by
    rw [List.length_replicate]
    omega
  rw [hcut, List.take_length_add_append] at htake
  exact htake.symm

theorem size_sub (h : Scanning carry_zeros data i state out unescaped emitted) : i - out.escaped_zeros = unescaped.length := by
  have hsize := h.size
  omega

/-- Without an escape there is something to put, or nothing at all. -/
theorem put_original {f : DecryptionFilter} {n : Nat} (h : Scanning carry_zeros data data.length state out unescaped emitted)
    (hcopy : out.has_copy = false) :
    (if out.has_copy = true ∧ n - out.escaped_zeros > 0 then f.Put (out.data_copy.take (n - out.escaped_zeros))
      else if n > 0 then f.Put (data.take n) else f) = f.Put (unescaped.take n) := by
  obtain ⟨-, -, hsame⟩ := h.original hcopy
  rw [List.take_length] at hsame
  rw [if_neg (by simp [hcopy]), hsame]
  split
  · rfl
  · next hnone =>
    obtain rfl : n = 0 := by
      omega
    rw [List.take_zero, put_nil]

end Scanning

theorem keepBack_of_le {d : AESGCMDecryption} {data_size carry_zeros escaped_zeros : Nat}
    (h : d.end_marker_state ≤ data_size - escaped_zeros) :
    d.keepBack data_size carry_zeros escaped_zeros = (data_size - d.end_marker_state, carry_zeros) := by
  unfold keepBack
  split
  · rfl
  · next hnone =>
    have hzero : d.end_marker_state = 0 := by
      omega
    rw [hzero, Nat.sub_zero]

theorem keepBack_of_lt {d : AESGCMDecryption} {data_size carry_zeros escaped_zeros : Nat}
    (h : data_size - escaped_zeros < d.end_marker_state) (hcarry : carry_zeros ≤ d.end_marker_state)
    (hzeros : d.end_marker_state - carry_zeros ≤ data_size - escaped_zeros) :
    d.keepBack data_size carry_zeros escaped_zeros = (data_size - (d.end_marker_state - carry_zeros), 0) := by
  unfold keepBack
  rw [if_pos (by omega), if_neg (by omega), if_pos ⟨hcarry, hzeros⟩]

theorem putPart_eq {d : AESGCMDecryption} (h : Scanning carry_zeros data data.length d.end_marker_state out unescaped emitted)
    (hlossy : ¬ Lossy carry_zeros data) :
    d.putPart data carry_zeros out = { d with decryption_filter := d.decryption_filter.Put emitted } := by
  have hsize := h.size_sub
  have hsum := h.size
  have hlength := congrArg List.length h.parts
  rw [List.length_append, List.length_append, List.length_replicate, List.length_replicate] at hlength
  unfold putPart
  by_cases hle : d.end_marker_state ≤ unescaped.length
  · -- the zeros kept back before are put, and as many bytes are kept back of the buffer
    rw [keepBack_of_le (by rw [hsize]; exact hle), h.emitted_eq hle]
    dsimp only
    cases hcopy : out.has_copy with
    | false =>
      obtain ⟨-, hzeros, -⟩ := h.original hcopy
      have hall : data.length = unescaped.length := by
        omega
      have hput := h.put_original hcopy (f := d.decryption_filter.Put (List.replicate carry_zeros 0))
        (n := data.length - d.end_marker_state)
      rw [hcopy] at hput
      rw [hput, hall, put_put]
    | true =>
      have hlt : d.end_marker_state < unescaped.length := by
        cases h.shape with
        | zeros hno _ _ =>
          rw [hcopy] at hno
          cases hno
        | more hlt => exact hlt
        | run hcarry _ htake _ =>
          rw [List.take_length] at htake
          exact absurd (Or.inl ⟨hcarry, _, h.state_le, htake⟩) hlossy
      have hleft : data.length - d.end_marker_state - out.escaped_zeros = unescaped.length - d.end_marker_state := by
        omega
      rw [hleft, if_pos ⟨rfl, by omega⟩, h.copy hcopy, List.drop_length, List.append_nil, put_put]
  · -- only zeros: some of them are kept back in addition to those before
    cases h.shape with
    | zeros hcopy htake hcarry =>
      obtain ⟨-, hzeros, hsame⟩ := h.original hcopy
      rw [htake] at hsame
      have hemitted : emitted = List.replicate (data.length - (d.end_marker_state - carry_zeros)) 0 := by
        have hall := h.parts
        rw [hsame, List.replicate_append_replicate] at hall
        have hpre := congrArg (List.take emitted.length) hall
        rw [List.take_left, List.take_replicate] at hpre
        rw [← hpre]
        congr 1
        omega
      rw [keepBack_of_lt (by omega) hcarry (by omega)]
      dsimp only
      rw [h.put_original hcopy, put_put, hemitted, hsame, List.take_replicate, List.replicate_zero, List.nil_append]
      congr 3
      omega
    | more hlt => omega
    | run _ _ _ hsame =>
      have hlength := congrArg List.length hsame
      rw [List.length_replicate] at hlength
      omega

section EndMarker

variable (h : Scanning carry_zeros data i end_marker_zeros out unescaped emitted) (hch : data[i]? = some 1)
  (hlossy : ¬ Lossy carry_zeros data)

include h hch hlossy

/-- A message that ends early in the buffer has nothing left in it. -/
theorem emitted_eq_nil (hle : unescaped.length ≤ end_marker_zeros) : emitted = [] := by
  have hdata : data = data.take i ++ 1 :: data.drop (i + 1) := by
    rw [← Scanning.drop_eq hch, List.take_append_drop]
  have hlength := congrArg List.length h.parts
  rw [List.length_append, List.length_append, List.length_replicate, List.length_replicate] at hlength
  cases h.shape with
  | zeros hcopy htake hcarry =>
    have hsize := h.size
    obtain ⟨-, hzeros, -⟩ := h.original hcopy
    rw [htake] at hdata
    have hfew : carry_zeros + i ≤ end_marker_zeros := by
      by_contra hmany
      exact hlossy (Or.inr (Or.inl ⟨i, _, by omega, by omega, hdata⟩))
    exact List.eq_nil_of_length_eq_zero (by omega)
  | more hlt => omega
  | run hcarry _ htake _ =>
    rw [htake] at hdata
    exact absurd (Or.inr (Or.inr ⟨hcarry, _, hdata⟩)) hlossy

theorem put_before_end {f : DecryptionFilter} :
    (if unescaped.length + 1 > end_marker_zeros + 1 then
      if out.has_copy = true then
        (f.Put (List.replicate carry_zeros 0)).Put (out.data_copy.take (unescaped.length + 1 - end_marker_zeros - 1))
      else (f.Put (List.replicate carry_zeros 0)).Put (data.take (unescaped.length + 1 - end_marker_zeros - 1))
    else f) = f.Put emitted := by
  by_cases hle : unescaped.length ≤ end_marker_zeros
  · rw [if_neg (by omega), emitted_eq_nil h hch hlossy hle, put_nil]
  · have hsub : unescaped.length + 1 - end_marker_zeros - 1 = unescaped.length - end_marker_zeros := by
      omega
    rw [if_pos (by omega), hsub, h.emitted_eq (by omega)]
    cases hcopy : out.has_copy with
    | true => rw [if_pos rfl, h.copy hcopy, List.take_append_of_le_length (Nat.sub_le _ _), put_put]
    | false =>
      obtain ⟨-, hzeros, hsame⟩ := h.original hcopy
      have hsize := h.size
      have htake : data.take (unescaped.length - end_marker_zeros) = unescaped.take (unescaped.length - end_marker_zeros) := by
        obtain ⟨n, hn⟩ : ∃ n, unescaped.length - end_marker_zeros = n := ⟨_, rfl⟩
        rw [hn, hsame, List.take_take, Nat.min_eq_left (by omega)]
      rw [if_neg Bool.false_ne_true, htake, put_put]

/-- What the cipher has of the message when it ends. -/
theorem putEnd_eq {d : AESGCMDecryption} {c : Cipher} {plain : Bytes}
    (hplain : c.decrypt d.decryption_filter.iv (d.decryption_filter.current ++ emitted) = some plain) :
    ∃ overhead_bytes, d.putEnd c data carry_zeros { out with end_marker_pos := some (unescaped.length + 1) } (unescaped.length + 1) =
      (true,
        { d with
          decryption_filter :=
            { iv := c.IncrementCounterByOne d.iv_buffer
              current := []
              ended := d.decryption_filter.ended ++ [d.decryption_filter.current ++ emitted]
              messages := d.decryption_filter.messages ++ [plain] }
          iv_buffer := c.IncrementCounterByOne d.iv_buffer
          overhead_bytes }) := by
  have hend : (d.decryption_filter.Put emitted).MessageEnd c =
      (true,
        { iv := d.decryption_filter.iv
          current := []
          ended := d.decryption_filter.ended ++ [d.decryption_filter.current ++ emitted]
          messages := d.decryption_filter.messages ++ [plain] }) := by
    unfold DecryptionFilter.MessageEnd DecryptionFilter.Put
    dsimp only
    rw [hplain]
  unfold putEnd
  dsimp only
  rw [put_before_end h hch hlossy, hend]
  exact ⟨_, rfl⟩

end EndMarker

end AESGCMDecryption

end urbackup.cryptoplugin
