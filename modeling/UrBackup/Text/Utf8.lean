import Mathlib.Data.List.Basic

namespace utf8

/-- The bytes of some characters. -/
def IsUtf8 (b : List UInt8) : Prop :=
  ∃ cs : List Char, b = cs.flatMap String.utf8EncodeChar

/-- A byte that is not the first one of its character. -/
def isContinuation (b : UInt8) : Bool :=
  0x80 ≤ b && b < 0xc0

/-- How many bytes follow the first one of a character. -/
def tailLength (lead : UInt8) : Nat :=
  if lead < 0x80 then 0 else if lead < 0xe0 then 1 else if lead < 0xf0 then 2 else 3

theorem isContinuation_iff (b : UInt8) : isContinuation b = true ↔ 128 ≤ b.toNat ∧ b.toNat < 192 := by
  simp [isContinuation, UInt8.le_iff_toNat_le, UInt8.lt_iff_toNat_lt]

theorem not_isContinuation_iff (b : UInt8) : isContinuation b = false ↔ b.toNat < 128 ∨ 192 ≤ b.toNat := by
  rw [← Bool.not_eq_true, isContinuation_iff]
  omega

theorem tailLength_eq (b : UInt8) : tailLength b =
    if b.toNat < 128 then 0 else if b.toNat < 224 then 1 else if b.toNat < 240 then 2 else 3 := by
  simp [tailLength, UInt8.lt_iff_toNat_lt]

/-- What is said of the first byte `m` of a character and the others. -/
theorem announces {m : Nat} {tail : List UInt8} (hm : m < 256) (hlead : m < 128 ∨ 192 ≤ m)
    (htail : ∀ b ∈ tail, ∃ n, b = UInt8.ofNat (n % 64 + 128))
    (hlen : tail.length = if m < 128 then 0 else if m < 224 then 1 else if m < 240 then 2 else 3) :
    ∃ lead rest, UInt8.ofNat m :: tail = lead :: rest ∧ isContinuation lead = false ∧
      (∀ b ∈ rest, isContinuation b = true) ∧ rest.length = tailLength lead := by
  have hnat : (UInt8.ofNat m).toNat = m := UInt8.toNat_ofNat_of_lt' hm
  refine ⟨_, _, rfl, ?_, fun b hb => ?_, ?_⟩
  · rw [not_isContinuation_iff, hnat]
    exact hlead
  · obtain ⟨n, rfl⟩ := htail b hb
    rw [isContinuation_iff, UInt8.toNat_ofNat']
    omega
  · rw [tailLength_eq, hnat]
    exact hlen

/-- A character is a first byte and as many further ones as it announces. -/
theorem utf8EncodeChar_eq (c : Char) : ∃ lead tail, String.utf8EncodeChar c = lead :: tail ∧
    isContinuation lead = false ∧ (∀ b ∈ tail, isContinuation b = true) ∧ tail.length = tailLength lead := by
  have hvalid : c.val.toNat < 1114112 := by
    have := c.valid
    simp only [UInt32.isValidChar, Nat.isValidChar] at this
    omega
  simp only [String.utf8EncodeChar]
  generalize c.val.toNat = v at hvalid ⊢
  split
  · refine announces (by omega) (by omega) (by simp) ?_
    split_ifs <;> first | rfl | omega
  · have hone : ∀ n, ∃ k, UInt8.ofNat (n % 64 + 128) = UInt8.ofNat (k % 64 + 128) := fun n => ⟨n, rfl⟩
    have hnone : ∀ b ∈ ([] : List UInt8), ∃ k, b = UInt8.ofNat (k % 64 + 128) := by simp
    split
    · refine announces (by omega) (by omega) (List.forall_mem_cons.mpr ⟨hone _, hnone⟩) ?_
      split_ifs <;> first | rfl | omega
    · split
      · refine announces (by omega) (by omega)
          (List.forall_mem_cons.mpr ⟨hone _, List.forall_mem_cons.mpr ⟨hone _, hnone⟩⟩) ?_
        split_ifs <;> first | rfl | omega
      · refine announces (by omega) (by omega) (List.forall_mem_cons.mpr ⟨hone _,
          List.forall_mem_cons.mpr ⟨hone _, List.forall_mem_cons.mpr ⟨hone _, hnone⟩⟩⟩) ?_
        split_ifs <;> first | rfl | omega

theorem isUtf8_nil : IsUtf8 [] :=
  ⟨[], rfl⟩

theorem IsUtf8.append {b b' : List UInt8} (h : IsUtf8 b) (h' : IsUtf8 b') : IsUtf8 (b ++ b') := by
  obtain ⟨cs, rfl⟩ := h
  obtain ⟨cs', rfl⟩ := h'
  exact ⟨cs ++ cs', by rw [List.flatMap_append]⟩

/-- Bytes below 128 are characters of their own. -/
theorem isUtf8_ascii {b : List UInt8} (h : ∀ ch ∈ b, ch.toNat < 128) : IsUtf8 b := by
  refine ⟨b.map fun ch => Char.ofNat ch.toNat, ?_⟩
  induction b with
  | nil => rfl
  | cons ch b ih =>
    obtain ⟨hch, hrest⟩ := List.forall_mem_cons.mp h
    have hval : (Char.ofNat ch.toNat).val.toNat = ch.toNat := by
      rw [Char.ofNat, dif_pos (Or.inl (by omega))]
      rfl
    have hone : String.utf8EncodeChar (Char.ofNat ch.toNat) = [ch] := by
      simp only [String.utf8EncodeChar]
      rw [if_pos (by omega), hval, UInt8.ofNat_toNat]
    rw [List.map_cons, List.flatMap_cons, hone, ← ih hrest]
    rfl

theorem isUtf8_cons_iff (b : List UInt8) : IsUtf8 b ↔ b = [] ∨ ∃ c rest, b = String.utf8EncodeChar c ++ rest ∧ IsUtf8 rest := by
  constructor
  · rintro ⟨cs, rfl⟩
    cases cs with
    | nil => exact Or.inl rfl
    | cons c cs => exact Or.inr ⟨c, _, List.flatMap_cons, cs, rfl⟩
  · rintro (rfl | ⟨c, rest, rfl, hrest⟩)
    · exact isUtf8_nil
    · exact IsUtf8.append ⟨[c], by simp⟩ hrest

/-- Text may be cut before every byte that is no continuation. -/
theorem IsUtf8.split {pre post : List UInt8} {ch : UInt8} (h : IsUtf8 (pre ++ ch :: post)) (hch : isContinuation ch = false) :
    IsUtf8 pre ∧ IsUtf8 (ch :: post) := by
  obtain ⟨cs, hcs⟩ := h
  induction cs generalizing pre with
  | nil => simp at hcs
  | cons c cs ih =>
    obtain ⟨lead, tail, henc, -, htail, -⟩ := utf8EncodeChar_eq c
    rw [List.flatMap_cons, henc] at hcs
    cases pre with
    | nil => exact ⟨isUtf8_nil, c :: cs, by rw [List.flatMap_cons, henc]; exact hcs⟩
    | cons x pre =>
      rw [List.cons_append, List.cons_append, List.cons.injEq] at hcs
      obtain ⟨rfl, hcs⟩ := hcs
      -- the byte is none of the continuations, which all belong to the part before it
      obtain ⟨mid, hpre, hrest⟩ | ⟨mid, htl, hrest⟩ := List.append_eq_append_iff.mp hcs.symm
      · obtain ⟨hleft, hright⟩ := ih hrest.symm
        refine ⟨?_, hright⟩
        rw [hpre, ← List.cons_append, ← henc]
        exact IsUtf8.append ⟨[c], by simp⟩ hleft
      · cases mid with
        | nil =>
          rw [List.nil_append] at hrest
          rw [List.append_nil] at htl
          obtain ⟨-, hright⟩ := @ih [] hrest
          refine ⟨⟨[c], ?_⟩, hright⟩
          rw [← htl, List.flatMap_cons, henc]
          simp
        | cons y mid =>
          rw [List.cons_append, List.cons.injEq] at hrest
          have hcont := htail y (by rw [htl]; simp)
          rw [← hrest.1, hch] at hcont
          cases hcont

/-- Where text is cut into text, the second part starts with no continuation. -/
theorem IsUtf8.not_isContinuation {pre post : List UInt8} {ch : UInt8} (hpre : IsUtf8 pre) (h : IsUtf8 (pre ++ ch :: post)) :
    isContinuation ch = false := by
  obtain ⟨ds, rfl⟩ := hpre
  induction ds with
  | nil =>
    obtain hnil | ⟨c, rest, heq, -⟩ := (isUtf8_cons_iff _).mp h
    · simp at hnil
    · obtain ⟨lead, tail, henc, hlead, -⟩ := utf8EncodeChar_eq c
      rw [henc, List.flatMap_nil, List.nil_append, List.cons_append, List.cons.injEq] at heq
      rw [heq.1, hlead]
  | cons d ds ih =>
    obtain hnil | ⟨c, rest, heq, hrest⟩ := (isUtf8_cons_iff _).mp h
    · simp at hnil
    · obtain ⟨lead, tail, henc, -, -, hlen⟩ := utf8EncodeChar_eq c
      obtain ⟨lead', tail', henc', -, -, hlen'⟩ := utf8EncodeChar_eq d
      rw [List.flatMap_cons, henc, henc'] at heq
      simp only [List.cons_append, List.append_assoc, List.cons.injEq] at heq
      obtain ⟨rfl, heq⟩ := heq
      obtain ⟨-, hsame⟩ := List.append_inj heq (by omega)
      exact ih (hsame ▸ hrest)

/-- A first byte from 128 on is followed by a continuation. -/
theorem IsUtf8.next {pre post : List UInt8} {lead : UInt8} (h : IsUtf8 (pre ++ lead :: post))
    (hlead : isContinuation lead = false) (hhigh : 128 ≤ lead.toNat) :
    ∃ ch rest, post = ch :: rest ∧ isContinuation ch = true := by
  obtain hnil | ⟨c, rest, heq, -⟩ := (isUtf8_cons_iff _).mp (h.split hlead).2
  · simp at hnil
  · obtain ⟨lead', tail, henc, -, htail, hlen⟩ := utf8EncodeChar_eq c
    rw [henc, List.cons_append, List.cons.injEq] at heq
    obtain ⟨rfl, rfl⟩ := heq
    rw [tailLength_eq, if_neg (by omega)] at hlen
    cases tail with
    | nil => split_ifs at hlen
    | cons ch tail => exact ⟨ch, tail ++ rest, rfl, htail ch List.mem_cons_self⟩

/-- Bytes below 128 may be put at any place where text starts. -/
theorem isUtf8_insert {pre mid post : List UInt8} {m p : UInt8} (hmid : ∀ ch ∈ m :: mid, ch.toNat < 128) (hp : p.toNat < 128) :
    IsUtf8 (pre ++ m :: mid ++ p :: post) ↔ IsUtf8 (pre ++ p :: post) := by
  have hlow : ∀ ch : UInt8, ch.toNat < 128 → isContinuation ch = false := fun ch h =>
    (not_isContinuation_iff ch).mpr (Or.inl h)
  constructor
  · intro h
    have hpost := (h.split (hlow p hp)).2
    rw [List.append_assoc, List.cons_append] at h
    exact ((h.split (hlow m (hmid m List.mem_cons_self))).1).append hpost
  · intro h
    obtain ⟨hpre, hpost⟩ := h.split (hlow p hp)
    exact (hpre.append (isUtf8_ascii hmid)).append hpost

/-- The same for bytes behind the text. -/
theorem isUtf8_append_ascii {pre mid : List UInt8} {m : UInt8} (hmid : ∀ ch ∈ m :: mid, ch.toNat < 128) :
    IsUtf8 (pre ++ m :: mid) ↔ IsUtf8 pre :=
  ⟨fun h => (h.split ((not_isContinuation_iff m).mpr (Or.inl (hmid m List.mem_cons_self)))).1,
    fun h => h.append (isUtf8_ascii hmid)⟩

/-- Replacing bytes below 128 by such bytes keeps text. -/
theorem isUtf8_map {f : UInt8 → UInt8} (hlow : ∀ ch, ch.toNat < 128 → (f ch).toNat < 128) (hhigh : ∀ ch, 128 ≤ ch.toNat → f ch = ch)
    {b : List UInt8} (h : IsUtf8 b) : IsUtf8 (b.map f) := by
  obtain ⟨cs, rfl⟩ := h
  induction cs with
  | nil => exact isUtf8_nil
  | cons c cs ih =>
    rw [List.flatMap_cons, List.map_append]
    refine IsUtf8.append ?_ ih
    obtain ⟨lead, tail, henc, hlead, htail, hlen⟩ := utf8EncodeChar_eq c
    rw [tailLength_eq] at hlen
    by_cases hascii : lead.toNat < 128
    · rw [if_pos hascii, List.length_eq_zero_iff] at hlen
      rw [henc, hlen]
      exact isUtf8_ascii (by simpa using hlow lead hascii)
    · have hsame : (lead :: tail).map f = lead :: tail := by
        refine (List.map_congr_left (g := id) fun ch hch => hhigh ch ?_).trans (List.map_id _)
        rcases List.mem_cons.mp hch with rfl | hch
        · omega
        · exact ((isContinuation_iff ch).mp (htail ch hch)).1
      rw [henc, hsame, ← henc]
      exact ⟨[c], by simp⟩

end utf8
