import UrBackup.Crypto.AESGCM

namespace urbackup.cryptoplugin

open stringtools

/-- Four zeros and a one end a message, four zeros in it are followed by a two. -/
def marks : Marks UInt8 where
  zero := 0
  stop := 1
  esc := 2
  zeros := end_marker_zeros
  zeros_pos := by decide
  stop_ne := by decide
  esc_ne := by decide
  esc_ne_stop := by decide

namespace Cipher

variable {c : Cipher}

theorem cryptAll_append (iv plain : Bytes) (pieces : List Bytes) (data : Bytes) :
    c.cryptAll iv plain (pieces ++ [data]) = c.cryptAll iv plain pieces ++ c.crypt iv (plain ++ pieces.flatten) data := by
  induction pieces generalizing plain with
  | nil =>
    rw [List.nil_append, cryptAll, cryptAll, cryptAll, List.flatten_nil, List.append_nil, List.append_nil, List.nil_append]
  | cons piece pieces ih =>
    rw [List.cons_append, cryptAll, cryptAll, ih, List.flatten_cons, List.append_assoc, List.append_assoc]

theorem ivAfter_succ (iv : Bytes) (n : Nat) : c.ivAfter iv (n + 1) = c.IncrementCounterByOne (c.ivAfter iv n) :=
  Function.iterate_succ_apply' _ _ _

theorem encryptAll_append (iv : Bytes) (messages : List (List Bytes)) (message : List Bytes) :
    c.encryptAll iv (messages ++ [message]) =
      c.encryptAll iv messages ++ [c.encrypt (c.ivAfter iv messages.length) message] := by
  induction messages generalizing iv with
  | nil => rfl
  | cons first messages ih =>
    rw [List.cons_append, encryptAll, encryptAll, ih, List.cons_append]
    rfl

end Cipher

/-- The bytes that the next `get` takes from the filter. -/
def EncryptionFilter.front (f : EncryptionFilter) : Bytes :=
  match f.finished with
  | [] => f.pending
  | first :: _ => first

/-- The filter after that. -/
def EncryptionFilter.emptied (f : EncryptionFilter) : EncryptionFilter :=
  match f.finished with
  | [] => { f with pending := [] }
  | _ :: rest => { f with finished := [] :: rest }

theorem EncryptionFilter.max_eq (f : EncryptionFilter) : f.MaxRetrievable = f.front.length := by
  obtain ⟨iv, pieces, finished, pending, history⟩ := f
  cases finished <;> rfl

theorem EncryptionFilter.get_eq (f : EncryptionFilter) : f.Get f.front.length = (f.front, f.emptied) := by
  obtain ⟨iv, pieces, finished, pending, history⟩ := f
  unfold Get front emptied
  cases finished with
  | nil =>
    dsimp only
    rw [List.take_length, List.drop_length]
  | cons first rest =>
    dsimp only
    rw [List.take_length, List.drop_length]

theorem EncryptionFilter.emptied_of_front {f : EncryptionFilter} (h : f.front = []) : f.emptied = f := by
  obtain ⟨iv, pieces, finished, pending, history⟩ := f
  unfold front at h
  unfold emptied
  cases finished with
  | nil =>
    dsimp only at h ⊢
    rw [h]
  | cons first rest =>
    dsimp only at h ⊢
    rw [h]

namespace AESGCMEncryption

variable {c : Cipher} {e : AESGCMEncryption}

section Escaping

/-- The bytes around a position. -/
theorem split_at {xs : Bytes} {n : Nat} (h : n < xs.length) : ∃ ys x zs, xs = ys ++ [x] ++ zs ∧ ys.length = n := by
  refine ⟨xs.take n, xs[n], xs.drop (n + 1), ?_, List.length_take_of_le (Nat.le_of_lt h)⟩
  rw [List.append_assoc, List.singleton_append, ← List.drop_eq_getElem_cons h, List.take_append_drop]

theorem escapeEndMarker_eq {fuel : Nat} {e : AESGCMEncryption} {done part : Bytes} (rest : Bytes) {size : Nat}
    (hstate : e.end_marker_state < end_marker_zeros)
    (hsize : size = done.length + part.length + marks.escapes e.end_marker_state part)
    (hfuel : part.length + marks.escapes e.end_marker_state part ≤ fuel) :
    escapeEndMarker fuel e (done ++ part ++ rest) size done.length =
      (done ++ marks.escape e.end_marker_state part ++ rest,
        { e with
          end_marker_state := marks.countAll e.end_marker_state part
          overhead_size := e.overhead_size + marks.escapes e.end_marker_state part }) := by
  induction fuel generalizing e done part with
  | zero =>
    obtain rfl : part = [] := List.eq_nil_of_length_eq_zero (by omega)
    rfl
  | succ fuel ih =>
    rw [escapeEndMarker]
    cases part with
    | nil =>
      rw [if_neg (by rw [hsize]; exact Nat.lt_irrefl _)]
      rfl
    | cons ch part =>
      rw [if_pos (by rw [hsize, List.length_cons]; omega)]
      split
      next hskip =>
        -- no run can end in the four bytes, and none reaches behind them
        obtain ⟨hzero, hfour, hch⟩ := hskip
        have hlong : 3 < (ch :: part).length := by
          by_contra hshort
          obtain ⟨-, hnone, -⟩ : marks.escape 0 (ch :: part) = ch :: part ∧ marks.escapes 0 (ch :: part) = 0 ∧ _ :=
            Marks.escape_of_short (show 0 + (ch :: part).length < end_marker_zeros by unfold end_marker_zeros; omega)
          rw [hzero, hnone] at hsize
          unfold end_marker_zeros at hfour
          omega
        obtain ⟨three, x, more, hpart, hthree⟩ := split_at hlong
        rw [hpart] at hsize hfuel hch ⊢
        have hx : x ≠ 0 := by
          intro hx
          refine hch ?_
          rw [List.append_assoc, List.getElem?_append_right (by unfold end_marker_zeros; omega)]
          have hindex : done.length + end_marker_zeros - 1 - done.length = three.length := by
            unfold end_marker_zeros
            omega
          rw [hindex, List.append_assoc, List.append_assoc, List.getElem?_append_right (le_refl _), Nat.sub_self, hx]
          rfl
        obtain ⟨hescape, hescapes, hcount⟩ : marks.escape 0 (three ++ [x]) = three ++ [x] ∧ marks.escapes 0 (three ++ [x]) = 0 ∧
            marks.countAll 0 (three ++ [x]) = 0 :=
          Marks.escape_of_short_ne (show three.length < end_marker_zeros by unfold end_marker_zeros; omega) hx
        rw [hzero, Marks.escapes_append, hescapes, hcount, Nat.zero_add] at hsize hfuel
        have hdone : (done ++ (three ++ [x])).length = done.length + end_marker_zeros := by
          rw [List.length_append, List.length_append, List.length_singleton, hthree]
          rfl
        rw [List.length_append, List.length_append, List.length_singleton, hthree] at hsize hfuel
        have hrest : escapeEndMarker fuel e (done ++ (three ++ [x]) ++ more ++ rest) size (done ++ (three ++ [x])).length = _ :=
          ih hstate (by rw [hdone, hzero, hsize]; unfold end_marker_zeros; omega) (by rw [hzero]; omega)
        have hescape' : marks.escape 0 (three ++ [x] ++ more) = three ++ [x] ++ marks.escape 0 more := by
          rw [Marks.escape_append, hescape, hcount]
        have hescapes' : marks.escapes 0 (three ++ [x] ++ more) = marks.escapes 0 more := by
          rw [Marks.escapes_append, hescapes, hcount, Nat.zero_add]
        have hcount' : marks.countAll 0 (three ++ [x] ++ more) = marks.countAll 0 more := by
          rw [Marks.countAll_append, hcount]
        rw [hdone] at hrest
        rw [← List.append_assoc done, hrest, hzero, hescape', hescapes', hcount', ← List.append_assoc done (three ++ [x])]
      next hskip =>
        have hget : (done ++ ch :: part ++ rest)[done.length]? = some ch := by
          rw [List.append_assoc, List.getElem?_append_right (le_refl _), Nat.sub_self]
          rfl
        have hdone : (done ++ [ch]).length = done.length + 1 := List.length_append
        have hmove : done ++ ch :: part = done ++ [ch] ++ part := by
          rw [List.append_assoc, List.singleton_append]
        rw [hget]
        by_cases hrun : marks.completes e.end_marker_state ch
        · obtain ⟨hescape, hescapes, hcount⟩ := Marks.escape_cons_run hrun part
          obtain rfl : ch = 0 := hrun.1
          rw [hescapes, List.length_cons] at hsize hfuel
          have hinsert : (done ++ 0 :: part ++ rest).take (done.length + 1) ++ 2 :: (done ++ 0 :: part ++ rest).drop (done.length + 1) =
              done ++ [0, 2] ++ part ++ rest := by
            rw [hmove, List.append_assoc (done ++ [0]), ← hdone, List.take_left, List.drop_left]
            simp only [List.append_assoc, List.cons_append, List.nil_append]
          have hdone' : (done ++ [0, 2]).length = done.length + 2 := List.length_append
          have hrest : escapeEndMarker fuel { e with end_marker_state := 0, overhead_size := e.overhead_size + 1 }
              (done ++ [0, 2] ++ part ++ rest) size (done ++ [0, 2]).length = _ :=
            ih marks.zeros_pos (by rw [hdone']; dsimp only; omega) (by dsimp only; omega)
          rw [hdone'] at hrest
          rw [if_pos rfl, if_pos (show e.end_marker_state + 1 = end_marker_zeros from hrun.2), hinsert, hrest, hescape, hescapes, hcount,
            ← Nat.add_assoc, ← List.append_assoc done]
          rfl
        · obtain ⟨hescape, hescapes⟩ := Marks.escape_cons hrun part
          rw [hescapes, List.length_cons] at hsize hfuel
          have hrest : escapeEndMarker fuel { e with end_marker_state := marks.count e.end_marker_state ch }
              (done ++ [ch] ++ part ++ rest) size (done ++ [ch]).length = _ :=
            ih (Marks.count_lt hstate ch) (by rw [hdone]; dsimp only; omega) (by dsimp only; omega)
          rw [hdone] at hrest
          rw [hescape, hescapes, Marks.countAll_cons, ← List.append_assoc done]
          refine Eq.trans ?_ hrest
          rw [hmove]
          by_cases hch : ch = 0
          · subst hch
            have hstate' : marks.count e.end_marker_state 0 = e.end_marker_state + 1 := Marks.count_zero fun h => hrun ⟨rfl, h⟩
            have hmore : e.end_marker_state + 1 ≠ end_marker_zeros := fun h => hrun ⟨rfl, h⟩
            rw [if_pos rfl, if_neg hmore, hstate']
          · have hstate' : marks.count e.end_marker_state ch = 0 := Marks.count_of_ne hch
            rw [if_neg (fun h => hch (Option.some.inj h)), hstate']

end Escaping

section Definitions

variable (c : Cipher) (e : AESGCMEncryption)

inductive Op
  | put (data : Bytes)
  | flush
  | get

/-- What a call hands out and the state after it. -/
def apply : Op → Bytes × AESGCMEncryption
  | .put data => ([], e.put c data)
  | .flush => ([], e.flush c)
  | .get => e.get

/-- The stream of all calls. -/
def applyAll : List Op → AESGCMEncryption → Bytes × AESGCMEncryption
  | [], e => ([], e)
  | op :: ops, e =>
    let (out, e) := e.apply c op
    let (rest, e) := applyAll ops e
    (out ++ rest, e)

/-- The part of a piece that `escapeEndMarker` looks at: for every byte it
inserts it stops one byte earlier. -/
def shown (held : Nat) (piece : Bytes) : Bytes :=
  piece.take (piece.length - marks.escapes held piece)

def hidden (held : Nat) (piece : Bytes) : Bytes :=
  piece.drop (piece.length - marks.escapes held piece)

/-- There is no zero in the part that is not looked at, and right before it
only if the message ends with the piece. -/
def Shows (held : Nat) (last : Bool) (piece : Bytes) : Prop :=
  (∀ x ∈ hidden held piece, x ≠ 0) ∧ (last = true ∨ hidden held piece = [] ∨ marks.countAll held (shown held piece) = 0)

/-- A message ends only if the one before it was retrieved. -/
def Fits : Op → Prop
  | .put data => (e.message_size + data.length) % 2 ^ 64 > 2 * 1024 * 1024 * 1024 - 1 → e.end_markers = []
  | .flush => e.end_markers = []
  | .get => Shows e.end_marker_state (!e.end_markers.isEmpty) e.encryption_filter.front

def AllFit : List Op → AESGCMEncryption → Prop
  | [], _ => True
  | op :: ops, e => e.Fits op ∧ AllFit ops (e.apply c op).2

/-- What is in the queue of the filter, behind the messages that were retrieved
and the part of the next one that was. -/
inductive Queue (iv : Bytes) (f : EncryptionFilter) : (end_markers : List Nat) → (ended : List Bytes) → (part : Bytes) → Prop
  | unfinished {ended : List Bytes} {part : Bytes} : f.finished = [] → ended = c.encryptAll iv f.history →
    part ++ f.pending = c.cryptAll f.iv [] f.pieces → Queue iv f [] ended part
  | finished {ended : List Bytes} {part first : Bytes} {history : List (List Bytes)} {message : List Bytes} :
    f.finished = [first] → f.history = history ++ [message] → ended = c.encryptAll iv history →
    part ++ first = c.encrypt (c.ivAfter iv history.length) message → f.pending = c.cryptAll f.iv [] f.pieces →
    Queue iv f [first.length] ended part

/-- The stream so far is what was retrieved, escaped. -/
structure Sending (iv stream : Bytes) (ended : List Bytes) (part : Bytes) : Prop where
  orig : e.m_orig_IV = iv
  iv_filter : e.encryption_filter.iv = e.m_IV
  iv_next : e.m_IV = c.ivAfter iv e.encryption_filter.history.length
  state : e.end_marker_state = marks.countAll 0 part
  queue : Queue c iv e.encryption_filter e.end_markers ended part
  stream_eq : stream = if e.iv_done then iv ++ ended.flatMap marks.frame ++ marks.escape 0 part else []
  start : e.iv_done = false → ended = [] ∧ part = []

end Definitions

section Retrieving

theorem shown_append_hidden (held : Nat) (piece : Bytes) : shown held piece ++ hidden held piece = piece :=
  List.take_append_drop _ _

theorem Shows.escape {held : Nat} {last : Bool} {piece : Bytes} (h : Shows held last piece) :
    marks.escape held piece = marks.escape held (shown held piece) ++ hidden held piece ∧
      marks.escapes held piece = marks.escapes held (shown held piece) := by
  obtain ⟨hescape, hescapes⟩ : marks.escape (marks.countAll held (shown held piece)) (hidden held piece) = hidden held piece ∧
      marks.escapes (marks.countAll held (shown held piece)) (hidden held piece) = 0 := Marks.escape_of_ne h.1
  have hall := Marks.escape_append (k := marks) held (shown held piece) (hidden held piece)
  have hcount := Marks.escapes_append (k := marks) held (shown held piece) (hidden held piece)
  rw [shown_append_hidden] at hall hcount
  rw [hall, hcount, hescape, hescapes]
  exact ⟨rfl, rfl⟩

theorem Shows.countAll {held : Nat} {piece : Bytes} (h : Shows held false piece) :
    marks.countAll held (shown held piece) = marks.countAll held piece := by
  have hall := Marks.countAll_append (k := marks) held (shown held piece) (hidden held piece)
  rw [shown_append_hidden] at hall
  obtain hlast | hnone | hzero := h.2
  · cases hlast
  · rw [hall, hnone]
    rfl
  · by_cases hnone : hidden held piece = []
    · rw [hall, hnone]
      rfl
    · rw [hall, Marks.countAll_of_ne hnone h.1, hzero]

theorem escapes_le (held : Nat) (piece : Bytes) : marks.escapes held piece ≤ piece.length := by
  induction piece generalizing held with
  | nil => exact le_refl _
  | cons x xs ih =>
    have hrest := ih (marks.count held x)
    rw [Marks.escapes, List.length_cons]
    split <;> omega

theorem escapeEndMarker_shows {e : AESGCMEncryption} {last : Bool} {piece : Bytes} (iv zeros : Bytes)
    (hstate : e.end_marker_state < end_marker_zeros) (h : Shows e.end_marker_state last piece) :
    ∃ e', escapeEndMarker (iv.length + piece.length) e (iv ++ piece ++ zeros) (iv.length + piece.length) iv.length =
        (iv ++ marks.escape e.end_marker_state piece ++ zeros, e') ∧
      e' = { e with
        end_marker_state := marks.countAll e.end_marker_state (shown e.end_marker_state piece)
        overhead_size := e.overhead_size + marks.escapes e.end_marker_state piece } := by
  obtain ⟨hescape, hescapes⟩ := h.escape
  have hle := escapes_le e.end_marker_state piece
  have hlength : (shown e.end_marker_state piece).length + marks.escapes e.end_marker_state (shown e.end_marker_state piece) =
      piece.length := by
    rw [← hescapes, shown, List.length_take]
    omega
  refine ⟨_, ?_, rfl⟩
  have hloop : escapeEndMarker (iv.length + piece.length) e
      (iv ++ shown e.end_marker_state piece ++ (hidden e.end_marker_state piece ++ zeros)) (iv.length + piece.length) iv.length = _ :=
    escapeEndMarker_eq _ hstate (by omega) (by omega)
  have hsplit : iv ++ shown e.end_marker_state piece ++ (hidden e.end_marker_state piece ++ zeros) = iv ++ piece ++ zeros := by
    rw [List.append_assoc iv, ← List.append_assoc (shown _ _), shown_append_hidden, List.append_assoc]
  rw [hsplit] at hloop
  rw [hloop, hescape, hescapes]
  simp only [List.append_assoc]

theorem retrieve_eq {last : Bool} (iv zeros : Bytes) (hstate : e.end_marker_state < end_marker_zeros)
    (hmarkers : e.end_markers = []) (h : Shows e.end_marker_state last e.encryption_filter.front) :
    e.retrieve e.encryption_filter.front.length iv zeros =
      (iv ++ marks.escape e.end_marker_state e.encryption_filter.front ++ zeros,
        { e with
          encryption_filter := e.encryption_filter.emptied
          end_marker_state := marks.countAll e.end_marker_state (shown e.end_marker_state e.encryption_filter.front)
          overhead_size := e.overhead_size + marks.escapes e.end_marker_state e.encryption_filter.front }) := by
  unfold retrieve
  by_cases hnone : e.encryption_filter.front = []
  · rw [EncryptionFilter.emptied_of_front hnone, hnone, if_neg (by simp)]
    simp only [Marks.escape, List.append_nil]
    rfl
  · have hpos : e.encryption_filter.front.length > 0 := List.length_pos_iff.mpr hnone
    rw [if_pos hpos, EncryptionFilter.get_eq]
    dsimp only
    obtain ⟨e', hloop, he'⟩ : ∃ e', escapeEndMarker (iv.length + e.encryption_filter.front.length)
        { e with encryption_filter := e.encryption_filter.emptied } (iv ++ e.encryption_filter.front ++ zeros)
        (iv.length + e.encryption_filter.front.length) iv.length =
          (iv ++ marks.escape e.end_marker_state e.encryption_filter.front ++ zeros, e') ∧ _ :=
      escapeEndMarker_shows iv zeros hstate h
    rw [Nat.sub_self, List.replicate_zero, List.append_nil, hloop, he']
    dsimp only [decEndMarkers]
    rw [hmarkers]
    rfl

theorem get_unfinished (hstate : e.end_marker_state < end_marker_zeros) (hmarkers : e.end_markers = [])
    (h : Shows e.end_marker_state false e.encryption_filter.front) :
    ∃ overhead_size, e.get =
      ((if e.iv_done then [] else e.m_orig_IV) ++ marks.escape e.end_marker_state e.encryption_filter.front,
        { e with
          iv_done := true
          encryption_filter := e.encryption_filter.emptied
          end_marker_state := marks.countAll e.end_marker_state e.encryption_filter.front
          overhead_size }) := by
  unfold get nextMarker
  rw [hmarkers]
  dsimp only
  rw [EncryptionFilter.max_eq]
  have hretrieve : retrieve
      { e with
        iv_done := true
        overhead_size := e.overhead_size + (if e.iv_done then [] else e.m_orig_IV).length }
      e.encryption_filter.front.length (if e.iv_done then [] else e.m_orig_IV) [] = _ := retrieve_eq _ _ hstate hmarkers h
  dsimp only at hretrieve
  rw [if_neg Bool.false_ne_true, if_neg Bool.false_ne_true, hretrieve, List.append_nil, h.countAll, hmarkers]
  exact ⟨_, rfl⟩

theorem get_finished {marker : Nat} (hstate : e.end_marker_state < end_marker_zeros)
    (hmarker : marker = e.encryption_filter.front.length) (hmarkers : e.end_markers = [marker])
    (h : Shows e.end_marker_state true e.encryption_filter.front) :
    ∃ overhead_size, e.get =
      ((if e.iv_done then [] else e.m_orig_IV) ++ marks.escape e.end_marker_state e.encryption_filter.front ++ marks.endMarker,
        { e with
          iv_done := true
          encryption_filter := e.encryption_filter.emptied.GetNextMessage
          end_markers := []
          end_marker_state := 0
          message_size := 0
          overhead_size }) := by
  unfold get nextMarker
  rw [hmarkers]
  dsimp only
  have hretrieve : retrieve
      { e with
        iv_done := true
        end_markers := []
        overhead_size := e.overhead_size + (if e.iv_done then [] else e.m_orig_IV).length }
      e.encryption_filter.front.length (if e.iv_done then [] else e.m_orig_IV) (List.replicate (end_marker_zeros + 1) 0) = _ :=
    retrieve_eq _ _ hstate rfl h
  have hlast : ∀ xs : Bytes, (xs ++ List.replicate (end_marker_zeros + 1) 0).dropLast ++ [1] = xs ++ marks.endMarker := by
    intro xs
    rw [List.replicate_succ', ← List.append_assoc, List.dropLast_concat, List.append_assoc]
    rfl
  dsimp only at hretrieve
  rw [hmarker, if_pos rfl, if_pos rfl, hretrieve]
  dsimp only
  rw [hlast]
  exact ⟨_, rfl⟩

end Retrieving

section Runs

variable {iv stream part : Bytes} {ended : List Bytes}

theorem construct_sending (iv : Bytes) : (construct iv).Sending c iv [] [] [] where
  orig := rfl
  iv_filter := rfl
  iv_next := rfl
  state := rfl
  queue := .unfinished rfl rfl rfl
  stream_eq := rfl
  start := fun _ => ⟨rfl, rfl⟩

theorem Queue.put {f : EncryptionFilter} {end_markers : List Nat} (h : Queue c iv f end_markers ended part) (data : Bytes) :
    Queue c iv (f.Put c data) end_markers ended part := by
  have hnext : ∀ front : Bytes, front ++ f.pending = c.cryptAll f.iv [] f.pieces →
      front ++ (f.Put c data).pending = c.cryptAll f.iv [] (f.pieces ++ [data]) := by
    intro front hfront
    rw [Cipher.cryptAll_append, ← hfront, List.append_assoc]
    rfl
  cases h with
  | unfinished hfinished hended hpending => exact .unfinished hfinished hended (hnext part hpending)
  | finished hfinished hhistory hended hfirst hpending => exact .finished hfinished hhistory hended hfirst (hnext [] hpending)

section Sent

variable (h : e.Sending c iv stream ended part)

include h

theorem Sending.put_filter (data : Bytes) (message_size : Nat) :
    { e with encryption_filter := e.encryption_filter.Put c data, message_size }.Sending c iv stream ended part where
  orig := h.orig
  iv_filter := h.iv_filter
  iv_next := h.iv_next
  state := h.state
  queue := h.queue.put data
  stream_eq := h.stream_eq
  start := h.start

theorem Sending.flush (hmarkers : e.end_markers = []) :
    (e.flush c).Sending c iv stream ended part where
  orig := h.orig
  iv_filter := rfl
  iv_next := by
    have hnext : c.IncrementCounterByOne e.m_IV = c.ivAfter iv (e.encryption_filter.history ++ [e.encryption_filter.pieces]).length := by
      rw [h.iv_next, ← Cipher.ivAfter_succ, List.length_append, List.length_singleton]
    exact hnext
  state := h.state
  queue := by
    have hqueue := h.queue
    rw [hmarkers] at hqueue
    cases hqueue with
    | unfinished hfinished hended hpending =>
      have hmax : (e.encryption_filter.MessageEnd c).finished =
          [e.encryption_filter.pending ++ c.tag e.encryption_filter.iv e.encryption_filter.pieces.flatten] := by
        unfold EncryptionFilter.MessageEnd
        dsimp only
        rw [hfinished, List.nil_append]
      have hmarker : (e.flush c).end_markers =
          [(e.encryption_filter.pending ++ c.tag e.encryption_filter.iv e.encryption_filter.pieces.flatten).length] := by
        unfold AESGCMEncryption.flush EncryptionFilter.MaxRetrievable
        dsimp only
        rw [hmax, hmarkers]
        rfl
      rw [hmarker]
      refine .finished hmax rfl hended ?_ rfl
      rw [← List.append_assoc, hpending, ← h.iv_next, ← h.iv_filter]
      rfl
  stream_eq := h.stream_eq
  start := h.start

theorem Sending.put {data : Bytes} (hfits : e.Fits (.put data)) :
    (e.put c data).Sending c iv stream ended part := by
  unfold AESGCMEncryption.put
  dsimp only
  split
  · next hlong => exact (h.put_filter data _).flush (hfits hlong)
  · exact h.put_filter data _

/-- The stream of a `get`. -/
theorem Sending.stream_append :
    stream ++ (if e.iv_done then [] else e.m_orig_IV) = iv ++ ended.flatMap marks.frame ++ marks.escape 0 part := by
  have hstream := h.stream_eq
  cases hdone : e.iv_done with
  | true =>
    rw [hdone, if_pos rfl] at hstream
    rw [if_pos rfl, List.append_nil, hstream]
  | false =>
    obtain ⟨hended, hpart⟩ := h.start hdone
    rw [hdone, if_neg Bool.false_ne_true] at hstream
    rw [if_neg Bool.false_ne_true, hstream, h.orig, hended, hpart]
    simp [Marks.escape]

theorem Sending.get (hfits : e.Fits .get) :
    ∃ ended' part', e.get.2.Sending c iv (stream ++ e.get.1) ended' part' := by
  have hstate : e.end_marker_state < end_marker_zeros := by
    rw [h.state]
    exact Marks.countAll_lt marks.zeros_pos part
  have hstream := h.stream_append
  have hqueue := h.queue
  obtain ⟨end_markers, hmarkers⟩ : ∃ end_markers, e.end_markers = end_markers := ⟨_, rfl⟩
  have hshows : Shows e.end_marker_state (!end_markers.isEmpty) e.encryption_filter.front := hmarkers ▸ hfits
  rw [hmarkers] at hqueue
  cases hqueue with
  | unfinished hfinished hended hpending =>
    have hfront : e.encryption_filter.front = e.encryption_filter.pending := by
      unfold EncryptionFilter.front
      rw [hfinished]
    have hemptied : e.encryption_filter.emptied = { e.encryption_filter with pending := [] } := by
      simp only [EncryptionFilter.emptied, hfinished]
    obtain ⟨overhead_size, hget⟩ := get_unfinished hstate hmarkers hshows
    rw [hget, hfront, hemptied]
    refine ⟨ended, part ++ e.encryption_filter.pending, h.orig, h.iv_filter, h.iv_next, ?_, ?_, ?_, fun hdone => nomatch hdone⟩
    · dsimp only
      rw [Marks.countAll_append, h.state]
    · dsimp only
      rw [hmarkers]
      exact .unfinished hfinished hended (by rw [List.append_nil]; exact hpending)
    · dsimp only
      rw [← List.append_assoc, hstream, if_pos rfl, Marks.escape_append, h.state, List.append_assoc]
  | @finished _ _ first history message hfinished hhistory hended hfirst hpending =>
    have hfront : e.encryption_filter.front = first := by
      unfold EncryptionFilter.front
      rw [hfinished]
    have hnext : e.encryption_filter.emptied.GetNextMessage = { e.encryption_filter with finished := [] } := by
      unfold EncryptionFilter.emptied EncryptionFilter.GetNextMessage
      rw [hfinished]
    obtain ⟨overhead_size, hget⟩ := get_finished hstate (by rw [hfront]) hmarkers hshows
    rw [hget, hfront, hnext]
    have hall : ended ++ [part ++ first] = c.encryptAll iv e.encryption_filter.history := by
      rw [hhistory, Cipher.encryptAll_append, hended, hfirst]
    refine ⟨ended ++ [part ++ first], [], h.orig, h.iv_filter, h.iv_next, rfl, ?_, ?_, fun hdone => nomatch hdone⟩
    · exact .unfinished rfl hall hpending
    · dsimp only
      rw [← List.append_assoc, ← List.append_assoc, hstream, if_pos rfl, List.flatMap_append, List.flatMap_singleton, Marks.frame,
        Marks.escape_append, h.state]
      simp only [List.append_assoc, Marks.escape, List.append_nil]

theorem Sending.applyAll {ops : List Op} (hfits : AllFit c ops e) :
    ∃ ended' part', (AESGCMEncryption.applyAll c ops e).2.Sending c iv (stream ++ (AESGCMEncryption.applyAll c ops e).1)
      ended' part' := by
  induction ops generalizing e stream ended part with
  | nil => exact ⟨ended, part, by rw [AESGCMEncryption.applyAll, List.append_nil]; exact h⟩
  | cons op ops ih =>
    obtain ⟨ended', part', hstep⟩ : ∃ ended' part', (e.apply c op).2.Sending c iv (stream ++ (e.apply c op).1) ended' part' := by
      cases op with
      | put data => exact ⟨ended, part, by rw [apply, List.append_nil]; exact h.put hfits.1⟩
      | flush => exact ⟨ended, part, by rw [apply, List.append_nil]; exact h.flush hfits.1⟩
      | get => exact h.get hfits.1
    obtain ⟨ended'', part'', hrest⟩ := ih hstep hfits.2
    refine ⟨ended'', part'', ?_⟩
    rw [List.append_assoc] at hrest
    exact hrest

end Sent

end Runs

end AESGCMEncryption

end urbackup.cryptoplugin
