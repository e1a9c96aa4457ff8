import UrBackup.Crypto.Decryption

namespace urbackup.cryptoplugin

open stringtools

namespace AESGCMDecryption

section Definitions

variable (c : Cipher) (d : AESGCMDecryption)

inductive Op
  | put (data : Bytes)
  | get

/-- The messages that the calls return. There is no more of them after a `put`
that fails. -/
def applyAll : List Op → AESGCMDecryption → Option (List Bytes × AESGCMDecryption)
  | [], d => some ([], d)
  | .put data :: ops, d =>
    match d.put c data with
    | (false, _) => none
    | (true, d) => applyAll ops d
  | .get :: ops, d =>
    let (message, d) := d.get
    (applyAll ops d).map fun (messages, d) => (message.toList ++ messages, d)

def received : List Op → Bytes
  | [] => []
  | .put data :: ops => data ++ received ops
  | .get :: ops => received ops

def AllFit : List Op → AESGCMDecryption → Prop
  | [], _ => True
  | .put data :: ops, d => ¬ Lossy d.end_marker_state data ∧ AllFit ops (d.put c data).2
  | .get :: ops, d => AllFit ops d.get.2

/-- The decryption does what a receiver of the stream does, and its messages
are those that were returned and those that can be retrieved. -/
structure Receiving (iv : Bytes) (r : Marks.Receiver UInt8) (returned : List Bytes) : Prop where
  held : d.end_marker_state = r.held
  current : d.decryption_filter.current = r.current
  ended : d.decryption_filter.ended = r.ended
  iv_done : d.iv_done = true
  iv_buffer : d.iv_buffer = c.ivAfter iv r.ended.length
  iv_filter : d.decryption_filter.iv = d.iv_buffer
  held_le : r.held ≤ end_marker_zeros
  plains : c.decryptAll iv r.ended = some (returned ++ d.decryption_filter.messages)

/-- How much of a stream was received: a part of the initialization vector, or
all of it and a part of the messages. -/
inductive Progress (iv : Bytes) : (got : Bytes) → (returned : List Bytes) → Prop
  | start {got : Bytes} : d = { construct with iv_buffer := got } → got.length < iv_size → Progress iv got []
  | running {got : Bytes} {rest : Bytes} {r : Marks.Receiver UInt8} {returned : List Bytes} : got = iv ++ rest →
    marks.feedAll ⟨0, [], []⟩ rest = some r → d.Receiving c iv r returned → Progress iv got returned

end Definitions

variable {c : Cipher} {d : AESGCMDecryption} {iv : Bytes} {returned : List Bytes}

/-- Nothing is lost if nothing was kept back. -/
theorem not_lossy_zero (data : Bytes) : ¬ Lossy 0 data := by
  rintro (⟨hzero, -⟩ | ⟨n, rest, hle, hlt, -⟩ | ⟨hzero, -⟩)
  · cases hzero
  · omega
  · cases hzero

theorem putData_receiving {fuel : Nat} {d : AESGCMDecryption} {data : Bytes} {r r' : Marks.Receiver UInt8} (hfuel : data.length < fuel)
    (h : d.Receiving c iv r returned) (hlossy : ¬ Lossy d.end_marker_state data) (hfeed : marks.feedAll r data = some r')
    (hplains : (c.decryptAll iv r'.ended).isSome) :
    ∃ d', d.putData c fuel data = (true, d') ∧ d'.Receiving c iv r' returned := by
  induction fuel generalizing d data r with
  | zero => omega
  | succ fuel ih =>
    have hcarry : d.end_marker_state ≤ end_marker_zeros := h.held ▸ h.held_le
    have hfound : Found d.end_marker_state data d
        (findAndUnescapeEndMarker (data.length + 1) d data 0 ⟨none, false, [], false, 0⟩) :=
      findAndUnescapeEndMarker_found hcarry (by omega) (start_scanning data hcarry) rfl h.held.symm hfeed
    obtain ⟨carry_zeros, hzeros⟩ : ∃ carry_zeros, d.end_marker_state = carry_zeros := ⟨_, rfl⟩
    obtain ⟨found, hresult⟩ : ∃ found, findAndUnescapeEndMarker (data.length + 1) d data 0 ⟨none, false, [], false, 0⟩ = found :=
      ⟨_, rfl⟩
    obtain ⟨held, current, ended⟩ := r
    rw [putData, hresult, hzeros]
    rw [hresult, hzeros] at hfound
    rw [hzeros] at hlossy
    obtain rfl : carry_zeros = held := hzeros.symm.trans h.held
    cases hfound with
    | @nothing out state overhead_bytes unescaped emitted hscan =>
      obtain ⟨hnone, hno⟩ := hscan.open_end
      have hfed := hscan.fed current ended
      rw [List.take_length, hfeed] at hfed
      cases hfed
      dsimp only
      rw [hnone]
      dsimp only
      rw [hno, if_neg Bool.false_ne_true, putPart_eq hscan hlossy]
      refine ⟨_, rfl, rfl, ?_, h.ended, h.iv_done, h.iv_buffer, h.iv_filter, hscan.state_le, h.plains⟩
      have hcurrent : d.decryption_filter.current = current := h.current
      dsimp only [DecryptionFilter.Put]
      rw [hcurrent]
    | @marker out i overhead_bytes unescaped emitted hscan hch =>
      have hcurrent : d.decryption_filter.current = current := h.current
      have hended : d.decryption_filter.ended = ended := h.ended
      have hbuffer : d.iv_buffer = c.ivAfter iv ended.length := h.iv_buffer
      have hdata : data = data.take i ++ 1 :: data.drop (i + 1) := by
        rw [← Scanning.drop_eq hch, List.take_append_drop]
      have hstop : marks.feed ⟨end_marker_zeros, current ++ emitted, ended⟩ 1 = some ⟨0, [], ended ++ [current ++ emitted]⟩ :=
        Marks.feed_stop _ _
      rw [hdata, Marks.feedAll_append, hscan.fed, Option.bind_some, Marks.feedAll, hstop, Option.bind_some] at hfeed
      obtain ⟨plain, hplain, hall⟩ := Cipher.decryptAll_concat h.plains
        (Cipher.decryptAll_start (Marks.feedAll_prefix hfeed) hplains)
      obtain ⟨overhead_bytes', hend⟩ : ∃ overhead_bytes', putEnd c { d with end_marker_state := 0, overhead_bytes } data carry_zeros
          { out with end_marker_pos := some (unescaped.length + 1) } (unescaped.length + 1) = _ :=
        putEnd_eq hscan hch hlossy (by rw [hcurrent, h.iv_filter, hbuffer]; exact hplain)
      dsimp only
      rw [hend]
      dsimp only
      have hnext : Receiving c
          { d with
            decryption_filter :=
              { iv := c.IncrementCounterByOne d.iv_buffer
                current := []
                ended := d.decryption_filter.ended ++ [d.decryption_filter.current ++ emitted]
                messages := d.decryption_filter.messages ++ [plain] }
            iv_buffer := c.IncrementCounterByOne d.iv_buffer
            end_marker_state := 0
            overhead_bytes := overhead_bytes' } iv ⟨0, [], ended ++ [current ++ emitted]⟩ returned := by
        refine ⟨rfl, rfl, ?_, h.iv_done, ?_, rfl, Nat.zero_le _, ?_⟩
        · dsimp only
          rw [hended, hcurrent]
        · dsimp only
          rw [hbuffer, ← Cipher.ivAfter_succ, List.length_append, List.length_singleton]
        · dsimp only
          rw [hall, List.append_assoc]
      have hsize := hscan.size
      have hlt := (List.getElem?_eq_some_iff.mp hch).1
      have hdrop : unescaped.length + 1 + out.escaped_zeros = i + 1 := by
        omega
      split
      · rw [hdrop]
        exact ih (by rw [List.length_drop]; omega) hnext (not_lossy_zero _) hfeed
      · have hrest : data.drop (i + 1) = [] := List.drop_eq_nil_of_le (by omega)
        rw [hrest] at hfeed
        cases hfeed
        exact ⟨_, rfl, hnext⟩

section Runs

variable {body got : Bytes} {R : Marks.Receiver UInt8}

theorem put_start {data : Bytes} (hd : d = { construct with iv_buffer := got }) (hgot : got.length < iv_size)
    (hiv : iv.length = iv_size) (hbody : marks.feedAll ⟨0, [], []⟩ body = some R) (hplains : (c.decryptAll iv R.ended).isSome)
    (hpre : got ++ data <+: iv ++ body) : ∃ d', d.put c data = (true, d') ∧ d'.Progress c iv (got ++ data) [] := by
  subst hd
  unfold put
  rw [if_neg (by simp [construct])]
  by_cases hshort : got.length + data.length < iv_size
  · have htoread : min (iv_size - got.length) data.length = data.length := by
      omega
    have hread : readIV { construct with iv_buffer := got } data = ([], { construct with iv_buffer := got ++ data }) := by
      unfold readIV
      dsimp only
      rw [htoread, List.take_length, List.drop_length, if_neg (by rw [List.length_append]; omega)]
    rw [hread]
    dsimp only
    rw [if_pos rfl]
    exact ⟨_, rfl, .start rfl (by rw [List.length_append]; exact hshort)⟩
  · obtain ⟨first, rest, hdata, hfirst⟩ : ∃ first rest, data = first ++ rest ∧ first.length = iv_size - got.length :=
      ⟨data.take (iv_size - got.length), data.drop (iv_size - got.length), (List.take_append_drop _ _).symm,
        List.length_take_of_le (by omega)⟩
    subst hdata
    have hlength : (got ++ first).length = iv.length := by
      rw [List.length_append, hiv]
      omega
    rw [← List.append_assoc] at hpre
    obtain ⟨later, hlater⟩ := hpre
    rw [List.append_assoc] at hlater
    obtain ⟨hvector, rfl⟩ := List.append_inj hlater hlength
    rw [Marks.feedAll_append] at hbody
    obtain ⟨r, hrest, hbody⟩ := Option.bind_eq_some_iff.mp hbody
    have htoread : min (iv_size - got.length) (first ++ rest).length = first.length := by
      rw [List.length_append]
      omega
    obtain ⟨d', hd', hread⟩ : ∃ d', d'.Receiving c iv ⟨0, [], []⟩ [] ∧
        readIV { construct with iv_buffer := got } (first ++ rest) = (rest, d') := by
      refine ⟨⟨⟨iv, [], [], []⟩, iv, true, 0, iv.length⟩, ?_, ?_⟩
      · exact ⟨rfl, rfl, rfl, rfl, rfl, rfl, Nat.zero_le _, rfl⟩
      · unfold readIV
        dsimp only
        rw [htoread, List.take_left, List.drop_left, hvector, if_pos hiv]
        dsimp only [construct]
        rw [Nat.zero_add]
    rw [hread]
    dsimp only
    by_cases hnone : rest = []
    · rw [if_pos hnone, hnone]
      exact ⟨_, rfl, .running (by rw [List.append_nil, List.append_nil, hvector]) rfl hd'⟩
    · have hbuffer : d'.iv_buffer.length = iv_size := by
        rw [hd'.iv_buffer]
        exact hiv
      rw [if_neg hnone, if_neg (not_not_intro hbuffer)]
      have hended := Marks.feedAll_prefix hbody
      obtain ⟨d'', hput, hd''⟩ := putData_receiving (Nat.lt_succ_self _) hd' (by rw [hd'.held]; exact not_lossy_zero _) hrest
        (Cipher.decryptAll_start hended hplains)
      exact ⟨d'', hput, .running (by rw [← List.append_assoc, hvector]) hrest hd''⟩

theorem Progress.put {data : Bytes} (h : d.Progress c iv got returned) (hiv : iv.length = iv_size)
    (hbody : marks.feedAll ⟨0, [], []⟩ body = some R) (hplains : (c.decryptAll iv R.ended).isSome)
    (hpre : got ++ data <+: iv ++ body) (hlossy : ¬ Lossy d.end_marker_state data) :
    ∃ d', d.put c data = (true, d') ∧ d'.Progress c iv (got ++ data) returned := by
  cases h with
  | start hd hgot => exact put_start hd hgot hiv hbody hplains hpre
  | running hgot hrest h =>
    subst hgot
    obtain ⟨later, hlater⟩ := hpre
    rw [List.append_assoc, List.append_assoc] at hlater
    obtain rfl := List.append_cancel_left hlater
    rw [Marks.feedAll_append, hrest, Option.bind_some, Marks.feedAll_append] at hbody
    obtain ⟨r', hdata, hbody⟩ := Option.bind_eq_some_iff.mp hbody
    obtain ⟨d', hput, hd'⟩ := putData_receiving (Nat.lt_succ_self _) h hlossy hdata
      (Cipher.decryptAll_start (Marks.feedAll_prefix hbody) hplains)
    refine ⟨d', ?_, .running (List.append_assoc _ _ _) ?_ hd'⟩
    · unfold AESGCMDecryption.put
      rw [if_pos h.iv_done, hput]
    · rw [Marks.feedAll_append, hrest, Option.bind_some, hdata]

theorem Progress.get (h : d.Progress c iv got returned) : d.get.2.Progress c iv got (returned ++ d.get.1.toList) := by
  cases h with
  | start hd hgot =>
    subst hd
    exact .start rfl hgot
  | running hgot hrest h =>
    refine .running hgot hrest ?_
    have hplains := h.plains
    unfold AESGCMDecryption.get
    cases hmessages : d.decryption_filter.messages with
    | nil =>
      dsimp only [Option.toList]
      rw [List.append_nil]
      exact h
    | cons message messages =>
      refine ⟨h.held, h.current, h.ended, h.iv_done, h.iv_buffer, h.iv_filter, h.held_le, ?_⟩
      rw [hmessages] at hplains
      dsimp only [Option.toList]
      rw [hplains, List.append_assoc, List.singleton_append]

theorem Progress.applyAll {ops : List Op} (h : d.Progress c iv got returned) (hiv : iv.length = iv_size)
    (hbody : marks.feedAll ⟨0, [], []⟩ body = some R) (hplains : (c.decryptAll iv R.ended).isSome)
    (hpre : got ++ received ops <+: iv ++ body) (hfits : AllFit c ops d) :
    ∃ messages d', AESGCMDecryption.applyAll c ops d = some (messages, d') ∧
      d'.Progress c iv (got ++ received ops) (returned ++ messages) := by
  induction ops generalizing d got returned with
  | nil => exact ⟨[], d, rfl, by rw [received, List.append_nil, List.append_nil]; exact h⟩
  | cons op ops ih =>
    cases op with
    | put data =>
      rw [received, ← List.append_assoc] at hpre ⊢
      obtain ⟨d', hput, hd'⟩ := h.put hiv hbody hplains ((List.prefix_append _ _).trans hpre) hfits.1
      have hrest : AllFit c ops d' := by
        have hall := hfits.2
        rw [hput] at hall
        exact hall
      obtain ⟨messages, d'', hall, hd''⟩ := ih hd' hpre hrest
      refine ⟨messages, d'', ?_, hd''⟩
      rw [AESGCMDecryption.applyAll, hput]
      exact hall
    | get =>
      rw [received] at hpre ⊢
      obtain ⟨messages, d', hall, hd'⟩ := ih h.get hpre hfits
      refine ⟨d.get.1.toList ++ messages, d', ?_, ?_⟩
      · rw [AESGCMDecryption.applyAll]
        dsimp only
        rw [hall]
        rfl
      · rw [← List.append_assoc]
        exact hd'

end Runs

end AESGCMDecryption

/-- What arrived of the messages that were put into the encryption: the cipher
was given the first ones and a part of the next, and the messages are those. -/
structure Delivered (c : Cipher) (iv : Bytes) (e : AESGCMEncryption) (d : AESGCMDecryption) (messages : List Bytes) : Prop where
  ciphertext : ∃ next, d.decryption_filter.ended ++ [next] <+:
      c.encryptAll iv e.encryption_filter.history ++ [c.cryptAll e.encryption_filter.iv [] e.encryption_filter.pieces] ∧
    d.decryption_filter.current <+: next
  plaintext : messages ++ d.decryption_filter.messages =
    (e.encryption_filter.history.take d.decryption_filter.ended.length).map List.flatten

section Delivery

variable {c : Cipher} {iv stream part : Bytes} {ended : List Bytes} {e : AESGCMEncryption}

/-- What was retrieved is at the start of what was encrypted. -/
theorem sent_prefix (h : e.Sending c iv stream ended part) : ∃ next, ended ++ [next] <+:
      c.encryptAll iv e.encryption_filter.history ++ [c.cryptAll e.encryption_filter.iv [] e.encryption_filter.pieces] ∧
    part <+: next := by
  obtain ⟨end_markers, hmarkers⟩ : ∃ end_markers, e.end_markers = end_markers := ⟨_, rfl⟩
  have hqueue := h.queue
  rw [hmarkers] at hqueue
  cases hqueue with
  | unfinished hfinished hended hpending =>
    refine ⟨_, by rw [hended], ?_⟩
    rw [← hpending]
    exact List.prefix_append _ _
  | finished hfinished hhistory hended hfirst hpending =>
    refine ⟨_, ?_, ⟨_, hfirst⟩⟩
    rw [hhistory, Cipher.encryptAll_append, hended]
    exact List.prefix_append _ _

theorem encryptAll_take (iv : Bytes) (messages : List (List Bytes)) (n : Nat) :
    c.encryptAll iv (messages.take n) = (c.encryptAll iv messages).take n := by
  induction messages generalizing iv n with
  | nil =>
    rw [List.take_nil, Cipher.encryptAll, List.take_nil]
  | cons message messages ih =>
    cases n with
    | zero => rfl
    | succ n => rw [List.take_succ_cons, Cipher.encryptAll, Cipher.encryptAll, List.take_succ_cons, ih]

/-- A receiver that has the whole stream. -/
theorem feedAll_sent (ended : List Bytes) (part : Bytes) :
    ∃ held current, marks.feedAll ⟨0, [], []⟩ (ended.flatMap marks.frame ++ marks.escape 0 part) = some ⟨held, current, ended⟩ ∧
      current <+: part := by
  obtain ⟨current, hfeed, hcurrent⟩ := Marks.feedAll_escape marks.zeros_pos [] part ended
  refine ⟨marks.countAll 0 part, current, ?_, ⟨_, hcurrent⟩⟩
  rw [Marks.feedAll_append, Marks.feedAll_frames, Option.bind_some, List.nil_append, hfeed]

/-- One that has a part of it. -/
theorem feedAll_part {rest later : Bytes} {r R : Marks.Receiver UInt8} {ciphertexts : List Bytes} {next : Bytes}
    (hrest : marks.feedAll ⟨0, [], []⟩ rest = some r) (hall : marks.feedAll ⟨0, [], []⟩ (rest ++ later) = some R)
    (hpre : R.ended ++ [next] <+: ciphertexts) (hnext : R.current <+: next) :
    ∃ next, r.ended ++ [next] <+: ciphertexts ∧ r.current <+: next := by
  rw [Marks.feedAll_append, hrest, Option.bind_some] at hall
  obtain ⟨hended, hcurrent⟩ | ⟨message, messages, hended, hcurrent⟩ := Marks.feedAll_grows hall
  · exact ⟨next, hended ▸ hpre, hcurrent.trans hnext⟩
  · refine ⟨message, ?_, hcurrent⟩
    rw [hended] at hpre
    refine List.IsPrefix.trans ⟨messages ++ [next], ?_⟩ hpre
    simp only [List.append_assoc, List.cons_append, List.nil_append]

theorem prefix_of_concat {xs ys : List Bytes} {x y : Bytes} (h : xs ++ [x] <+: ys ++ [y]) : xs <+: ys := by
  have hlength := h.length_le
  rw [List.length_append, List.length_append, List.length_singleton, List.length_singleton] at hlength
  exact List.prefix_of_prefix_length_le ((List.prefix_append xs [x]).trans h) (List.prefix_append ys [y]) (by omega)

theorem plaintext_eq (hc : c.Faithful) {iv next : Bytes} {ended plains : List Bytes} {history : List (List Bytes)} {last : Bytes}
    (hpre : ended ++ [next] <+: c.encryptAll iv history ++ [last]) (hplains : c.decryptAll iv ended = some plains) :
    plains = (history.take ended.length).map List.flatten := by
  have hended : ended <+: c.encryptAll iv history := prefix_of_concat hpre
  have hsame : ended = c.encryptAll iv (history.take ended.length) := by
    rw [encryptAll_take]
    exact List.prefix_iff_eq_take.mp hended
  rw [hsame, Cipher.decryptAll_encryptAll hc] at hplains
  exact (Option.some.inj hplains).symm

end Delivery

/-- However the stream is cut, the messages arrive as they were. -/
theorem applyAll_delivered (c : Cipher) (hc : c.Faithful) (iv : Bytes) (hiv : iv.length = iv_size)
    (sent : List AESGCMEncryption.Op) (hsent : AESGCMEncryption.AllFit c sent (.construct iv))
    (ops : List AESGCMDecryption.Op) (hops : AESGCMDecryption.AllFit c ops .construct)
    (hpre : AESGCMDecryption.received ops <+: (AESGCMEncryption.applyAll c sent (.construct iv)).1) :
    ∃ messages d, AESGCMDecryption.applyAll c ops .construct = some (messages, d) ∧
      Delivered c iv (AESGCMEncryption.applyAll c sent (.construct iv)).2 d messages ∧
      (AESGCMDecryption.received ops = (AESGCMEncryption.applyAll c sent (.construct iv)).1 →
        (AESGCMEncryption.applyAll c sent (.construct iv)).2.end_markers = [] →
        d.decryption_filter.ended =
          c.encryptAll iv (AESGCMEncryption.applyAll c sent (.construct iv)).2.encryption_filter.history) := by
  obtain ⟨ended, part, hsending⟩ := (AESGCMEncryption.construct_sending iv).applyAll hsent
  obtain ⟨⟨stream, e⟩, hstream⟩ : ∃ out, AESGCMEncryption.applyAll c sent (.construct iv) = out := ⟨_, rfl⟩
  rw [hstream] at hsending hpre ⊢
  dsimp only at hsending hpre ⊢
  rw [List.nil_append] at hsending
  obtain ⟨next, hciphers, hpart⟩ := sent_prefix hsending
  obtain ⟨held, current, hbody, hcurrent⟩ := feedAll_sent ended part
  have hplains : (c.decryptAll iv ended).isSome := by
    refine Cipher.decryptAll_start (prefix_of_concat hciphers) ?_
    rw [Cipher.decryptAll_encryptAll hc]
    rfl
  -- before the first `get` there is nothing to receive
  have hstream' : stream = iv ++ (ended.flatMap marks.frame ++ marks.escape 0 part) ∨ stream = [] ∧ ended = [] := by
    have hsame := hsending.stream_eq
    cases hdone : e.iv_done with
    | true =>
      rw [hdone, if_pos rfl, List.append_assoc] at hsame
      exact Or.inl hsame
    | false =>
      rw [hdone, if_neg Bool.false_ne_true] at hsame
      exact Or.inr ⟨hsame, (hsending.start hdone).1⟩
  have hwhole : AESGCMDecryption.received ops <+: iv ++ (ended.flatMap marks.frame ++ marks.escape 0 part) := by
    obtain hsame | ⟨hsame, -⟩ := hstream'
    · exact hsame ▸ hpre
    · rw [hsame] at hpre
      rw [List.prefix_nil.mp hpre]
      exact List.nil_prefix
  have hlast : e.end_markers = [] → ended = c.encryptAll iv e.encryption_filter.history := by
    intro hmarkers
    have hqueue := hsending.queue
    rw [hmarkers] at hqueue
    cases hqueue with
    | unfinished _ hended _ => exact hended
  obtain ⟨messages, d, hall, hd⟩ : ∃ messages d, AESGCMDecryption.applyAll c ops .construct = some (messages, d) ∧
      d.Progress c iv ([] ++ AESGCMDecryption.received ops) ([] ++ messages) :=
    AESGCMDecryption.Progress.applyAll (.start rfl (by decide)) hiv hbody hplains hwhole hops
  rw [List.nil_append, List.nil_append] at hd
  refine ⟨messages, d, hall, ?_⟩
  cases hd with
  | start hd hshort =>
    subst hd
    refine ⟨⟨?_, rfl⟩, ?_⟩
    · obtain ⟨first, rest, hfirst⟩ : ∃ first rest, c.encryptAll iv e.encryption_filter.history ++
          [c.cryptAll e.encryption_filter.iv [] e.encryption_filter.pieces] = first :: rest :=
        List.exists_cons_of_ne_nil (by simp)
      rw [hfirst]
      exact ⟨first, ⟨rest, rfl⟩, List.nil_prefix⟩
    · intro hsame hmarkers
      rw [← hlast hmarkers]
      obtain hlong | ⟨-, hnone⟩ := hstream'
      · rw [hsame, hlong, List.length_append] at hshort
        omega
      · exact hnone.symm
  | @running _ rest r hgot hrest hd =>
    rw [hgot] at hwhole
    obtain ⟨later, hlater⟩ := hwhole
    rw [List.append_assoc] at hlater
    have hlater := List.append_cancel_left hlater
    rw [← hlater] at hbody
    obtain ⟨next', hpre', hnext'⟩ := feedAll_part hrest hbody hciphers (hcurrent.trans hpart)
    rw [← hd.ended] at hpre'
    rw [← hd.current] at hnext'
    refine ⟨⟨⟨next', hpre', hnext'⟩, plaintext_eq hc hpre' ?_⟩, ?_⟩
    · rw [hd.ended]
      exact hd.plains
    · intro hsame hmarkers
      rw [← hlast hmarkers, hd.ended]
      obtain hlong | ⟨hnone, -⟩ := hstream'
      · rw [hgot, hlong, ← hlater] at hsame
        have hsame := List.append_cancel_left hsame
        rw [← hsame, hrest] at hbody
        rw [Option.some.inj hbody]
      · rw [hgot, hnone] at hsame
        have hlength := congrArg List.length hsame
        rw [List.length_append, hiv] at hlength
        exact absurd hlength (by unfold iv_size; simp)

section Examples

/-- A cipher that leaves the bytes as they are. -/
def copyCipher (tag : Bytes) : Cipher where
  crypt := fun _ _ data => data
  tag := fun _ _ => tag
  decrypt := fun _ message =>
    if tag <:+ message then some (message.take (message.length - tag.length)) else none
  IncrementCounterByOne := fun iv => iv

theorem copyCipher_faithful (tag : Bytes) : (copyCipher tag).Faithful where
  decrypt_encrypt := by
    have hcopy : ∀ (iv plain : Bytes) (pieces : List Bytes), (copyCipher tag).cryptAll iv plain pieces = pieces.flatten := by
      intro iv plain pieces
      induction pieces generalizing plain with
      | nil => rfl
      | cons piece pieces ih =>
        rw [Cipher.cryptAll, ih, List.flatten_cons]
        rfl
    intro iv pieces
    have hmessage : (copyCipher tag).encrypt iv pieces = pieces.flatten ++ tag := by
      rw [Cipher.encrypt, hcopy]
      rfl
    rw [hmessage]
    dsimp only [copyCipher]
    rw [if_pos (List.suffix_append _ _), List.length_append, Nat.add_sub_cancel, List.take_left]

/-- A run of zeros that is cut in the middle. -/
theorem applyAll_delivered_run :
    ∃ messages d, AESGCMDecryption.applyAll (copyCipher (List.replicate 16 7))
        [.put (List.replicate 12 3 ++ [0, 0]), .put ([0, 0, 2, 9] ++ List.replicate 16 7 ++ [0, 0, 0, 0, 1]), .get] .construct =
          some (messages, d) ∧
      Delivered (copyCipher (List.replicate 16 7)) (List.replicate 12 3)
        (AESGCMEncryption.applyAll (copyCipher (List.replicate 16 7)) [.put [0, 0, 0, 0, 9], .get, .flush, .get]
          (.construct (List.replicate 12 3))).2 d messages := by
  have hlossy : ¬ AESGCMDecryption.Lossy 2 ([0, 0, 2, 9] ++ List.replicate 16 7 ++ [0, 0, 0, 0, 1]) := by
    rintro (⟨hzeros, -⟩ | ⟨n, rest, hle, hlt, hdata⟩ | ⟨hzeros, -⟩)
    · cases hzeros
    · obtain ⟨m, rfl⟩ : ∃ m, n = m + 3 := ⟨n - 3, by unfold end_marker_zeros at hlt; omega⟩
      have hthird : some 2 = some (0 : UInt8) := congrArg (fun xs : Bytes => xs[2]?) hdata
      exact absurd hthird (by decide)
    · cases hzeros
  have hstate : (AESGCMDecryption.put (copyCipher (List.replicate 16 7)) .construct (List.replicate 12 3 ++ [0, 0])).2.end_marker_state =
      2 := by
    decide +kernel
  obtain ⟨messages, d, hall, hdelivered, -⟩ := applyAll_delivered (copyCipher (List.replicate 16 7)) (copyCipher_faithful _)
    (List.replicate 12 3) rfl [.put [0, 0, 0, 0, 9], .get, .flush, .get]
    ⟨fun hlong => absurd hlong (by decide +kernel), ⟨by decide +kernel, by decide +kernel⟩, rfl,
      ⟨by decide +kernel, by decide +kernel⟩, trivial⟩
    [.put (List.replicate 12 3 ++ [0, 0]), .put ([0, 0, 2, 9] ++ List.replicate 16 7 ++ [0, 0, 0, 0, 1]), .get]
    ⟨AESGCMDecryption.not_lossy_zero _, by rw [hstate]; exact hlossy, trivial⟩ (by decide +kernel)
  exact ⟨messages, d, hall, hdelivered⟩

/-- The last byte of a tag is zero, and it is the last byte of a buffer. -/
theorem not_applyAll_delivered :
    (copyCipher (List.replicate 15 7 ++ [0])).Faithful ∧
    AESGCMDecryption.received
        [.put (List.replicate 12 3 ++ [5] ++ List.replicate 15 7 ++ [0]), .put [0, 0, 0, 0, 1]] =
      (AESGCMEncryption.applyAll (copyCipher (List.replicate 15 7 ++ [0])) [.put [5], .flush, .get]
        (.construct (List.replicate 12 3))).1 ∧
    ¬ ∃ messages d, AESGCMDecryption.applyAll (copyCipher (List.replicate 15 7 ++ [0]))
          [.put (List.replicate 12 3 ++ [5] ++ List.replicate 15 7 ++ [0]), .put [0, 0, 0, 0, 1]] .construct = some (messages, d) ∧
        Delivered (copyCipher (List.replicate 15 7 ++ [0])) (List.replicate 12 3)
          (AESGCMEncryption.applyAll (copyCipher (List.replicate 15 7 ++ [0])) [.put [5], .flush, .get]
            (.construct (List.replicate 12 3))).2 d messages := by
  refine ⟨copyCipher_faithful _, by decide +kernel, ?_⟩
  rintro ⟨messages, d, hall, -⟩
  have hnone : (AESGCMDecryption.applyAll (copyCipher (List.replicate 15 7 ++ [0]))
      [.put (List.replicate 12 3 ++ [5] ++ List.replicate 15 7 ++ [0]), .put [0, 0, 0, 0, 1]] .construct).isNone := by
    decide +kernel
  rw [hall] at hnone
  cases hnone

end Examples

end urbackup.cryptoplugin
