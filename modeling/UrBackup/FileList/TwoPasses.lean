import UrBackup.FileList.TreeRead

namespace urbackup.filelist

open stringtools treediff

/-- A complete line as both passes read it. -/
structure Line where
  ltype : UInt8
  name : Bytes
deriving DecidableEq

/-- The newlines that end a line; in a name they are characters. -/
def EndsLine (phase : ReadPhase) (ch : UInt8) : Prop :=
  ch = 10 ∧ (phase = .nameFinish ∨ phase = .data ∨ phase = .lineEnd)

instance (phase : ReadPhase) (ch : UInt8) : Decidable (EndsLine phase ch) :=
  inferInstanceAs (Decidable (_ ∧ _))

/-- The lines from a state of the first pass on, up to where it returns false. -/
def linesFrom (st : CountState) : Bytes → List Line
  | [] => []
  | ch :: rest =>
    match st.step ch with
    | none => []
    | some next => if EndsLine st.phase ch then ⟨st.ltype, st.name⟩ :: linesFrom next rest else linesFrom next rest

def countStart : CountState :=
  ⟨.type, 0, 0, [], 0⟩

def linesOf (file : Bytes) : List Line :=
  linesFrom countStart file

/-- The second pass before its first byte. -/
def buildStart (lines : Nat) : BuildState where
  phase := .type
  name := []
  data := []
  parents := [0]
  lastNodes := [0]
  firstChild := true
  idx := 1
  stringbuffer_pos := rootName.length + 1
  lines := 0
  nodes := (List.replicate (lines + 1) Node.empty).set 0 { Node.empty with name := cString rootName }

/-- A file that is named like the lines that close a directory. -/
def Line.isUpFile (line : Line) : Bool :=
  line.ltype = 102 && line.name = upName

/-- A `..` line where no directory and not the root is open any more. -/
def closesTooMany : Nat → List Line → Bool
  | _, [] => false
  | opened, line :: lines =>
    if line.name = upName then opened = 0 || closesTooMany (opened - 1) lines
    else closesTooMany (if line.ltype = 100 then opened + 1 else opened) lines

/-- The second pass only adds nodes that fit into the vector and the buffer. -/
def NeverOverruns (total : Nat) (file : Bytes) (st₀ : BuildState) : Prop :=
  ∀ done rest st, file = done ++ 10 :: rest → done.foldlM (BuildState.step total) st₀ = some st →
    EndsLine st.phase 10 → st.name ≠ upName → (st.addNode total).isSome

/-- The second pass stays in what the first pass counted, and uses all of it
unless it returns false. -/
def PassesAgree (file : Bytes) (count : CountState) : Prop :=
  NeverOverruns (count.stringbuffer_size + 5) file (buildStart count.lines) ∧
  ∀ st, buildLoop (count.stringbuffer_size + 5) file (buildStart count.lines) = some st →
    st.idx = count.lines + 1 ∧ st.stringbuffer_pos = count.stringbuffer_size + 5

section Steps

variable {total : Nat} {c c' : CountState} {st : BuildState} {ch : UInt8}

/-- The type character of the line is in front of its record. -/
def Tagged (c : CountState) (st : BuildState) : Prop :=
  (c.ltype = 102 ∨ c.ltype = 100) ∧ ∃ sdata, st.data = c.ltype :: sdata

/-- Both passes are at the same character of the same line. -/
structure SameLine (c : CountState) (st : BuildState) : Prop where
  phase : st.phase = c.phase
  name : st.name = c.name
  start : c.phase = .type → c.name = [] ∧ st.data = []
  tagged : c.phase ≠ .type → c.phase ≠ .lineEnd → Tagged c st
  ended : c.phase = .lineEnd → Tagged c st ∨ c.ltype = 100 ∧ c.name = upName ∧ st.data = []

/-- The second pass has used what was counted but for `skipped` files whose name
is `..`. -/
structure Used (skipped : Nat) (c : CountState) (st : BuildState) : Prop where
  idx : st.idx + skipped = c.lines + 1
  stringbuffer_pos : st.stringbuffer_pos + 19 * skipped = c.stringbuffer_size + 5
  lastNodes : st.lastNodes.length = if st.firstChild then st.parents.length else st.parents.length + 1

/-- A byte inside a line only moves both passes along it. -/
theorem step_inside (total : Nat) (h : SameLine c st) (hch : ¬ EndsLine c.phase ch) (hstep : c.step ch = some c') :
    ∃ phase name data, st.step total ch = some { st with phase, name, data } ∧
      SameLine c' { st with phase, name, data } ∧ c'.lines = c.lines ∧ c'.stringbuffer_size = c.stringbuffer_size := by
  obtain ⟨hphase, hname, hstart, htagged, hended⟩ := h
  cases hc : c.phase with
  | type =>
    obtain ⟨hempty, hdata⟩ := hstart hc
    simp only [CountState.step, hc] at hstep
    simp only [BuildState.step, hphase.trans hc]
    split at hstep
    next htype =>
      obtain rfl := Option.some.inj hstep
      rw [if_pos htype]
      exact ⟨_, _, _, rfl, ⟨rfl, hname, by simp, fun _ _ => ⟨htype, [], by simp [hdata]⟩, by simp⟩, rfl, rfl⟩
    next htype =>
      split at hstep
      next hup =>
        obtain rfl := Option.some.inj hstep
        rw [if_neg htype, if_pos hup]
        exact ⟨_, _, _, rfl, ⟨rfl, rfl, by simp, by simp, fun _ => Or.inr ⟨rfl, rfl, hdata⟩⟩, rfl, rfl⟩
      next => simp at hstep
  | quote | name | escape =>
    have htag := htagged (by simp [hc]) (by simp [hc])
    simp only [CountState.step, hc, Option.map_eq_some_iff] at hstep
    obtain ⟨⟨phase, name⟩, hbyte, rfl⟩ := hstep
    simp only [BuildState.step, hphase.trans hc, hname, hbyte, Option.map_some]
    have hnot : phase ≠ .type ∧ phase ≠ .lineEnd := by
      simp only [nameByte] at hbyte
      grind
    exact ⟨_, _, _, rfl, ⟨rfl, rfl, by simp [hnot], fun _ _ => htag, by simp [hnot]⟩, trivial, trivial⟩
  | nameFinish =>
    have htag := htagged (by simp [hc]) (by simp [hc])
    have hline : ch ≠ 10 := fun heq => hch ⟨heq, Or.inl hc⟩
    simp only [CountState.step, hc, CountState.lineEnd, if_neg hline] at hstep
    simp only [BuildState.step, hphase.trans hc, BuildState.lineEnd, if_neg hline]
    split at hstep
    next hspace =>
      obtain rfl := Option.some.inj hstep
      rw [if_pos hspace]
      exact ⟨_, _, _, rfl, ⟨rfl, hname, by simp, fun _ _ => htag, by simp⟩, rfl, rfl⟩
    next hspace =>
      obtain rfl := Option.some.inj hstep
      rw [if_neg hspace]
      exact ⟨_, _, _, rfl, ⟨rfl, hname, by simp, by simp, fun _ => Or.inl htag⟩, rfl, rfl⟩
  | data =>
    obtain ⟨htype, sdata, hdata⟩ := htagged (by simp [hc]) (by simp [hc])
    have hline : ch ≠ 10 := fun heq => hch ⟨heq, Or.inr (Or.inl hc)⟩
    simp only [CountState.step, hc, if_pos hline, Option.some.injEq] at hstep
    subst hstep
    simp only [BuildState.step, hphase.trans hc, if_pos hline]
    exact ⟨_, _, _, rfl, ⟨hc.symm, hname, by simp [hc], fun _ _ => ⟨htype, sdata ++ [ch], by simp [hdata]⟩, by simp [hc]⟩,
      trivial, trivial⟩
  | lineEnd =>
    have hline : ch ≠ 10 := fun heq => hch ⟨heq, Or.inr (Or.inr hc)⟩
    simp only [CountState.step, hc, CountState.lineEnd, if_neg hline, Option.some.injEq] at hstep
    subst hstep
    simp only [BuildState.step, hphase.trans hc, BuildState.lineEnd, if_neg hline]
    exact ⟨st.phase, st.name, st.data, rfl, ⟨hphase, hname, hstart, htagged, hended⟩, trivial, trivial⟩

theorem count_lineEnd (hch : EndsLine c.phase ch) : c.step ch = some (c.lineEnd 10) := by
  obtain ⟨rfl, hc | hc | hc⟩ := hch <;> simp [CountState.step, hc, CountState.lineEnd]

theorem build_lineEnd (total : Nat) (st : BuildState) (hch : EndsLine st.phase ch) : ∃ phase, st.step total ch = { st with phase }.lineEnd total 10 := by
  obtain ⟨rfl, hc | hc⟩ := hch
  · exact ⟨.lineEnd, by simp [BuildState.step, hc]⟩
  · have hstep : st.step total 10 = st.lineEnd total 10 := by
      obtain hc | hc := hc <;> simp [BuildState.step, hc]
    exact ⟨st.phase, hstep⟩

theorem addNode_fits (total : Nat) {data : NodeData} (hdata : parseData st.data = some data) (hidx : st.idx < st.nodes.length)
    (hpos : st.stringbuffer_pos + (st.name.length + 1) + dataSize data ≤ total)
    (hlast : st.lastNodes.length = if st.firstChild then st.parents.length else st.parents.length + 1) :
    ∃ nodes lastNodes, st.addNode total = some { st with
        nodes, lastNodes
        stringbuffer_pos := st.stringbuffer_pos + (st.name.length + 1) + dataSize data
        parents := if data.getType == .dir then st.idx :: st.parents else st.parents
        firstChild := data.getType == .dir
        idx := st.idx + 1 } ∧
      nodes.length = st.nodes.length ∧ lastNodes.length = st.parents.length + 1 := by
  unfold BuildState.addNode
  simp only [hdata, Option.bind_eq_bind, Option.bind_some, if_pos (And.intro hidx hpos)]
  cases hfirst : st.firstChild with
  | true =>
    rw [hfirst, if_pos rfl] at hlast
    refine ⟨_, _, rfl, ?_, by simp [hlast]⟩
    cases st.parents <;> simp
  | false =>
    rw [hfirst, if_neg (by simp)] at hlast
    cases hnodes : st.lastNodes with
    | nil => simp [hnodes] at hlast
    | cons last rest =>
      refine ⟨_, _, rfl, ?_, by simpa [hnodes] using hlast⟩
      cases st.parents <;> simp

/-- An entry's line. -/
theorem lineEnd_entry (st : BuildState) {skipped : Nat} (hname : st.name = c.name) (hused : Used skipped c st) (htag : Tagged c st)
    (hup : c.name ≠ upName) (hnodes : (c.lineEnd 10).lines < st.nodes.length)
    (htotal : (c.lineEnd 10).stringbuffer_size + 5 ≤ total) :
    (st.addNode total).isSome ∧
      ∃ st', st.lineEnd total 10 = some st' ∧ SameLine (c.lineEnd 10) st' ∧ Used skipped (c.lineEnd 10) st' ∧
        st'.nodes.length = st.nodes.length ∧
        st'.parents.length = if c.ltype = 100 then st.parents.length + 1 else st.parents.length := by
  obtain ⟨hidx, hpos, hlast⟩ := hused
  obtain ⟨htype, sdata, hdata⟩ := htag
  obtain ⟨data, hparse, hsize, hdir⟩ : ∃ data, parseData st.data = some data ∧
      (c.lineEnd 10).stringbuffer_size = c.stringbuffer_size + (c.name.length + 1) + dataSize data ∧
      ((data.getType == .dir) = decide (c.ltype = 100)) := by
    obtain htype | htype := htype
    · refine ⟨.file _ _, by rw [hdata, htype]; rfl, ?_, by simp [NodeData.getType, htype]⟩
      simp [CountState.lineEnd, htype, dataSize]
      omega
    · refine ⟨.dir _, by rw [hdata, htype]; rfl, ?_, by simp [NodeData.getType, htype]⟩
      simp [CountState.lineEnd, htype, hup, dataSize]
      omega
  have hlines : (c.lineEnd 10).lines = c.lines + 1 := by simp [CountState.lineEnd, hup]
  obtain ⟨nodes, lastNodes, hadd, hlength, hlasts⟩ := addNode_fits total hparse (by omega)
    (by rw [hname]; omega) hlast
  refine ⟨by rw [hadd]; rfl, _, by rw [BuildState.lineEnd, if_pos rfl, if_pos (by rw [hname]; exact hup), hadd]; rfl,
    ⟨?_, ?_, fun _ => ⟨?_, rfl⟩, ?_, ?_⟩, ⟨?_, ?_, ?_⟩, hlength, ?_⟩
  · simp [CountState.lineEnd, hup]
  · simp [CountState.lineEnd, hup]
  · simp [CountState.lineEnd, hup]
  · simp [CountState.lineEnd, hup]
  · simp [CountState.lineEnd, hup]
  · simp only [hlines]
    omega
  · simp only [hsize, hname]
    omega
  · simp only [hlasts, hdir, decide_eq_true_eq]
    split <;> simp
  · simp only [hdir, decide_eq_true_eq]
    split <;> simp

/-- A `..` line, of a file or of the end of a directory. -/
theorem lineEnd_up (total : Nat) (st : BuildState) {skipped : Nat} (hname : st.name = upName) (hused : Used skipped c st) (hup : c.name = upName)
    (htype : c.ltype = 102 ∨ c.ltype = 100) :
    (st.parents = [] → st.lineEnd total 10 = none) ∧
      (st.parents ≠ [] → ∃ st', st.lineEnd total 10 = some st' ∧ SameLine (c.lineEnd 10) st' ∧
        Used (if c.ltype = 102 then skipped + 1 else skipped) (c.lineEnd 10) st' ∧
        st'.nodes.length = st.nodes.length ∧ st'.parents.length = st.parents.length - 1) := by
  obtain ⟨hidx, hpos, hlast⟩ := hused
  have hcount : (c.lineEnd 10).phase = .type ∧ (c.lineEnd 10).name = [] ∧
      (c.lineEnd 10).lines = c.lines + (if c.ltype = 102 then 1 else 0) ∧
      (c.lineEnd 10).stringbuffer_size = c.stringbuffer_size + if c.ltype = 102 then 19 else 0 := by
    obtain htype | htype := htype <;> simp [CountState.lineEnd, htype, hup, upName]
  obtain ⟨hphase, hempty, hlines, hsize⟩ := hcount
  have hsame : ∀ st' : BuildState, st'.phase = .type → st'.name = [] → st'.data = [] → SameLine (c.lineEnd 10) st' := by
    intro st' hphase' hname' hdata'
    exact ⟨hphase'.trans hphase.symm, hname'.trans hempty.symm, fun _ => ⟨hempty, hdata'⟩, by simp [hphase], by simp [hphase]⟩
  have hstep : st.lineEnd total 10 = st.closeDir.map fun st =>
      { st with name := [], data := [], phase := .type, lines := st.lines + 1 } := by
    simp [BuildState.lineEnd, hname, Option.map_eq_bind]
  rw [hstep]
  unfold BuildState.closeDir
  cases hparents : st.parents with
  | nil => exact ⟨fun _ => rfl, fun h => absurd rfl h⟩
  | cons parent parents =>
    refine ⟨fun h => by simp at h, fun _ => ?_⟩
    rw [hparents] at hlast
    cases hfirst : st.firstChild with
    | true =>
      rw [hfirst, if_pos rfl] at hlast
      refine ⟨_, rfl, hsame _ rfl rfl rfl, ⟨?_, ?_, by simpa using hlast⟩, rfl, rfl⟩
      · simp only [hlines]
        split <;> omega
      · simp only [hsize]
        split <;> omega
    | false =>
      rw [hfirst, if_neg (by simp)] at hlast
      cases hlasts : st.lastNodes with
      | nil => simp [hlasts] at hlast
      | cons last lastNodes =>
        refine ⟨_, rfl, hsame _ rfl rfl rfl, ⟨?_, ?_, by simpa [hlasts] using hlast⟩, by simp, rfl⟩
        · simp only [hlines]
          split <;> omega
        · simp only [hsize]
          split <;> omega

theorem count_lineEnd_le (c : CountState) (ch : UInt8) : c.lines ≤ (c.lineEnd ch).lines ∧ c.stringbuffer_size ≤ (c.lineEnd ch).stringbuffer_size := by
  unfold CountState.lineEnd
  grind

theorem count_step_le (hstep : c.step ch = some c') :
    c.lines ≤ c'.lines ∧ c.stringbuffer_size ≤ c'.stringbuffer_size := by
  unfold CountState.step at hstep
  cases hc : c.phase with
  | type =>
    simp only [hc] at hstep
    grind
  | nameFinish =>
    simp only [hc] at hstep
    have hend := count_lineEnd_le { c with phase := .lineEnd } ch
    split at hstep <;> obtain rfl := Option.some.inj hstep
    · exact ⟨Nat.le_refl _, Nat.le_refl _⟩
    · exact hend
  | data =>
    simp only [hc] at hstep
    split at hstep <;> obtain rfl := Option.some.inj hstep
    · exact ⟨Nat.le_refl _, Nat.le_refl _⟩
    · exact count_lineEnd_le c ch
  | lineEnd =>
    simp only [hc, Option.some.injEq] at hstep
    exact hstep ▸ count_lineEnd_le c ch
  | quote | name | escape =>
    simp only [hc, Option.map_eq_some_iff] at hstep
    obtain ⟨_, _, rfl⟩ := hstep
    exact ⟨Nat.le_refl _, Nat.le_refl _⟩

theorem count_run_le {rest : Bytes} (hrun : rest.foldlM CountState.step c = some c') :
    c.lines ≤ c'.lines ∧ c.stringbuffer_size ≤ c'.stringbuffer_size := by
  induction rest generalizing c with
  | nil =>
    obtain rfl := Option.some.inj hrun
    exact ⟨Nat.le_refl _, Nat.le_refl _⟩
  | cons ch rest ih =>
    rw [List.foldlM_cons, Option.bind_eq_bind, Option.bind_eq_some_iff] at hrun
    obtain ⟨next, hstep, hrun⟩ := hrun
    have hle := count_step_le hstep
    have hrest := ih hrun
    omega

/-- The end of a line: the counts of both passes, and whether the second one goes
on. -/
theorem step_lineEnd (total : Nat) {skipped : Nat} (hline : SameLine c st) (hused : Used skipped c st) (hch : EndsLine c.phase ch)
    (hstep : c.step ch = some c') (hnodes : c'.lines < st.nodes.length) (htotal : c'.stringbuffer_size + 5 ≤ total) :
    (st.name ≠ upName → (st.addNode total).isSome) ∧
      ((c.name = upName ∧ st.parents = [] ∧ st.step total ch = none) ∨
        ∃ st', st.step total ch = some st' ∧ SameLine c' st' ∧
          Used (if (⟨c.ltype, c.name⟩ : Line).isUpFile then skipped + 1 else skipped) c' st' ∧
          st'.nodes.length = st.nodes.length ∧
          (c.name = upName → 0 < st.parents.length ∧ st'.parents.length = st.parents.length - 1) ∧
          (c.name ≠ upName → st'.parents.length = if c.ltype = 100 then st.parents.length + 1 else st.parents.length)) := by
  rw [count_lineEnd hch] at hstep
  obtain rfl := Option.some.inj hstep
  obtain ⟨phase, hbuild⟩ := build_lineEnd total st (hline.phase ▸ hch)
  have htag : Tagged c st ∨ c.ltype = 100 ∧ c.name = upName ∧ st.data = [] := by
    by_cases hended : c.phase = .lineEnd
    · exact hline.ended hended
    · refine Or.inl (hline.tagged ?_ hended)
      obtain ⟨_, hc | hc | hc⟩ := hch <;> simp [hc]
  have htype : c.ltype = 102 ∨ c.ltype = 100 := htag.elim And.left fun h => Or.inr h.1
  have hused' : Used skipped c { st with phase } := ⟨hused.idx, hused.stringbuffer_pos, hused.lastNodes⟩
  rw [hbuild]
  by_cases hup : c.name = upName
  · refine ⟨fun hne => absurd (hline.name.trans hup) hne, ?_⟩
    obtain ⟨hnone, hsome⟩ := lineEnd_up total { st with phase } (hline.name.trans hup) hused' hup htype
    by_cases hparents : st.parents = []
    · exact Or.inl ⟨hup, hparents, hnone hparents⟩
    · obtain ⟨st', hrun, hline', hused', hlength, hopened⟩ := hsome hparents
      refine Or.inr ⟨st', hrun, hline', ?_, hlength, fun _ => ⟨List.length_pos_iff.mpr hparents, hopened⟩,
        fun hne => absurd hup hne⟩
      simpa [Line.isUpFile, hup] using hused'
  · have htag := htag.resolve_right fun h => hup h.2.1
    obtain ⟨hadd, _⟩ := lineEnd_entry st hline.name hused htag hup hnodes htotal
    obtain ⟨_, st', hrun, hline', hused', hlength, hopened⟩ :=
      lineEnd_entry { st with phase } hline.name hused' htag hup hnodes htotal
    refine ⟨fun _ => hadd, Or.inr ⟨st', hrun, hline', ?_, hlength, fun h => absurd h hup, fun _ => hopened⟩⟩
    simpa [Line.isUpFile, hup] using hused'

end Steps

section Runs

variable {total : Nat} {c c' : CountState} {st : BuildState} {ch : UInt8} {rest : Bytes}

theorem NeverOverruns.cons (hfits : EndsLine st.phase ch → st.name ≠ upName → (st.addNode total).isSome)
    (hrest : ∀ st', st.step total ch = some st' → NeverOverruns total rest st') : NeverOverruns total (ch :: rest) st := by
  intro done rest' st' hsplit hrun hends hup
  cases done with
  | nil =>
    obtain ⟨rfl, _⟩ := List.cons_eq_cons.mp hsplit
    obtain rfl := Option.some.inj hrun
    exact hfits hends hup
  | cons ch' done =>
    rw [List.cons_append] at hsplit
    obtain ⟨rfl, htail⟩ := List.cons_eq_cons.mp hsplit
    rw [List.foldlM_cons, Option.bind_eq_bind, Option.bind_eq_some_iff] at hrun
    obtain ⟨next, hstep, hrun⟩ := hrun
    exact hrest next hstep done rest' st' htail hrun hends hup

/-- What the second pass does with the rest of a list. -/
structure Agrees (total skipped : Nat) (c c' : CountState) (st : BuildState) (rest : Bytes) : Prop where
  fits : NeverOverruns total rest st
  fails_iff : rest.foldlM (BuildState.step total) st = none ↔ closesTooMany st.parents.length (linesFrom c rest) = true
  used : ∀ st', rest.foldlM (BuildState.step total) st = some st' →
    st'.idx + (skipped + (linesFrom c rest).countP Line.isUpFile) = c'.lines + 1 ∧
      st'.stringbuffer_pos + 19 * (skipped + (linesFrom c rest).countP Line.isUpFile) = c'.stringbuffer_size + 5 ∧
      st'.nodes.length = c'.lines + 1

/-- By induction on the bytes, of which the first pass accepts each. -/
theorem passes_agree {skipped : Nat} (hline : SameLine c st) (hused : Used skipped c st)
    (hrun : rest.foldlM CountState.step c = some c') (hnodes : st.nodes.length = c'.lines + 1)
    (htotal : total = c'.stringbuffer_size + 5) : Agrees total skipped c c' st rest := by
  induction rest generalizing c st skipped with
  | nil =>
    obtain rfl := Option.some.inj hrun
    refine ⟨fun done rest st' h => by simp at h, by simp [closesTooMany, linesFrom], fun st' h => ?_⟩
    obtain rfl := Option.some.inj h
    exact ⟨by simpa [linesFrom] using hused.idx, by simpa [linesFrom] using hused.stringbuffer_pos, hnodes⟩
  | cons ch rest ih =>
    rw [List.foldlM_cons, Option.bind_eq_bind, Option.bind_eq_some_iff] at hrun
    obtain ⟨next, hstep, hrun⟩ := hrun
    have hle := count_run_le hrun
    by_cases hch : EndsLine c.phase ch
    · have hlines : linesFrom c (ch :: rest) = ⟨c.ltype, c.name⟩ :: linesFrom next rest := by
        simp only [linesFrom, hstep, if_pos hch]
      obtain ⟨hadd, hend⟩ := step_lineEnd total hline hused hch hstep (by omega) (by omega)
      obtain ⟨hup, hparents, hnone⟩ | ⟨st', hbuild, hline', hused', hlength, hdown, hopen⟩ := hend
      · -- the second pass returns false
        refine ⟨NeverOverruns.cons (fun _ => hadd) (by simp [hnone]), ?_, by simp [hnone]⟩
        simp [hnone, hlines, closesTooMany, hup, hparents]
      · obtain ⟨hfits, hfails, hrest⟩ := ih hline' hused' hrun (hlength.trans hnodes)
        refine ⟨NeverOverruns.cons (fun _ => hadd) fun st₁ hst₁ => ?_, ?_, fun st₁ hst₁ => ?_⟩
        · obtain rfl := Option.some.inj (hbuild.symm.trans hst₁)
          exact hfits
        · rw [List.foldlM_cons, hbuild]
          refine hfails.trans ?_
          rw [hlines, closesTooMany]
          by_cases hup : c.name = upName
          · obtain ⟨hpos, hopened⟩ := hdown hup
            simp [hup, hopened, Nat.ne_of_gt hpos]
          · simp [hup, hopen hup]
        · rw [List.foldlM_cons, hbuild] at hst₁
          have hcounts := hrest st₁ hst₁
          rw [hlines, List.countP_cons]
          split at hcounts
          next hfile =>
            rw [if_pos hfile]
            omega
          next hfile =>
            rw [if_neg hfile]
            exact hcounts
    · have hlines : linesFrom c (ch :: rest) = linesFrom next rest := by
        simp only [linesFrom, hstep, if_neg hch]
      obtain ⟨phase, name, data, hbuild, hline', hcount, hsize⟩ := step_inside total hline hch hstep
      have hused' : Used skipped next { st with phase, name, data } := by
        refine ⟨?_, ?_, hused.lastNodes⟩
        · rw [hcount]
          exact hused.idx
        · rw [hsize]
          exact hused.stringbuffer_pos
      obtain ⟨hfits, hfails, hrest⟩ := ih hline' hused' hrun hnodes
      rw [hlines.symm] at hfails hrest
      refine ⟨NeverOverruns.cons (fun hends => absurd (hline.phase ▸ hends) hch) fun st₁ hst₁ => ?_, ?_, fun st₁ hst₁ => ?_⟩
      · obtain rfl := Option.some.inj (hbuild.symm.trans hst₁)
        exact hfits
      · rw [List.foldlM_cons, hbuild]
        exact hfails
      · rw [List.foldlM_cons, hbuild] at hst₁
        exact hrest st₁ hst₁

end Runs

section Passes

variable {file : Bytes} {count : CountState}

theorem passes_agree_start (h : countLoop file countStart = some count) :
    Agrees (count.stringbuffer_size + 5) 0 countStart count (buildStart count.lines) file := by
  rw [countLoop_eq] at h
  refine passes_agree ⟨rfl, rfl, fun _ => ⟨rfl, rfl⟩, fun h => absurd rfl h, by simp [countStart]⟩ ⟨rfl, rfl, rfl⟩ h ?_ rfl
  simp [buildStart]

/-- A file named `..` is a node of the first pass and closes a directory in the
second. -/
theorem readTree_passesAgree_iff (h : countLoop file countStart = some count) :
    PassesAgree file count ↔ closesTooMany 1 (linesOf file) = true ∨ ∀ line ∈ linesOf file, line.isUpFile = false := by
  obtain ⟨hfits, hfails, hused⟩ := passes_agree_start h
  have hzero : (linesOf file).countP Line.isUpFile = 0 ↔ ∀ line ∈ linesOf file, line.isUpFile = false := by
    simp [List.countP_eq_zero]
  rw [PassesAgree, buildLoop_eq, ← hzero]
  change _ ↔ closesTooMany (buildStart count.lines).parents.length (linesFrom countStart file) = true ∨ _
  rw [← hfails]
  cases hrun : file.foldlM (BuildState.step (count.stringbuffer_size + 5)) (buildStart count.lines) with
  | none => simp [hfits]
  | some st =>
    have hcounts := hused st hrun
    simp only [linesOf, reduceCtorEq, false_or]
    constructor
    · rintro ⟨_, hall⟩
      have hexact := hall st rfl
      omega
    · intro hnone
      refine ⟨hfits, fun st' hst' => ?_⟩
      obtain rfl := Option.some.inj hst'
      omega

end Passes

/-- `f".." 0 0`. -/
def upFile : Bytes :=
  [102, 34, 46, 46, 34, 32, 48, 32, 48, 10]

theorem upFile_count : countLoop upFile countStart = some ⟨.type, 1, 19, [], 0⟩ := by
  rw [countLoop_eq]
  rfl

theorem readTree_passesAgree_upFile :
    PassesAgree upFile ⟨.type, 1, 19, [], 0⟩ ↔
      closesTooMany 1 (linesOf upFile) = true ∨ ∀ line ∈ linesOf upFile, line.isUpFile = false :=
  readTree_passesAgree_iff upFile_count

/-- One node of 19 bytes is counted and none is used. -/
theorem readTree_upFile :
    countLoop upFile countStart = some ⟨.type, 1, 19, [], 0⟩ ∧ ¬ PassesAgree upFile ⟨.type, 1, 19, [], 0⟩ := by
  refine ⟨upFile_count, fun ⟨_, hall⟩ => ?_⟩
  obtain ⟨st, hst⟩ := Option.isSome_iff_exists.mp
    (show (buildLoop 24 upFile (buildStart 1)).isSome by rw [buildLoop_eq]; decide)
  have hidx : st.idx = 2 := (hall st hst).1
  have hone : (buildLoop 24 upFile (buildStart 1)).map BuildState.idx = some 1 := by
    rw [buildLoop_eq]
    decide
  rw [hst] at hone
  simp [hidx] at hone

end urbackup.filelist
