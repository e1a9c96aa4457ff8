import UrBackup.DirLinks.CrashSafe

namespace urbackup.dirlinks

open stringtools dirtree interruptible interruptible.Prog

section Calls

/-- The source is not a directory that has to be moved. -/
def Call.Stays (c : Call) (fs : FS) : Prop :=
  (os_get_symlink_target fs c.src_dir).isSome = true ∨ os_directory_exists fs c.src_dir = false

/-- The call makes the data access object of the journal, or it does not need the journal. -/
def Call.Journaled (c : Call) (w : World) : Prop :=
  w.link_journal_dao = false ∨ c.Stays w.fs

/-- The start of a call that uses the journal with `synchronous=FULL`, if at all. -/
structure Starts (c : Call) (fs₀ : FS) (w : World) : Prop where
  fs : w.fs = fs₀
  journal : w.journal.Only []
  synchronous : w.journal.synchronous = true ∨ c.Stays fs₀

variable {c : Call} {fs₀ : FS} {os : Os} {w : World}

theorem Starts.settled (h : Starts c fs₀ w) : Settled fs₀ w :=
  ⟨shows_of_le (h.fs ▸ Tree.le_refl fs₀), h.journal⟩

/-- Looking at the directories says what they are at the start. -/
theorem holds_look_fs {α : Type} (f : FS → α) :
    Holds (Starts c fs₀) (look fun w => f w.fs) (fun a w => Starts c fs₀ w ∧ a = f fs₀) (Safe os fs₀) :=
  holds_look fun w hw => ⟨hw, by rw [hw.fs]⟩

theorem body_settled (hos : ∀ path, os.symlink path = true) (hundo : c.Undoable) (hapart : c.Apart fs₀) :
    Holds (Starts c fs₀) c.body (fun _ => Settled fs₀) (Safe os fs₀) := by
  refine (holds_look_fs fun fs => os_get_symlink_target fs c.src_dir).bind fun target => holds_of_pure fun htarget => ?_
  cases target with
  | some link_src_dir => exact (linkAgain_settled c link_src_dir).mono (fun _ hw => hw.settled) fun _ _ hw => hw
  | none =>
    refine (holds_look_fs fun fs => os_directory_exists fs c.src_dir).bind fun src_exists => holds_of_pure fun hexists => ?_
    cases src_exists with
    | false => exact holds_pure fun _ hw => hw.settled
    | true =>
      refine (holds_look_fs fun fs => c.pool_names.find? fun n => !os_directory_exists fs (c.poolPath n)).bind fun pool_name =>
        holds_of_pure fun _ => ?_
      cases pool_name with
      | none => exact holds_pure fun _ hw => hw.settled
      | some pool_name =>
        refine (toPool_settled hos hundo ⟨hapart, htarget.symm, hexists.symm⟩ pool_name).mono (fun w hw => ⟨hw.fs, hw.journal, ?_⟩)
          fun _ _ hw => hw
        refine hw.synchronous.resolve_right ?_
        rintro (hlink | hmissing)
        · rw [← htarget] at hlink
          cases hlink
        · rw [← hexists] at hmissing
          cases hmissing

/-- A call keeps what every path shows, wherever it is cut off. -/
theorem link_directory_pool_settled (hos : ∀ path, os.symlink path = true) (hjournal : w.journal.Only []) (hjournaled : c.Journaled w)
    (hundo : c.Undoable) (hapart : c.Apart w.fs) :
    Holds (· = w) c.link_directory_pool (fun _ => Settled w.fs) (Safe os w.fs) := by
  have hbody := body_settled hos hundo hapart
  refine Holds.bind (Q := fun dao w' => w' = w ∧ dao = w.link_journal_dao) (holds_look fun w' hw' => ⟨hw', by rw [hw']⟩) fun dao =>
    holds_of_pure fun hdao => ?_
  cases dao with
  | true =>
    have hstays := hjournaled.resolve_left (by simp [← hdao])
    refine hbody.mono (fun w' hw' => ?_) fun _ _ hw' => hw'
    subst hw'
    exact ⟨rfl, hjournal, Or.inr hstays⟩
  | false =>
    have hstart : Holds (· = w) (modify fun w => { w with link_journal_dao := true, journal := { w.journal with synchronous := true } })
        (fun _ => Starts c w.fs) (Safe os w.fs) := by
      refine holds_modify fun w' hw' => ?_
      subst hw'
      have hstarts : Starts c w'.fs { w' with link_journal_dao := true, journal := { w'.journal with synchronous := true } } :=
        ⟨rfl, hjournal, Or.inl rfl⟩
      exact ⟨hstarts.settled.safe, hstarts⟩
    have hend (before : Bool) : Holds (Settled w.fs) (modify fun w => { w with journal := { w.journal with synchronous := before } })
        (fun _ => Settled w.fs) (Safe os w.fs) :=
      holds_modify fun w' hw' => ⟨Settled.safe ⟨hw'.1, hw'.2⟩, hw'.1, hw'.2⟩
    refine Holds.bind (Q := fun _ => (· = w)) (holds_look fun w' hw' => hw') fun before => ?_
    exact hstart.bind fun _ => hbody.bind fun ret => (hend before).bind fun _ => holds_pure fun _ hw' => hw'

end Calls

section Runs

def runCalls (w : World) (calls : List Call) : World :=
  calls.foldl (fun w c => (c.link_directory_pool w).final) w

/-- Every call, in the state that the calls before it have left, uses the journal with
`synchronous=FULL` if at all, can take back what it does, and has the pool elsewhere. -/
def CallsOk : World → List Call → Prop
  | _, [] => True
  | w, c :: calls => (c.Journaled w ∧ c.Undoable ∧ c.Apart w.fs) ∧ CallsOk (c.link_directory_pool w).final calls

variable {w : World} {calls : List Call} {c : Call} {os : Os}

theorem runCalls_only (hos : ∀ path, os.symlink path = true) (hjournal : w.journal.Only []) (hok : CallsOk w (calls ++ [c])) :
    (runCalls w calls).journal.Only [] ∧ c.Journaled (runCalls w calls) ∧ c.Undoable ∧ c.Apart (runCalls w calls).fs := by
  induction calls generalizing w with
  | nil => exact ⟨hjournal, hok.1⟩
  | cons d calls ih =>
    obtain ⟨⟨hjournaled, hundo, hapart⟩, hrest⟩ := hok
    exact ih (link_directory_pool_settled hos hjournal hjournaled hundo hapart w rfl).2.2 hrest

/-- Wherever the power is lost in a call, each path shows what it has shown before that call
once the journal has been replayed. -/
theorem shows_after_power_loss (hjournal : w.journal.Only []) (hok : CallsOk w (calls ++ [c])) (hos : ∀ path, os.symlink path = true)
    {w' : World} (hw' : w' = runCalls w calls ∨ w' ∈ (c.link_directory_pool (runCalls w calls)).passed) {rows : List JournalEntry}
    (hrows : w'.journal.AfterPowerLoss rows) :
    ∀ path x, Leads (runCalls w calls).fs root path x → Leads (replay_directory_link_journal os w'.fs rows).2 root path x := by
  obtain ⟨hbefore, hjournaled, hundo, hapart⟩ := runCalls_only hos hjournal hok
  have hcall := link_directory_pool_settled hos hbefore hjournaled hundo hapart
  have hsafe : Safe os (runCalls w calls).fs w' := by
    rcases hw' with rfl | hmem
    · exact Settled.safe ⟨fun _ _ hx => hx, hbefore⟩
    · exact (hcall _ rfl).1 w' hmem
  exact hsafe rows hrows

end Runs

section TwoDirectories

/-- Nothing is refused. -/
def allowAll : Os :=
  ⟨fun _ => true, fun _ _ => true, fun _ => true, fun _ => true⟩

/-- `/b/x` and `/b/y` are directories, with a file in `/b/y`; `/p` is for the pool. -/
def twoDirectories : FS where
  entries i n :=
    if i = 0 ∧ n = [98] then some (.dir 1)
    else if i = 0 ∧ n = [112] then some (.dir 2)
    else if i = 1 ∧ n = [120] then some (.dir 3)
    else if i = 1 ∧ n = [121] then some (.dir 4)
    else if i = 4 ∧ n = [102] then some (.file [1])
    else none
  next := 5

def freshWorld : World :=
  ⟨twoDirectories, ⟨[], [], false⟩, [], false⟩

def linkX : Call :=
  ⟨1, [[98], [116]], [[98], [120]], [[112]], 1, [[49, 49, 49]], allowAll⟩

def linkY : Call :=
  ⟨1, [[98], [117]], [[98], [121]], [[112]], 1, [[50, 50, 50]], allowAll⟩

/-- The state after some steps of a call. -/
def Call.cutOff (c : Call) (w : World) (k : Nat) : World :=
  (c.link_directory_pool w).passed.getD k w

theorem mem_cutOff {c : Call} {w : World} {k : Nat} (h : k < (c.link_directory_pool w).passed.length) :
    c.cutOff w k ∈ (c.link_directory_pool w).passed := by
  rw [Call.cutOff, List.getD_eq_getElem?_getD, List.getElem?_eq_getElem h]
  exact List.getElem_mem h

theorem linkY_apart : linkY.Apart twoDirectories := by
  intro i n hplace path j hpath hj
  have hsrc : twoDirectories.place maxsymlinks linkY.src_dir = some (1, [121]) := by decide +kernel
  obtain ⟨rfl, rfl⟩ : 1 = i ∧ [121] = n := by simpa [hsrc] using hplace
  have hfound : ∀ path ∈ [[], [[98]], [[112]]], (twoDirectories.put 1 [121] none).resolve maxsymlinks path =
      twoDirectories.resolve maxsymlinks path := by decide +kernel
  have hshort : path ∈ [[], [[98]], [[112]]] := by
    rcases hpath with rfl | ⟨pool_name, hstart⟩
    · decide
    · rcases List.prefix_concat_iff.mp hstart with rfl | hstart
      · cases hj
      · have hpool : path <+: [] ++ [[112]] := hstart
        rcases List.prefix_concat_iff.mp hpool with rfl | hnil
        · decide
        · rw [List.prefix_nil.mp hnil]
          decide
  exact (hfound path hshort).trans hj

theorem linkY_callsOk : CallsOk freshWorld ([] ++ [linkY]) :=
  ⟨⟨Or.inl rfl, Or.inl rfl, linkY_apart⟩, trivial⟩

theorem shows_after_power_loss_linkY : ∃ w' ∈ (linkY.link_directory_pool freshWorld).passed, ∃ rows, w'.journal.AfterPowerLoss rows ∧
    w'.fs.entries 1 [121] = none ∧ Leads (replay_directory_link_journal allowAll w'.fs rows).2 root [[98], [121], [102]] (.file [1]) := by
  have hmem := mem_cutOff (c := linkY) (w := freshWorld) (k := 4) (by decide +kernel)
  have hgone : (linkY.cutOff freshWorld 4).fs.entries 1 [121] = none := by decide +kernel
  have hshown : Leads freshWorld.fs root [[98], [121], [102]] (.file [1]) := .dir rfl (.dir rfl (.file rfl))
  exact ⟨_, hmem, _, Or.inl rfl, hgone,
    shows_after_power_loss ⟨rfl, rfl⟩ linkY_callsOk (fun _ => rfl) (Or.inr hmem) (Or.inl rfl) _ _ hshown⟩

/-- In the second call the entry of the journal can be lost while the rename is kept. -/
theorem not_shows_after_power_loss : ∃ w' ∈ (linkY.link_directory_pool (runCalls freshWorld [linkX])).passed, ∃ rows,
    w'.journal.AfterPowerLoss rows ∧ ¬ ∀ path x, Leads (runCalls freshWorld [linkX]).fs root path x →
      Leads (replay_directory_link_journal allowAll w'.fs rows).2 root path x := by
  have hmem := mem_cutOff (c := linkY) (w := runCalls freshWorld [linkX]) (k := 3) (by decide +kernel)
  have hold : (linkY.cutOff (runCalls freshWorld [linkX]) 3).journal.older = [[]] := by decide +kernel
  refine ⟨_, hmem, [], Or.inr (by rw [hold]; exact List.mem_singleton.mpr rfl), fun h => ?_⟩
  have hroot : (linkY.cutOff (runCalls freshWorld [linkX]) 3).fs.entries root [98] = some (.dir 1) := by decide +kernel
  have hgone : (linkY.cutOff (runCalls freshWorld [linkX]) 3).fs.entries 1 [121] = none := by decide +kernel
  have hb : (runCalls freshWorld [linkX]).fs.entries root [98] = some (.dir 1) := by decide +kernel
  have hy : (runCalls freshWorld [linkX]).fs.entries 1 [121] = some (.dir 4) := by decide +kernel
  have hshown := h [[98], [121]] (.dir 4) (.dir hb (.dir hy (.here 4)))
  rw [replay_nil, leads_dir hroot] at hshown
  exact not_leads hgone hshown

end TwoDirectories

end urbackup.dirlinks
