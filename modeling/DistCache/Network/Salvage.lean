import DistCache.Network.TCPServer
import DistCache.Recovery
import DistCache.Storage.WALCrash

/-!
# What is read of a log that several processes have torn

Every process appends to the file that the one before it has left, and may be gone in the middle of
a record. What it leaves is an `Epoch`: some complete records and the beginning of another one. The
reader takes a file line by line, so for the next process the torn bytes are the beginning of its
first line, or of the torn bytes that it leaves itself when it completes no line (`salvage`,
`replayText_epochs`).

That is all that can go wrong. One line is read for each complete record, in their order, and at
most one more for torn bytes at the end; and every death inside a record costs at most one of the
complete records, or leaves that last line (`salvaged_epochs`). When no death falls inside a record,
the log is read as it was written (`salvage_of_whole`).
-/

namespace DistCache

/-- The record of a command. -/
def Command.record (c : Command) : Record := ⟨c.cmd, c.key, c.value⟩

theorem getCmd_blankless : getCmd ≠ [] ∧ Blankless getCmd := by decide

theorem Command.WellFormed.record {c : Command} (h : c.WellFormed) : c.record.WellFormed := by
  have hcmd : c.cmd ≠ [] ∧ Blankless c.cmd := by
    cases c with
    | set key value => exact setCmd_blankless
    | get key => exact getCmd_blankless
    | del key => exact delCmd_blankless
  exact ⟨hcmd.1, hcmd.2, h.key_ne, h.key, h.value⟩

theorem Command.writes_record (c : Command) : c.record.writes = c.writes := by
  cases c <;> rfl

theorem flatMap_writes_record (commands : List Command) :
    (commands.map Command.record).flatMap Record.writes = commands.flatMap Command.writes := by
  rw [List.flatMap_map]
  exact congrArg (fun f ↦ commands.flatMap f) (funext Command.writes_record)

/-- What a process leaves in the log: the commands whose records are complete, with their clients
and in the order of the file, and the bytes of a record that is not. Those that were acknowledged
are noted next to it. -/
structure Epoch (ι : Type*) where
  lines : List (ι × Command)
  acked : List (ι × Command)
  torn : Bytes
  deriving DecidableEq

namespace Epoch

variable {ι : Type*}

/-- The commands whose records are complete. -/
def commands (e : Epoch ι) : List Command := e.lines.map Prod.snd

/-- What is in the file. -/
def text (e : Epoch ι) : Bytes := WAL.textOf (e.commands.map Command.record) ++ e.torn

/-- What the server may write: well-formed commands, and the beginning of the line of one. -/
structure Clean (e : Epoch ι) : Prop where
  wellFormed : ∀ c ∈ e.commands, c.WellFormed
  torn : newline ∉ e.torn

end Epoch

variable {ι : Type*}

/-- What is read of the epochs: `stump` stands in front of the first line. -/
def salvage (stump : Bytes) : List (Epoch ι) → List Record
  | [] => if stump = [] then [] else [parseLine stump]
  | e :: epochs =>
    match e.commands with
    | [] => salvage (stump ++ e.torn) epochs
    | c :: commands =>
      parseLine (stump ++ c.record.line) :: commands.map Command.record ++ salvage e.torn epochs

/-- **The reader** of a file with torn lines. -/
theorem replayText_epochs {stump : Bytes} (hstump : newline ∉ stump) {epochs : List (Epoch ι)}
    (hclean : ∀ e ∈ epochs, e.Clean) :
    replayText (stump ++ epochs.flatMap Epoch.text) = salvage stump epochs := by
  induction epochs generalizing stump with
  | nil =>
    rw [List.flatMap_nil, List.append_nil, salvage]
    split_ifs with hnil
    · rw [hnil, replayText_nil]
    · exact replayText_of_notMem hstump hnil
  | cons e epochs ih =>
    rw [List.forall_mem_cons] at hclean
    rw [List.flatMap_cons, Epoch.text, salvage]
    rcases hcommands : e.commands with - | ⟨c, commands⟩
    · -- no line is complete: the torn bytes run together
      have hboth : newline ∉ stump ++ e.torn := List.not_mem_append hstump hclean.1.torn
      simp only [List.map_nil, WAL.textOf_nil, List.nil_append]
      rw [← List.append_assoc, ih hboth hclean.2]
    · -- the first line is continued, the others stand on their own
      have hwf := hclean.1.wellFormed
      rw [hcommands, List.forall_mem_cons] at hwf
      have hline : newline ∉ stump ++ c.record.line :=
        List.not_mem_append hstump hwf.1.record.roundTrips.newline_notMem
      have hne : stump ++ c.record.line ≠ [] := by simp [c.record.line_ne_nil]
      have hfile : stump ++ (WAL.textOf ((c :: commands).map Command.record) ++ e.torn ++
          epochs.flatMap Epoch.text) = (stump ++ c.record.line) ++ newline ::
            (WAL.textOf (commands.map Command.record) ++
              (e.torn ++ epochs.flatMap Epoch.text)) := by
        simp [Record.text]
      have hrecords : ∀ r ∈ commands.map Command.record, r.WellFormed := by
        intro r hr
        obtain ⟨c', hc', rfl⟩ := List.mem_map.1 hr
        exact (hwf.2 c' hc').record
      rw [hfile, replayText_line hline hne, replayText_textOf_append_of_wellFormed hrecords,
        ih hclean.1.torn hclean.2]
      rfl

/-- When nothing is torn, the log is read as it was written. -/
theorem salvage_of_whole {epochs : List (Epoch ι)} (hclean : ∀ e ∈ epochs, e.Clean)
    (hwhole : ∀ e ∈ epochs, e.torn = []) :
    salvage [] epochs = (epochs.flatMap Epoch.commands).map Command.record := by
  induction epochs with
  | nil => rfl
  | cons e epochs ih =>
    rw [List.forall_mem_cons] at hclean hwhole
    rw [salvage, hwhole.1, List.flatMap_cons, List.map_append]
    rcases hcommands : e.commands with - | ⟨c, commands⟩
    · exact ih hclean.2 hwhole.2
    · have hc : c.WellFormed := hclean.1.wellFormed c (by rw [hcommands]; exact List.mem_cons_self)
      simp only [List.nil_append]
      rw [parseLine_line hc.record.roundTrips, ih hclean.2 hwhole.2]
      rfl

/-! ### How much is lost -/

/-- The number of commands whose records are not read as they were written. -/
def damaged (commands : List Command) (read : List Record) : ℕ :=
  ((commands.map Command.record).zip read).countP fun p ↦ p.1 ≠ p.2

theorem damaged_append {commands commands' : List Command} {read read' : List Record}
    (h : read.length = commands.length) : damaged (commands ++ commands') (read ++ read') =
      damaged commands read + damaged commands' read' := by
  rw [damaged, List.map_append, List.zip_append (by simpa using h.symm), List.countP_append]
  rfl

theorem damaged_self (commands : List Command) :
    damaged commands (commands.map Command.record) = 0 := by
  induction commands with
  | nil => rfl
  | cons c commands ih =>
    rw [damaged, List.map_cons, List.zip_cons_cons, List.countP_cons_of_neg (by simp)]
    exact ih

/-- The number of deaths inside a record. -/
def tears (epochs : List (Epoch ι)) : ℕ := epochs.countP fun e ↦ e.torn ≠ []

/-- One record is read for each command, in their order, and at most one more. For each tear at most
one of them is not read as it was written, or is that last one. -/
def Salvaged (commands : List Command) (tears : ℕ) (records : List Record) : Prop :=
  ∃ read tail, records = read ++ tail ∧ read.length = commands.length ∧ tail.length ≤ 1 ∧
    damaged commands read + tail.length ≤ tears

/-- **A tear costs at most one record.** -/
theorem salvaged_epochs (stump : Bytes) {epochs : List (Epoch ι)}
    (hclean : ∀ e ∈ epochs, e.Clean) :
    Salvaged (epochs.flatMap Epoch.commands) ((if stump = [] then 0 else 1) + tears epochs)
      (salvage stump epochs) := by
  induction epochs generalizing stump with
  | nil =>
    refine ⟨[], salvage stump ([] : List (Epoch ι)), rfl, rfl, ?_, ?_⟩ <;> rw [salvage] <;>
      split_ifs <;> simp [damaged]
  | cons e epochs ih =>
    rw [List.forall_mem_cons] at hclean
    have htears : tears (e :: epochs) = tears epochs + if e.torn = [] then 0 else 1 := by
      rw [tears, List.countP_cons]
      split_ifs <;> simp_all [tears]
    rw [List.flatMap_cons, salvage, htears]
    rcases hcommands : e.commands with - | ⟨c, commands⟩
    · obtain ⟨read, tail, hread, hlength, htail, hless⟩ := ih (stump ++ e.torn) hclean.2
      have hstump : (if stump ++ e.torn = [] then 0 else 1) ≤
          (if stump = [] then 0 else 1) + if e.torn = [] then 0 else 1 := by
        split_ifs <;> simp_all
      refine ⟨read, tail, hread, hlength, htail, ?_⟩
      simp only [List.nil_append]
      omega
    · obtain ⟨read, tail, hread, hlength, htail, hless⟩ := ih e.torn hclean.2
      have hc : c.WellFormed := hclean.1.wellFormed c (by rw [hcommands]; exact List.mem_cons_self)
      -- only the first line has something in front of it
      have hfirst : damaged [c] [parseLine (stump ++ c.record.line)] ≤
          if stump = [] then 0 else 1 := by
        split_ifs with hnil
        · rw [hnil, List.nil_append, parseLine_line hc.record.roundTrips]
          exact (damaged_self [c]).le
        · exact List.countP_le_length
      refine ⟨[parseLine (stump ++ c.record.line)] ++ (commands.map Command.record ++ read), tail,
        ?_, ?_, htail, ?_⟩
      · simp [hread]
      · simp [hlength]
      · have hsplit : c :: commands ++ epochs.flatMap Epoch.commands =
            [c] ++ (commands ++ epochs.flatMap Epoch.commands) := rfl
        rw [hsplit, damaged_append rfl, damaged_append (List.length_map ..), damaged_self]
        omega

end DistCache
