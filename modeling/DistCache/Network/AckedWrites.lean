import DistCache.Lib.Machine
import DistCache.Network.StreamServer

/-!
# Acknowledged writes and failed ones

`append` looks at the outcome of no stream operation, so a command may be acknowledged although its
record is torn, and once an operation has failed the open stream swallows the records of all
commands that follow, each of them acknowledged. `snapshot` in `MMapPersistence` does look, after
its `flush`.

`Clear` says of a command that neither happens to it. Between two truncations the acknowledged
records are all in the file, in order, exactly if every command was clear
(`acked_inLog_iff`): a clear command adds its record, any other acknowledged one adds less than its
record (`step_spec`), so that after a single unclear command there are too few bytes in the file.
-/

namespace DistCache

namespace StreamServer

/-- What happens to the server: a request, or a call of the log from outside. -/
inductive Event where
  | request (r : Request) (f : Faults)
  | sync (f : Faults)
  | truncate (f : Faults)

namespace Event

/-- The event is a `truncate`. -/
def isTruncate : Event → Bool
  | truncate _ => true
  | _ => false

end Event

/-- One of the known commands. -/
def serve (s : StreamServer) (r : Request) (f : Faults) : StreamServer × Reply :=
  s.processCommand r.command.cmd r.command.key r.command.value r.now r.access f

/-- The server after one event. -/
def step (s : StreamServer) : Event → StreamServer
  | .request r f => (s.serve r f).1
  | .sync f => { s with wal := s.wal.sync f }
  | .truncate f => { s with wal := s.wal.truncate f }

/-- The server after a sequence of events. -/
def run (s : StreamServer) (events : List Event) : StreamServer := events.foldl step s

/-- A server with an empty cache, whose log has just been opened on a file that holds `file`. -/
def start (capacity : ℕ) (filename file : Bytes) : StreamServer where
  cache := SafeCache.new capacity
  wal := { filename, out := ⟨file, [], false⟩, isOpen := true }

/-- The record of a `SET` or `DEL` that is answered with `OK`. -/
def acked (s : StreamServer) : Event → List Record
  | .request r f => if (s.serve r f).2.success then r.command.records else []
  | _ => []

/-- The records of a sequence, in the order of the commands. -/
def ackedAll (s : StreamServer) (events : List Event) : List Record :=
  Machine.outputs step acked s events

/-- The acknowledged records are in the part of the file that the events have written, one after the
other. -/
def InLog (s : StreamServer) (events : List Event) : Prop :=
  ∃ written, (s.run events).wal.out.file = s.wal.out.file ++ written ∧
    OStream.OccurIn ((s.ackedAll events).map Record.text) written

/-- Nothing can go wrong with the event: it logs nothing, or it is rejected, or it finds the stream
good and none of its stream operations fails. -/
def Clear (s : StreamServer) : Event → Prop
  | .request r f => r.command.records = [] ∨ ¬ s.wal.Writable f ∨
      s.wal.Good ∧ WALStream.Spared r.command.cmd r.command.key r.command.value f
  | _ => True

/-- A condition on every event of a sequence, in the state before it. -/
def EachEvent (P : StreamServer → Event → Prop) (s : StreamServer) (events : List Event) : Prop :=
  Machine.Along step P s events

/-! ### One event -/

/-- What a request does to the log. -/
theorem serve_spec (s : StreamServer) (r : Request) (f : Faults) :
    (r.command.records = [] ∧ (s.serve r f).1.wal = s.wal) ∨
      ∃ cache, r.command.records = [⟨r.command.cmd, r.command.key, r.command.value⟩] ∧
        s.serve r f = logWrite ⟨cache, s.wal⟩ r.command.cmd r.command.key r.command.value f := by
  obtain ⟨c, now, access⟩ := r
  cases c with
  | set key value =>
    right
    exact ⟨s.cache.set key value (-1) now, rfl, processCommand_set s key value now access f⟩
  | get key =>
    left
    exact ⟨rfl, congrArg (fun r ↦ r.1.wal) (processCommand_get s key [] now access f)⟩
  | del key =>
    right
    refine ⟨s.cache.del key, rfl, ?_⟩
    show processCommand s delCmd key [] now access f = _
    rw [processCommand, if_neg (by decide), if_neg (by decide), if_pos rfl]
    rfl

/-- **One request**: the log stays idle, and what is written falls short of what is acknowledged
exactly if something went wrong. -/
theorem request_spec {s : StreamServer} (h : s.wal.Idle) (r : Request) (f : Faults) :
    (s.serve r f).1.wal.Idle ∧
      ∃ written, (s.serve r f).1.wal.out.file = s.wal.out.file ++ written ∧
        (s.Clear (.request r f) → written = WAL.textOf (s.acked (.request r f))) ∧
        (¬ s.Clear (.request r f) →
          written.length < (WAL.textOf (s.acked (.request r f))).length) := by
  rcases serve_spec s r f with ⟨hrecords, hwal⟩ | ⟨cache, hrecords, heq⟩
  · -- nothing is logged
    rw [hwal]
    exact ⟨h, [], by simp, fun _ ↦ by simp [acked, hrecords], fun hc ↦ absurd (Or.inl hrecords) hc⟩
  · by_cases hwritable : s.wal.Writable f
    · obtain ⟨wal, happend, hlog⟩ := logWrite_of_writable (s := ⟨cache, s.wal⟩) hwritable
        r.command.cmd r.command.key r.command.value
      obtain ⟨hidle, part, hfile, hall, hpart⟩ :=
        WALStream.append_spec (r := ⟨r.command.cmd, r.command.key, r.command.value⟩) h happend
      have hacked : WAL.textOf (s.acked (.request r f)) =
          Record.text ⟨r.command.cmd, r.command.key, r.command.value⟩ := by
        rw [acked, heq, hlog, if_pos rfl, hrecords, WAL.textOf_cons, WAL.textOf_nil,
          List.append_nil]
      have hclear : s.Clear (.request r f) ↔ s.wal.Good ∧
          WALStream.Spared r.command.cmd r.command.key r.command.value f := by
        simp [Clear, hrecords, hwritable]
      rw [heq, hlog, hacked, hclear]
      exact ⟨hidle, part, hfile, hall, hpart⟩
    · obtain ⟨what, hlog⟩ := logWrite_of_not_writable (s := ⟨cache, s.wal⟩) hwritable
        r.command.cmd r.command.key r.command.value
      have hacked : s.acked (.request r f) = [] := by
        rw [acked, heq, hlog]
        rfl
      rw [heq, hlog, hacked]
      exact ⟨h, [], by simp, fun _ ↦ rfl, fun hc ↦ absurd (Or.inr (Or.inl hwritable)) hc⟩

/-- Every event leaves the log idle. -/
theorem idle_step {s : StreamServer} (h : s.wal.Idle) (e : Event) : (s.step e).wal.Idle := by
  cases e with
  | request r f => exact (request_spec h r f).1
  | sync f =>
    show (s.wal.sync f).Idle
    rw [WALStream.sync]
    split_ifs
    · exact (OStream.flush_of_pending_eq_nil h (f.fails 0)).2
    · exact h
  | truncate f =>
    show (s.wal.truncate f).Idle
    rw [WALStream.truncate]
    split_ifs
    · rfl
    · exact (OStream.flush_of_pending_eq_nil h (f.fails 0)).2

theorem idle_run {s : StreamServer} (h : s.wal.Idle) (events : List Event) :
    (s.run events).wal.Idle := by
  induction events generalizing s with
  | nil => exact h
  | cons e events ih => exact ih (idle_step h e)

/-- **One event** other than `truncate`: what it writes, against what it acknowledges. -/
theorem step_spec {s : StreamServer} (h : s.wal.Idle) {e : Event} (he : e.isTruncate = false) :
    ∃ written, (s.step e).wal.out.file = s.wal.out.file ++ written ∧
      (s.Clear e → written = WAL.textOf (s.acked e)) ∧
      (¬ s.Clear e → written.length < (WAL.textOf (s.acked e)).length) := by
  cases e with
  | request r f => exact (request_spec h r f).2
  | sync f =>
    refine ⟨[], ?_, fun _ ↦ rfl, fun hc ↦ absurd trivial hc⟩
    have hsync := congrArg WAL.file (WALStream.toWAL_sync h f true)
    rw [List.append_nil]
    exact hsync
  | truncate f => exact absurd he (by simp [Event.isTruncate])

/-! ### A run -/

theorem ackedAll_cons (s : StreamServer) (e : Event) (events : List Event) :
    s.ackedAll (e :: events) = s.acked e ++ (s.step e).ackedAll events := rfl

/-- What is written when nothing goes wrong, and less otherwise, is never more. -/
private theorem length_le_of_clear {P : Prop} {written text : Bytes} (heq : P → written = text)
    (hlt : ¬ P → written.length < text.length) : written.length ≤ text.length := by
  rcases Classical.em P with h | h
  · rw [heq h]
  · exact (hlt h).le

/-- **A run** without `truncate`. -/
theorem run_spec {s : StreamServer} (h : s.wal.Idle) {events : List Event}
    (hevents : ∀ e ∈ events, e.isTruncate = false) :
    ∃ written, (s.run events).wal.out.file = s.wal.out.file ++ written ∧
      (EachEvent Clear s events → written = WAL.textOf (s.ackedAll events)) ∧
      (¬ EachEvent Clear s events →
        written.length < (WAL.textOf (s.ackedAll events)).length) := by
  induction events generalizing s with
  | nil => exact ⟨[], (List.append_nil _).symm, fun _ ↦ rfl, fun hc ↦ absurd trivial hc⟩
  | cons e events ih =>
    rw [List.forall_mem_cons] at hevents
    obtain ⟨first, hfirst, hclear, hshort⟩ := step_spec h hevents.1
    obtain ⟨rest, hrest, hclear', hshort'⟩ := ih (idle_step h e) hevents.2
    refine ⟨first ++ rest, ?_, ?_, ?_⟩
    · show ((s.step e).run events).wal.out.file = _
      rw [hrest, hfirst, List.append_assoc]
    · rintro ⟨he, hes⟩
      rw [ackedAll_cons, WAL.textOf_append, hclear he, hclear' hes]
    · intro hnot
      -- no event writes more than it acknowledges, and one writes less
      have hle := length_le_of_clear hclear hshort
      have hle' := length_le_of_clear hclear' hshort'
      rw [ackedAll_cons, WAL.textOf_append, List.length_append, List.length_append]
      by_cases he : s.Clear e
      · have := hshort' fun hes ↦ hnot ⟨he, hes⟩
        omega
      · have := hshort he
        omega

/-- The acknowledged records of a run without `truncate` are in the log exactly if nothing went
wrong with any event, and then the log has grown by just these records. -/
theorem inLog_iff {s : StreamServer} (h : s.wal.Idle) {events : List Event}
    (hevents : ∀ e ∈ events, e.isTruncate = false) :
    (s.InLog events ↔ EachEvent Clear s events) ∧
      (EachEvent Clear s events → (s.run events).wal.out.file =
        s.wal.out.file ++ WAL.textOf (s.ackedAll events)) := by
  obtain ⟨written, hfile, hclear, hshort⟩ := run_spec h hevents
  refine ⟨⟨?_, fun hes ↦ ?_⟩, fun hes ↦ hclear hes ▸ hfile⟩
  · rintro ⟨written', hfile', hoccur⟩
    by_contra hnot
    obtain rfl : written' = written := List.append_cancel_left (hfile'.symm.trans hfile)
    have hle : (WAL.textOf (s.ackedAll events)).length ≤ written'.length := by
      rw [WAL.textOf, List.flatMap_def]
      exact hoccur.length_le
    exact absurd (hshort hnot) (not_lt.2 hle)
  · refine ⟨written, hfile, ?_⟩
    rw [hclear hes, WAL.textOf, List.flatMap_def]
    exact OStream.occurIn_flatten _

/-- **Acknowledged means logged**, as long as nothing fails. Whatever happened before, and from the
last truncation on whichever stream operations fail: every acknowledged `SET` or `DEL` has its
complete record in the log, in the order of the commands, exactly if every command that is not
rejected finds the stream good and is spared by the failures. -/
theorem acked_inLog_iff (capacity : ℕ) (filename file : Bytes) (earlier later : List Event)
    (hlater : ∀ e ∈ later, e.isTruncate = false) :
    let s := (start capacity filename file).run earlier
    (s.InLog later ↔ EachEvent Clear s later) ∧
      (EachEvent Clear s later → (s.run later).wal.out.file =
        s.wal.out.file ++ WAL.textOf (s.ackedAll later)) := by
  intro s
  have hstart : (start capacity filename file).wal.Idle := rfl
  exact inLog_iff (idle_run hstart earlier) hlater

/-- A failed flush, and a truncation that opens the file anew: what is acknowledged from then on is
in the log. -/
theorem acked_inLog_two :
    let spared : Faults := ⟨true, fun _ ↦ none⟩
    let failed : Faults := ⟨true, fun i ↦ if i = 6 then some 3 else none⟩
    ((start 2 [119] []).run [.request ⟨.set [107] [1], 0, 0⟩ failed, .truncate spared]).InLog
      [.request ⟨.set [108] [2], 1, 1⟩ spared, .sync failed] :=
  (acked_inLog_iff 2 [119] [] _ _ (by decide)).1.2
    ⟨Or.inr (Or.inr ⟨fun _ ↦ rfl, fun _ _ ↦ rfl⟩), trivial, trivial⟩

/-- **Acknowledged and lost.** The flush of the first record fails, the stream ignores the second,
and both commands are answered with `OK`. -/
theorem acked_not_inLog :
    let spared : Faults := ⟨true, fun _ ↦ none⟩
    let failed : Faults := ⟨true, fun i ↦ if i = 6 then some 3 else none⟩
    let s := start 2 [119] []
    let events : List Event :=
      [.request ⟨.set [107] [1], 0, 0⟩ failed, .request ⟨.set [108] [2], 1, 1⟩ spared]
    s.ackedAll events = [⟨setCmd, [107], [1]⟩, ⟨setCmd, [108], [2]⟩] ∧
      (s.run events).wal.out.file = setCmd ∧ ¬ s.InLog events := by
  intro spared failed s events
  have hacked : s.ackedAll events = [⟨setCmd, [107], [1]⟩, ⟨setCmd, [108], [2]⟩] := by decide
  have hfile : (s.run events).wal.out.file = setCmd := by decide
  refine ⟨hacked, hfile, ?_⟩
  rintro ⟨written, hwritten, hoccur⟩
  obtain rfl : setCmd = written := hfile.symm.trans hwritten
  rw [hacked] at hoccur
  exact absurd hoccur.length_le (by decide)

end StreamServer

end DistCache
