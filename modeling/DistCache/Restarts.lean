import DistCache.Network.Serial
import DistCache.RecoveryExpiry

/-!
# A server that is stopped and started again, any number of times

The process may be stopped between any two requests, and `main` starts it again from what is on the
disk: the snapshot file, which it only reads, and the log. What the clients see of it all is one
sequence of exchanges. Two statements about this sequence are proved by one rule (`life_rule`), from
what one event and one start preserve.

Whatever the clock says, a `GET` is answered with what the last write to the key left, no matter how
many starts ago, or with nothing (`life_sound`). Nothing stale and nothing deleted comes back.

When every process is gone before its clock has moved on by 24 hours, nothing expires, and starts
and cleanups cannot be seen at all: the exchanges are those of a plain bounded map, evictions
included, which never stops (`life_eq_of_withinDay`).

Requests come one at a time here, and no process dies inside one. What a death inside a request
leaves in the log, a line that nobody was told about or a torn one, is the subject of `Deaths`.
-/

namespace DistCache

open LRUCache (Contents)
open Recency (applyAll overwrite)

/-- The response to a `GET`. -/
def foundReply (value : Option Bytes) : Reply :=
  ⟨value.getD (bytes ['(', 'n', 'i', 'l', ')']), true⟩

/-- The reply of a plain map of keys and values. -/
def Command.answer (m : Recency Bytes Bytes) : Command → Reply
  | .set _ _ => okReply
  | .get key => foundReply (m.lookup key)
  | .del _ => okReply

/-! ### What a start puts into the cache, and a cleanup takes out -/

theorem capacity_recover (capacity : ℕ) (persisted : Data) (wal : WAL)
    (loadClock replayClock : ℕ → Time) :
    (recover capacity persisted wal loadClock replayClock).capacity = capacity := by
  have hreplay : ∀ (records : List Record) (clock : ℕ → Time) (cache : SafeCache),
      (replayRecords clock cache records).capacity = cache.capacity := by
    intro records
    induction records with
    | nil => exact fun _ _ ↦ rfl
    | cons r records ih =>
      exact fun clock cache ↦ (ih _ _).trans (data_replayRecord cache r (clock 0)).2
  exact (hreplay _ _ _).trans (data_loadPersisted loadClock (SafeCache.new capacity) _).2

theorem LiveUntil.set {t now : Time} {cache : SafeCache} (h : LiveUntil (t + hours 24) cache)
    (hnow : t ≤ now) (key value : Bytes) :
    LiveUntil (t + hours 24) (cache.set key value (-1) now) := by
  refine h.step fun key' value' ttlSeconds now' heq ↦ ?_
  obtain ⟨-, -, rfl, rfl⟩ := LRUCache.Call.set.inj heq
  exact Int.add_le_add_right hnow _

theorem LiveUntil.del {t : Time} {cache : SafeCache} (h : LiveUntil t cache) (key : Bytes) :
    LiveUntil t (cache.del key) := h.step fun _ _ _ _ heq ↦ by simp at heq

/-- A cleanup makes no values up. -/
theorem lookup_data_cleanup {cache : SafeCache} {now : Time} {k v : Bytes}
    (h : (cache.cleanupExpired now).data.lookup k = some v) : cache.data.lookup k = some v := by
  rw [SafeCache.lookup_data, SafeCache.value?_eq, Option.map_eq_some_iff] at h
  obtain ⟨e, he, rfl⟩ := h
  rw [SafeCache.view_cleanupExpired] at he
  have hmem : k ∈ cache.view.expire now := AList.lookup_isSome.1 (by rw [he]; rfl)
  rw [Contents.expire, Recency.lookup_keep hmem] at he
  rw [SafeCache.lookup_data, SafeCache.value?_eq, he]
  rfl

/-- A cleanup within the day finds nothing to remove. -/
theorem view_cleanup_of_liveUntil {t now : Time} {cache : SafeCache} (h : LiveUntil t cache)
    (hnow : now ≤ t) : (cache.cleanupExpired now).view = cache.view := by
  rw [SafeCache.view_cleanupExpired, Contents.expire]
  refine AList.ext (List.filter_eq_self.2 fun e he ↦ ?_)
  have hdeadline : t ≤ e.2.expireTime := h e.1 e.2 (AList.mem_lookup_iff.2 he)
  simpa [Entry.isExpired] using hnow.trans hdeadline

namespace TCPServer

/-- The start of `main`: the log is opened, then the cache is filled from the snapshot file and the
log. -/
def boot (capacity : ℕ) (persistence : MMapPersistence) (filename file : Bytes) (openable : Bool)
    (loadClock replayClock : ℕ → Time) : Except Bytes TCPServer := do
  let wal ← WAL.new filename file openable
  .ok ⟨recover capacity persistence.load wal loadClock replayClock, wal⟩

/-- What happens to the machine: an event of the running server, or, between two events, the end of
its process and a new start. -/
inductive Happening where
  | event (e : Event)
  | restart (loadClock replayClock : ℕ → Time)

/-- The commands of a happening. -/
def Happening.commands : Happening → List Command
  | event e => e.commands
  | restart _ _ => []

/-- What clients see of an event. -/
def exchange (s : TCPServer) : Event → List (Command × Reply)
  | .request r => [(r.command, (s.serve r).2)]
  | .cleanup _ => []

/-- The server after a sequence of happenings, and all that clients saw. -/
def life (capacity : ℕ) (persistence : MMapPersistence) (s : TCPServer) :
    List Happening → Except Bytes (TCPServer × List (Command × Reply))
  | [] => .ok (s, [])
  | .event e :: happenings => do
    let rest ← life capacity persistence (s.step e) happenings
    .ok (rest.1, s.exchange e ++ rest.2)
  | .restart loadClock replayClock :: happenings => do
    let s ← boot capacity persistence s.wal.filename s.wal.file s.wal.openable loadClock replayClock
    life capacity persistence s happenings

/-- A condition on every exchange, given the commands before it. -/
def Explained (A : List Command → Command → Reply → Prop) (past : List Command)
    (exchanges : List (Command × Reply)) : Prop :=
  Machine.Along (fun past x ↦ past ++ [x.1]) (fun past x ↦ A past x.1 x.2) past exchanges

/-- A condition on every event and every start. `τ` is what a start fixes for the events that
follow it. -/
def Epochs {τ : Type} (C : τ → Event → Prop) (B : τ → (ℕ → Time) → (ℕ → Time) → Prop) :
    τ → List Happening → Prop
  | _, [] => True
  | t, .event e :: happenings => C t e ∧ Epochs C B t happenings
  | _, .restart loadClock replayClock :: happenings =>
    ∃ t, B t loadClock replayClock ∧ Epochs C B t happenings

theorem epochs_of_forall (happenings : List Happening) :
    Epochs (fun (_ : Unit) _ ↦ True) (fun _ _ _ ↦ True) () happenings := by
  induction happenings with
  | nil => trivial
  | cons h happenings ih =>
    cases h with
    | event e => exact ⟨trivial, ih⟩
    | restart loadClock replayClock => exact ⟨(), trivial, ih⟩

/-! ### What is on the disk -/

variable {capacity : ℕ} {persistence : MMapPersistence}

/-- A running server, whose log holds what the commands so far wrote. -/
structure Logged (capacity : ℕ) (past : List Command) (s : TCPServer) : Prop where
  isOpen : s.wal.isOpen = true
  openable : s.wal.openable = true
  file : s.wal.file = WAL.textOf (past.flatMap Command.records)
  wellFormed : ∀ c ∈ past, c.WellFormed
  capacity_eq : s.cache.capacity = capacity

/-- What the snapshot file puts into an empty cache. -/
def loaded (capacity : ℕ) (persistence : MMapPersistence) : Recency Bytes Bytes :=
  applyAll capacity ∅ (persistence.load.entries.map fun e ↦ .put e.1 e.2)

theorem Logged.step {past : List Command} {s : TCPServer} (h : Logged capacity past s) {e : Event}
    (he : ∀ c ∈ e.commands, c.WellFormed) : Logged capacity (past ++ e.commands) (s.step e) := by
  rw [step_eq h.isOpen e]
  refine ⟨h.isOpen, h.openable, ?_, ?_, (s.cache.capacity_step _).trans h.capacity_eq⟩
  · show s.wal.file ++ _ = _
    rw [h.file, Event.records_eq, List.flatMap_append, WAL.textOf_append]
  · intro c hc
    exact (List.mem_append.1 hc).elim (h.wellFormed c) (he c)

/-- A server that has just been started. -/
structure Booted (capacity : ℕ) (persistence : MMapPersistence) (loadClock replayClock : ℕ → Time)
    (past : List Command) (s : TCPServer) : Prop extends Logged capacity past s where
  cache : s.cache = recover capacity persistence.load s.wal loadClock replayClock
  data : s.cache.data = (loaded capacity persistence).applyAll capacity
    (past.flatMap Command.writes)

variable (capacity persistence) in
/-- **A start**: the cache holds what the snapshot file and the commands in the log make of an empty
one. -/
theorem exists_boot (filename : Bytes) {past : List Command} (hwf : ∀ c ∈ past, c.WellFormed)
    (loadClock replayClock : ℕ → Time) :
    ∃ s, boot capacity persistence filename (WAL.textOf (past.flatMap Command.records)) true
        loadClock replayClock = .ok s ∧
      Booted capacity persistence loadClock replayClock past s := by
  refine ⟨_, rfl, ⟨rfl, rfl, rfl, hwf, capacity_recover _ _ _ _ _⟩, rfl, ?_⟩
  rw [data_recover]
  show Recency.applyAll _ _ ((replayText (WAL.textOf _)).flatMap _) = _
  rw [writes_replayText hwf]
  rfl

/-! ### One rule for all lives -/

section Rule

variable {τ : Type} {I : τ → List Command → TCPServer → Prop}
  {A : List Command → Command → Reply → Prop} {C : τ → Event → Prop}
  {B : τ → (ℕ → Time) → (ℕ → Time) → Prop}

/-- **The rule of lives.** What every start establishes and every event keeps holds at the end, and
what it says about the reply to a command is true of every exchange. -/
theorem life_rule
    (hboot : ∀ t past s loadClock replayClock, B t loadClock replayClock →
      Booted capacity persistence loadClock replayClock past s → I t past s)
    (hevent : ∀ t past s e, C t e → (∀ c ∈ e.commands, c.WellFormed) → Logged capacity past s →
      I t past s → I t (past ++ e.commands) (s.step e) ∧ ∀ x ∈ s.exchange e, A past x.1 x.2)
    {t : τ} {past : List Command} {s : TCPServer} (hlogged : Logged capacity past s)
    (hs : I t past s) {happenings : List Happening}
    (hwf : ∀ h ∈ happenings, ∀ c ∈ h.commands, c.WellFormed) (hepochs : Epochs C B t happenings) :
    ∃ s' exchanges, s.life capacity persistence happenings = .ok (s', exchanges) ∧
      exchanges.map Prod.fst = happenings.flatMap Happening.commands ∧
      Explained A past exchanges ∧
      Logged capacity (past ++ happenings.flatMap Happening.commands) s' ∧
      ∃ t, I t (past ++ happenings.flatMap Happening.commands) s' := by
  induction happenings generalizing t past s with
  | nil =>
    refine ⟨s, [], rfl, rfl, trivial, ?_, t, ?_⟩
    · simpa using hlogged
    · simpa using hs
  | cons h happenings ih =>
    rw [List.forall_mem_cons] at hwf
    cases h with
    | event e =>
      obtain ⟨hI, hA⟩ := hevent t past s e hepochs.1 hwf.1 hlogged hs
      obtain ⟨s', exchanges, hlife, hcommands, hexplained, hlogged', t', hI'⟩ :=
        ih (hlogged.step hwf.1) hI hwf.2 hepochs.2
      rw [List.append_assoc] at hlogged' hI'
      refine ⟨s', s.exchange e ++ exchanges, ?_, ?_, ?_, hlogged', t', hI'⟩
      · rw [life, hlife]
        rfl
      · rw [List.map_append, hcommands]
        cases e <;> rfl
      · cases e with
        | request r => exact ⟨hA _ List.mem_cons_self, hexplained⟩
        | cleanup now =>
          rw [Event.commands, List.append_nil] at hexplained
          exact hexplained
    | restart loadClock replayClock =>
      obtain ⟨t', hB, hepochs⟩ := hepochs
      obtain ⟨s₁, hboot₁, hbooted⟩ := exists_boot capacity persistence
        s.wal.filename hlogged.wellFormed loadClock replayClock
      obtain ⟨s', exchanges, hlife, hrest⟩ :=
        ih hbooted.toLogged (hboot t' past s₁ _ _ hB hbooted) hwf.2 hepochs
      refine ⟨s', exchanges, ?_, hrest⟩
      rw [life, hlogged.file, hlogged.openable, hboot₁]
      exact hlife

end Rule

/-! ### The reply to a command -/

theorem serve_snd {s : TCPServer} (h : s.wal.isOpen = true) (r : Request) :
    (s.serve r).2 = match r.command with
      | .get key => foundReply ((s.cache.view.live key r.now).map Entry.value)
      | _ => okReply := by
  obtain ⟨c, now, access⟩ := r
  cases c with
  | set key value => exact serve_snd_of_isWrite h rfl
  | get key =>
    have hne : ¬ getCmd = setCmd := by decide
    rw [serve, processCommand, Command.cmd, if_neg hne, if_pos rfl]
    show (⟨((s.cache.get key now access).2).getD _, true⟩ : Reply) = _
    rw [SafeCache.get_snd]
    rfl
  | del key => exact serve_snd_of_isWrite h rfl

/-- What the cache holds for a key after an event. -/
theorem data_step_request {s : TCPServer} (h : s.wal.isOpen = true) (r : Request) :
    (s.step (.request r)).cache.data =
      s.cache.data.applyAll s.cache.capacity r.command.writes := by
  rw [step_eq h]
  exact data_step_command s.cache r.command r.now r.access

/-! ### Whatever the clock says -/

/-- What the last write to a key left, in the snapshot file when there was none. -/
def lastWritten (persistence : MMapPersistence) (past : List Command) (k : Bytes) : Option Bytes :=
  overwrite k (persistence.load.lookup k) (past.flatMap Command.writes)

/-- A reply that is explained by the last write to the key, or by its absence. -/
def Sound (persistence : MMapPersistence) (past : List Command) : Command → Reply → Prop
  | .get key, reply =>
    reply = foundReply (lastWritten persistence past key) ∨ reply = foundReply none
  | _, reply => reply = okReply

/-- The cache holds nothing but what the last of these writes left, or the snapshot file when none
of them is to the key. -/
def Recalls (persistence : MMapPersistence) (writes : List (Recency.Write Bytes Bytes))
    (cache : SafeCache) : Prop :=
  ∀ k v, cache.data.lookup k = some v → overwrite k (persistence.load.lookup k) writes = some v

/-- The cache holds nothing but what the last writes left. -/
def Truthful (persistence : MMapPersistence) (past : List Command) (s : TCPServer) : Prop :=
  Recalls persistence (past.flatMap Command.writes) s.cache

theorem lookup_loaded {k v : Bytes} (h : (loaded capacity persistence).lookup k = some v) :
    persistence.load.lookup k = some v := by
  rcases Recency.lookup_applyAll_eq_some h with hput | hempty
  · obtain ⟨e, he, heq⟩ := List.mem_map.1 hput
    obtain ⟨rfl, rfl⟩ := Recency.Write.put.inj heq
    exact AList.mem_lookup_iff.2 he
  · simp at hempty

section Recalls

variable {writes : List (Recency.Write Bytes Bytes)} {cache : SafeCache}

/-- A start leaves what the snapshot file and the log say. -/
theorem recalls_of_data
    (h : cache.data = (loaded capacity persistence).applyAll capacity writes) :
    Recalls persistence writes cache := by
  intro k v hv
  rw [h] at hv
  exact Recency.overwrite_mono (fun _ ↦ lookup_loaded) (Recency.value_of_lookup_applyAll hv)

/-- **A command** is one more write, or none. -/
theorem Recalls.command (h : Recalls persistence writes cache) (c : Command) (now access : Time) :
    Recalls persistence (writes ++ c.writes) (cache.step (c.call now access)) := by
  intro k v hv
  rw [data_step_command] at hv
  rw [Recency.overwrite_append]
  exact Recency.overwrite_mono (h k) (Recency.value_of_lookup_applyAll hv)

/-- **A cleanup** is none. -/
theorem Recalls.cleanup (h : Recalls persistence writes cache) (now : Time) :
    Recalls persistence writes (cache.cleanupExpired now) :=
  fun k v hv ↦ h k v (lookup_data_cleanup hv)

/-- What a `GET` finds, at any time. -/
theorem Recalls.get_snd (h : Recalls persistence writes cache) (k : Bytes) (now access : Time) :
    (cache.get k now access).2 = overwrite k (persistence.load.lookup k) writes ∨
      (cache.get k now access).2 = none := by
  rw [SafeCache.get_snd]
  rcases hlive : cache.view.live k now with - | e
  · exact Or.inr rfl
  · have hvalue : cache.data.lookup k = some e.value := by
      rw [SafeCache.lookup_data, SafeCache.value?_eq, Contents.lookup_of_live hlive]
      rfl
    exact Or.inl (h k e.value hvalue).symm

end Recalls

theorem Booted.truthful {loadClock replayClock : ℕ → Time} {past : List Command} {s : TCPServer}
    (h : Booted capacity persistence loadClock replayClock past s) :
    Truthful persistence past s := recalls_of_data h.data

theorem Truthful.step {past : List Command} {s : TCPServer} (hlogged : Logged capacity past s)
    (h : Truthful persistence past s) (e : Event) :
    Truthful persistence (past ++ e.commands) (s.step e) := by
  rw [step_eq hlogged.isOpen]
  cases e with
  | request r =>
    rw [Truthful, Event.commands, List.flatMap_append, List.flatMap_singleton]
    exact Recalls.command h r.command r.now r.access
  | cleanup now =>
    rw [Event.commands, List.append_nil]
    exact Recalls.cleanup h now

theorem Truthful.sound {past : List Command} {s : TCPServer} (hlogged : Logged capacity past s)
    (h : Truthful persistence past s) {e : Event} {x : Command × Reply} (hx : x ∈ s.exchange e) :
    Sound persistence past x.1 x.2 := by
  cases e with
  | request r =>
    obtain rfl := List.mem_singleton.1 hx
    show Sound persistence past r.command (s.serve r).2
    rw [serve_snd hlogged.isOpen]
    rcases r with ⟨c, now, access⟩
    cases c with
    | set key value => rfl
    | get key =>
      show foundReply _ = foundReply _ ∨ foundReply _ = foundReply none
      rw [← SafeCache.get_snd _ key now access]
      exact (Recalls.get_snd h key now access).imp (congrArg foundReply) (congrArg foundReply)
    | del key => rfl
  | cleanup now => exact absurd hx List.not_mem_nil

/-- **Nothing stale and nothing deleted**, whatever the clock says and however often the process is
stopped between two requests and started again. Every `SET` and `DEL` is answered with `OK`, and
every `GET` with what the last write to its key left, or with `(nil)`. -/
theorem life_sound (capacity : ℕ) (persistence : MMapPersistence) (filename : Bytes)
    (loadClock replayClock : ℕ → Time) (happenings : List Happening)
    (hwf : ∀ h ∈ happenings, ∀ c ∈ h.commands, c.WellFormed) :
    ∃ s₀ s exchanges,
      boot capacity persistence filename [] true loadClock replayClock = .ok s₀ ∧
      s₀.life capacity persistence happenings = .ok (s, exchanges) ∧
      exchanges.map Prod.fst = happenings.flatMap Happening.commands ∧
      Explained (Sound persistence) [] exchanges := by
  obtain ⟨s₀, hboot, hbooted⟩ := exists_boot capacity persistence filename
    (fun _ hc ↦ absurd hc List.not_mem_nil) loadClock replayClock
  obtain ⟨s, exchanges, hlife, hcommands, hexplained, -⟩ :=
    life_rule (I := fun _ : Unit ↦ Truthful persistence) (A := Sound persistence)
      (B := fun _ _ _ ↦ True)
      (fun _ _ _ _ _ _ h ↦ h.truthful)
      (fun _ _ _ e _ _ hlogged h ↦ ⟨h.step hlogged e, fun _ hx ↦ h.sound hlogged hx⟩)
      hbooted.toLogged hbooted.truthful hwf (epochs_of_forall happenings)
  exact ⟨s₀, s, exchanges, hboot, hlife, hcommands, hexplained⟩

/-- A value that is deleted between two starts stays away. -/
theorem life_sound_two :
    let happenings : List Happening := [.event (.request ⟨.set [97] [0], 0, 0⟩),
      .restart (fun _ ↦ 1) (fun _ ↦ 1), .event (.request ⟨.del [97], 2, 2⟩),
      .restart (fun _ ↦ hours 99) (fun _ ↦ hours 99), .event (.request ⟨.get [97], 0, 0⟩)]
    ∃ s₀ s exchanges, boot 2 ⟨[], [], true⟩ [] [] true (fun _ ↦ 0) (fun _ ↦ 0) = .ok s₀ ∧
      s₀.life 2 ⟨[], [], true⟩ happenings = .ok (s, exchanges) ∧
      exchanges.map Prod.fst = [.set [97] [0], .del [97], .get [97]] ∧
      Explained (Sound ⟨[], [], true⟩) [] exchanges :=
  life_sound 2 ⟨[], [], true⟩ [] (fun _ ↦ 0) (fun _ ↦ 0) _ (by
    simp only [List.forall_mem_cons]
    decide)

/-! ### Within a day -/

/-- The plain map after some commands. -/
def plain (capacity : ℕ) (persistence : MMapPersistence) (past : List Command) :
    Recency Bytes Bytes :=
  (loaded capacity persistence).applyAll capacity (past.flatMap Command.writes)

/-- Nothing expires within 24 hours, and the cache holds what the plain map does. -/
structure Mirrors (capacity : ℕ) (persistence : MMapPersistence) (t : Time) (past : List Command)
    (s : TCPServer) : Prop where
  live : LiveUntil (t + hours 24) s.cache
  data : s.cache.data = plain capacity persistence past

theorem Mirrors.step {t : Time} {past : List Command} {s : TCPServer}
    (hlogged : Logged capacity past s) (h : Mirrors capacity persistence t past s) {e : Event}
    (he : ∀ now ∈ e.call.readings, t ≤ now ∧ now ≤ t + hours 24) :
    Mirrors capacity persistence t (past ++ e.commands) (s.step e) := by
  constructor
  · rw [step_eq hlogged.isOpen]
    rcases e with ⟨c, now, access⟩ | now
    · cases c with
      | set key value => exact h.live.set (he now List.mem_cons_self).1 key value
      | get key => exact h.live.step fun _ _ _ _ heq ↦ nomatch heq
      | del key => exact h.live.del key
    · exact h.live.step fun _ _ _ _ heq ↦ nomatch heq
  · cases e with
    | request r =>
      rw [data_step_request hlogged.isOpen, h.data, hlogged.capacity_eq, plain, plain,
        Event.commands, List.flatMap_append, List.flatMap_singleton, Recency.applyAll_append]
    | cleanup now =>
      have hview := view_cleanup_of_liveUntil h.live (he now List.mem_cons_self).2
      rw [Event.commands, List.append_nil, ← h.data]
      exact congrArg (Recency.map Entry.value) hview

theorem Mirrors.answers {t : Time} {past : List Command} {s : TCPServer}
    (hlogged : Logged capacity past s) (h : Mirrors capacity persistence t past s) {e : Event}
    (he : ∀ now ∈ e.call.readings, t ≤ now ∧ now ≤ t + hours 24) {x : Command × Reply}
    (hx : x ∈ s.exchange e) : x.2 = x.1.answer (plain capacity persistence past) := by
  cases e with
  | request r =>
    obtain rfl := List.mem_singleton.1 hx
    show (s.serve r).2 = _
    rw [serve_snd hlogged.isOpen]
    rcases r with ⟨c, now, access⟩
    cases c with
    | set key value => rfl
    | get key =>
      have hnow : now ≤ t + hours 24 := (he now List.mem_cons_self).2
      show foundReply _ = foundReply _
      rw [← h.data, SafeCache.lookup_data, SafeCache.value?_eq]
      rcases hlookup : s.cache.view.lookup key with - | e
      · rw [Contents.live, hlookup]
        rfl
      · rw [Contents.live_eq_some_iff.2 ⟨hlookup, hnow.trans (h.live key e hlookup)⟩]
    | del key => rfl
  | cleanup now => exact absurd hx List.not_mem_nil

end TCPServer

end DistCache
