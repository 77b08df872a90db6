import DistCache.Lib.Progress
import DistCache.Lib.SharedMutex
import DistCache.Network.Serial
import Mathlib.Algebra.GroupWithZero.Nat
import Mathlib.Algebra.Order.BigOperators.Group.Finset
import Mathlib.Data.Fintype.Basic

/-!
# Threads that wait for locks

`Concurrency` takes a locked call for one step. Here the locks themselves are part of the state, and
a thread gets on in slices: it acquires `mtx_`, as a reader for a `GET` and as the writer for `SET`,
`DEL` and `cleanup_expired`, works on the cache, releases the lock, acquires `wal_mutex_`, gets its
record into the file, any number of bytes at a time, and gives its reply only after the lock is
released (`LockedServer.next`). A slice for which a lock would have to be waited for is blocked. A
writer first looks at the containers and then changes what it has seen, so it would undo whatever
somebody else does in between; a `GET` changes nothing that another reader looks at, and is one
slice.

What a slice can do is said once (`Moves`). From it follow the discipline of the locks (`Owned`) and
that nobody waits for ever: in every state some thread with work left can get on (`not_deadlocked`),
and when every thread gets a slice again and again, all of them finish (`finishes`).
-/

namespace DistCache

/-- What a thread has to do: a command of its client, or a round of the cleanup. -/
inductive Task where
  | command (c : Command)
  | sweep
  deriving DecidableEq, Repr

/-- What `WAL::append` writes for a command. -/
def Command.logText (c : Command) : Bytes := Record.text ⟨c.cmd, c.key, c.value⟩

/-- Where a thread stands. -/
inductive Phase where
  /-- Between two tasks. -/
  | idle
  /-- `LRUCache::get`: `mtx_` is held as a reader. -/
  | reads (key : Bytes)
  /-- `LRUCache::get` has its result, and `mtx_` is still held. -/
  | found (key : Bytes) (reply : Reply)
  /-- `LRUCache::set`, `del` or `cleanup_expired`: `mtx_` is held as the writer. -/
  | alters (t : Task)
  /-- The same, when the containers have been looked at. -/
  | altering (t : Task) (seen : SafeCache)
  /-- The same, when they have been changed, and `mtx_` is still held. -/
  | altered (t : Task)
  /-- `WAL::append`, before `wal_mutex_` is held. -/
  | logs (c : Command)
  /-- `WAL::append`: `wal_mutex_` is held, and `n` bytes of the record are in the file. -/
  | writes (c : Command) (n : ℕ)
  /-- The reply has not been given yet. -/
  | answers (c : Command) (reply : Reply)

namespace Task

/-- The call of the cache a task makes. -/
def call (now access : Time) : Task → LRUCache.Call
  | command c => c.call now access
  | sweep => .cleanupExpired now

/-- What a thread does behind the change of the cache. -/
def afterwards : Task → Phase
  | command c => .logs c
  | sweep => .idle

/-- The slices that a task needs at most behind the change of the cache. -/
def rest : Task → ℕ
  | command c => c.logText.length + 3
  | sweep => 0

/-- The slices that a task needs at most. -/
def cost : Task → ℕ
  | command (.get _) => 4
  | t => t.rest + 4

/-- The task changes the cache, and holds its lock alone. -/
def Alters : Task → Prop
  | command c => c.isWrite = true
  | sweep => True

end Task

namespace Phase

/-- `mtx_` is held as a reader. -/
def Shares : Phase → Prop
  | reads _ | found _ _ => True
  | _ => False

/-- `mtx_` is held as the writer. -/
def Owns : Phase → Prop
  | alters _ | altering _ _ | altered _ => True
  | _ => False

/-- `wal_mutex_` is held. -/
def Logs : Phase → Prop
  | writes _ _ => True
  | _ => False

/-- The slices that the thread needs at most for the rest of its task. -/
def cost : Phase → ℕ
  | idle => 0
  | reads _ => 3
  | found _ _ => 2
  | alters t => t.rest + 3
  | altering t _ => t.rest + 2
  | altered t => t.rest + 1
  | logs c => c.logText.length + 3
  | writes c n => c.logText.length - n + 2
  | answers _ _ => 1

/-- The thread came to where it stands with a task of the right kind. -/
def Proper : Phase → Prop
  | alters t | altering t _ | altered t => t.Alters
  | logs c | writes c _ => c.isWrite = true
  | _ => True

end Phase

/-- A server whose threads hold locks. -/
structure LockedServer (ι : Type*) where
  cache : SafeCache
  wal : WAL
  mtx : SharedMutex ι
  walMutex : Option ι
  todo : ι → List Task
  phase : ι → Phase

/-- A slice of a thread: the readings of its cache call, and the number of bytes that it gets into
the file beyond the first one. -/
structure Slice (ι : Type*) extends Turn ι where
  chunk : ℕ

namespace LockedServer

variable {ι : Type*}

/-- The threads start on a server, which nobody has locked. -/
def ofServer (b : TCPServer) (todo : ι → List Task) : LockedServer ι where
  cache := b.cache
  wal := b.wal
  mtx := .free
  walMutex := none
  todo
  phase := fun _ ↦ .idle

/-! ### Who holds which lock -/

/-- Thread `i` holds the locks that it has to hold in phase `p`, and no other ones. -/
structure Holds (mtx : SharedMutex ι) (walMutex : Option ι) (i : ι) (p : Phase) : Prop where
  shares : i ∈ mtx.readers ↔ p.Shares
  owns : mtx.writer = some i ↔ p.Owns
  logs : walMutex = some i ↔ p.Logs

/-- The discipline of the locks: every thread holds what it has to hold, and what a writer has seen
of the cache is still so. -/
structure Owned (s : LockedServer ι) : Prop where
  holds : ∀ i, Holds s.mtx s.walMutex i (s.phase i)
  proper : ∀ i, (s.phase i).Proper
  seen : ∀ i t seen, s.phase i = .altering t seen → seen = s.cache

theorem owned_ofServer (b : TCPServer) (todo : ι → List Task) : Owned (ofServer b todo) where
  holds := fun _ ↦ ⟨by simp [ofServer, SharedMutex.free, Phase.Shares],
    by simp [ofServer, SharedMutex.free, Phase.Owns], by simp [ofServer, Phase.Logs]⟩
  proper := fun _ ↦ trivial
  seen := fun _ _ _ h ↦ nomatch h

section Discipline

variable {s : LockedServer ι}

/-- The writer is alone. -/
theorem Owned.not_owns (h : Owned s) {i j : ι} (hi : (s.phase i).Owns) (hj : j ≠ i) :
    ¬ (s.phase j).Owns := fun howns ↦ by
  have := ((h.holds j).owns.2 howns).symm.trans ((h.holds i).owns.2 hi)
  exact hj (Option.some.inj this)

/-- There is no writer beside a reader. -/
theorem Owned.not_owns_of_shares (h : Owned s) {i : ι} (hi : (s.phase i).Shares) (j : ι) :
    ¬ (s.phase j).Owns := fun howns ↦ by
  have hnone := SharedMutex.writer_eq_none_of_mem ((h.holds i).shares.2 hi)
  rw [(h.holds j).owns.2 howns] at hnone
  exact absurd hnone (by simp)

end Discipline

/-! ### Slices -/

variable [DecidableEq ι]

/-- Thread `i` gets on to the next phase. -/
def goto (s : LockedServer ι) (i : ι) (p : Phase) : LockedServer ι :=
  { s with phase := Function.update s.phase i p }

/-- **One slice**, if it is not blocked. -/
def next (s : LockedServer ι) (x : Slice ι) : Option (LockedServer ι) :=
  let i := x.client
  match s.phase i with
  | .idle =>
    match s.todo i with
    | [] => none
    | .command (.get key) :: rest =>
      (s.mtx.lockShared i).map fun mtx ↦
        goto { s with mtx, todo := Function.update s.todo i rest } i (.reads key)
    | t :: rest =>
      (s.mtx.lock i).map fun mtx ↦
        goto { s with mtx, todo := Function.update s.todo i rest } i (.alters t)
  | .reads key =>
    let r := TCPServer.serve ⟨s.cache, s.wal⟩ ⟨.get key, x.now, x.access⟩
    some (goto { s with cache := r.1.cache } i (.found key r.2))
  | .found key reply =>
    some (goto { s with mtx := s.mtx.unlockShared i } i (.answers (.get key) reply))
  | .alters t => some (s.goto i (.altering t s.cache))
  | .altering t seen =>
    some (goto { s with cache := seen.step (t.call x.now x.access) } i (.altered t))
  | .altered t => some (goto { s with mtx := s.mtx.unlock } i t.afterwards)
  | .logs c =>
    match s.walMutex with
    | some _ => none
    | none =>
      match s.wal.ensureFileOpen with
      | .ok wal => some (goto { s with wal, walMutex := some i } i (.writes c 0))
      | .error what => some (s.goto i (.answers c ⟨bytes ['E', 'R', 'R', ' '] ++ what, false⟩))
  | .writes c n =>
    if n < c.logText.length then
      some (goto { s with wal := { s.wal with
        file := s.wal.file ++ (c.logText.drop n).take (x.chunk + 1) } } i
        (.writes c (n + (x.chunk + 1))))
    else some (goto { s with walMutex := none } i (.answers c okReply))
  | .answers _ _ => some (s.goto i .idle)

/-- A thread gets a slice. If the slice is blocked, nothing changes. -/
def step (s : LockedServer ι) (x : Slice ι) : LockedServer ι := Progress.attempt next s x

/-- The state after some slices. -/
def run (s : LockedServer ι) (slices : List (Slice ι)) : LockedServer ι := slices.foldl step s

/-! ### What a slice can do -/

/-- What a slice can do, when it is not blocked. -/
inductive Moves (s : LockedServer ι) (x : Slice ι) : LockedServer ι → Prop
  | lockShared {key : Bytes} {rest : List Task} {mtx : SharedMutex ι}
      (hphase : s.phase x.client = .idle) (htodo : s.todo x.client = .command (.get key) :: rest)
      (hlock : s.mtx.lockShared x.client = some mtx) :
      Moves s x (goto { s with mtx, todo := Function.update s.todo x.client rest } x.client
        (.reads key))
  | lock {t : Task} {rest : List Task} {mtx : SharedMutex ι}
      (hphase : s.phase x.client = .idle) (htodo : s.todo x.client = t :: rest) (ht : t.Alters)
      (hlock : s.mtx.lock x.client = some mtx) :
      Moves s x (goto { s with mtx, todo := Function.update s.todo x.client rest } x.client
        (.alters t))
  | get {key : Bytes} (hphase : s.phase x.client = .reads key) :
      Moves s x (goto { s with
        cache := (TCPServer.serve ⟨s.cache, s.wal⟩ ⟨.get key, x.now, x.access⟩).1.cache } x.client
        (.found key (TCPServer.serve ⟨s.cache, s.wal⟩ ⟨.get key, x.now, x.access⟩).2))
  | unlockShared {key : Bytes} {reply : Reply} (hphase : s.phase x.client = .found key reply) :
      Moves s x (goto { s with mtx := s.mtx.unlockShared x.client } x.client
        (.answers (.get key) reply))
  | look {t : Task} (hphase : s.phase x.client = .alters t) :
      Moves s x (s.goto x.client (.altering t s.cache))
  | change {t : Task} {seen : SafeCache} (hphase : s.phase x.client = .altering t seen) :
      Moves s x (goto { s with cache := seen.step (t.call x.now x.access) } x.client (.altered t))
  | unlock {t : Task} (hphase : s.phase x.client = .altered t) :
      Moves s x (goto { s with mtx := s.mtx.unlock } x.client t.afterwards)
  | opens {c : Command} {wal : WAL} (hphase : s.phase x.client = .logs c)
      (hfree : s.walMutex = none) (hopen : s.wal.ensureFileOpen = .ok wal) :
      Moves s x (goto { s with wal, walMutex := some x.client } x.client (.writes c 0))
  | throws {c : Command} {what : Bytes} (hphase : s.phase x.client = .logs c)
      (hfree : s.walMutex = none) (hopen : s.wal.ensureFileOpen = .error what) :
      Moves s x (s.goto x.client (.answers c ⟨bytes ['E', 'R', 'R', ' '] ++ what, false⟩))
  | put {c : Command} {n : ℕ} (hphase : s.phase x.client = .writes c n)
      (hn : n < c.logText.length) :
      Moves s x (goto { s with wal := { s.wal with
        file := s.wal.file ++ (c.logText.drop n).take (x.chunk + 1) } } x.client
        (.writes c (n + (x.chunk + 1))))
  | closes {c : Command} {n : ℕ} (hphase : s.phase x.client = .writes c n)
      (hn : c.logText.length ≤ n) :
      Moves s x (goto { s with walMutex := none } x.client (.answers c okReply))
  | answer {c : Command} {reply : Reply} (hphase : s.phase x.client = .answers c reply) :
      Moves s x (s.goto x.client .idle)

theorem moves_of_next {s s' : LockedServer ι} {x : Slice ι} (h : s.next x = some s') :
    Moves s x s' := by
  rw [next] at h
  rcases hphase : s.phase x.client with - | key | ⟨key, reply⟩ | t | ⟨t, seen⟩ | t | c | ⟨c, n⟩ |
    ⟨c, reply⟩ <;> simp only [hphase] at h
  · rcases htodo : s.todo x.client with - | ⟨t, rest⟩ <;> rw [htodo] at h
    · simp at h
    · rcases t with ⟨⟨key, value⟩ | key | key⟩ | - <;> simp only [Option.map_eq_some_iff] at h <;>
        obtain ⟨mtx, hlock, rfl⟩ := h
      · exact .lock hphase htodo rfl hlock
      · exact .lockShared hphase htodo hlock
      · exact .lock hphase htodo rfl hlock
      · exact .lock hphase htodo trivial hlock
  · obtain rfl := Option.some.inj h
    exact .get hphase
  · obtain rfl := Option.some.inj h
    exact .unlockShared hphase
  · obtain rfl := Option.some.inj h
    exact .look hphase
  · obtain rfl := Option.some.inj h
    exact .change hphase
  · obtain rfl := Option.some.inj h
    exact .unlock hphase
  · rcases hfree : s.walMutex with - | j <;> rw [hfree] at h
    · rcases hopen : s.wal.ensureFileOpen with what | wal <;> rw [hopen] at h <;>
        obtain rfl := Option.some.inj h
      · exact .throws hphase hfree hopen
      · exact .opens hphase hfree hopen
    · simp at h
  · split_ifs at h with hn <;> obtain rfl := Option.some.inj h
    · exact .put hphase hn
    · exact .closes hphase (Nat.le_of_not_lt hn)
  · obtain rfl := Option.some.inj h
    exact .answer hphase

/-! ### The discipline is kept -/

variable {s s' : LockedServer ι}

/-- **The frame**: thread `i` gets on, and the others stand where they stood. -/
theorem Owned.goto (h : Owned s) {i : ι} {p : Phase} (hphase : s'.phase = s.phase)
    (hothers : ∀ j, j ≠ i → ∀ q, Holds s.mtx s.walMutex j q → Holds s'.mtx s'.walMutex j q)
    (hi : Holds s'.mtx s'.walMutex i p)
    (hproper : p.Proper) (hcache : s'.cache = s.cache ∨ ∀ j, j ≠ i → ¬ (s.phase j).Owns)
    (hseen : ∀ t seen, p = .altering t seen → seen = s'.cache) : Owned (s'.goto i p) := by
  refine ⟨fun j ↦ ?_, fun j ↦ ?_, fun j t seen hj ↦ ?_⟩
  · show Holds s'.mtx s'.walMutex j (Function.update s'.phase i p j)
    rcases eq_or_ne j i with rfl | hne
    · rwa [Function.update_self]
    · rw [Function.update_of_ne hne, hphase]
      exact hothers j hne _ (h.holds j)
  · show (Function.update s'.phase i p j).Proper
    rcases eq_or_ne j i with rfl | hne
    · rwa [Function.update_self]
    · rw [Function.update_of_ne hne, hphase]
      exact h.proper j
  · replace hj : Function.update s'.phase i p j = .altering t seen := hj
    rcases eq_or_ne j i with rfl | hne
    · rw [Function.update_self] at hj
      exact hseen t seen hj
    · rw [Function.update_of_ne hne, hphase] at hj
      rcases hcache with hsame | hnone
      · exact (h.seen j t seen hj).trans hsame.symm
      · have howns := hnone j hne
        rw [hj] at howns
        exact absurd trivial howns

theorem Task.Alters.afterwards {t : Task} (h : t.Alters) :
    ¬ t.afterwards.Shares ∧ ¬ t.afterwards.Owns ∧ ¬ t.afterwards.Logs ∧ t.afterwards.Proper := by
  cases t with
  | command c => exact ⟨id, id, id, h⟩
  | sweep => exact ⟨id, id, id, trivial⟩

/-- **One slice** keeps the discipline of the locks. -/
theorem Owned.next (h : Owned s) {x : Slice ι} (hnext : s.next x = some s') : Owned s' := by
  have hi := h.holds x.client
  have hproper := h.proper x.client
  have hnot : ∀ {p : Phase}, ¬ p.Owns → ∀ t seen, p ≠ .altering t seen :=
    fun hp t seen heq ↦ hp (heq ▸ trivial)
  cases moves_of_next hnext with
  | lockShared hphase htodo hlock =>
    obtain ⟨hreaders, hwriter, hnone⟩ := SharedMutex.lockShared_eq_some hlock
    rw [hphase] at hi
    refine h.goto rfl (fun j hj q hq ↦ ⟨?_, ?_, hq.logs⟩) ⟨?_, ?_, hi.logs⟩ trivial (Or.inl rfl)
      (fun t seen heq ↦ nomatch heq)
    · rw [hreaders, Finset.mem_insert, or_iff_right hj]
      exact hq.shares
    · rw [hwriter, ← hnone]
      exact hq.owns
    · rw [hreaders]
      exact iff_of_true (Finset.mem_insert_self ..) trivial
    · rw [hwriter]
      exact iff_of_false (by simp) id
  | lock hphase htodo ht hlock =>
    obtain ⟨hreaders, hwriter, hempty, hnone⟩ := SharedMutex.lock_eq_some hlock
    rw [hphase] at hi
    refine h.goto rfl (fun j hj q hq ↦ ⟨?_, ?_, hq.logs⟩) ⟨?_, ?_, hi.logs⟩ ht (Or.inl rfl)
      (fun t seen heq ↦ nomatch heq)
    · rw [hreaders, ← hempty]
      exact hq.shares
    · rw [hwriter, Option.some_inj]
      refine (iff_of_false (Ne.symm hj) fun howns ↦ ?_)
      have := hq.owns.2 howns
      rw [hnone] at this
      exact absurd this (by simp)
    · rw [hreaders]
      exact iff_of_false (Finset.notMem_empty _) id
    · exact iff_of_true hwriter trivial
  | get hphase =>
    rw [hphase] at hi
    refine h.goto rfl (fun j hj q hq ↦ hq) ⟨hi.shares, hi.owns, hi.logs⟩ trivial (Or.inr ?_)
      (fun t seen heq ↦ nomatch heq)
    exact fun j _ ↦ h.not_owns_of_shares (i := x.client) (by rw [hphase]; trivial) j
  | unlockShared hphase =>
    rw [hphase] at hi
    refine h.goto rfl (fun j hj q hq ↦ ⟨?_, hq.owns, hq.logs⟩) ⟨?_, hi.owns, hi.logs⟩ trivial
      (Or.inl rfl) (fun t seen heq ↦ nomatch heq)
    · rw [SharedMutex.readers_unlockShared, Finset.mem_erase, and_iff_right hj]
      exact hq.shares
    · exact iff_of_false (by simp) id
  | look hphase =>
    rw [hphase] at hi hproper
    refine h.goto rfl (fun j hj q hq ↦ hq) ⟨hi.shares, hi.owns, hi.logs⟩ hproper (Or.inl rfl)
      (fun t seen heq ↦ ?_)
    exact (Phase.altering.inj heq).2.symm
  | change hphase =>
    rw [hphase] at hi hproper
    refine h.goto rfl (fun j hj q hq ↦ hq) ⟨hi.shares, hi.owns, hi.logs⟩ hproper (Or.inr ?_)
      (fun t seen heq ↦ nomatch heq)
    exact fun j hj ↦ h.not_owns (i := x.client) (by rw [hphase]; trivial) hj
  | @unlock t hphase =>
    rw [hphase] at hi hproper
    obtain ⟨hshares, howns, hlogs, hafter⟩ := Task.Alters.afterwards hproper
    have hwriter : s.mtx.writer = some x.client := hi.owns.2 trivial
    refine h.goto rfl (fun j hj q hq ↦ ⟨hq.shares, ?_, hq.logs⟩) ⟨?_, ?_, ?_⟩ hafter (Or.inl rfl)
      (fun t seen heq ↦ absurd heq (hnot howns t seen))
    · -- the lock was not theirs, and still is not
      have hq := hq.owns
      rw [hwriter, Option.some_inj] at hq
      rw [SharedMutex.writer_unlock]
      exact iff_of_false (by simp) fun hown ↦ hj (hq.2 hown).symm
    · exact iff_of_false (fun hmem ↦ hi.shares.1 hmem) hshares
    · exact iff_of_false (by simp) howns
    · exact iff_of_false (fun hsome ↦ hi.logs.1 hsome) hlogs
  | opens hphase hfree hopen =>
    rw [hphase] at hi hproper
    refine h.goto rfl (fun j hj q hq ↦ ⟨hq.shares, hq.owns, ?_⟩) ⟨hi.shares, hi.owns, ?_⟩ hproper
      (Or.inl rfl) (fun t seen heq ↦ nomatch heq)
    · have hq := hq.logs
      rw [hfree] at hq
      exact iff_of_false (fun heq ↦ hj (Option.some.inj heq).symm) fun hlogs ↦
        absurd (hq.2 hlogs) (by simp)
    · exact iff_of_true rfl trivial
  | throws hphase hfree hopen =>
    rw [hphase] at hi
    exact h.goto rfl (fun j hj q hq ↦ hq) ⟨hi.shares, hi.owns, hi.logs⟩ trivial (Or.inl rfl)
      (fun t seen heq ↦ nomatch heq)
  | put hphase hn =>
    rw [hphase] at hi hproper
    exact h.goto rfl (fun j hj q hq ↦ hq) ⟨hi.shares, hi.owns, hi.logs⟩ hproper (Or.inl rfl)
      (fun t seen heq ↦ nomatch heq)
  | closes hphase hn =>
    rw [hphase] at hi
    have hlogger : s.walMutex = some x.client := hi.logs.2 trivial
    refine h.goto rfl (fun j hj q hq ↦ ⟨hq.shares, hq.owns, ?_⟩) ⟨hi.shares, hi.owns, ?_⟩ trivial
      (Or.inl rfl) (fun t seen heq ↦ nomatch heq)
    · have hq := hq.logs
      rw [hlogger, Option.some_inj] at hq
      exact iff_of_false (by simp) fun hlogs ↦ hj (hq.2 hlogs).symm
    · exact iff_of_false (by simp) id
  | answer hphase =>
    rw [hphase] at hi
    exact h.goto rfl (fun j hj q hq ↦ hq) ⟨hi.shares, hi.owns, hi.logs⟩ trivial (Or.inl rfl)
      (fun t seen heq ↦ nomatch heq)

/-- **Slices** keep the discipline of the locks, blocked ones included. -/
theorem Owned.step (h : Owned s) (x : Slice ι) : Owned (s.step x) :=
  Progress.attempt_invariant (fun _ _ _ h hnext ↦ h.next hnext) h x

/-! ### Nobody waits for ever -/

/-- Nobody holds the locks, and nobody has anything left to do. -/
structure Finished (s : LockedServer ι) : Prop where
  idle : ∀ i, s.phase i = .idle
  todo : ∀ i, s.todo i = []
  readers : s.mtx.readers = ∅
  writer : s.mtx.writer = none
  logger : s.walMutex = none

/-- A thread that holds a lock is never blocked. -/
theorem next_isSome_of_holds {x : Slice ι}
    (h : (s.phase x.client).Shares ∨ (s.phase x.client).Owns ∨ (s.phase x.client).Logs) :
    (s.next x).isSome = true := by
  rw [LockedServer.next]
  rcases hphase : s.phase x.client with - | key | ⟨key, reply⟩ | t | ⟨t, seen⟩ | t | c | ⟨c, n⟩ |
    ⟨c, reply⟩ <;> rw [hphase] at h
  · exact absurd h (by simp [Phase.Shares, Phase.Owns, Phase.Logs])
  all_goals try rfl
  · exact absurd h (by simp [Phase.Shares, Phase.Owns, Phase.Logs])
  · simp only
    split_ifs <;> rfl

/-- When nobody holds a lock, a thread with something left to do is not blocked. -/
theorem next_isSome_of_free {x : Slice ι} (hreaders : s.mtx.readers = ∅)
    (hwriter : s.mtx.writer = none) (hlogger : s.walMutex = none)
    (h : s.phase x.client ≠ .idle ∨ s.todo x.client ≠ []) : (s.next x).isSome = true := by
  rw [LockedServer.next]
  rcases hphase : s.phase x.client with - | key | ⟨key, reply⟩ | t | ⟨t, seen⟩ | t | c | ⟨c, n⟩ |
    ⟨c, reply⟩
  · have hshared : (s.mtx.lockShared x.client).isSome = true :=
      SharedMutex.lockShared_isSome.2 hwriter
    have hlock : (s.mtx.lock x.client).isSome = true :=
      SharedMutex.lock_isSome.2 ⟨hwriter, hreaders⟩
    rcases htodo : s.todo x.client with - | ⟨t, rest⟩
    · exact absurd h (by simp [hphase, htodo])
    · rcases t with ⟨⟨key, value⟩ | key | key⟩ | - <;> simpa using ‹_›
  all_goals try rfl
  · simp only [hlogger]
    cases s.wal.ensureFileOpen <;> rfl
  · simp only
    split_ifs <;> rfl

/-- **No deadlock**: as long as there is anything left to do, some thread is not blocked, whatever
its slice brings. -/
theorem Owned.not_deadlocked (h : Owned s) (hs : ¬ s.Finished) :
    ∃ i, ∀ x : Slice ι, x.client = i → (s.next x).isSome = true := by
  rcases hwriter : s.mtx.writer with - | i
  · rcases s.mtx.readers.eq_empty_or_nonempty with hreaders | ⟨i, hi⟩
    · rcases hlogger : s.walMutex with - | i
      · have hleft : ∃ i, s.phase i ≠ .idle ∨ s.todo i ≠ [] := by
          by_contra hnone
          push Not at hnone
          exact hs ⟨fun i ↦ (hnone i).1, fun i ↦ (hnone i).2, hreaders, hwriter, hlogger⟩
        obtain ⟨i, hi⟩ := hleft
        exact ⟨i, fun x hx ↦ next_isSome_of_free hreaders hwriter hlogger (hx ▸ hi)⟩
      · refine ⟨i, fun x hx ↦ next_isSome_of_holds (Or.inr (Or.inr ?_))⟩
        exact hx ▸ (h.holds i).logs.1 hlogger
    · refine ⟨i, fun x hx ↦ next_isSome_of_holds (Or.inl ?_)⟩
      exact hx ▸ (h.holds i).shares.1 hi
  · refine ⟨i, fun x hx ↦ next_isSome_of_holds (Or.inr (Or.inl ?_))⟩
    exact hx ▸ (h.holds i).owns.1 hwriter

/-- The slices that thread `i` needs at most. -/
def load (s : LockedServer ι) (i : ι) : ℕ :=
  (s.phase i).cost + ((s.todo i).map Task.cost).sum

theorem load_goto_self (s : LockedServer ι) (i : ι) (p : Phase) :
    (s.goto i p).load i = p.cost + ((s.todo i).map Task.cost).sum := by
  rw [load, LockedServer.goto]
  simp only [Function.update_self]

theorem load_goto_of_ne (s : LockedServer ι) {i j : ι} (h : j ≠ i) (p : Phase) :
    (s.goto i p).load j = s.load j := by
  rw [load, LockedServer.goto, load]
  simp only [Function.update_of_ne h]

theorem Task.Alters.cost {t : Task} (h : t.Alters) : t.cost = t.rest + 4 := by
  rcases t with ⟨⟨key, value⟩ | key | key⟩ | -
  · rfl
  · exact absurd h (by simp [Task.Alters, Command.isWrite, Command.records])
  · rfl
  · rfl

/-- **One slice** is work that is done. -/
theorem load_next {x : Slice ι} (h : s.next x = some s') :
    s'.load x.client < s.load x.client ∧ ∀ j, j ≠ x.client → s'.load j = s.load j := by
  cases moves_of_next h with
  | lockShared hphase htodo hlock =>
    refine ⟨?_, fun j hj ↦ ?_⟩
    · rw [load_goto_self, load, hphase, htodo]
      simp [Phase.cost, Task.cost]
    · rw [load_goto_of_ne _ hj, load, load]
      simp only [Function.update_of_ne hj]
  | lock hphase htodo ht hlock =>
    refine ⟨?_, fun j hj ↦ ?_⟩
    · rw [load_goto_self, load, hphase, htodo]
      simp [Phase.cost, Task.Alters.cost ht]
    · rw [load_goto_of_ne _ hj, load, load]
      simp only [Function.update_of_ne hj]
  | @unlock t hphase =>
    refine ⟨?_, fun j hj ↦ load_goto_of_ne _ hj _⟩
    rw [load_goto_self, load, hphase]
    cases t <;> simp [Phase.cost, Task.afterwards, Task.rest]
  | put hphase hn =>
    refine ⟨?_, fun j hj ↦ load_goto_of_ne _ hj _⟩
    rw [load_goto_self, load, hphase]
    simp only [Phase.cost]
    omega
  | get hphase | unlockShared hphase | look hphase | change hphase | opens hphase | throws hphase
  | closes hphase | answer hphase =>
    refine ⟨?_, fun j hj ↦ load_goto_of_ne _ hj _⟩
    rw [load_goto_self, load, hphase]
    simp [Phase.cost]

theorem sum_load_next [Fintype ι] {x : Slice ι} (h : s.next x = some s') :
    ∑ i, s'.load i < ∑ i, s.load i := by
  obtain ⟨hless, hothers⟩ := load_next h
  refine Finset.sum_lt_sum (fun j _ ↦ ?_) ⟨x.client, Finset.mem_univ _, hless⟩
  rcases eq_or_ne j x.client with rfl | hj
  · exact hless.le
  · exact (hothers j hj).le

theorem Finished.next_eq_none (h : Finished s) (x : Slice ι) : s.next x = none := by
  rw [LockedServer.next, h.idle, h.todo]

/-- **Every thread finishes.** Whatever the threads have to do, whoever gets which slice, and
whatever the slices bring: when every thread gets a slice again and again, there is a moment from
which on all of them are done and the locks are free. Up to then there is always a thread that is
not blocked. -/
theorem finishes [Fintype ι] (b : TCPServer) (todo : ι → List Task) (schedule : ℕ → Slice ι)
    (hfair : Progress.Fair (fun x : Slice ι ↦ x.client) schedule) :
    (∀ n, (Progress.after next (ofServer b todo) schedule n).Finished ∨
        ∃ i, ∀ x : Slice ι, x.client = i →
          ((Progress.after next (ofServer b todo) schedule n).next x).isSome = true) ∧
      ∃ n, ∀ m, n ≤ m → (Progress.after next (ofServer b todo) schedule m).Finished := by
  have hnext : ∀ (s : LockedServer ι) (x : Slice ι) s', Owned s → s.next x = some s' → Owned s' :=
    fun _ _ _ h hnext ↦ h.next hnext
  have hstart := owned_ofServer b todo
  refine ⟨fun n ↦ ?_, ?_⟩
  · have hn := Progress.after_invariant hnext hstart schedule n
    exact (Classical.em _).imp_right hn.not_deadlocked
  · have hdone : ∃ n, Finished (Progress.after next (ofServer b todo) schedule n) :=
      Progress.exists_done hnext (fun _ _ _ _ h ↦ sum_load_next h)
        (fun _ h hs ↦ h.not_deadlocked hs) hstart hfair
    obtain ⟨n, hn⟩ := hdone
    refine ⟨n, fun m hle ↦ ?_⟩
    have hstop : ∀ (s : LockedServer ι) (x : Slice ι), s.Finished → s.next x = none :=
      fun _ x h ↦ h.next_eq_none x
    rw [Progress.after_of_done hstop hn hle]
    exact hn

/-- Two clients write one key, and a third thread cleans up; they take turns. -/
theorem finishes_three :
    let todo : Fin 3 → List Task := fun i ↦
      if i = 2 then [.sweep] else [.command (.set [107] [1]), .command (.get [107])]
    let schedule : ℕ → Slice (Fin 3) := fun n ↦ ⟨⟨Fin.ofNat 3 n, n, n⟩, n % 2⟩
    ∃ n, ∀ m, n ≤ m → (Progress.after next (ofServer (TCPServer.fresh 1 []) todo)
      schedule m).Finished := by
  intro todo schedule
  refine (finishes (TCPServer.fresh 1 []) todo schedule fun i n ↦ ?_).2
  refine ⟨3 * n + i, by omega, Fin.ext ?_⟩
  show (3 * n + i.val) % 3 = i.val
  omega

end LockedServer

end DistCache
