import DistCache.Basic
import DistCache.Lib.OrderedMap
import Mathlib.Data.List.Lex

/-!
# `NodeDiscovery`

A node keeps what it knows of its peers: when their last heartbeat came, and whether they are alive.
The second is a flag which three routines write at three different readings of the clock. A
heartbeat that arrives sets it, a seed sets it, and `cleanup_dead_nodes` clears it when the last
heartbeat is too old; `get_alive_nodes` reads nothing else.

What makes the flag as good as the age is that a cleared flag stays true to it: a peer that is dead
has had no heartbeat since, and does not get younger (`Overdue`). So right after a cleanup the flag
says exactly whether the last heartbeat is recent enough (`Overdue.isAlive_cleanupDeadNodes`).

Which heartbeats arrive is drawn at random, peer by peer, and is an argument here.
-/

namespace DistCache

/-- `NodeDiscovery::NodeInfo`. -/
structure NodeInfo where
  nodeId : Bytes
  address : Bytes
  port : ℤ
  lastHeartbeat : Time
  isAlive : Bool
  deriving DecidableEq, Repr

/-- What `operator[]` inserts for a missing key. -/
def NodeInfo.zero : NodeInfo where
  nodeId := []
  address := []
  port := 0
  lastHeartbeat := 0
  isAlive := false

/-- `NodeDiscovery`. -/
structure NodeDiscovery where
  nodeId : Bytes
  address : Bytes
  port : ℤ
  knownNodes : OrderedMap Bytes NodeInfo

namespace NodeDiscovery

/-- `char_traits` compares bytes as unsigned numbers. -/
scoped instance linearOrderUInt8 : LinearOrder UInt8 where
  le_refl := UInt8.le_refl
  le_trans _ _ _ := UInt8.le_trans
  lt_iff_le_not_ge a b := by
    rw [UInt8.not_le, UInt8.le_iff_toNat_le, UInt8.lt_iff_toNat_lt]
    omega
  le_antisymm _ _ := UInt8.le_antisymm
  le_total := UInt8.le_total
  toDecidableLE := inferInstance

/-- `NODE_TIMEOUT_MS`. -/
def nodeTimeoutMs : ℤ := 15000

/-- `std::chrono::milliseconds(NODE_TIMEOUT_MS)`. -/
def nodeTimeout : Time := nodeTimeoutMs * 1000000

/-- `NodeDiscovery::NodeDiscovery`. -/
def new (nodeId : Bytes) (port : ℤ) (now : Time) : NodeDiscovery where
  nodeId := nodeId
  address := bytes "localhost".toList
  port := port
  knownNodes := OrderedMap.empty.insert nodeId
    ⟨nodeId, bytes "localhost".toList, port, now, true⟩

/-- `NodeDiscovery::add_seed_node`. -/
def addSeedNode (d : NodeDiscovery) (nodeId address : Bytes) (port : ℤ) (now : Time) :
    NodeDiscovery :=
  { d with knownNodes := d.knownNodes.insert nodeId ⟨nodeId, address, port, now, true⟩ }

/-- `NodeDiscovery::simulate_heartbeat_exchange`. -/
def simulateHeartbeatExchange (d : NodeDiscovery) (now : Time) (arrives : Bytes → Bool) :
    NodeDiscovery :=
  { d with knownNodes := d.knownNodes.mapValues fun nodeId info ↦
      if nodeId = d.nodeId then info
      else if arrives nodeId then { info with lastHeartbeat := now, isAlive := true }
      else info }

/-- `NodeDiscovery::cleanup_dead_nodes`. -/
def cleanupDeadNodes (d : NodeDiscovery) (now : Time) : NodeDiscovery :=
  { d with knownNodes := d.knownNodes.mapValues fun nodeId info ↦
      if nodeId ≠ d.nodeId ∧ nodeTimeout < now - info.lastHeartbeat then
        { info with isAlive := false }
      else info }

/-- The first statement of `broadcast_heartbeat`: the heartbeat of the node itself. -/
def beat (d : NodeDiscovery) (now : Time) : NodeDiscovery :=
  let info := (d.knownNodes.find? d.nodeId).getD .zero
  { d with knownNodes := d.knownNodes.insert d.nodeId { info with lastHeartbeat := now } }

/-- `NodeDiscovery::broadcast_heartbeat`. The clock is read three times. -/
def broadcastHeartbeat (d : NodeDiscovery) (now exchange cleanup : Time)
    (arrives : Bytes → Bool) : NodeDiscovery :=
  ((d.beat now).simulateHeartbeatExchange exchange arrives).cleanupDeadNodes cleanup

/-- `NodeDiscovery::listen_for_heartbeats`. -/
def listenForHeartbeats (d : NodeDiscovery) (now : Time) (arrives : Bytes → Bool) :
    NodeDiscovery := d.simulateHeartbeatExchange now arrives

/-- `NodeDiscovery::get_alive_nodes`. -/
def getAliveNodes (d : NodeDiscovery) : List NodeInfo :=
  (d.knownNodes.entries.filter fun e ↦ e.2.isAlive).map Prod.snd

/-- `NodeDiscovery::is_node_alive`. -/
def isNodeAlive (d : NodeDiscovery) (nodeId : Bytes) : Bool :=
  (d.knownNodes.find? nodeId).any NodeInfo.isAlive

/-- A call that changes what is known. -/
inductive Call where
  | addSeedNode (nodeId address : Bytes) (port : ℤ) (now : Time)
  | broadcastHeartbeat (now exchange cleanup : Time) (arrives : Bytes → Bool)
  | listenForHeartbeats (now : Time) (arrives : Bytes → Bool)

/-- After one call. -/
def step (d : NodeDiscovery) : Call → NodeDiscovery
  | .addSeedNode nodeId address port now => d.addSeedNode nodeId address port now
  | .broadcastHeartbeat now exchange cleanup arrives =>
    d.broadcastHeartbeat now exchange cleanup arrives
  | .listenForHeartbeats now arrives => d.listenForHeartbeats now arrives

/-- After a sequence of calls. -/
def run (d : NodeDiscovery) (calls : List Call) : NodeDiscovery := calls.foldl step d

/-- The clock readings of a call. -/
def Call.readings : Call → List Time
  | .addSeedNode _ _ _ now => [now]
  | .broadcastHeartbeat now exchange cleanup _ => [now, exchange, cleanup]
  | .listenForHeartbeats now _ => [now]

/-- The node a call seeds, if any. -/
def Call.seed : Call → Option Bytes
  | .addSeedNode nodeId _ _ _ => some nodeId
  | _ => none

/-- A node is known. -/
def Knows (d : NodeDiscovery) (nodeId : Bytes) : Prop := ∃ info, (nodeId, info) ∈ d.knownNodes

/-! ### What is known -/

@[simp] theorem nodeId_step (d : NodeDiscovery) (c : Call) : (d.step c).nodeId = d.nodeId := by
  cases c <;> rfl

@[simp] theorem nodeId_run (d : NodeDiscovery) (calls : List Call) :
    (d.run calls).nodeId = d.nodeId := by
  induction calls generalizing d with
  | nil => rfl
  | cons c calls ih => exact (ih (d.step c)).trans (nodeId_step d c)

theorem Knows.insert {d : NodeDiscovery} {id : Bytes} (nodeId : Bytes) (info : NodeInfo)
    (h : id = nodeId ∨ d.Knows id) :
    Knows { d with knownNodes := d.knownNodes.insert nodeId info } id := by
  rcases eq_or_ne id nodeId with rfl | hne
  · exact ⟨info, OrderedMap.mem_insert.2 (Or.inl rfl)⟩
  · obtain ⟨info', hinfo'⟩ := h.resolve_left hne
    exact ⟨info', OrderedMap.mem_insert.2 (Or.inr ⟨hne, hinfo'⟩)⟩

theorem Knows.mapValues {d : NodeDiscovery} {id : Bytes} (h : d.Knows id)
    (f : Bytes → NodeInfo → NodeInfo) :
    Knows { d with knownNodes := d.knownNodes.mapValues f } id := by
  obtain ⟨info, hinfo⟩ := h
  exact ⟨f id info, OrderedMap.mem_mapValues.2 ⟨info, hinfo, rfl⟩⟩

/-- **One call** forgets no node, and a seed is known. -/
theorem Knows.step {d : NodeDiscovery} {id : Bytes} (c : Call)
    (h : c.seed = some id ∨ d.Knows id) : (d.step c).Knows id := by
  cases c with
  | addSeedNode nodeId address port now =>
    exact Knows.insert nodeId _ (h.imp_left fun heq ↦ (Option.some.inj heq).symm)
  | broadcastHeartbeat now exchange cleanup arrives =>
    have hid : d.Knows id := h.resolve_left (by simp [Call.seed])
    have hbeat : (d.beat now).Knows id := Knows.insert d.nodeId _ (Or.inr hid)
    exact (hbeat.mapValues _).mapValues _
  | listenForHeartbeats now arrives => exact (h.resolve_left (by simp [Call.seed])).mapValues _

/-- **A run** forgets no node. -/
theorem Knows.run {d : NodeDiscovery} {id : Bytes} {calls : List Call}
    (h : id ∈ calls.filterMap Call.seed ∨ d.Knows id) : (d.run calls).Knows id := by
  induction calls generalizing d with
  | nil => exact h.resolve_left (by simp)
  | cons c calls ih =>
    refine ih ?_
    rcases h with h | h
    · rw [List.mem_filterMap] at h ⊢
      obtain ⟨c', hc', hseed⟩ := h
      rcases List.mem_cons.1 hc' with rfl | hc'
      · exact Or.inr (Knows.step _ (Or.inl hseed))
      · exact Or.inl ⟨c', hc', hseed⟩
    · exact Or.inr (Knows.step c (Or.inr h))

/-! ### The flag and the age -/

/-- What can be relied on at the time `t`: the node knows itself, an entry is of the node it is for,
and who is taken for dead is a peer without a heartbeat for too long. -/
structure Overdue (d : NodeDiscovery) (t : Time) : Prop where
  knows : d.Knows d.nodeId
  nodeId_eq : ∀ e ∈ d.knownNodes, e.2.nodeId = e.1
  dead : ∀ e ∈ d.knownNodes, e.2.isAlive = false →
    e.1 ≠ d.nodeId ∧ nodeTimeout < t - e.2.lastHeartbeat

theorem overdue_new (nodeId : Bytes) (port : ℤ) (now : Time) :
    Overdue (new nodeId port now) now := by
  have hmem : ∀ e ∈ (new nodeId port now).knownNodes,
      e = (nodeId, ⟨nodeId, bytes "localhost".toList, port, now, true⟩) := fun e he ↦
    (OrderedMap.mem_insert.1 he).resolve_right fun h ↦ absurd h.2 (OrderedMap.notMem_empty e)
  refine ⟨⟨_, OrderedMap.mem_insert.2 (Or.inl rfl)⟩, fun e he ↦ ?_, fun e he hdead ↦ ?_⟩
  · rw [hmem e he]
  · rw [hmem e he] at hdead
    exact absurd hdead (by simp)

namespace Overdue

variable {d : NodeDiscovery} {t : Time}

/-- The dead get no younger. -/
theorem mono (h : d.Overdue t) {t' : Time} (ht : t ≤ t') : d.Overdue t' where
  knows := h.knows
  nodeId_eq := h.nodeId_eq
  dead e he hdead := by
    obtain ⟨hne, hold⟩ := h.dead e he hdead
    exact ⟨hne, hold.trans_le (Int.sub_le_sub_right ht _)⟩

/-- An entry that is alive and of the right node is always welcome. -/
theorem insert (h : d.Overdue t) {nodeId : Bytes} {info : NodeInfo} (hid : info.nodeId = nodeId)
    (halive : info.isAlive = true) :
    Overdue { d with knownNodes := d.knownNodes.insert nodeId info } t where
  knows := Knows.insert nodeId info (Or.inr h.knows)
  nodeId_eq e he := by
    rcases OrderedMap.mem_insert.1 he with rfl | ⟨-, he⟩
    · exact hid
    · exact h.nodeId_eq e he
  dead e he hdead := by
    rcases OrderedMap.mem_insert.1 he with rfl | ⟨-, he⟩
    · exact absurd (halive.symm.trans hdead) (by simp)
    · exact h.dead e he hdead

/-- A change of the entries in place, entry by entry. -/
theorem mapValues (h : d.Overdue t) {f : Bytes → NodeInfo → NodeInfo}
    (hid : ∀ nodeId info, (f nodeId info).nodeId = info.nodeId)
    (hdead : ∀ nodeId info, (nodeId, info) ∈ d.knownNodes → (f nodeId info).isAlive = false →
      nodeId ≠ d.nodeId ∧ nodeTimeout < t - (f nodeId info).lastHeartbeat) :
    Overdue { d with knownNodes := d.knownNodes.mapValues f } t where
  knows := h.knows.mapValues f
  nodeId_eq e he := by
    obtain ⟨info, hinfo, heq⟩ := OrderedMap.mem_mapValues.1 he
    rw [heq, hid]
    exact h.nodeId_eq (e.1, info) hinfo
  dead e he hfalse := by
    obtain ⟨info, hinfo, heq⟩ := OrderedMap.mem_mapValues.1 he
    rw [heq] at hfalse ⊢
    exact hdead e.1 info hinfo hfalse

/-- The own entry. -/
theorem find?_nodeId (h : d.Overdue t) :
    ∃ info, d.knownNodes.find? d.nodeId = some info ∧ info.nodeId = d.nodeId ∧
      info.isAlive = true := by
  obtain ⟨info, hinfo⟩ := h.knows
  refine ⟨info, OrderedMap.find?_eq_some_iff.2 hinfo, h.nodeId_eq _ hinfo, ?_⟩
  by_contra hdead
  exact (h.dead _ hinfo (Bool.eq_false_iff.2 hdead)).1 rfl

theorem beat (h : d.Overdue t) (now : Time) : (d.beat now).Overdue t := by
  obtain ⟨info, hfind, hid, halive⟩ := h.find?_nodeId
  rw [NodeDiscovery.beat, hfind]
  exact h.insert hid halive

theorem simulateHeartbeatExchange (h : d.Overdue t) (now : Time) (arrives : Bytes → Bool) :
    (d.simulateHeartbeatExchange now arrives).Overdue t := by
  refine h.mapValues (fun nodeId info ↦ by split_ifs <;> rfl) fun nodeId info hinfo hdead ↦ ?_
  split_ifs at hdead ⊢
  · exact h.dead _ hinfo hdead
  · exact h.dead _ hinfo hdead

theorem cleanupDeadNodes (h : d.Overdue t) : (d.cleanupDeadNodes t).Overdue t := by
  refine h.mapValues (fun nodeId info ↦ by split_ifs <;> rfl) fun nodeId info hinfo hdead ↦ ?_
  split_ifs at hdead ⊢ with hold
  · exact hold
  · exact h.dead _ hinfo hdead

/-- **One call**, and the readings of the clock that are to come. -/
theorem step (h : d.Overdue t) {c : Call} {rest : List Time}
    (hclock : (t :: (c.readings ++ rest)).Pairwise (· ≤ ·)) :
    ∃ t', (d.step c).Overdue t' ∧ (t' :: rest).Pairwise (· ≤ ·) := by
  cases c with
  | addSeedNode nodeId address port now =>
    exact ⟨t, h.insert rfl rfl,
      hclock.sublist (List.Sublist.cons_cons t (List.sublist_cons_self _ _))⟩
  | broadcastHeartbeat now exchange cleanup arrives =>
    obtain ⟨hfirst, hrest⟩ := List.pairwise_cons.1 hclock
    have hle : t ≤ cleanup := hfirst cleanup (by simp [Call.readings])
    exact ⟨cleanup, (((h.mono hle).beat now).simulateHeartbeatExchange exchange
      arrives).cleanupDeadNodes, hrest.sublist (by simp [Call.readings])⟩
  | listenForHeartbeats now arrives =>
    exact ⟨t, h.simulateHeartbeatExchange now arrives,
      hclock.sublist (List.Sublist.cons_cons t (List.sublist_cons_self _ _))⟩

/-- **A run** of calls. -/
theorem run (h : d.Overdue t) {calls : List Call} {rest : List Time}
    (hclock : (t :: (calls.flatMap Call.readings ++ rest)).Pairwise (· ≤ ·)) :
    ∃ t', (d.run calls).Overdue t' ∧ (t' :: rest).Pairwise (· ≤ ·) := by
  induction calls generalizing d t with
  | nil => exact ⟨t, h, hclock⟩
  | cons c calls ih =>
    rw [List.flatMap_cons, List.append_assoc] at hclock
    obtain ⟨t', hstep, hclock'⟩ := h.step hclock
    exact ih hstep hclock'

/-- **Right after a cleanup** the flag says whether the last heartbeat is recent enough. -/
theorem isAlive_cleanupDeadNodes (h : d.Overdue t) {e : Bytes × NodeInfo}
    (he : e ∈ (d.cleanupDeadNodes t).knownNodes) :
    e.2.isAlive = true ↔ e.1 = d.nodeId ∨ t - e.2.lastHeartbeat ≤ nodeTimeout := by
  obtain ⟨info, hinfo, heq⟩ := OrderedMap.mem_mapValues.1 he
  rw [heq]
  split_ifs with hold
  · -- too old: the flag has just been cleared
    exact iff_of_false (by simp) (not_or.2 ⟨hold.1, hold.2.not_ge⟩)
  · -- not too old, so it cannot have been taken for dead
    rw [not_and_or, not_not, not_lt] at hold
    refine iff_of_true ?_ hold
    by_contra hdead
    obtain ⟨hne, hlt⟩ := h.dead _ hinfo (Bool.eq_false_iff.2 hdead)
    exact hold.elim hne fun hle ↦ hlt.not_ge hle

end Overdue

theorem getAliveNodes_cleanupDeadNodes {d : NodeDiscovery} {t : Time} (h : d.Overdue t) :
    (d.cleanupDeadNodes t).getAliveNodes =
      ((d.cleanupDeadNodes t).knownNodes.entries.filter fun e ↦
        e.1 = d.nodeId ∨ t - e.2.lastHeartbeat ≤ nodeTimeout).map Prod.snd := by
  refine congrArg (List.map Prod.snd) (List.filter_congr fun e he ↦ ?_)
  rw [Bool.eq_iff_iff, decide_eq_true_eq]
  exact h.isAlive_cleanupDeadNodes he

/-- **Failure detection is exact after each heartbeat round.** For every run of calls with
non-decreasing readings of the clock that ends in `broadcast_heartbeat`, and whatever heartbeats
arrive: the alive nodes are the node itself and the known peers whose last heartbeat is recent
enough for the cleanup, and every node ever seeded is known. -/
theorem getAliveNodes_run_broadcastHeartbeat (nodeId : Bytes) (port : ℤ) (start : Time)
    (calls : List Call) (now exchange cleanup : Time) (arrives : Bytes → Bool)
    (hclock : (start :: (calls ++ [Call.broadcastHeartbeat now exchange cleanup arrives]).flatMap
      Call.readings).Pairwise (· ≤ ·)) :
    let d := ((new nodeId port start).run calls).broadcastHeartbeat now exchange cleanup arrives
    d.getAliveNodes = (d.knownNodes.entries.filter fun e ↦
        e.1 = nodeId ∨ cleanup - e.2.lastHeartbeat ≤ nodeTimeout).map Prod.snd ∧
      (∀ e ∈ d.knownNodes, e.2.nodeId = e.1) ∧ d.Knows nodeId ∧
      ∀ id ∈ calls.filterMap Call.seed, d.Knows id := by
  intro d
  rw [List.flatMap_append] at hclock
  obtain ⟨t, hrun, hclock'⟩ := (overdue_new nodeId port start).run hclock
  have hle : t ≤ cleanup := (List.pairwise_cons.1 hclock').1 cleanup (by simp [Call.readings])
  have hexchange := ((hrun.mono hle).beat now).simulateHeartbeatExchange exchange arrives
  have hid : d.nodeId = nodeId := nodeId_run (new nodeId port start) calls
  refine ⟨?_, hexchange.cleanupDeadNodes.nodeId_eq, ?_, fun id hseed ↦ ?_⟩
  · have halive := getAliveNodes_cleanupDeadNodes hexchange
    rw [← hid]
    exact halive
  · have hknows := hexchange.cleanupDeadNodes.knows
    rw [← hid]
    exact hknows
  · exact Knows.step (.broadcastHeartbeat now exchange cleanup arrives)
      (Or.inr (Knows.run (Or.inl hseed)))

/-- A seed is heard of after ten seconds and then no more: it is alive in the round after twenty
seconds, although its heartbeat is lost, and dead in the round after thirty. -/
theorem getAliveNodes_run_broadcastHeartbeat_seed :
    let calls : List Call := [.addSeedNode [98] [104] 6380 (seconds 5),
      .listenForHeartbeats (seconds 10) fun _ ↦ true,
      .broadcastHeartbeat (seconds 20) (seconds 20) (seconds 20) fun _ ↦ false]
    let d := ((new [97] 6379 0).run calls).broadcastHeartbeat (seconds 30) (seconds 30) (seconds 30)
      fun _ ↦ false
    (((new [97] 6379 0).run calls).getAliveNodes.map NodeInfo.nodeId = [[97], [98]] ∧
      d.getAliveNodes.map NodeInfo.nodeId = [[97]]) ∧
    d.getAliveNodes = (d.knownNodes.entries.filter fun e ↦
        e.1 = [97] ∨ seconds 30 - e.2.lastHeartbeat ≤ nodeTimeout).map Prod.snd ∧
      (∀ e ∈ d.knownNodes, e.2.nodeId = e.1) ∧ d.Knows [97] ∧
      ∀ id ∈ calls.filterMap Call.seed, d.Knows id :=
  ⟨by decide, getAliveNodes_run_broadcastHeartbeat [97] 6379 0
    [.addSeedNode [98] [104] 6380 (seconds 5), .listenForHeartbeats (seconds 10) fun _ ↦ true,
      .broadcastHeartbeat (seconds 20) (seconds 20) (seconds 20) fun _ ↦ false]
    (seconds 30) (seconds 30) (seconds 30) (fun _ ↦ false) (by decide)⟩

end NodeDiscovery

end DistCache
