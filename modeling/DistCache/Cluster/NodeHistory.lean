import DistCache.Cluster.NodeDiscovery
import DistCache.Lib.Machine
import Mathlib.Data.List.Induction

/-!
# Who is alive, read off the calls

Between two cleanups the flag of a peer may be older than its timeout, and whether a peer that
missed its heartbeats is taken for dead depends on when somebody looked. What the flag says is
nevertheless decided by the calls alone, peer by peer: a peer is alive exactly if it has been heard
of, as a seed or by a heartbeat, and no cleanup since has found that too long ago (`Heard`). No
peer's fate depends on another one's, and none on the clock being monotone (`isNodeAlive_run_iff`).
-/

namespace DistCache

namespace NodeDiscovery

/-! ### What a call says about a peer -/

/-- The time at which a call hears of a known peer, if it does. -/
def Call.contact (id : Bytes) : Call → Option Time
  | .addSeedNode nodeId _ _ now => if nodeId = id then some now else none
  | .broadcastHeartbeat _ exchange _ arrives => if arrives id then some exchange else none
  | .listenForHeartbeats now arrives => if arrives id then some now else none

/-- The times of the cleanups of a call. -/
def Call.cleanups : Call → List Time
  | .broadcastHeartbeat _ _ cleanup _ => [cleanup]
  | _ => []

/-- No cleanup of the call finds it too long ago that a peer was heard of at `t`. -/
def Call.Spares (t : Time) (c : Call) : Prop := ∀ now ∈ c.cleanups, now - t ≤ nodeTimeout

/-- The peer, which is known, was heard of at `t` and not since, and no cleanup has found that too
long ago. -/
def HeardAt (calls : List Call) (id : Bytes) (t : Time) : Prop :=
  Machine.Since
    (fun before c ↦ id ∈ (before ++ [c]).filterMap Call.seed ∧ c.contact id = some t ∧ c.Spares t)
    (fun c ↦ c.contact id = none ∧ c.Spares t) calls

/-! ### What the state says about a peer -/

/-- A node is alive and was last heard of at `t`. -/
def AliveAt (d : NodeDiscovery) (id : Bytes) (t : Time) : Prop :=
  ∃ info, (id, info) ∈ d.knownNodes ∧ info.isAlive = true ∧ info.lastHeartbeat = t

variable {d : NodeDiscovery} {id : Bytes} {t : Time}

theorem isNodeAlive_iff_exists : d.isNodeAlive id = true ↔ ∃ t, d.AliveAt id t := by
  rw [isNodeAlive, Option.any_eq_true]
  simp only [OrderedMap.find?_eq_some_iff]
  constructor
  · rintro ⟨info, hmem, halive⟩
    exact ⟨_, info, hmem, halive, rfl⟩
  · rintro ⟨t, info, hmem, halive, -⟩
    exact ⟨info, hmem, halive⟩

theorem aliveAt_insert {nodeId : Bytes} {info : NodeInfo} :
    AliveAt { d with knownNodes := d.knownNodes.insert nodeId info } id t ↔
      id = nodeId ∧ info.isAlive = true ∧ info.lastHeartbeat = t ∨
        id ≠ nodeId ∧ d.AliveAt id t := by
  simp only [AliveAt, OrderedMap.mem_insert, Prod.mk.injEq]
  constructor
  · rintro ⟨info', ⟨rfl, rfl⟩ | ⟨hne, hmem⟩, hrest⟩
    · exact Or.inl ⟨rfl, hrest⟩
    · exact Or.inr ⟨hne, info', hmem, hrest⟩
  · rintro (⟨rfl, hrest⟩ | ⟨hne, info', hmem, hrest⟩)
    · exact ⟨info, Or.inl ⟨rfl, rfl⟩, hrest⟩
    · exact ⟨info', Or.inr ⟨hne, hmem⟩, hrest⟩

theorem knows_insert_iff {nodeId : Bytes} {info : NodeInfo} :
    Knows { d with knownNodes := d.knownNodes.insert nodeId info } id ↔
      id = nodeId ∨ d.Knows id := by
  refine ⟨?_, Knows.insert nodeId info⟩
  rintro ⟨info', hmem⟩
  rcases OrderedMap.mem_insert.1 hmem with heq | ⟨-, hmem⟩
  · exact Or.inl (congrArg Prod.fst heq)
  · exact Or.inr ⟨info', hmem⟩

theorem knows_mapValues_iff {f : Bytes → NodeInfo → NodeInfo} :
    Knows { d with knownNodes := d.knownNodes.mapValues f } id ↔ d.Knows id := by
  refine ⟨?_, fun h ↦ h.mapValues f⟩
  rintro ⟨info', hmem⟩
  obtain ⟨info, hinfo, -⟩ := OrderedMap.mem_mapValues.1 hmem
  exact ⟨info, hinfo⟩

/-- **An exchange**: who is known and heard of is alive, the others stay as they were. -/
theorem aliveAt_simulateHeartbeatExchange (hid : id ≠ d.nodeId) {now : Time}
    {arrives : Bytes → Bool} :
    (d.simulateHeartbeatExchange now arrives).AliveAt id t ↔
      arrives id = true ∧ d.Knows id ∧ now = t ∨ arrives id = false ∧ d.AliveAt id t := by
  have hmem : ∀ info, (id, info) ∈ (d.simulateHeartbeatExchange now arrives).knownNodes ↔
      ∃ old, (id, old) ∈ d.knownNodes ∧ info =
        if arrives id then { old with lastHeartbeat := now, isAlive := true } else old :=
    fun info ↦ by rw [simulateHeartbeatExchange, OrderedMap.mem_mapValues]; simp only [if_neg hid]
  simp only [AliveAt, hmem]
  rcases harrives : arrives id with - | -
  · simp
  · constructor
    · rintro ⟨info, ⟨old, hold, rfl⟩, -, rfl⟩
      exact Or.inl ⟨rfl, ⟨old, hold⟩, rfl⟩
    · rintro (⟨-, ⟨old, hold⟩, rfl⟩ | ⟨hfalse, -⟩)
      · exact ⟨_, ⟨old, hold, rfl⟩, rfl, rfl⟩
      · exact absurd hfalse (by simp)

/-- **A cleanup** takes those for dead who were last heard of too long ago. -/
theorem aliveAt_cleanupDeadNodes (hid : id ≠ d.nodeId) {now : Time} :
    (d.cleanupDeadNodes now).AliveAt id t ↔ d.AliveAt id t ∧ now - t ≤ nodeTimeout := by
  have hmem : ∀ info, (id, info) ∈ (d.cleanupDeadNodes now).knownNodes ↔
      ∃ old, (id, old) ∈ d.knownNodes ∧ info =
        if nodeTimeout < now - old.lastHeartbeat then { old with isAlive := false } else old :=
    fun info ↦ by
      rw [cleanupDeadNodes, OrderedMap.mem_mapValues]
      simp only [ne_eq, hid, not_false_eq_true, true_and]
  simp only [AliveAt, hmem]
  constructor
  · rintro ⟨info, ⟨old, hold, rfl⟩, halive, hlast⟩
    split_ifs at halive hlast with hlate
    subst hlast
    exact ⟨⟨old, hold, halive, rfl⟩, not_lt.1 hlate⟩
  · rintro ⟨⟨old, hold, halive, rfl⟩, hle⟩
    exact ⟨old, ⟨old, hold, (if_neg hle.not_gt).symm⟩, halive, rfl⟩

/-! ### One call -/

/-- **One call**: a peer is alive after it if the call has heard of it, or was silent and left it
alive, and the cleanup of the call spares it. -/
theorem aliveAt_step (hid : id ≠ d.nodeId) (c : Call) :
    (d.step c).AliveAt id t ↔
      (c.seed = some id ∨ d.Knows id) ∧ c.contact id = some t ∧ c.Spares t ∨
        d.AliveAt id t ∧ c.contact id = none ∧ c.Spares t := by
  cases c with
  | addSeedNode nodeId address port now =>
    have hspares : (Call.addSeedNode nodeId address port now).Spares t :=
      fun _ hmem ↦ absurd hmem List.not_mem_nil
    simp only [step, addSeedNode, aliveAt_insert, Call.seed, Call.contact, hspares, and_true,
      Option.some.injEq, true_and]
    rcases eq_or_ne nodeId id with rfl | hne
    · simp
    · simp [hne, hne.symm]
  | broadcastHeartbeat now exchange cleanup arrives =>
    have hbeat : (d.beat now).AliveAt id t ↔ d.AliveAt id t :=
      aliveAt_insert.trans (by simp [hid])
    have hknows : (d.beat now).Knows id ↔ d.Knows id :=
      knows_insert_iff.trans (or_iff_right hid)
    have hspares : (Call.broadcastHeartbeat now exchange cleanup arrives).Spares t ↔
        cleanup - t ≤ nodeTimeout := by simp [Call.Spares, Call.cleanups]
    show ((((d.beat now).simulateHeartbeatExchange exchange arrives).cleanupDeadNodes
      cleanup).AliveAt id t) ↔ _
    have hexchange : id ≠ ((d.beat now).simulateHeartbeatExchange exchange arrives).nodeId := hid
    refine (aliveAt_cleanupDeadNodes hexchange).trans ?_
    rw [aliveAt_simulateHeartbeatExchange (d := d.beat now) hid, hbeat, hknows, hspares]
    rcases harrives : arrives id with - | -
    · simp [Call.contact, harrives]
    · simp [Call.seed, Call.contact, harrives, and_assoc]
  | listenForHeartbeats now arrives =>
    have hspares : (Call.listenForHeartbeats now arrives).Spares t :=
      fun _ hmem ↦ absurd hmem List.not_mem_nil
    show ((d.simulateHeartbeatExchange now arrives).AliveAt id t) ↔ _
    rw [aliveAt_simulateHeartbeatExchange hid]
    rcases harrives : arrives id with - | -
    · simp [Call.contact, harrives, hspares]
    · simp [Call.seed, Call.contact, harrives, hspares]

theorem knows_step_iff (hid : id ≠ d.nodeId) (c : Call) :
    (d.step c).Knows id ↔ c.seed = some id ∨ d.Knows id := by
  cases c with
  | addSeedNode nodeId address port now =>
    refine knows_insert_iff.trans (or_congr_left ?_)
    rw [Call.seed, Option.some.injEq, eq_comm]
  | broadcastHeartbeat now exchange cleanup arrives =>
    refine knows_mapValues_iff.trans (knows_mapValues_iff.trans (knows_insert_iff.trans ?_))
    simp [hid, Call.seed]
  | listenForHeartbeats now arrives =>
    refine knows_mapValues_iff.trans ?_
    simp [Call.seed]

/-! ### A run -/

theorem run_append_singleton (d : NodeDiscovery) (calls : List Call) (c : Call) :
    d.run (calls ++ [c]) = (d.run calls).step c := List.foldl_append

theorem mem_new {nodeId : Bytes} {port : ℤ} {start : Time} {e : Bytes × NodeInfo}
    (h : e ∈ (new nodeId port start).knownNodes) :
    e = (nodeId, ⟨nodeId, bytes "localhost".toList, port, start, true⟩) :=
  (OrderedMap.mem_insert.1 h).resolve_right fun h ↦ OrderedMap.notMem_empty e h.2

variable {nodeId : Bytes} {port : ℤ} {start : Time}

theorem knows_run_new_iff (hid : id ≠ nodeId) (calls : List Call) :
    ((new nodeId port start).run calls).Knows id ↔ id ∈ calls.filterMap Call.seed := by
  induction calls using List.reverseRecOn with
  | nil =>
    refine iff_of_false ?_ List.not_mem_nil
    rintro ⟨info, hinfo⟩
    exact hid (congrArg Prod.fst (mem_new hinfo))
  | append_singleton calls c ih =>
    have hid' : id ≠ ((new nodeId port start).run calls).nodeId := by rwa [nodeId_run]
    rw [run_append_singleton, knows_step_iff hid', ih, List.filterMap_append, List.mem_append,
      or_comm]
    simp

/-- **A peer is alive** exactly as the calls say. -/
theorem aliveAt_run_new_iff (hid : id ≠ nodeId) (calls : List Call) :
    ((new nodeId port start).run calls).AliveAt id t ↔ HeardAt calls id t := by
  induction calls using List.reverseRecOn with
  | nil =>
    refine iff_of_false ?_ Machine.not_since_nil
    rintro ⟨info, hinfo, -⟩
    exact hid (congrArg Prod.fst (mem_new hinfo))
  | append_singleton calls c ih =>
    have hid' : id ≠ ((new nodeId port start).run calls).nodeId := by rwa [nodeId_run]
    have hknown : id ∈ (calls ++ [c]).filterMap Call.seed ↔
        c.seed = some id ∨ ((new nodeId port start).run calls).Knows id := by
      rw [knows_run_new_iff hid, List.filterMap_append, List.mem_append, or_comm]
      simp
    rw [HeardAt, Machine.since_append_singleton, hknown, run_append_singleton, aliveAt_step hid',
      ih]
    rfl

/-- The node's own entry, and the names of the others. -/
structure Named (d : NodeDiscovery) : Prop where
  own : ∃ t, d.AliveAt d.nodeId t
  nodeId_eq : ∀ e ∈ d.knownNodes, e.2.nodeId = e.1

namespace Named

theorem insert (h : Named d) {nodeId : Bytes} {info : NodeInfo} (hid : info.nodeId = nodeId)
    (halive : info.isAlive = true) :
    Named { d with knownNodes := d.knownNodes.insert nodeId info } where
  own := by
    obtain ⟨t, hown⟩ := h.own
    rcases eq_or_ne d.nodeId nodeId with heq | hne
    · exact ⟨info.lastHeartbeat, aliveAt_insert.2 (Or.inl ⟨heq, halive, rfl⟩)⟩
    · exact ⟨t, aliveAt_insert.2 (Or.inr ⟨hne, hown⟩)⟩
  nodeId_eq e he := by
    rcases OrderedMap.mem_insert.1 he with rfl | ⟨-, he⟩
    · exact hid
    · exact h.nodeId_eq e he

theorem mapValues (h : Named d) {f : Bytes → NodeInfo → NodeInfo}
    (hname : ∀ nodeId info, (f nodeId info).nodeId = info.nodeId)
    (hown : ∀ info, f d.nodeId info = info) :
    Named { d with knownNodes := d.knownNodes.mapValues f } where
  own := by
    obtain ⟨t, info, hinfo, hrest⟩ := h.own
    exact ⟨t, info, OrderedMap.mem_mapValues.2 ⟨info, hinfo, (hown info).symm⟩, hrest⟩
  nodeId_eq e he := by
    obtain ⟨info, hinfo, heq⟩ := OrderedMap.mem_mapValues.1 he
    rw [heq, hname]
    exact h.nodeId_eq (e.1, info) hinfo

theorem beat (h : Named d) (now : Time) : Named (d.beat now) := by
  obtain ⟨t, info, hinfo, halive, -⟩ := h.own
  rw [NodeDiscovery.beat, OrderedMap.find?_eq_some_iff.2 hinfo]
  exact h.insert (h.nodeId_eq _ hinfo) halive

theorem simulateHeartbeatExchange (h : Named d) (now : Time) (arrives : Bytes → Bool) :
    Named (d.simulateHeartbeatExchange now arrives) :=
  h.mapValues (fun _ _ ↦ by split_ifs <;> rfl) fun _ ↦ if_pos rfl

theorem cleanupDeadNodes (h : Named d) (now : Time) : Named (d.cleanupDeadNodes now) :=
  h.mapValues (fun _ _ ↦ by split_ifs <;> rfl) fun _ ↦ if_neg fun hne ↦ hne.1 rfl

theorem step (h : Named d) (c : Call) : Named (d.step c) := by
  cases c with
  | addSeedNode nodeId address port now => exact h.insert rfl rfl
  | broadcastHeartbeat now exchange cleanup arrives =>
    exact ((h.beat now).simulateHeartbeatExchange exchange arrives).cleanupDeadNodes cleanup
  | listenForHeartbeats now arrives => exact h.simulateHeartbeatExchange now arrives

theorem run_new (calls : List Call) : Named ((new nodeId port start).run calls) := by
  induction calls using List.reverseRecOn with
  | nil =>
    refine ⟨⟨start, _, OrderedMap.mem_insert.2 (Or.inl rfl), rfl, rfl⟩, fun e he ↦ ?_⟩
    rw [mem_new he]
  | append_singleton calls c ih =>
    rw [run_append_singleton]
    exact ih.step c

/-- `is_node_alive` answers what `get_alive_nodes` lists. -/
theorem isNodeAlive_iff (h : Named d) :
    d.isNodeAlive id = true ↔ ∃ info ∈ d.getAliveNodes, info.nodeId = id := by
  rw [isNodeAlive, Option.any_eq_true]
  constructor
  · rintro ⟨info, hfind, halive⟩
    have hmem : (id, info) ∈ d.knownNodes := OrderedMap.find?_eq_some_iff.1 hfind
    exact ⟨info, List.mem_map.2 ⟨(id, info), List.mem_filter.2 ⟨hmem, halive⟩, rfl⟩,
      h.nodeId_eq _ hmem⟩
  · rintro ⟨info, hmem, rfl⟩
    obtain ⟨e, he, rfl⟩ := List.mem_map.1 hmem
    obtain ⟨hknown, halive⟩ := List.mem_filter.1 he
    rw [h.nodeId_eq e hknown]
    exact ⟨e.2, OrderedMap.find?_eq_some_iff.2 hknown, halive⟩

end Named

/-- **Who is alive**, after any calls at any times: the node itself, and a peer that has been seeded
exactly if no cleanup since it was last heard of has found that longer ago than the timeout. This is
the answer of `is_node_alive`, and `get_alive_nodes` lists the same nodes. -/
theorem isNodeAlive_run_iff (nodeId : Bytes) (port : ℤ) (start : Time) (calls : List Call)
    (id : Bytes) :
    let d := (new nodeId port start).run calls
    (d.isNodeAlive id = true ↔ id = nodeId ∨ ∃ t, HeardAt calls id t) ∧
      (d.isNodeAlive id = true ↔ ∃ info ∈ d.getAliveNodes, info.nodeId = id) := by
  intro d
  have hnamed : Named d := Named.run_new calls
  refine ⟨?_, hnamed.isNodeAlive_iff⟩
  rw [isNodeAlive_iff_exists]
  rcases eq_or_ne id nodeId with rfl | hid
  · obtain ⟨t, hown⟩ := hnamed.own
    rw [nodeId_run] at hown
    exact iff_of_true ⟨t, hown⟩ (Or.inl rfl)
  · rw [or_iff_right hid]
    exact exists_congr fun t ↦ aliveAt_run_new_iff hid calls

end NodeDiscovery

end DistCache
