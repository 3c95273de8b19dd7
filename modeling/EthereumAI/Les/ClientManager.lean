import EthereumAI.Les.FlowControl

/-! # The client manager of a light server (`les/flowcontrol/manager.go`)

Each client node of the manager serves requests, and afterwards recharges: `rcValue` grows by
`rcConst / simReqCnt` a millisecond while it serves, and falls back to zero while it recharges,
at a rate `set` takes from the weights of the recharging nodes. `update` runs the nodes forward
to the next end of a recharge, and again, until no recharge ends before the time asked.

`rcValue`, `rcDelta` and the times are Go's `int64`, here `Int64`; the product
`rcDelta * dt` of `cmNode.update` wraps past `2^63`, which a node serving for about two and a
half hours reaches. The nodes are pointers: `store` holds every node made by `addNode`, and
`nodes` is the key set of the map. The wait of `accept` on a full manager is run on the times
`queueProc` polls at; the calls other goroutines make while it waits are not modelled.
-/

namespace EthereumAI.Les

/-- `rcConst`, an untyped constant: `uint64` in `set` and `NewClientManager`, `int64` where it
meets an `int64`. -/
def rcConst : UInt64 := 1000000

structure cmNode where
  lastUpdate : AbsTime
  serving : Bool
  recharging : Bool
  rcWeight : UInt64
  rcValue : Int64
  rcDelta : Int64
  startValue : Int64
  finishRecharge : AbsTime
  deriving DecidableEq, Repr

namespace cmNode

/-- `update`: the value moves at `rcDelta` from the last update, and a recharge that has ended
stops at zero. -/
def update (node : cmNode) (time : AbsTime) : cmNode :=
  let dt : Int64 := time - node.lastUpdate
  let node := { node with rcValue := node.rcValue + node.rcDelta * dt / rcConst.toInt64, lastUpdate := time }
  if node.recharging ∧ node.finishRecharge ≤ time then { node with recharging := false, rcDelta := 0, rcValue := 0 }
  else node

/-- The rate of a serving node: a share of `rcConst`; `none` for the division by a zero count. -/
def servingDelta (simReqCnt : UInt64) : Option Int64 :=
  if simReqCnt = 0 then none else some (rcConst / simReqCnt).toInt64

/-- `set`: a node that stops serving starts recharging, with its weight added to `sumWeight`,
and one that starts serving stops. `none` where Go divides by zero, which panics. -/
def set (rcRecharge : UInt64) (node : cmNode) (serving : Bool) (simReqCnt sumWeight : UInt64) :
    Option cmNode :=
  let (node, sumWeight) :=
    if node.serving && !serving then ({ node with recharging := true }, sumWeight + node.rcWeight)
    else (node, sumWeight)
  let node := { node with serving }
  let (node, sumWeight) :=
    if node.recharging && serving then ({ node with recharging := false }, sumWeight - node.rcWeight)
    else (node, sumWeight)
  let rcDelta := if serving then servingDelta simReqCnt else some 0
  rcDelta.bind fun rcDelta =>
    if node.recharging then
      if sumWeight = 0 then none else
      let rcDelta := -(rcRecharge * node.rcWeight / sumWeight).toInt64
      if rcDelta = 0 then none
      else some { node with rcDelta, finishRecharge := node.lastUpdate + node.rcValue * rcConst.toInt64 / -rcDelta }
    else some { node with rcDelta }

end cmNode

structure ClientManager where
  store : ℕ → cmNode
  nodes : List ℕ
  /-- the pointer the next `addNode` takes -/
  next : ℕ
  simReqCnt : UInt64
  sumWeight : UInt64
  rcSumValue : UInt64
  maxSimReq : UInt64
  maxRcSum : UInt64
  rcRecharge : UInt64
  time : AbsTime

namespace ClientManager

/-- The node of a pointer no `addNode` has made. -/
def noNode : cmNode := ⟨0, false, false, 0, 0, 0, 0, 0⟩

/-- `NewClientManager`; `none` for the division by zero of `rcTarget = 0` or `100`. -/
def NewClientManager (rcTarget maxSimReq maxRcSum : UInt64) : Option ClientManager :=
  if rcTarget = 0 then none else
  let d := 100 * rcConst / rcTarget - rcConst
  if d = 0 then none else
  some { store := fun _ => noNode, nodes := [], next := 0, simReqCnt := 0, sumWeight := 0, rcSumValue := 0,
         maxSimReq, maxRcSum, rcRecharge := rcConst * rcConst / d, time := 0 }

variable (cm : ClientManager)

/-- `updateNodes`: every node run to `time`; the new `sumWeight` and `rcSumValue`, and whether a
recharge ended. -/
def updateNodes (time : AbsTime) : ClientManager × Bool :=
  let store := fun p => if p ∈ cm.nodes then (cm.store p).update time else cm.store p
  let rce := cm.nodes.any fun p => (cm.store p).recharging && !(store p).recharging
  ({ cm with store,
             sumWeight := (cm.nodes.map fun p => if (store p).recharging then (store p).rcWeight else 0).sum,
             rcSumValue := (cm.nodes.map fun p => (store p).rcValue.toUInt64).sum }, rce)

/-- The earliest end of a recharge before `time`, or `time`. -/
def firstTime (time : AbsTime) : AbsTime :=
  cm.nodes.foldl (fun t p =>
    if (cm.store p).recharging ∧ (cm.store p).finishRecharge < t then (cm.store p).finishRecharge else t) time

/-- The loop of `update` that calls `set` on every recharging node, with the counters of the
manager. -/
def setRecharging (store : ℕ → cmNode) (p : ℕ) : Option (ℕ → cmNode) :=
  if (store p).recharging then
    ((store p).set cm.rcRecharge (store p).serving cm.simReqCnt cm.sumWeight).map (Function.update store p)
  else some store

/-- `update`, with a bound on its rounds: every round but the last ends a recharge, so
`nodes.length + 1` rounds are enough (`update_fuel`). -/
def updateLoop : ℕ → ClientManager → AbsTime → Option ClientManager
  | 0, _, _ => none
  | fuel + 1, cm, time =>
    let (cm, rce) := cm.updateNodes (cm.firstTime time)
    if rce then
      (cm.nodes.foldlM cm.setRecharging cm.store).bind fun store => updateLoop fuel { cm with store } time
    else some { cm with time }

def update (time : AbsTime) : Option ClientManager := updateLoop (cm.nodes.length + 1) cm time

def canStartReq : Bool := cm.simReqCnt < cm.maxSimReq && cm.rcSumValue < cm.maxRcSum

/-- The wait of `accept`: `queueProc` runs `update` at each poll until a request can start;
`none` while it still waits. -/
def waitResume : ClientManager → List AbsTime → Option ClientManager
  | _, [] => none
  | cm, t :: ts => (cm.update t).bind fun cm => if cm.canStartReq then some cm else waitResume cm ts

/-- `addNode`: a fresh node at `time`, then `update` at `now`, a second read of the clock. -/
def addNode (time now : AbsTime) : Option (ℕ × ClientManager) :=
  let p := cm.next
  let node : cmNode := ⟨time, false, false, 1, 0, 0, 0, time⟩
  ({ cm with store := Function.update cm.store p node, nodes := cm.nodes ++ [p], next := p + 1 }.update now).map
    (p, ·)

def modifyNode (p : ℕ) (f : cmNode → Option cmNode) : Option ClientManager :=
  (f (cm.store p)).map fun node => { cm with store := Function.update cm.store p node }

/-- `stop`: a serving node stops, between two updates. -/
def stop (p : ℕ) (time : AbsTime) : Option ClientManager :=
  if (cm.store p).serving then
    (cm.update time).bind fun cm =>
      let cm := { cm with simReqCnt := cm.simReqCnt - 1 }
      (cm.modifyNode p fun node => node.set cm.rcRecharge false cm.simReqCnt cm.sumWeight).bind fun cm =>
        cm.update time
  else some cm

def removeNode (p : ℕ) (time : AbsTime) : Option ClientManager :=
  (cm.stop p time).bind fun cm => { cm with nodes := cm.nodes.erase p }.update time

/-- `accept`, with the times `queueProc` polls at if it has to wait; `false` for a node removed
while it waited. -/
def accept (p : ℕ) (time : AbsTime) (polls : List AbsTime) : Option (ClientManager × Bool) :=
  (cm.update time).bind fun cm =>
    let resumed := if cm.canStartReq then some (cm, true)
      else (waitResume cm polls).map fun cm => (cm, decide (p ∈ cm.nodes))
    resumed.bind fun (cm, ok) =>
      if !ok then some (cm, false) else
      let cm := { cm with simReqCnt := cm.simReqCnt + 1 }
      (cm.modifyNode p fun node =>
          (node.set cm.rcRecharge true cm.simReqCnt cm.sumWeight).map fun node => { node with startValue := node.rcValue }).bind
        fun cm => (cm.update cm.time).map (·, true)

/-- `processed`: the node stops, and its value and the cost of the request are read as `uint64`. -/
def processed (p : ℕ) (time : AbsTime) : Option (ClientManager × UInt64 × UInt64) :=
  (cm.stop p time).map fun cm =>
    (cm, (cm.store p).rcValue.toUInt64, ((cm.store p).rcValue - (cm.store p).startValue).toUInt64)

end ClientManager

/-- The calls on a client manager; `addNode` reads the clock twice. -/
inductive ManagerOp
  | addNode (time now : AbsTime)
  | removeNode (p : ℕ) (time : AbsTime)
  | accept (p : ℕ) (time : AbsTime) (polls : List AbsTime)
  | processed (p : ℕ) (time : AbsTime)

namespace ClientManager

def step (cm : ClientManager) : ManagerOp → Option ClientManager
  | .addNode time now => (cm.addNode time now).map Prod.snd
  | .removeNode p time => cm.removeNode p time
  | .accept p time polls => (cm.accept p time polls).map Prod.fst
  | .processed p time => (cm.processed p time).map Prod.fst

/-- A run: `none` when a call panics or waits for good. -/
def run (cm : ClientManager) (ops : List ManagerOp) : Option ClientManager := ops.foldlM step cm

/-! ## The loop of `update` ends -/

/-- How many of the manager's nodes recharge. -/
def rechargingCount (cm : ClientManager) : ℕ := cm.nodes.countP fun p => (cm.store p).recharging

end ClientManager

theorem countP_lt_of_mono {α : Type} {p q : α → Bool} :
    ∀ {l : List α}, (∀ x ∈ l, p x → q x) → (∃ x ∈ l, q x ∧ ¬p x) → l.countP p < l.countP q
  | [], _, ⟨_, hx, _⟩ => absurd hx List.not_mem_nil
  | a :: l, h, ⟨x, hx, hqx, hpx⟩ => by
    have hl : ∀ y ∈ l, p y → q y := fun y hy => h y (List.mem_cons_of_mem a hy)
    rw [List.countP_cons, List.countP_cons]
    rcases List.mem_cons.mp hx with rfl | hx
    · -- the element itself
      have := List.countP_mono_left hl
      simp only [hqx, hpx, if_true, Bool.false_eq_true, if_false]
      omega
    · have hlt := countP_lt_of_mono hl ⟨x, hx, hqx, hpx⟩
      by_cases hpa : p a = true
      · simp only [hpa, h a List.mem_cons_self hpa, if_true]
        omega
      · simp only [hpa, Bool.false_eq_true, if_false]
        omega

namespace cmNode

variable {node node' : cmNode} {time : AbsTime}

theorem update_recharging (h : (node.update time).recharging = true) : node.recharging = true := by
  unfold update at h
  dsimp only at h
  split at h
  · cases h
  · exact h

/-- `set` of a node's own serving state starts no recharge. -/
theorem set_serving_recharging {r c w : UInt64} (h : node.set r node.serving c w = some node')
    (h' : node'.recharging = true) : node.recharging = true := by
  unfold set at h
  simp only [Bool.and_not_self, Bool.false_eq_true, if_false] at h
  by_cases hr : (node.recharging && node.serving) = true
  · -- a node both recharging and serving stops recharging
    rw [if_pos hr] at h
    obtain ⟨d, -, h⟩ := Option.bind_eq_some_iff.mp h
    dsimp only at h
    simp only [Bool.false_eq_true, if_false, Option.some.injEq] at h
    rw [← h] at h'
    cases h'
  · rw [if_neg hr] at h
    obtain ⟨d, -, h⟩ := Option.bind_eq_some_iff.mp h
    dsimp only at h
    split at h
    next hrc => exact hrc
    next =>
      cases h
      exact h'

end cmNode

namespace ClientManager

variable {cm : ClientManager} {time : AbsTime}

theorem updateNodes_recharging (p : ℕ) (h : ((cm.updateNodes time).1.store p).recharging = true) :
    (cm.store p).recharging = true := by
  unfold updateNodes at h
  dsimp only at h
  split at h
  · exact cmNode.update_recharging h
  · exact h

theorem updateNodes_count (h : (cm.updateNodes time).2 = true) :
    (cm.updateNodes time).1.rechargingCount < cm.rechargingCount := by
  have hmono : ∀ p ∈ cm.nodes, ((cm.updateNodes time).1.store p).recharging = true → (cm.store p).recharging = true :=
    fun p _ => updateNodes_recharging p
  unfold updateNodes at h
  obtain ⟨p, hp, hend⟩ := List.any_eq_true.mp h
  simp only [Bool.and_eq_true, Bool.not_eq_true'] at hend
  exact countP_lt_of_mono hmono ⟨p, hp, hend.1, by
    unfold updateNodes
    dsimp only
    rw [hend.2]
    decide⟩

theorem setRecharging_recharging {store store' : ℕ → cmNode} {p : ℕ} (h : cm.setRecharging store p = some store')
    (q : ℕ) (hq : (store' q).recharging = true) : (store q).recharging = true := by
  unfold setRecharging at h
  split at h
  · obtain ⟨node, hset, rfl⟩ := Option.map_eq_some_iff.mp h
    by_cases hqp : q = p
    · subst hqp
      rw [Function.update_self] at hq
      exact cmNode.set_serving_recharging hset hq
    · rwa [Function.update_of_ne hqp] at hq
  · cases h
    exact hq

theorem foldlM_setRecharging_recharging :
    ∀ (ps : List ℕ) {store store' : ℕ → cmNode}, ps.foldlM cm.setRecharging store = some store' →
      ∀ q, (store' q).recharging = true → (store q).recharging = true
  | [], _, _, h, q, hq => by
    cases h
    exact hq
  | p :: ps, store, store', h, q, hq => by
    obtain ⟨store₁, h₁, h⟩ := Option.bind_eq_some_iff.mp h
    exact setRecharging_recharging h₁ q (foldlM_setRecharging_recharging ps h q hq)

/-- With more rounds than nodes recharging, one more round changes nothing: the loop has ended. -/
theorem updateLoop_succ : ∀ (fuel : ℕ) (cm : ClientManager), cm.rechargingCount < fuel →
    updateLoop (fuel + 1) cm time = updateLoop fuel cm time
  | 0, _, h => absurd h (Nat.not_lt_zero _)
  | fuel + 1, cm, h => by
    have hcount := @updateNodes_count cm (cm.firstTime time)
    unfold updateLoop
    rcases hu : cm.updateNodes (cm.firstTime time) with ⟨cm₁, rce⟩
    rw [hu] at hcount
    dsimp only
    cases rce with
    | false => rfl
    | true =>
      simp only [if_true]
      cases hf : cm₁.nodes.foldlM cm₁.setRecharging cm₁.store with
      | none => rfl
      | some store =>
        have hle : ({ cm₁ with store } : ClientManager).rechargingCount ≤ cm₁.rechargingCount :=
          List.countP_mono_left fun p _ => foldlM_setRecharging_recharging cm₁.nodes hf p
        have hlt : cm₁.rechargingCount < cm.rechargingCount := hcount rfl
        exact updateLoop_succ fuel _ (by omega)

theorem update_fuel (cm : ClientManager) (time : AbsTime) (k : ℕ) :
    updateLoop (cm.nodes.length + 1 + k) cm time = cm.update time := by
  induction k with
  | zero => rfl
  | succ k ih =>
    have hcount : cm.rechargingCount < cm.nodes.length + 1 + k :=
      Nat.lt_of_le_of_lt (List.countP_le_length) (by omega)
    rw [← Nat.add_assoc, updateLoop_succ _ cm hcount, ih]

/-- Node 0 starts serving at time 0, alone, at `rcDelta = 10^6`; a second node joins at
`10^13` ns. The update it makes multiplies `10^6` by `10^13`, which wraps in `int64`, and the
serving node is left at an `rcValue` of `-8446744073709`, which the manager's `rcSumValue`
holds as `2^64 - 8446744073709`. -/
theorem serving_rcValue_wraps :
    ((NewClientManager 50 10 (2 ^ 63)).bind fun cm =>
        cm.run [.addNode 0 0, .accept 0 0 [], .addNode (10 ^ 13) (10 ^ 13)]).map
      (fun cm => ((cm.store 0).serving, (cm.store 0).recharging, (cm.store 0).rcValue, cm.rcSumValue)) =
      some (true, false, -8446744073709, 2 ^ 64 - 8446744073709) := by
  decide +kernel

end ClientManager

end EthereumAI.Les
