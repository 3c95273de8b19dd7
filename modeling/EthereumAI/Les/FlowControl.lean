import Mathlib

/-! # Flow control of the light protocol (`les/flowcontrol/control.go`)

A server gives each client a buffer of `BufLimit` that recharges by `MinRecharge` a
millisecond. `ClientNode` is the server's account of a client's buffer, `ServerNode` the
client's estimate of its buffer at a server. Both subtract a cost from a `uint64` without a
floor and then clamp at `BufLimit`, so a cost above the buffer wraps to a number above the limit
and the buffer is refilled. The server's request handler admits a request on its cost capped at
`BufLimit` and then charges the cost uncapped, so a remote request can overdraw the buffer.

`mclock.Now()` is an argument, and so are the client manager's answers (`accept`,
`processed`). The float ratio `canSend` returns is Lean's `Float`.
-/

namespace EthereumAI.Les

/-- `mclock.AbsTime`: nanoseconds. -/
abbrev AbsTime := Int64

/-- `fcTimeConst`: a millisecond. -/
def fcTimeConst : UInt64 := 1000000

/-- `safetyMargin`: a millisecond. -/
def safetyMargin : UInt64 := 1000000

structure ServerParams where
  BufLimit : UInt64
  MinRecharge : UInt64

/-- The recharge of `recalcBV` and `recalcBLE`: the value recharged from `lastTime` to `time`
(nothing if time went back), clamped at `BufLimit`. -/
def recharge (params : ServerParams) (value : UInt64) (lastTime time : AbsTime) : UInt64 :=
  let dt : UInt64 := if time < lastTime then 0 else (time - lastTime).toUInt64
  let value := value + params.MinRecharge * dt / fcTimeConst
  if value > params.BufLimit then params.BufLimit else value

theorem clamp_le (v limit : UInt64) : (if v > limit then limit else v) ≤ limit := by
  split_ifs with h
  · exact UInt64.le_refl _
  · exact UInt64.not_lt.1 h

theorem recharge_le (params : ServerParams) (value : UInt64) (lastTime time : AbsTime) :
    recharge params value lastTime time ≤ params.BufLimit :=
  clamp_le _ _

theorem recharge_self (params : ServerParams) (value : UInt64) (time : AbsTime) :
    recharge params value time time = if value > params.BufLimit then params.BufLimit else value := by
  simp [recharge, show Int64.toUInt64 0 = 0 from rfl]

/-! ## The server's account of a client -/

structure ClientNode where
  params : ServerParams
  bufValue : UInt64
  lastTime : AbsTime

/-- `NewClientNode`: a full buffer. -/
def NewClientNode (params : ServerParams) (now : AbsTime) : ClientNode := ⟨params, params.BufLimit, now⟩

namespace ClientNode

/-- `recalcBV`. -/
def recalcBV (peer : ClientNode) (time : AbsTime) : ClientNode :=
  { peer with bufValue := recharge peer.params peer.bufValue peer.lastTime time, lastTime := time }

/-- `AcceptRequest` at `time`, `accepted` being the client manager's `accept`. -/
def AcceptRequest (peer : ClientNode) (time : AbsTime) (accepted : Bool) : ClientNode × UInt64 × Bool :=
  let peer := peer.recalcBV time
  (peer, peer.bufValue, accepted)

/-- `RequestProcessed` at `time`, `(rcValue, rcost)` being the client manager's `processed`:
the buffer after the cost, and what is returned. -/
def RequestProcessed (peer : ClientNode) (time : AbsTime) (cost rcValue rcost : UInt64) :
    ClientNode × UInt64 × UInt64 :=
  let peer := peer.recalcBV time
  let peer := { peer with bufValue := peer.bufValue - cost }
  let peer := peer.recalcBV time
  let peer := if rcValue < peer.params.BufLimit then
      let bv := peer.params.BufLimit - rcValue
      if bv > peer.bufValue then { peer with bufValue := bv } else peer
    else peer
  (peer, peer.bufValue, rcost)

end ClientNode

/-- The calls on a client's account. -/
inductive ClientOp
  | AcceptRequest (time : AbsTime) (accepted : Bool)
  | RequestProcessed (time : AbsTime) (cost rcValue rcost : UInt64)

def ClientNode.step (peer : ClientNode) : ClientOp → ClientNode
  | .AcceptRequest time accepted => (peer.AcceptRequest time accepted).1
  | .RequestProcessed time cost rcValue rcost => (peer.RequestProcessed time cost rcValue rcost).1

def ClientNode.run (peer : ClientNode) (ops : List ClientOp) : ClientNode := ops.foldl ClientNode.step peer

/-! ### What a charge does to the account -/

theorem limit_lt_sub {b cost limit : UInt64} (hb : b < cost)
    (hwrap : cost.toNat - b.toNat + limit.toNat < 2 ^ 64) : limit < b - cost := by
  rw [UInt64.lt_iff_toNat_lt] at hb ⊢
  rw [UInt64.toNat_sub]
  have := UInt64.toNat_lt cost
  rw [Nat.mod_eq_of_lt (by omega)]
  omega

theorem floor_le (limit rcValue : UInt64) : limit - rcValue ≤ limit ∨ ¬ rcValue < limit := by
  by_cases h : rcValue < limit
  · left
    rw [UInt64.le_iff_toNat_le, UInt64.toNat_sub_of_le _ _ (UInt64.le_of_lt h)]
    omega
  · exact .inr h

namespace ClientNode

variable (peer : ClientNode) (time : AbsTime)

@[simp] theorem recalcBV_params : (peer.recalcBV time).params = peer.params := rfl

@[simp] theorem recalcBV_bufValue :
    (peer.recalcBV time).bufValue = recharge peer.params peer.bufValue peer.lastTime time := rfl

@[simp] theorem recalcBV_lastTime : (peer.recalcBV time).lastTime = time := rfl

theorem RequestProcessed_bufValue (cost rcValue rcost : UInt64) :
    (peer.RequestProcessed time cost rcValue rcost).1.bufValue =
      let b := recharge peer.params (recharge peer.params peer.bufValue peer.lastTime time - cost) time time
      if rcValue < peer.params.BufLimit ∧ peer.params.BufLimit - rcValue > b then
        peer.params.BufLimit - rcValue else b := by
  simp only [RequestProcessed]
  split_ifs <;> simp_all

theorem RequestProcessed_params (cost rcValue rcost : UInt64) :
    (peer.RequestProcessed time cost rcValue rcost).1.params = peer.params := by
  simp only [RequestProcessed]
  split_ifs <;> rfl

theorem RequestProcessed_le (cost rcValue rcost : UInt64) :
    (peer.RequestProcessed time cost rcValue rcost).1.bufValue ≤ peer.params.BufLimit := by
  rw [RequestProcessed_bufValue]
  dsimp only
  split_ifs with h
  · rcases floor_le peer.params.BufLimit rcValue with hle | hn
    · exact hle
    · exact absurd h.1 hn
  · exact recharge_le _ _ _ _

theorem RequestProcessed_overdrawn {cost : UInt64} (rcValue rcost : UInt64)
    (hb : recharge peer.params peer.bufValue peer.lastTime time < cost)
    (hwrap : cost.toNat - (recharge peer.params peer.bufValue peer.lastTime time).toNat +
      peer.params.BufLimit.toNat < 2 ^ 64) :
    (peer.RequestProcessed time cost rcValue rcost).1.bufValue = peer.params.BufLimit := by
  have hlt := limit_lt_sub hb hwrap
  rw [RequestProcessed_bufValue, recharge_self, if_pos hlt]
  dsimp only
  rw [if_neg]
  rintro ⟨hr, hgt⟩
  rcases floor_le peer.params.BufLimit rcValue with hle | hn
  · exact absurd hgt (UInt64.not_lt.2 hle)
  · exact hn hr

end ClientNode

theorem ClientNode.step_le (peer : ClientNode) (op : ClientOp) :
    (peer.step op).bufValue ≤ peer.params.BufLimit ∧ (peer.step op).params = peer.params := by
  cases op with
  | AcceptRequest t a => exact ⟨recharge_le _ _ _ _, rfl⟩
  | RequestProcessed t cost rcValue rcost =>
    exact ⟨ClientNode.RequestProcessed_le _ _ _ _ _, ClientNode.RequestProcessed_params _ _ _ _ _⟩

theorem ClientNode.run_le (ops : List ClientOp) (peer : ClientNode) (h : peer.bufValue ≤ peer.params.BufLimit) :
    (peer.run ops).bufValue ≤ peer.params.BufLimit ∧ (peer.run ops).params = peer.params := by
  induction ops generalizing peer with
  | nil => exact ⟨h, rfl⟩
  | cons op ops ih =>
    obtain ⟨hle, hp⟩ := peer.step_le op
    obtain ⟨hle', hp'⟩ := ih (peer.step op) (hp ▸ hle)
    exact ⟨hp ▸ hle', hp'.trans hp⟩

/-! ## The client's estimate of a server -/

structure ServerNode where
  bufEstimate : UInt64
  lastTime : AbsTime
  params : ServerParams
  sumCost : UInt64
  /-- the sum of the costs sent, after each request -/
  pending : AList (fun _ : UInt64 => UInt64)

/-- `NewServerNode`: a full buffer. -/
def NewServerNode (params : ServerParams) (now : AbsTime) : ServerNode := ⟨params.BufLimit, now, params, 0, ∅⟩

namespace ServerNode

/-- `recalcBLE`. -/
def recalcBLE (peer : ServerNode) (time : AbsTime) : ServerNode :=
  { peer with bufEstimate := recharge peer.params peer.bufEstimate peer.lastTime time, lastTime := time }

/-- `canSend` at `time`: the wait before a request of `maxCost` and the buffer left after it,
relative to the limit. `none` is the division by a zero `MinRecharge`. -/
def canSend (peer : ServerNode) (time : AbsTime) (maxCost : UInt64) : Option (ServerNode × Int64 × Float) :=
  let peer := peer.recalcBLE time
  let maxCost := maxCost + safetyMargin * peer.params.MinRecharge / fcTimeConst
  let maxCost := if maxCost > peer.params.BufLimit then peer.params.BufLimit else maxCost
  if peer.bufEstimate ≥ maxCost then
    some (peer, 0, (peer.bufEstimate - maxCost).toFloat / peer.params.BufLimit.toFloat)
  else if peer.params.MinRecharge = 0 then none
  else some (peer, ((maxCost - peer.bufEstimate) * fcTimeConst / peer.params.MinRecharge).toInt64, 0)

/-- `QueueRequest`. -/
def QueueRequest (peer : ServerNode) (reqID maxCost : UInt64) : ServerNode :=
  let sumCost := peer.sumCost + maxCost
  { peer with
    bufEstimate := peer.bufEstimate - maxCost
    sumCost := sumCost
    pending := peer.pending.insert reqID sumCost }

/-- `GotReply` at `time`: the estimate is the value the server sent, less what was sent since. -/
def GotReply (peer : ServerNode) (time : AbsTime) (reqID bv : UInt64) : ServerNode :=
  let bv := if bv > peer.params.BufLimit then peer.params.BufLimit else bv
  match peer.pending.lookup reqID with
  | none => peer
  | some sc =>
    let cc := peer.sumCost - sc
    { peer with
      pending := peer.pending.erase reqID
      bufEstimate := if bv > cc then bv - cc else 0
      lastTime := time }

end ServerNode

/-! ### What a request does to the estimate -/

namespace ServerNode

variable (peer : ServerNode)

theorem QueueRequest_overdrawn (reqID : UInt64) {maxCost : UInt64} (hb : peer.bufEstimate < maxCost)
    (hwrap : maxCost.toNat - peer.bufEstimate.toNat + peer.params.BufLimit.toNat < 2 ^ 64) :
    peer.params.BufLimit < (peer.QueueRequest reqID maxCost).bufEstimate :=
  limit_lt_sub hb hwrap

theorem GotReply_le (time : AbsTime) (reqID bv : UInt64) (h : peer.bufEstimate ≤ peer.params.BufLimit) :
    (peer.GotReply time reqID bv).bufEstimate ≤ peer.params.BufLimit := by
  unfold GotReply
  have hbv := clamp_le bv peer.params.BufLimit
  generalize (if bv > peer.params.BufLimit then peer.params.BufLimit else bv) = b at hbv ⊢
  cases peer.pending.lookup reqID with
  | none => exact h
  | some sc =>
    dsimp only
    split_ifs with hc
    · rw [UInt64.le_iff_toNat_le] at hbv ⊢
      rw [UInt64.toNat_sub_of_le _ _ (UInt64.le_of_lt hc)]
      omega
    · exact UInt64.zero_le

end ServerNode

/-! ## The server's request handler (`les/handler.go`) -/

/-- The cost of a request kind: a base and a cost per item. -/
structure requestCosts where
  baseCost : UInt64
  reqCost : UInt64

/-- The `reject` closure of `handleMsg`: a request of `reqCnt` items is refused over `maxCnt`, and
otherwise when its cost, capped at the limit, is above the client's buffer. `none` is the
division by a zero `MinRecharge` in the message of a refusal. -/
def reject (defParams : ServerParams) (costs : requestCosts) (fcClient : Option ClientNode)
    (time : AbsTime) (accepted : Bool) (reqCnt maxCnt : UInt64) : Option (Option ClientNode × Bool) :=
  match fcClient with
  | none => some (none, true)
  | some client =>
    if reqCnt > maxCnt then some (some client, true) else
    let (client, bufValue, _) := client.AcceptRequest time accepted
    let cost := costs.baseCost + reqCnt * costs.reqCost
    let cost := if cost > defParams.BufLimit then defParams.BufLimit else cost
    if cost > bufValue then (if defParams.MinRecharge = 0 then none else some (some client, true))
    else some (some client, false)

/-- A request of `reqCnt` items as the handler serves `GetBlockHeadersMsg`: refused, or admitted
and charged its cost uncapped; the account, and the buffer value sent back if it was served. -/
def serveRequest (defParams : ServerParams) (costs : requestCosts) (client : ClientNode) (time : AbsTime)
    (accepted : Bool) (reqCnt maxCnt rcValue rcost : UInt64) : Option (ClientNode × Option UInt64) :=
  match reject defParams costs (some client) time accepted reqCnt maxCnt with
  | none => none
  | some (client', true) => some (client'.getD client, none)
  | some (client', false) =>
    let r := (client'.getD client).RequestProcessed time (costs.baseCost + reqCnt * costs.reqCost) rcValue rcost
    some (r.1, some r.2.1)

/-- The failing run: limit 100, recharge 1 a millisecond, all at time 0. The server's account
of a client holding 10, charged 50, is refilled to 100, where a charge that never refills
leaves `max(10 - 50 read as 0, 100 - rcValue, 0) = 0` for `rcValue = 100`. The client's estimate of a
server holding 10, after queueing a request of 50, is `2^64 - 40`. A full client asking for two
headers at 75 each is admitted on the capped cost 100, charged 150, and is still full. -/
theorem overdrawn_buffers_refill :
    let params : ServerParams := ⟨100, 1⟩
    ((⟨params, 10, 0⟩ : ClientNode).RequestProcessed 0 50 100 0).1.bufValue = 100 ∧
      ((⟨10, 0, params, 0, ∅⟩ : ServerNode).QueueRequest 1 50).bufEstimate = 0xFFFFFFFFFFFFFFD8 ∧
      (serveRequest params ⟨0, 75⟩ (NewClientNode params 0) 0 true 2 192 100 0).map
        (fun r => (r.1.bufValue, r.2)) = some (100, some 100) := by
  decide

end EthereumAI.Les
