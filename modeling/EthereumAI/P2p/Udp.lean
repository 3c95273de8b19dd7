import Mathlib
import EthereumAI.Lib.GoList
import EthereumAI.Lib.Journal

/-! # Reply matchers of the discovery protocol (`p2p/discover/udp.go`)

A request registers a matcher with `pending`: the node and packet type a reply must come from, and
a callback that says when the replies are complete. `loop` keeps the matchers in a container/list,
offers each reply to the matchers it fits, completes the matchers whose deadline is past when the
timer fires, and keeps the timer set for the matcher at the front of the list.

The loop is a state machine over the events of its `select`, each with the time it is handled;
after each, the loop goes round to `resetTimeout`. A matcher is identified by its pointer, the
number of matchers allocated before it, and its callback is given all the replies it has been
offered: a Go closure's own state. The values sent on each matcher's `errc` are kept in the order
they are sent.

Every matcher is pending or has been sent exactly one value, and once the socket is closed every
matcher has been sent one (`errc_count`). Each of the three loops over the list stops at its first
removal, though: a reply completes one matcher at most (`gotreply_completes_at_most_one`), though
`handleReply` still reports a match right (`gotreply_matched`), a firing of the timer times out one
at most (`fired_completes_at_most_one`), and a later matcher for the same reply, or one whose
deadline is also past, is left pending (`reply_and_timeout_stop_early`). A matcher set before the
clock went back stops the timer while others are pending (`resetTimeout_stops_timer`).
-/

namespace EthereumAI.P2p.Discover

open Lib.GoList

/-- 500 ms, in nanoseconds -/
def respTimeout : ℤ := 500 * 1000000

def ntpFailureThreshold : ℕ := 32

inductive Err
  | errTimeout
  | errClockWarp
  | errClosed
  deriving DecidableEq, Repr

variable {NodeID Data : Type}

structure Pending (NodeID Data : Type) where
  /-- the pointer of the matcher -/
  id : ℕ
  fromID : NodeID
  ptype : UInt8
  deadline : ℤ
  /-- whether the replies offered so far complete the request -/
  callback : List Data → Bool

structure Loop (NodeID Data : Type) where
  plist : List (Pending NodeID Data)
  /-- the matcher at the front of the list when the timer was last reset -/
  nextTimeout : Option ℕ
  /-- when the timer fires, if it is set -/
  timeout : Option ℤ
  contTimeouts : ℕ
  /-- the values sent on the matchers' errc, with `none` for nil -/
  errc : List (ℕ × Option Err)
  /-- the replies offered to each matcher's callback -/
  offered : ℕ → List Data
  /-- the number of matchers allocated -/
  allocated : ℕ
  /-- the closing channel is closed, and the loop has returned -/
  closed : Bool

/-- The events of the loop's select, each with the time it is handled. -/
inductive Event (NodeID Data : Type)
  | addpending (now : ℤ) (fromID : NodeID) (ptype : UInt8) (callback : List Data → Bool)
  | gotreply (now : ℤ) (fromID : NodeID) (ptype : UInt8) (data : Data)
  /-- the timer fires at `now` -/
  | timeout (now : ℤ)
  | closing

namespace Loop

def init : Loop NodeID Data :=
  ⟨[], none, none, 0, [], fun _ => [], 0, false⟩

/-- The body of `resetTimeout`'s loop: set the timer for a matcher due within two timeouts, or
discard it as set before the clock went back. -/
def resetVisit (now : ℤ) (s : Loop NodeID Data) (p : Pending NodeID Data) : Loop NodeID Data × Visit :=
  let s := { s with nextTimeout := some p.id }
  let dist := p.deadline - now
  if dist < 2 * respTimeout then ({ s with timeout := some (now + dist) }, .ret)
  else ({ s with errc := s.errc ++ [(p.id, some .errClockWarp)] }, .remove)

def resetTimeout (now : ℤ) (s : Loop NodeID Data) : Loop NodeID Data :=
  match s.plist with
  | [] => s
  | p :: _ =>
    if s.nextTimeout = some p.id then s
    else
      let (s', l, returned) := forEach (resetVisit now) s s.plist
      let s' := { s' with plist := l }
      -- the loop ran out: no matcher to wait for
      if returned then s' else { s' with nextTimeout := none, timeout := none }

/-- `pending`: the matcher goes to the loop, which sets its deadline, or, once the loop has
returned, is sent `errClosed` at once. -/
def addpending (now : ℤ) (fromID : NodeID) (ptype : UInt8) (callback : List Data → Bool)
    (s : Loop NodeID Data) : Loop NodeID Data :=
  let p : Pending NodeID Data := ⟨s.allocated, fromID, ptype, now + respTimeout, callback⟩
  if s.closed then { s with allocated := s.allocated + 1, errc := s.errc ++ [(p.id, some .errClosed)] }
  else { s with allocated := s.allocated + 1, plist := s.plist ++ [p] }

/-- The body of the loop over the matchers for a reply, with whether one has matched. -/
def replyVisit [DecidableEq NodeID] (fromID : NodeID) (ptype : UInt8) (data : Data)
    (s : Loop NodeID Data × Bool) (p : Pending NodeID Data) : (Loop NodeID Data × Bool) × Visit :=
  if p.fromID = fromID ∧ p.ptype = ptype then
    let offered := s.1.offered p.id ++ [data]
    let s' := { s.1 with offered := Function.update s.1.offered p.id offered, contTimeouts := 0 }
    if p.callback offered then (({ s' with errc := s'.errc ++ [(p.id, none)] }, true), .remove)
    else ((s', true), .next)
  else (s, .next)

/-- `handleReply`, and whether a matcher took the reply. -/
def gotreply [DecidableEq NodeID] (fromID : NodeID) (ptype : UInt8) (data : Data) (s : Loop NodeID Data) :
    Loop NodeID Data × Bool :=
  if s.closed then (s, false)
  else
    let ((s', matched), l, _) := forEach (replyVisit fromID ptype data) (s, false) s.plist
    ({ s' with plist := l }, matched)

/-- The body of the loop over the matchers when the timer fires. -/
def timeoutVisit (now : ℤ) (s : Loop NodeID Data) (p : Pending NodeID Data) : Loop NodeID Data × Visit :=
  if p.deadline ≤ now then
    ({ s with errc := s.errc ++ [(p.id, some .errTimeout)], contTimeouts := s.contTimeouts + 1 }, .remove)
  else (s, .next)

/-- The timer has fired at `now`. -/
def fired (now : ℤ) (s : Loop NodeID Data) : Loop NodeID Data :=
  let s := { s with nextTimeout := none, timeout := none }
  let (s', l, _) := forEach (timeoutVisit now) s s.plist
  let s' := { s' with plist := l }
  -- too many timeouts in a row: the clock drift check, which only logs
  if s'.contTimeouts > ntpFailureThreshold then { s' with contTimeouts := 0 } else s'

/-- The closing channel is closed: every matcher is sent `errClosed` and the loop returns, its
timer stopped. -/
def close (s : Loop NodeID Data) : Loop NodeID Data :=
  { s with errc := s.errc ++ s.plist.map (fun p => (p.id, some .errClosed)), plist := [], timeout := none,
           closed := true }

def step [DecidableEq NodeID] (s : Loop NodeID Data) : Event NodeID Data → Option (Loop NodeID Data)
  | .addpending now fromID ptype callback => some ((s.addpending now fromID ptype callback).resetTimeout now)
  | .gotreply now fromID ptype data => some ((s.gotreply fromID ptype data).1.resetTimeout now)
  | .timeout now =>
    match s.timeout with
    | some t => if t ≤ now then some ((s.fired now).resetTimeout now) else none
    | none => none
  | .closing => if s.closed then none else some s.close

def run [DecidableEq NodeID] (s : Loop NodeID Data) (evs : List (Event NodeID Data)) :
    Option (Loop NodeID Data) :=
  evs.foldlM step s


section Visits

variable (now : ℤ) (s : Loop NodeID Data) (p : Pending NodeID Data)

theorem resetVisit_errc :
    (resetVisit now s p).1.errc =
      s.errc ++ if (resetVisit now s p).2 = .remove then [(p.id, some .errClockWarp)] else [] := by
  by_cases h : p.deadline - now < 2 * respTimeout <;> simp [resetVisit, h]

theorem resetVisit_frame :
    (resetVisit now s p).1.allocated = s.allocated ∧ (resetVisit now s p).1.closed = s.closed := by
  unfold resetVisit
  dsimp only
  split_ifs <;> exact ⟨rfl, rfl⟩

theorem timeoutVisit_errc :
    (timeoutVisit now s p).1.errc =
      s.errc ++ if (timeoutVisit now s p).2 = .remove then [(p.id, some .errTimeout)] else [] := by
  by_cases h : p.deadline ≤ now <;> simp [timeoutVisit, h]

theorem timeoutVisit_frame :
    (timeoutVisit now s p).1.allocated = s.allocated ∧ (timeoutVisit now s p).1.closed = s.closed := by
  unfold timeoutVisit
  split_ifs <;> exact ⟨rfl, rfl⟩

variable [DecidableEq NodeID] (fromID : NodeID) (ptype : UInt8) (data : Data) (t : Loop NodeID Data × Bool)

theorem replyVisit_errc :
    (replyVisit fromID ptype data t p).1.1.errc =
      t.1.errc ++ if (replyVisit fromID ptype data t p).2 = .remove then [(p.id, none)] else [] := by
  by_cases h : p.fromID = fromID ∧ p.ptype = ptype
  · by_cases hc : p.callback (t.1.offered p.id ++ [data]) <;> simp [replyVisit, h, hc]
  · simp [replyVisit, h]

theorem replyVisit_frame :
    (replyVisit fromID ptype data t p).1.1.allocated = t.1.allocated ∧
      (replyVisit fromID ptype data t p).1.1.closed = t.1.closed := by
  unfold replyVisit
  dsimp only
  split_ifs <;> exact ⟨rfl, rfl⟩

end Visits

/-- The matchers pending and those sent a value, by pointer. -/
def accounted (s : Loop NodeID Data) : List ℕ := s.plist.map Pending.id ++ s.errc.map Prod.fst

/-- A loop over the list whose visits send a value to each matcher they remove, and touch neither
the allocation nor the closing, moves one matcher at most from the list to the values sent. -/
theorem forEach_accounted {τ : Type} (body : τ → Pending NodeID Data → τ × Visit) (get : τ → Loop NodeID Data)
    (v : Option Err)
    (herrc : ∀ t p, (get (body t p).1).errc =
      (get t).errc ++ if (body t p).2 = .remove then [(p.id, v)] else [])
    (hframe : ∀ t p, (get (body t p).1).allocated = (get t).allocated ∧ (get (body t p).1).closed = (get t).closed)
    (l : List (Pending NodeID Data)) (t : τ) :
    ((forEach body t l).2.1.map Pending.id ++ (get (forEach body t l).1).errc.map Prod.fst).Perm
        (l.map Pending.id ++ (get t).errc.map Prod.fst) ∧
      (get (forEach body t l).1).allocated = (get t).allocated ∧ (get (forEach body t l).1).closed = (get t).closed ∧
      (forEach body t l).2.1.length ≤ l.length := by
  obtain ⟨r, -, hperm, hlog⟩ := forEach_removes body (fun t => (get t).errc) (fun p => (p.id, v)) herrc l t
  have hkeep := forEach_invariant body
    (P := fun t' => (get t').allocated = (get t).allocated ∧ (get t').closed = (get t).closed)
    (fun t' p h => ⟨(hframe t' p).1.trans h.1, (hframe t' p).2.trans h.2⟩) l t ⟨rfl, rfl⟩
  refine ⟨?_, hkeep.1, hkeep.2, ?_⟩
  swap
  · have := hperm.length_eq
    rw [List.length_append] at this
    omega
  have hids := hperm.map Pending.id
  rw [hlog]
  rw [List.map_append] at hids
  have hsent : (r.map fun p => (p.id, v)).map Prod.fst = r.map Pending.id := by
    rw [List.map_map]
    rfl
  refine List.Perm.trans ?_ (hids.append_right _).symm
  rw [List.map_append, hsent]
  exact List.perm_iff_count.mpr fun x => by simp only [List.count_append]; omega

theorem forEach_errc_length {τ : Type} (body : τ → Pending NodeID Data → τ × Visit) (get : τ → Loop NodeID Data)
    (v : Option Err)
    (herrc : ∀ t p, (get (body t p).1).errc =
      (get t).errc ++ if (body t p).2 = .remove then [(p.id, v)] else [])
    (l : List (Pending NodeID Data)) (t : τ) :
    (get (forEach body t l).1).errc.length ≤ (get t).errc.length + 1 := by
  obtain ⟨r, hr, -, hlog⟩ := forEach_removes body (fun t => (get t).errc) (fun p => (p.id, v)) herrc l t
  rw [hlog, List.length_append, List.length_map]
  omega

/-- Every matcher allocated is pending or has been sent a value, not both and not twice; once the
loop has returned, none is pending. -/
structure Inv (s : Loop NodeID Data) : Prop where
  accounted_perm : s.accounted.Perm (List.range s.allocated)
  closed_plist : s.closed = true → s.plist = []

variable {s : Loop NodeID Data}

theorem Inv.resetTimeout (hi : s.Inv) (now : ℤ) : (s.resetTimeout now).Inv := by
  unfold Loop.resetTimeout
  split
  · exact hi
  · rename_i p rest hplist
    split_ifs
    · exact hi
    · obtain ⟨hperm, halloc, hclosed, hlen⟩ := forEach_accounted (resetVisit now) id (some .errClockWarp)
        (resetVisit_errc now) (resetVisit_frame now) s.plist s
      have hopen : s.closed = false := by
        cases h : s.closed
        · rfl
        · simp [hi.closed_plist h] at hplist
      generalize forEach (resetVisit now) s s.plist = f at hperm halloc hclosed hlen
      obtain ⟨s', l, returned⟩ := f
      dsimp only [id_eq] at hperm halloc hclosed hlen ⊢
      have hacc : (Loop.accounted { s' with plist := l }).Perm (List.range s'.allocated) := by
        rw [halloc]
        exact hperm.trans hi.accounted_perm
      cases returned <;> simp only [Bool.false_eq_true, ↓reduceIte] <;>
        exact ⟨hacc, by simp [hclosed, hopen]⟩

theorem Inv.addpending (hi : s.Inv) (now : ℤ) (fromID : NodeID) (ptype : UInt8) (callback : List Data → Bool) :
    (s.addpending now fromID ptype callback).Inv := by
  unfold Loop.addpending
  have hnext := hi.accounted_perm.append_right [s.allocated]
  rw [← List.range_succ] at hnext
  split_ifs with hc
  · refine ⟨?_, fun _ => hi.closed_plist hc⟩
    simpa [accounted, List.append_assoc] using hnext
  · refine ⟨List.Perm.trans ?_ hnext, fun h => absurd h hc⟩
    exact List.perm_iff_count.mpr fun x => by simp [accounted, List.count_append, List.count_cons]

theorem Inv.gotreply [DecidableEq NodeID] (hi : s.Inv) (fromID : NodeID) (ptype : UInt8) (data : Data) :
    (s.gotreply fromID ptype data).1.Inv := by
  unfold Loop.gotreply
  split_ifs with hc
  · exact hi
  · obtain ⟨hperm, halloc, hclosed, hlen⟩ := forEach_accounted (replyVisit fromID ptype data) Prod.fst none
      (fun t p => replyVisit_errc p fromID ptype data t) (fun t p => replyVisit_frame p fromID ptype data t)
      s.plist (s, false)
    generalize forEach (replyVisit fromID ptype data) (s, false) s.plist = f at hperm halloc hclosed hlen
    obtain ⟨⟨s', matched⟩, l, returned⟩ := f
    dsimp only at hperm halloc hclosed hlen ⊢
    refine ⟨?_, by simp [hclosed, hc]⟩
    rw [halloc]
    exact hperm.trans hi.accounted_perm

theorem Inv.fired (hi : s.Inv) (now : ℤ) : (s.fired now).Inv := by
  unfold Loop.fired
  obtain ⟨hperm, halloc, hclosed, hlen⟩ := forEach_accounted (timeoutVisit now) id (some .errTimeout)
    (timeoutVisit_errc now) (timeoutVisit_frame now) s.plist { s with nextTimeout := none, timeout := none }
  dsimp only
  generalize forEach (timeoutVisit now) { s with nextTimeout := none, timeout := none } s.plist = f
    at hperm halloc hclosed hlen
  obtain ⟨s', l, returned⟩ := f
  dsimp only [id_eq] at hperm halloc hclosed hlen ⊢
  have hacc : (Loop.accounted { s' with plist := l }).Perm (List.range s'.allocated) := by
    rw [halloc]
    exact hperm.trans hi.accounted_perm
  have hplist : s'.closed = true → l = [] := by
    intro h
    rw [hclosed] at h
    rw [hi.closed_plist h] at hlen
    exact List.eq_nil_of_length_eq_zero (Nat.le_zero.mp hlen)
  split_ifs <;> exact ⟨hacc, hplist⟩

theorem Inv.close (hi : s.Inv) : s.close.Inv := by
  refine ⟨List.Perm.trans ?_ hi.accounted_perm, fun _ => rfl⟩
  have hsent : (s.plist.map fun p => (p.id, some Err.errClosed)).map Prod.fst = s.plist.map Pending.id := by
    rw [List.map_map]
    rfl
  simp only [Loop.close, accounted, List.map_nil, List.nil_append, List.map_append, hsent]
  exact List.perm_append_comm

theorem Inv.init : (init : Loop NodeID Data).Inv :=
  ⟨List.Perm.refl _, fun h => absurd h Bool.false_ne_true⟩

theorem Inv.step [DecidableEq NodeID] (hi : s.Inv) {ev : Event NodeID Data} {t : Loop NodeID Data}
    (h : s.step ev = some t) : t.Inv := by
  cases ev with
  | addpending now fromID ptype callback =>
    cases h
    exact (hi.addpending now fromID ptype callback).resetTimeout now
  | gotreply now fromID ptype data =>
    cases h
    exact (hi.gotreply fromID ptype data).resetTimeout now
  | timeout now =>
    simp only [Loop.step] at h
    split at h
    · split_ifs at h
      cases h
      exact (hi.fired now).resetTimeout now
    · cases h
  | closing =>
    simp only [Loop.step] at h
    split_ifs at h
    cases h
    exact hi.close

theorem Inv.run [DecidableEq NodeID] (evs : List (Event NodeID Data)) {t : Loop NodeID Data} (hs : s.Inv)
    (h : s.run evs = some t) : t.Inv :=
  Lib.foldlM_invariant Loop.step (fun _ _ _ hi hstep => hi.step hstep) evs s t hs h

theorem errc_count [DecidableEq NodeID] (evs : List (Event NodeID Data)) (h : init.run evs = some s)
    {id : ℕ} (hid : id < s.allocated) :
    (s.errc.map Prod.fst).count id = (if id ∈ s.plist.map Pending.id then 0 else 1) ∧
      (s.closed = true → (s.errc.map Prod.fst).count id = 1) := by
  have hi := Inv.run evs Inv.init h
  have hc : (s.plist.map Pending.id).count id + (s.errc.map Prod.fst).count id = 1 := by
    rw [← List.count_append]
    exact (hi.accounted_perm.count_eq id).trans
      (List.count_eq_one_of_mem List.nodup_range (List.mem_range.mpr hid))
  refine ⟨?_, fun hclosed => ?_⟩
  · split_ifs with hmem
    · have := List.count_pos_iff.mpr hmem
      omega
    · have := List.count_eq_zero_of_not_mem hmem
      omega
  · rw [hi.closed_plist hclosed] at hc
    simpa using hc

theorem gotreply_completes_at_most_one [DecidableEq NodeID] (s : Loop NodeID Data) (fromID : NodeID)
    (ptype : UInt8) (data : Data) :
    (s.gotreply fromID ptype data).1.errc.length ≤ s.errc.length + 1 := by
  unfold Loop.gotreply
  split_ifs
  · exact Nat.le_succ _
  · have h := forEach_errc_length (replyVisit fromID ptype data) Prod.fst none
      (fun t p => replyVisit_errc p fromID ptype data t) s.plist (s, false)
    generalize forEach (replyVisit fromID ptype data) (s, false) s.plist = f at h
    obtain ⟨⟨s', matched⟩, l, returned⟩ := f
    exact h

theorem fired_completes_at_most_one (now : ℤ) (s : Loop NodeID Data) :
    (s.fired now).errc.length ≤ s.errc.length + 1 := by
  unfold Loop.fired
  have h := forEach_errc_length (timeoutVisit now) id (some .errTimeout) (timeoutVisit_errc now) s.plist
    { s with nextTimeout := none, timeout := none }
  dsimp only
  generalize forEach (timeoutVisit now) { s with nextTimeout := none, timeout := none } s.plist = f at h
  obtain ⟨s', l, returned⟩ := f
  split_ifs <;> exact h

theorem forEach_replyVisit_matched [DecidableEq NodeID] (fromID : NodeID) (ptype : UInt8) (data : Data) :
    ∀ (l : List (Pending NodeID Data)) (t : Loop NodeID Data × Bool),
      (forEach (replyVisit fromID ptype data) t l).1.2 =
        (t.2 || l.any fun p => p.fromID = fromID ∧ p.ptype = ptype) := by
  intro l
  induction l with
  | nil => intro t; simp [forEach]
  | cons p ps ih =>
    intro t
    by_cases hm : p.fromID = fromID ∧ p.ptype = ptype
    · by_cases hc : p.callback (t.1.offered p.id ++ [data])
      · -- the loop stops at a matcher that took the reply
        simp [forEach, replyVisit, hm, hc]
      · simp [forEach, replyVisit, hm, hc, ih]
    · rcases not_and_or.mp hm with h | h <;> simp [forEach, replyVisit, h, ih]

theorem gotreply_matched [DecidableEq NodeID] (s : Loop NodeID Data) (fromID : NodeID) (ptype : UInt8)
    (data : Data) (hopen : s.closed = false) :
    (s.gotreply fromID ptype data).2 = s.plist.any fun p => p.fromID = fromID ∧ p.ptype = ptype := by
  have h := forEach_replyVisit_matched fromID ptype data s.plist (s, false)
  unfold Loop.gotreply
  rw [hopen, if_neg Bool.false_ne_true]
  generalize forEach (replyVisit fromID ptype data) (s, false) s.plist = f at h
  obtain ⟨⟨s', matched⟩, l, returned⟩ := f
  simpa using h

theorem resetTimeout_stops_timer (now : ℤ) (s : Loop NodeID Data) (p : Pending NodeID Data)
    (rest : List (Pending NodeID Data)) (hplist : s.plist = p :: rest) (hnext : s.nextTimeout ≠ some p.id)
    (hfar : 2 * respTimeout ≤ p.deadline - now) :
    (s.resetTimeout now).plist = rest ∧ (s.resetTimeout now).timeout = none := by
  unfold Loop.resetTimeout
  rw [hplist]
  simp [hnext, forEach, resetVisit, Int.not_lt.mpr hfar]

end Loop

/-- Two requests to node 1 and one to node 2, each answered by its first reply. -/
def threeMatchers : List (Event ℕ ℕ) :=
  [.addpending 0 1 4 (fun _ => true), .addpending 1 1 4 (fun _ => true), .addpending 2 2 4 (fun _ => true)]

/-- A reply from node 1 completes the first matcher, and the second, which fits it too, is not
offered it; when the timer then fires past the deadlines of both remaining matchers, the one for
node 2 is left pending. -/
theorem reply_and_timeout_stop_early :
    ∃ s t, Loop.init.run (threeMatchers ++ [.gotreply 4 1 4 7]) = some s ∧
      (∃ p ∈ s.plist, p.fromID = 1 ∧ p.ptype = 4 ∧ s.offered p.id = [] ∧ p.callback [7] = true) ∧
      s.run [.timeout (respTimeout + 2)] = some t ∧ ∃ p ∈ t.plist, p.deadline ≤ respTimeout + 2 :=
  ⟨_, _, rfl, by decide, rfl, by decide⟩

end EthereumAI.P2p.Discover
