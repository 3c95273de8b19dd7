import EthereumAI.Event.Invariant

/-! # What a run of the feed delivers

From the invariant over every run: a step adds to received only what a Send sends, and never to an
unsubscribed channel, so such a channel receives nothing later; and from any state, a run in which
the channels accept the value brings the running Send to return (Inv.send_returns) and then each
waiting Unsubscribe (Inv.unsubscribe_returns), by induction on the active cases left.
-/

namespace EthereumAI.Event

open Lib.Slice

open scoped List

namespace Feed

open CaseList

variable {f g : Feed}

section Frame

theorem settle_frame (f : Feed) :
    f.settle.received = f.received ∧ f.settle.unsubscribed = f.unsubscribed ∧ f.settle.removing = f.removing := by
  unfold Feed.settle
  split
  · split
    · split_ifs <;> exact ⟨rfl, rfl, rfl⟩
    · exact ⟨rfl, rfl, rfl⟩
  · exact ⟨rfl, rfl, rfl⟩

/-- A step adds one value received at most, on a channel of sendCases, and unsubscribes none back. -/
theorem step_frame {a : Action} (hs : f.step a = some g) :
    (∀ ch ∈ f.unsubscribed, ch ∈ g.unsubscribed) ∧
      ∃ new, g.received = f.received ++ new ∧ ∀ e ∈ new, e.2 ∈ chans f.sendCases := by
  have hnone : ∀ h : Feed, h.received = f.received → ∃ new, h.received = f.received ++ new ∧
      ∀ e ∈ new, e.2 ∈ chans f.sendCases := fun h hr => ⟨[], by rw [hr, List.append_nil], fun _ he => by cases he⟩
  -- the value sent on cases[j] goes to the channel of that case
  have hsent : ∀ {st : Sending} {j ch : ℕ} {p : Phase}, f.sendCases[j]? = some (.send ch) →
      ∃ new, (f.sent st j ch p).settle.received = f.received ++ new ∧ ∀ e ∈ new, e.2 ∈ chans f.sendCases := by
    intro st j ch p hch
    refine ⟨[(st.id, ch)], (settle_frame _).1, fun e he => ?_⟩
    rw [List.mem_singleton.mp he, mem_chans]
    exact List.mem_of_getElem? hch
  cases a with
  | subscribe =>
    cases hs
    exact ⟨fun _ h => h, hnone _ rfl⟩
  | unsubscribe ch =>
    simp only [Feed.step] at hs
    split_ifs at hs
    split at hs
    · cases hs
      exact ⟨fun _ h => List.mem_append_left _ h, hnone _ rfl⟩
    · cases hs
      exact ⟨fun _ h => h, hnone _ rfl⟩
  | removeLocked ch =>
    simp only [Feed.step] at hs
    split_ifs at hs
    split at hs
    · cases hs
      exact ⟨fun _ h => List.mem_append_left _ h, hnone _ rfl⟩
    · cases hs
      exact ⟨fun _ h => h, hnone _ rfl⟩
  | send =>
    simp only [Feed.step] at hs
    split_ifs at hs
    cases hs
    exact ⟨fun _ h => h, hnone _ rfl⟩
  | moveInbox =>
    simp only [Feed.step] at hs
    split at hs
    · split_ifs at hs
      cases hs
      exact ⟨fun _ h => by rw [(settle_frame _).2.1]; exact h, hnone _ (settle_frame _).1⟩
    · cases hs
  | trySend ok =>
    simp only [Feed.step] at hs
    split at hs
    · split at hs
      · split at hs
        · rename_i ch hch
          split_ifs at hs
          · cases hs
            exact ⟨fun _ h => by rw [(settle_frame _).2.1]; exact h, hsent hch⟩
          · cases hs
            exact ⟨fun _ h => by rw [(settle_frame _).2.1]; exact h, hnone _ (settle_frame _).1⟩
        · cases hs
      · cases hs
    · cases hs
  | selectSend j =>
    simp only [Feed.step] at hs
    split at hs
    · split_ifs at hs
      split at hs
      · rename_i ch hch
        cases hs
        exact ⟨fun _ h => by rw [(settle_frame _).2.1]; exact h, hsent hch⟩
      · cases hs
    · cases hs
  | selectRemove ch =>
    simp only [Feed.step] at hs
    split at hs
    · split_ifs at hs
      split at hs
      · -- whether or not the case was active, the channel is unsubscribed
        split at hs <;>
        · cases hs
          exact ⟨fun _ h => by rw [(settle_frame _).2.1]; exact List.mem_append_left _ h, hnone _ (settle_frame _).1⟩
      · cases hs
        exact ⟨fun _ h => h, hnone _ rfl⟩
    · cases hs

end Frame

section Runs

theorem run_cons {a : Action} {acts : List Action} (hs : f.step a = some g) : f.run (a :: acts) = g.run acts := by
  simp [Feed.run, List.foldlM_cons, hs]

theorem run_append {acts more : List Action} (hrun : f.run acts = some g) : f.run (acts ++ more) = g.run more := by
  unfold Feed.run at hrun ⊢
  rw [List.foldlM_append, hrun]
  rfl

theorem Core.not_sent_of_unsubscribed (h : Core f) {ch : ℕ} (hch : ch ∈ f.unsubscribed) : ch ∉ chans f.sendCases := by
  have hnodup := h.owned.nodup_iff.mpr List.nodup_range
  exact fun hs => List.disjoint_of_nodup_append hnodup (List.mem_append_right _ hs) hch

/-- Once its Unsubscribe has returned, a channel receives nothing more. -/
theorem Inv.nothing_after_unsubscribe {ch : ℕ} :
    ∀ {acts : List Action} {f g : Feed}, Inv f → ch ∈ f.unsubscribed → f.run acts = some g →
      f.received <+: g.received ∧ ∀ e ∈ g.received.drop f.received.length, e.2 ≠ ch := by
  intro acts
  induction acts with
  | nil =>
    intro f g _ _ hrun
    cases hrun
    exact ⟨List.prefix_refl _, fun e he => by simp at he⟩
  | cons a acts ih =>
    intro f g h hch hrun
    obtain ⟨f', hs, hrest⟩ := Option.bind_eq_some_iff.mp hrun
    obtain ⟨hunsub, new, hnew, hnewch⟩ := step_frame hs
    obtain ⟨⟨more, hmore⟩, hafter⟩ := ih (h.step hs) (hunsub ch hch) hrest
    refine ⟨⟨new ++ more, by rw [← hmore, hnew, List.append_assoc]⟩, fun e he => ?_⟩
    rw [← hmore, hnew, List.append_assoc, List.drop_left] at he
    rcases List.mem_append.mp he with he | he
    · -- a value sent in this step goes to a case of sendCases, which the channel no longer has
      exact fun heq => h.not_sent_of_unsubscribed hch (heq ▸ hnewch e he)
    · apply hafter e
      rw [← hmore, hnew, List.drop_left]
      exact he

theorem settle_progress {st : Sending} (hst : f.sending = some st) (hl : st.phase ≠ .locked) :
    (f.settle.sending = none ∧ st ∈ f.settle.returned) ∨
      ∃ st', f.settle.sending = some st' ∧ st'.id = st.id ∧ st'.cases = st.cases ∧ st'.phase ≠ .locked := by
  unfold Feed.settle
  rw [hst]
  dsimp only
  cases hph : st.phase with
  | locked => exact absurd hph hl
  | fast i =>
    dsimp only
    split_ifs
    · exact .inr ⟨st, hst, rfl, rfl, hl⟩
    · exact .inl ⟨rfl, List.mem_append_right _ (List.mem_singleton_self _)⟩
    · exact .inr ⟨_, rfl, rfl, rfl, Phase.noConfusion⟩
  | select => exact .inr ⟨st, hst, rfl, rfl, hl⟩

/-- A Send past its lock can send on one of its cases. -/
theorem Inv.exists_sent {st : Sending} (h : Inv f) (hst : f.sending = some st) (hl : st.phase ≠ .locked) :
    ∃ a j ch k, f.step a = some (f.sent st j ch (.fast k)).settle ∧ f.sendCases[j]? = some (.send ch) := by
  have hs := h.sending st hst hl
  cases hph : st.phase with
  | locked => exact absurd hph hl
  | fast i =>
    have hlt := h.settled st i hst hph
    have hi := hs.fast_pos i hph
    have hlen := Nat.lt_of_lt_of_le hlt hs.cases_le
    obtain ⟨ch, hch⟩ := h.front.send hi hlen
    have hch' : f.sendCases[i]? = some (.send ch) := by rw [List.getElem?_eq_getElem hlen, hch]
    refine ⟨.trySend true, i, ch, i, ?_, hch'⟩
    simp [Feed.step, hst, hph, hch', hlt]
  | select =>
    have hmore := hs.select hph
    have hlen := Nat.lt_of_lt_of_le hmore hs.cases_le
    obtain ⟨ch, hch⟩ := h.front.send (Nat.le_refl _) hlen
    have hch' : f.sendCases[firstSubSendCase]? = some (.send ch) := by
      rw [List.getElem?_eq_getElem hlen, hch]
    refine ⟨.selectSend firstSubSendCase, firstSubSendCase, ch, firstSubSendCase, ?_, hch'⟩
    simp [Feed.step, hst, hph, hch', hmore]

/-- A Send past its lock returns after as many sends as it has cases. -/
theorem Inv.send_returns_of_cases (n : ℕ) :
    ∀ {f : Feed} {st : Sending}, Inv f → f.sending = some st → st.phase ≠ .locked → st.cases ≤ n →
      ∃ acts g, f.run acts = some g ∧ g.sending = none ∧ g.removing = f.removing ∧ ∃ r ∈ g.returned, r.id = st.id := by
  induction n with
  | zero =>
    intro f st h hst hl hn
    have := (h.sending st hst hl).cases_pos
    unfold firstSubSendCase at this
    omega
  | succ n ih =>
    intro f st h hst hl hn
    obtain ⟨a, j, ch, k, hstep, -⟩ := h.exists_sent hst hl
    have hg := h.step hstep
    have hrem : (f.sent st j ch (.fast k)).settle.removing = f.removing := (settle_frame _).2.2
    rcases settle_progress (f := f.sent st j ch (.fast k)) rfl Phase.noConfusion with ⟨hnone, hret⟩ | ⟨st', hst', hid, hcases, hl'⟩
    · exact ⟨[a], _, by rw [run_cons hstep]; rfl, hnone, hrem, st.id |> fun _ => ⟨_, hret, rfl⟩⟩
    · have hle : st'.cases ≤ n := by
        rw [hcases]
        show st.cases - 1 ≤ n
        omega
      obtain ⟨acts, g, hrun, hnone, hrem', hret⟩ := ih hg hst' hl' hle
      refine ⟨a :: acts, g, by rw [run_cons hstep]; exact hrun, hnone, hrem'.trans hrem, ?_⟩
      rw [hid] at hret
      exact hret

/-- Every Send that holds sendLock can return. -/
theorem Inv.send_returns {st : Sending} (h : Inv f) (hst : f.sending = some st) :
    ∃ acts g, f.run acts = some g ∧ g.sending = none ∧ g.removing = f.removing ∧ ∃ r ∈ g.returned, r.id = st.id := by
  by_cases hl : st.phase = .locked
  · -- it first moves the inbox
    obtain ⟨raw, hraw⟩ : ∃ raw : Feed,
        raw.sending = some { st with cases := (f.sendCases ++ f.inbox).length, phase := .fast firstSubSendCase,
                                     snapshot := chans (f.sendCases ++ f.inbox) } ∧
        raw.removing = f.removing ∧ f.step .moveInbox = some raw.settle := by
      refine ⟨{ f with sendCases := f.sendCases ++ f.inbox, inbox := [],
                       sending := some { st with cases := (f.sendCases ++ f.inbox).length,
                                                 phase := .fast firstSubSendCase,
                                                 snapshot := chans (f.sendCases ++ f.inbox) } }, rfl, rfl, ?_⟩
      simp [Feed.step, hst, hl]
    have hstep := hraw.2.2
    have hg := h.step hstep
    have hrem := (settle_frame raw).2.2.trans hraw.2.1
    rcases settle_progress hraw.1 Phase.noConfusion with ⟨hnone, hret⟩ | ⟨st', hst', hid, -, hl'⟩
    · exact ⟨[.moveInbox], _, by rw [run_cons hstep]; rfl, hnone, hrem, ⟨_, hret, rfl⟩⟩
    · obtain ⟨acts, g, hrun, hnone, hrem', hret⟩ := send_returns_of_cases _ hg hst' hl' (Nat.le_refl _)
      refine ⟨.moveInbox :: acts, g, by rw [run_cons hstep]; exact hrun, hnone, hrem'.trans hrem, ?_⟩
      rw [hid] at hret
      exact hret
  · exact send_returns_of_cases _ h hst hl (Nat.le_refl _)

/-- Every Unsubscribe waiting in remove's select can return. -/
theorem Inv.unsubscribe_returns {ch : ℕ} (h : Inv f) (hch : ch ∈ f.removing) :
    ∃ acts g, f.run acts = some g ∧ ch ∈ g.unsubscribed := by
  have hlocked : ∀ {f : Feed}, Inv f → f.sending = none → ch ∈ f.removing →
      ∃ g, f.step (.removeLocked ch) = some g ∧ ch ∈ g.unsubscribed := by
    intro f h hnone hch
    cases hfind : f.sendCases.find ch with
    | none => exact absurd (h.removing ch hch) (find_eq_none.mp hfind)
    | some index =>
      refine ⟨{ f with sendCases := f.sendCases.delete index, removing := f.removing.erase ch,
                       unsubscribed := f.unsubscribed ++ [ch] }, ?_, List.mem_append_right _ (List.mem_singleton_self _)⟩
      simp [Feed.step, hch, hnone, hfind]
  cases hst : f.sending with
  | none =>
    obtain ⟨g, hstep, hg⟩ := hlocked h hst hch
    exact ⟨[.removeLocked ch], g, by rw [run_cons hstep]; rfl, hg⟩
  | some st =>
    obtain ⟨acts, g, hrun, hnone, hrem, -⟩ := h.send_returns hst
    obtain ⟨g', hstep, hg'⟩ := hlocked (h.run hrun) hnone (hrem ▸ hch)
    exact ⟨acts ++ [.removeLocked ch], g', by rw [run_append hrun, run_cons hstep]; rfl, hg'⟩

end Runs

end Feed

open Feed in
/-- Along every run: no call panics; every Send that has returned sent its value once to each
channel of sendCases when it moved the inbox, but those removed through removeSub before the value
reached them, and to no other channel, and returned their number; a channel whose Unsubscribe has
returned receives nothing in any later step; and every Send and Unsubscribe in progress can return. -/
theorem feed_delivers {acts : List Action} {f : Feed} (hrun : init.run acts = some f) :
    f.panicked = false ∧
    (∀ r ∈ f.returned, (∀ ch, (f.receivedBy r.id).count ch = if ch ∈ r.snapshot ∧ ch ∉ r.gone then 1 else 0) ∧
        r.nsent = (f.receivedBy r.id).length ∧ ∀ ch ∈ r.gone, ch ∈ r.snapshot ∧ ch ∈ f.unsubscribed) ∧
    (∀ ch ∈ f.unsubscribed, ∀ more g, f.run more = some g → ∀ e ∈ g.received.drop f.received.length, e.2 ≠ ch) ∧
    (∀ st, f.sending = some st → ∃ more g, f.run more = some g ∧ g.sending = none ∧ ∃ r ∈ g.returned, r.id = st.id) ∧
    ∀ ch ∈ f.removing, ∃ more g, f.run more = some g ∧ ch ∈ g.unsubscribed := by
  have h := Inv.init.run hrun
  refine ⟨h.panicked, fun r hr => ?_, fun ch hch more g hmore => (Inv.nothing_after_unsubscribe h hch hmore).2,
    fun st hst => ?_, fun ch hch => h.unsubscribe_returns hch⟩
  · obtain ⟨hd, -, -⟩ := h.returned r hr
    exact ⟨hd.count, hd.nsent, fun ch hch => ⟨hd.accounted.subset (List.mem_append_right _ hch), hd.gone ch hch⟩⟩
  · obtain ⟨more, g, hmore, hnone, -, hret⟩ := h.send_returns hst
    exact ⟨more, g, hmore, hnone, hret⟩

theorem feed_delivers_subscribed :
    ∃ f, Feed.init.run [.subscribe, .send, .moveInbox, .trySend true] = some f ∧ f.panicked = false ∧
      f.returned.length = 1 :=
  have hrun : Feed.init.run [.subscribe, .send, .moveInbox, .trySend true] = some _ := rfl
  ⟨_, hrun, (feed_delivers hrun).1, rfl⟩

end EthereumAI.Event
