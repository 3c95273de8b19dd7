import EthereumAI.Event.Feed

/-! # The invariant of the feed

What holds between any two steps of a run. sendCases starts with the removeSub case and holds send
cases only; every channel subscribed is in the inbox, in sendCases, or unsubscribed, and once; a
channel that remove hands to removeSub still has its case in sendCases. The running Send has sent
to the channels of sendCases behind its active prefix, and each channel of its snapshot is in the
active prefix, has received the value, or left through removeSub, once; when it returns, what it
has sent is the snapshot but for those that left (Delivered.count). One lemma for each action says
it keeps the invariant; settle, the loop of Send between two actions, ends with the fast path before
the end of the active prefix (Core.settle).
-/

namespace EthereumAI.Event

open Lib.Slice

open scoped List

namespace Feed

open CaseList

section Front

/-- sendCases: the removeSub case, and then send cases only. -/
def Front (cs : CaseList) : Prop := ∃ rest, cs = .recv :: rest ∧ Case.recv ∉ rest

theorem Front.swap {cs : CaseList} (h : Front cs) {i j : ℕ} (hi : firstSubSendCase ≤ i) (hj : firstSubSendCase ≤ j) :
    Front (swap cs i j) := by
  obtain ⟨rest, rfl, hrest⟩ := h
  obtain ⟨i, rfl⟩ := Nat.exists_eq_add_of_le' hi
  obtain ⟨j, rfl⟩ := Nat.exists_eq_add_of_le' hj
  exact ⟨_, swap_cons_succ _ _ _ _, fun hm => hrest ((swap_perm rest i j).subset hm)⟩

theorem Front.delete {cs : CaseList} (h : Front cs) {k : ℕ} (hk : firstSubSendCase ≤ k) :
    Front (cs.delete k) := by
  obtain ⟨rest, rfl, hrest⟩ := h
  obtain ⟨k, rfl⟩ := Nat.exists_eq_add_of_le' hk
  exact ⟨_, List.eraseIdx_cons_succ, fun hm => hrest (List.mem_of_mem_eraseIdx hm)⟩

theorem Front.pos {cs : CaseList} (h : Front cs) {k ch : ℕ} (hk : k < cs.length) (hch : cs[k] = .send ch) :
    firstSubSendCase ≤ k := by
  obtain ⟨rest, rfl, -⟩ := h
  cases k with
  | zero => cases hch
  | succ k => exact Nat.succ_le_succ (Nat.zero_le k)

theorem Front.send {cs : CaseList} (h : Front cs) {k : ℕ} (hk1 : firstSubSendCase ≤ k) (hk : k < cs.length) :
    ∃ ch, cs[k] = .send ch := by
  obtain ⟨rest, rfl, hrest⟩ := h
  unfold firstSubSendCase at hk1
  obtain ⟨k, rfl⟩ := Nat.exists_eq_add_of_le' hk1
  have hmem : (Case.recv :: rest)[k + 1] ∈ rest := List.getElem_mem _
  cases hc : (Case.recv :: rest)[k + 1] with
  | recv => exact absurd (hc ▸ hmem) hrest
  | send ch => exact ⟨ch, rfl⟩

end Front

/-- What a Send that has moved the inbox has done so far: each channel of its snapshot is in an
active case, has received the value, or left the active cases through removeSub, and once. -/
structure SendInv (f : Feed) (st : Sending) : Prop where
  cases_pos : firstSubSendCase ≤ st.cases
  cases_le : st.cases ≤ f.sendCases.length
  fast_pos : ∀ i, st.phase = .fast i → firstSubSendCase ≤ i
  select : st.phase = .select → firstSubSendCase < st.cases
  accounted : (chans (f.sendCases.take st.cases) ++ f.receivedBy st.id ++ st.gone) ~ st.snapshot
  past : ∀ ch ∈ chans (f.sendCases.drop st.cases), ch ∈ f.receivedBy st.id
  nsent : st.nsent = (f.receivedBy st.id).length
  nodup : st.snapshot.Nodup
  gone : ∀ ch ∈ st.gone, ch ∈ f.unsubscribed

/-- What a Send has done when it returns. -/
structure Delivered (f : Feed) (st : Sending) : Prop where
  accounted : (f.receivedBy st.id ++ st.gone) ~ st.snapshot
  nsent : st.nsent = (f.receivedBy st.id).length
  nodup : st.snapshot.Nodup
  gone : ∀ ch ∈ st.gone, ch ∈ f.unsubscribed

/-- The invariant but for where the fast path stands. -/
structure Core (f : Feed) : Prop where
  front : Front f.sendCases
  inbox : .recv ∉ f.inbox
  /-- each channel subscribed is in the inbox, in sendCases, or unsubscribed, and once -/
  owned : (chans f.inbox ++ chans f.sendCases ++ f.unsubscribed) ~ List.range f.channels
  removing : ∀ ch ∈ f.removing, ch ∈ chans f.sendCases
  removing_nodup : f.removing.Nodup
  panicked : f.panicked = false
  received : ∀ e ∈ f.received, e.1 < f.sends
  sending_id : ∀ st, f.sending = some st → st.id + 1 = f.sends
  fresh : ∀ st, f.sending = some st → st.phase = .locked → f.receivedBy st.id = [] ∧ st.nsent = 0 ∧ st.gone = []
  sending : ∀ st, f.sending = some st → st.phase ≠ .locked → SendInv f st
  returned : ∀ r ∈ f.returned, Delivered f r ∧ r.id < f.sends ∧ ∀ st, f.sending = some st → r.id < st.id

/-- The fast path stands before the end of cases. -/
def Settled (f : Feed) : Prop := ∀ st i, f.sending = some st → st.phase = .fast i → i < st.cases

structure Inv (f : Feed) : Prop extends Core f where
  settled : Settled f

variable {f g : Feed}

theorem SendInv.mono {st : Sending} (h : SendInv f st) (hc : g.sendCases = f.sendCases)
    (hr : g.received = f.received) (hu : ∀ ch ∈ f.unsubscribed, ch ∈ g.unsubscribed) : SendInv g st := by
  have hby : g.receivedBy st.id = f.receivedBy st.id := by rw [receivedBy, hr, receivedBy]
  exact ⟨h.cases_pos, hc ▸ h.cases_le, h.fast_pos, h.select, hc ▸ hby ▸ h.accounted,
    hc ▸ hby ▸ h.past, hby ▸ h.nsent, h.nodup, fun ch hch => hu ch (h.gone ch hch)⟩

theorem Delivered.mono {st : Sending} (h : Delivered f st) (hby : g.receivedBy st.id = f.receivedBy st.id)
    (hu : ∀ ch ∈ f.unsubscribed, ch ∈ g.unsubscribed) : Delivered g st :=
  ⟨hby ▸ h.accounted, hby ▸ h.nsent, h.nodup, fun ch hch => hu ch (h.gone ch hch)⟩

theorem SendInv.delivered {st : Sending} (hf : Core f) (h : SendInv f st) (hone : st.cases = firstSubSendCase) :
    Delivered f st := by
  obtain ⟨rest, hrest, -⟩ := hf.front
  have hnone : chans (f.sendCases.take st.cases) = [] := by
    rw [hone, hrest]
    rfl
  refine ⟨?_, h.nsent, h.nodup, h.gone⟩
  simpa [hnone] using h.accounted


theorem receivedBy_append_ne {k ch id : ℕ} (h : g.received = f.received ++ [(k, ch)]) (hne : k ≠ id) :
    g.receivedBy id = f.receivedBy id := by
  simp [receivedBy, h, List.filter_append, hne]

theorem receivedBy_append_self {k ch : ℕ} (h : g.received = f.received ++ [(k, ch)]) :
    g.receivedBy k = f.receivedBy k ++ [ch] := by
  simp [receivedBy, h, List.filter_append]

/-- A step that keeps the running Send past its lock, under its number, keeps what Core says of the
Sends: the Sends that returned before it are delivered still, as the step sends for this one only. -/
theorem Core.keep {st st' : Sending} (h : Core f) (hst : f.sending = some st) (hg : g.sending = some st')
    (hid : st'.id = st.id) (hl : st'.phase ≠ .locked) (hsends : g.sends = f.sends)
    (hret : g.returned = f.returned) (hby : ∀ id < st.id, g.receivedBy id = f.receivedBy id)
    (hu : ∀ ch ∈ f.unsubscribed, ch ∈ g.unsubscribed) (front : Front g.sendCases) (inbox : .recv ∉ g.inbox)
    (owned : (chans g.inbox ++ chans g.sendCases ++ g.unsubscribed) ~ List.range g.channels)
    (removing : ∀ ch ∈ g.removing, ch ∈ chans g.sendCases) (removing_nodup : g.removing.Nodup)
    (panicked : g.panicked = false) (received : ∀ e ∈ g.received, e.1 < g.sends) (hs : SendInv g st') :
    Core g := by
  refine ⟨front, inbox, owned, removing, removing_nodup, panicked, received, ?_, ?_, ?_, ?_⟩
  · intro s hs'
    rw [hg] at hs'
    cases hs'
    rw [hid, hsends]
    exact h.sending_id st hst
  · intro s hs' hl'
    rw [hg] at hs'
    cases hs'
    exact absurd hl' hl
  · rintro s hs' -
    rw [hg] at hs'
    cases hs'
    exact hs
  · intro r hr
    rw [hret] at hr
    obtain ⟨hd, hrid, hlt⟩ := h.returned r hr
    refine ⟨hd.mono (hby r.id (hlt st hst)) hu, hsends ▸ hrid, fun s hs' => ?_⟩
    rw [hg] at hs'
    cases hs'
    exact hid ▸ hlt st hst

/-- The send on cases[j] went through. -/
theorem Core.sent {st : Sending} (h : Core f) (hst : f.sending = some st) (hs : SendInv f st) {j ch : ℕ}
    (hj1 : firstSubSendCase ≤ j) (hj : j < st.cases) (hch : f.sendCases[j]? = some (.send ch)) {i : ℕ}
    (hi : firstSubSendCase ≤ i) : Core (f.sent st j ch (.fast i)) := by
  have hid := h.sending_id st hst
  have hlen := hs.cases_le
  have hjl : j < f.sendCases.length := by omega
  have hch' : f.sendCases[j] = .send ch := by simpa [List.getElem?_eq_getElem hjl] using hch
  obtain ⟨htake, hrest⟩ := chans_deactivate hj hlen hch'
  simp only [CaseList.deactivate] at htake hrest
  -- the swap only reorders sendCases
  have hperm : chans (swap f.sendCases j (st.cases - 1)) ~ chans f.sendCases := chans_perm (swap_perm _ _ _)
  have hself : (f.sent st j ch (.fast i)).receivedBy st.id = f.receivedBy st.id ++ [ch] :=
    receivedBy_append_self rfl
  refine h.keep hst rfl rfl (fun hl => by cases hl) rfl rfl
    (fun id hlt => receivedBy_append_ne rfl (Nat.ne_of_gt hlt)) (fun _ h => h)
    (h.front.swap hj1 (by unfold firstSubSendCase at hj1 ⊢; omega)) h.inbox ?_ ?_ h.removing_nodup h.panicked ?_ ?_
  · exact ((hperm.append_left _).append_right _).trans h.owned
  · exact fun ch' hch' => hperm.symm.subset (h.removing ch' hch')
  · intro e he
    rcases List.mem_append.mp he with he | he
    · exact h.received e he
    · rw [List.mem_singleton] at he
      subst he
      show st.id < f.sends
      omega
  · refine ⟨?_, ?_, ?_, ?_, ?_, ?_, ?_, hs.nodup, hs.gone⟩
    · show firstSubSendCase ≤ st.cases - 1
      unfold firstSubSendCase at hj1 ⊢
      omega
    · show st.cases - 1 ≤ (swap f.sendCases j (st.cases - 1)).length
      rw [length_swap]
      omega
    · intro i' hi'
      cases hi'
      exact hi
    · intro hsel
      cases hsel
    · -- the channel moves from the active cases to those that received the value
      show (chans ((swap f.sendCases j (st.cases - 1)).take (st.cases - 1)) ++ _ ++ st.gone) ~ st.snapshot
      rw [hself]
      refine List.Perm.trans ?_ hs.accounted
      exact List.perm_iff_count.mpr fun x => by
        have := htake.count_eq x
        simp only [List.count_append] at this ⊢
        omega
    · intro ch' hch'
      rw [hself]
      change ch' ∈ chans ((swap f.sendCases j (st.cases - 1)).drop (st.cases - 1)) at hch'
      rw [hrest] at hch'
      rcases List.mem_cons.mp hch' with rfl | hch'
      · exact List.mem_append_right _ (List.mem_singleton_self _)
      · exact List.mem_append_left _ (hs.past ch' hch')
    · rw [hself, List.length_append, ← hs.nsent]
      rfl

section Remove

variable {ch index : ℕ} (h : Core f) (hfind : f.sendCases.find ch = some index)
include h hfind

theorem Core.find_pos : firstSubSendCase ≤ index ∧ ∃ hk : index < f.sendCases.length, f.sendCases[index] = .send ch := by
  obtain ⟨hk, hch⟩ := find_eq_some hfind
  exact ⟨h.front.pos hk hch, hk, hch⟩

theorem Core.owned_delete :
    (chans f.inbox ++ chans (f.sendCases.delete index) ++ (f.unsubscribed ++ [ch])) ~ List.range f.channels := by
  obtain ⟨-, hk, hch⟩ := h.find_pos hfind
  have hperm := chans_delete hk hch
  refine List.Perm.trans ?_ h.owned
  exact List.perm_iff_count.mpr fun x => by
    have := hperm.count_eq x
    simp only [List.count_append] at this ⊢
    omega

theorem Core.removing_delete : ∀ ch' ∈ f.removing.erase ch, ch' ∈ chans (f.sendCases.delete index) := by
  obtain ⟨-, hk, hch⟩ := h.find_pos hfind
  intro ch' hch'
  obtain ⟨hne, hmem⟩ := (h.removing_nodup.mem_erase_iff).mp hch'
  have := (chans_delete hk hch).symm.subset (h.removing ch' hmem)
  rcases List.mem_append.mp this with h' | h'
  · exact h'
  · exact absurd (List.mem_singleton.mp h') hne

end Remove

/-- Select takes from removeSub a channel whose case was active: the case leaves the active ones. -/
theorem Core.removeActive {st : Sending} (h : Core f) (hst : f.sending = some st) (hs : SendInv f st)
    (hsel : st.phase = .select) {ch index : ℕ} (hfind : f.sendCases.find ch = some index) (hk : index < st.cases) :
    Core { f with sendCases := f.sendCases.delete index, removing := f.removing.erase ch,
                  unsubscribed := f.unsubscribed ++ [ch],
                  sending := some { st with cases := st.cases - 1, gone := st.gone ++ [ch],
                                            phase := .fast firstSubSendCase } } := by
  obtain ⟨-, hkl, hch⟩ := h.find_pos hfind
  have hmore := hs.select hsel
  obtain ⟨htake, hrest⟩ := chans_delete_of_lt hk hs.cases_le hch
  refine h.keep hst rfl rfl (fun hl => by cases hl) rfl rfl (fun _ _ => rfl) (fun _ h => List.mem_append_left _ h)
    (h.front.delete (h.find_pos hfind).1) h.inbox (h.owned_delete hfind) (h.removing_delete hfind)
    (h.removing_nodup.erase _) h.panicked h.received ⟨?_, ?_, ?_, ?_, ?_, ?_, hs.nsent, hs.nodup, ?_⟩
  · show firstSubSendCase ≤ st.cases - 1
    unfold firstSubSendCase at hmore ⊢
    omega
  · show st.cases - 1 ≤ (f.sendCases.delete index).length
    rw [CaseList.delete, List.length_eraseIdx_of_lt hkl]
    have := hs.cases_le
    omega
  · intro i hi
    cases hi
    exact Nat.le_refl _
  · intro hsel'
    cases hsel'
  · -- the channel moves from the active cases to those removed while active
    show (chans ((f.sendCases.delete index).take (st.cases - 1)) ++ f.receivedBy st.id ++ (st.gone ++ [ch])) ~
      st.snapshot
    refine List.Perm.trans ?_ hs.accounted
    exact List.perm_iff_count.mpr fun x => by
      have := htake.count_eq x
      simp only [List.count_append] at this ⊢
      omega
  · intro ch' hch'
    change ch' ∈ chans ((f.sendCases.delete index).drop (st.cases - 1)) at hch'
    rw [hrest] at hch'
    exact hs.past ch' hch'
  · intro ch' hch'
    rcases List.mem_append.mp hch' with hch' | hch'
    · exact List.mem_append_left _ (hs.gone ch' hch')
    · exact List.mem_append_right _ hch'

/-- Select takes from removeSub a channel whose case had been sent on: the case leaves the rest. -/
theorem Core.removePast {st : Sending} (h : Core f) (hst : f.sending = some st) (hs : SendInv f st)
    (hsel : st.phase = .select) {ch index : ℕ} (hfind : f.sendCases.find ch = some index) (hk : st.cases ≤ index) :
    Core { f with sendCases := f.sendCases.delete index, removing := f.removing.erase ch,
                  unsubscribed := f.unsubscribed ++ [ch],
                  sending := some { st with cases := st.cases, gone := st.gone, phase := .fast firstSubSendCase } } := by
  obtain ⟨-, hkl, hch⟩ := h.find_pos hfind
  have hmore := hs.select hsel
  obtain ⟨htake, hrest⟩ := chans_delete_of_le hk hkl hch
  refine h.keep hst rfl rfl (fun hl => by cases hl) rfl rfl (fun _ _ => rfl) (fun _ h => List.mem_append_left _ h)
    (h.front.delete (h.find_pos hfind).1) h.inbox (h.owned_delete hfind) (h.removing_delete hfind)
    (h.removing_nodup.erase _) h.panicked h.received ⟨hs.cases_pos, ?_, ?_, ?_, ?_, ?_, hs.nsent, hs.nodup, ?_⟩
  · show st.cases ≤ (f.sendCases.delete index).length
    rw [CaseList.delete, List.length_eraseIdx_of_lt hkl]
    omega
  · intro i hi
    cases hi
    exact Nat.le_refl _
  · intro hsel'
    cases hsel'
  · show (chans ((f.sendCases.delete index).take st.cases) ++ _ ++ st.gone) ~ st.snapshot
    rw [htake]
    exact hs.accounted
  · intro ch' hch'
    exact hs.past ch' (hrest.subset (List.mem_append_left _ hch'))
  · exact fun ch' hch' => List.mem_append_left _ (hs.gone ch' hch')

theorem Core.finish {st : Sending} (h : Core f) (hst : f.sending = some st) (hs : SendInv f st)
    (hone : st.cases = firstSubSendCase) : Inv { f with sending := none, returned := f.returned ++ [st] } := by
  have hid := h.sending_id st hst
  refine ⟨⟨h.front, h.inbox, h.owned, h.removing, h.removing_nodup, h.panicked, h.received,
    (fun _ h' => by cases h'), (fun _ h' => by cases h'), (fun _ h' => by cases h'), ?_⟩,
    fun _ _ h' => by cases h'⟩
  intro r hr
  rcases List.mem_append.mp hr with hr | hr
  · obtain ⟨hd, hrid, -⟩ := h.returned r hr
    exact ⟨hd.mono rfl (fun _ h => h), hrid, fun _ h' => by cases h'⟩
  · rw [List.mem_singleton] at hr
    subst hr
    exact ⟨(hs.delivered h hone).mono rfl (fun _ h => h), show r.id < f.sends by omega,
      fun _ h' => by cases h'⟩

theorem Core.select {st : Sending} (h : Core f) (hst : f.sending = some st) (hs : SendInv f st)
    (hone : st.cases ≠ firstSubSendCase) : Inv { f with sending := some { st with phase := .select } } := by
  have hpos := hs.cases_pos
  refine ⟨h.keep hst rfl rfl (fun hl => by cases hl) rfl rfl (fun _ _ => rfl) (fun _ h => h) h.front h.inbox h.owned
    h.removing h.removing_nodup h.panicked h.received ⟨hs.cases_pos, hs.cases_le, (fun _ hi => by cases hi),
      (fun _ => show firstSubSendCase < st.cases by omega), hs.accounted, hs.past, hs.nsent, hs.nodup, hs.gone⟩,
    fun _ _ h' hi => by cases h'; cases hi⟩

theorem Core.settle (h : Core f) : Inv f.settle := by
  unfold Feed.settle
  split
  · rename_i st hst
    split
    · rename_i i hi
      have hs := h.sending st hst (by rw [hi]; exact Phase.noConfusion)
      split_ifs with hlt hone
      · refine ⟨h, fun st' i' hst' hi' => ?_⟩
        rw [hst] at hst'
        cases hst'
        rw [hi] at hi'
        cases hi'
        exact hlt
      · exact h.finish hst hs hone
      · exact h.select hst hs hone
    · rename_i hnot
      refine ⟨h, fun st' i' hst' hi' => ?_⟩
      rw [hst] at hst'
      cases hst'
      exact absurd hi' (hnot i')
  · rename_i hnone
    exact ⟨h, fun st' i' hst' => by rw [hnone] at hst'; cases hst'⟩

theorem Inv.subscribe (h : Inv f) :
    Inv { f with inbox := f.inbox ++ [.send f.channels], channels := f.channels + 1 } := by
  refine ⟨⟨h.front, ?_, ?_, h.removing, h.removing_nodup, h.panicked, h.received, h.sending_id, h.fresh,
    fun st hst hl => (h.sending st hst hl).mono rfl rfl (fun _ h => h),
    fun r hr => (h.returned r hr).imp_left fun hd => hd.mono rfl (fun _ h => h)⟩, h.settled⟩
  · intro hm
    rcases List.mem_append.mp hm with hm | hm
    · exact h.inbox hm
    · cases List.mem_singleton.mp hm
  · -- the new channel joins the inbox
    rw [List.range_succ]
    refine List.Perm.trans ?_ (h.owned.append_right [f.channels])
    exact List.perm_iff_count.mpr fun x => by
      simp only [chans_append, chans_cons_send, chans_nil, List.count_append]
      omega

theorem Inv.unsubscribeInbox (h : Inv f) {ch index : ℕ} (hfind : f.inbox.find ch = some index) :
    Inv { f with inbox := f.inbox.delete index, unsubscribed := f.unsubscribed ++ [ch] } := by
  obtain ⟨hk, hch⟩ := find_eq_some hfind
  have hperm := chans_delete hk hch
  refine ⟨⟨h.front, fun hm => h.inbox (List.mem_of_mem_eraseIdx hm), ?_, h.removing, h.removing_nodup,
    h.panicked, h.received, h.sending_id, h.fresh,
    fun st hst hl => (h.sending st hst hl).mono rfl rfl (fun _ h => List.mem_append_left _ h),
    fun r hr => (h.returned r hr).imp_left fun hd => hd.mono rfl (fun _ h => List.mem_append_left _ h)⟩,
    h.settled⟩
  refine List.Perm.trans ?_ h.owned
  exact List.perm_iff_count.mpr fun x => by
    have := hperm.count_eq x
    simp only [List.count_append] at this ⊢
    omega

theorem Inv.unsubscribeWait (h : Inv f) {ch : ℕ} (hch : ch < f.channels) (hrem : ch ∉ f.removing)
    (hun : ch ∉ f.unsubscribed) (hfind : f.inbox.find ch = none) :
    Inv { f with removing := f.removing ++ [ch] } := by
  have hsend : ch ∈ chans f.sendCases := by
    have hmem := h.owned.symm.subset (List.mem_range.mpr hch)
    simp only [List.mem_append] at hmem
    rcases hmem with (hin | hsc) | hu
    · exact absurd hin (find_eq_none.mp hfind)
    · exact hsc
    · exact absurd hu hun
  refine ⟨⟨h.front, h.inbox, h.owned, ?_, ?_, h.panicked, h.received, h.sending_id, h.fresh,
    fun st hst hl => (h.sending st hst hl).mono rfl rfl (fun _ h => h),
    fun r hr => (h.returned r hr).imp_left fun hd => hd.mono rfl (fun _ h => h)⟩, h.settled⟩
  · intro ch' hch'
    rcases List.mem_append.mp hch' with hch' | hch'
    · exact h.removing ch' hch'
    · rw [List.mem_singleton.mp hch']
      exact hsend
  · exact h.removing_nodup.append (List.nodup_singleton ch) (by simpa using hrem)

theorem Inv.removeLocked (h : Inv f) (hnone : f.sending = none) {ch index : ℕ}
    (hfind : f.sendCases.find ch = some index) :
    Inv { f with sendCases := f.sendCases.delete index, removing := f.removing.erase ch,
                 unsubscribed := f.unsubscribed ++ [ch] } := by
  refine ⟨⟨h.front.delete (h.find_pos hfind).1, h.inbox, h.owned_delete hfind, h.removing_delete hfind,
    h.removing_nodup.erase _, h.panicked, h.received, ?_, ?_, ?_, ?_⟩, ?_⟩
  · intro st hst
    rw [hnone] at hst
    cases hst
  · intro st hst
    rw [hnone] at hst
    cases hst
  · intro st hst
    rw [hnone] at hst
    cases hst
  · intro r hr
    obtain ⟨hd, hrid, -⟩ := h.returned r hr
    exact ⟨hd.mono rfl (fun _ h => List.mem_append_left _ h), hrid, fun st hst => by rw [hnone] at hst; cases hst⟩
  · intro st i hst
    rw [hnone] at hst
    cases hst

theorem Inv.send (h : Inv f) :
    Inv { f with sending := some ⟨f.sends, 0, 0, .locked, [], []⟩, sends := f.sends + 1 } := by
  refine ⟨⟨h.front, h.inbox, h.owned, h.removing, h.removing_nodup, h.panicked, ?_, ?_, ?_, ?_, ?_⟩, ?_⟩
  · exact fun e he => Nat.lt_succ_of_lt (h.received e he)
  · intro st hst
    cases hst
    rfl
  · -- nothing has been sent under the new number
    rintro st hst -
    cases hst
    refine ⟨?_, rfl, rfl⟩
    simp only [receivedBy, List.map_eq_nil_iff, List.filter_eq_nil_iff, beq_iff_eq]
    exact fun e he heq => Nat.lt_irrefl _ (heq ▸ h.received e he)
  · intro st hst hl
    cases hst
    exact absurd rfl hl
  · intro r hr
    obtain ⟨hd, hrid, -⟩ := h.returned r hr
    exact ⟨hd.mono rfl (fun _ h => h), Nat.lt_succ_of_lt hrid, fun st hst => by cases hst; exact hrid⟩
  · intro st i hst hi
    cases hst
    cases hi

theorem Inv.moveInbox {st : Sending} (h : Inv f) (hst : f.sending = some st) (hl : st.phase = .locked) :
    Core { f with sendCases := f.sendCases ++ f.inbox, inbox := [],
                  sending := some { st with cases := (f.sendCases ++ f.inbox).length, phase := .fast firstSubSendCase,
                                            snapshot := chans (f.sendCases ++ f.inbox) } } := by
  obtain ⟨hrb, hn, hg⟩ := h.fresh st hst hl
  obtain ⟨rest, hrest, hrecv⟩ := h.front
  -- the moved channels are distinct: they are among the channels subscribed
  have hnodup : (chans (f.sendCases ++ f.inbox)).Nodup := by
    have := (h.owned.nodup_iff.mpr List.nodup_range).sublist
      (List.sublist_append_left _ _ : chans f.inbox ++ chans f.sendCases <+ _)
    rw [chans_append]
    exact (List.perm_append_comm.nodup_iff).mp this
  have hpos : firstSubSendCase ≤ (f.sendCases ++ f.inbox).length := by
    rw [List.length_append, hrest]
    exact Nat.le_add_right_of_le (Nat.succ_le_succ (Nat.zero_le _))
  refine h.keep hst rfl rfl (fun hl => by cases hl) rfl rfl (fun _ _ => rfl) (fun _ h => h)
    ⟨rest ++ f.inbox, by rw [hrest]; rfl, fun hm => ?_⟩ (fun hm => by cases hm) ?_ ?_ h.removing_nodup h.panicked
    h.received ⟨hpos, Nat.le_refl _, (fun i hi => by cases hi; exact Nat.le_refl _), (fun hsel => by cases hsel),
      ?_, ?_, ?_, hnodup, ?_⟩
  · rcases List.mem_append.mp hm with hm | hm
    · exact hrecv hm
    · exact h.inbox hm
  · refine List.Perm.trans ?_ h.owned
    simpa only [chans_append, chans_nil, List.nil_append] using
      (List.perm_append_comm : chans f.sendCases ++ chans f.inbox ~ _).append_right f.unsubscribed
  · intro ch hch
    rw [chans_append]
    exact List.mem_append_left _ (h.removing ch hch)
  · show (chans ((f.sendCases ++ f.inbox).take (f.sendCases ++ f.inbox).length) ++ f.receivedBy st.id ++ st.gone) ~
      chans (f.sendCases ++ f.inbox)
    rw [List.take_length, hrb, hg, List.append_nil, List.append_nil]
  · intro ch hch
    change ch ∈ chans ((f.sendCases ++ f.inbox).drop (f.sendCases ++ f.inbox).length) at hch
    rw [List.drop_length] at hch
    cases hch
  · show st.nsent = (f.receivedBy st.id).length
    rw [hn, hrb]
    rfl
  · intro ch hch
    rw [hg] at hch
    cases hch

theorem Inv.tryFail {st : Sending} (h : Inv f) (hst : f.sending = some st) {i : ℕ} (hi : st.phase = .fast i) :
    Core { f with sending := some { st with phase := .fast (i + 1) } } := by
  have hs := h.sending st hst (by rw [hi]; exact Phase.noConfusion)
  refine h.keep hst rfl rfl (fun hl => by cases hl) rfl rfl (fun _ _ => rfl) (fun _ h => h) h.front h.inbox h.owned
    h.removing h.removing_nodup h.panicked h.received ⟨hs.cases_pos, hs.cases_le, (fun i' hi' => ?_),
      (fun hsel => by cases hsel), hs.accounted, hs.past, hs.nsent, hs.nodup, hs.gone⟩
  cases hi'
  have := hs.fast_pos i hi
  unfold firstSubSendCase at this ⊢
  omega

theorem Inv.step (h : Inv f) {a : Action} (hs : f.step a = some g) : Inv g := by
  cases a with
  | subscribe =>
    cases hs
    exact h.subscribe
  | unsubscribe ch =>
    simp only [Feed.step] at hs
    split_ifs at hs with hpre
    split at hs
    · rename_i index hfind
      cases hs
      exact h.unsubscribeInbox hfind
    · rename_i hfind
      cases hs
      exact h.unsubscribeWait hpre.1 hpre.2.1 hpre.2.2 hfind
  | removeLocked ch =>
    simp only [Feed.step] at hs
    split_ifs at hs with hpre
    split at hs
    · rename_i index hfind
      cases hs
      exact h.removeLocked hpre.2 hfind
    · -- the waiting channel is in sendCases, so it is found there
      rename_i hfind
      exact absurd (h.removing ch hpre.1) (find_eq_none.mp hfind)
  | send =>
    simp only [Feed.step] at hs
    split_ifs at hs
    cases hs
    exact h.send
  | moveInbox =>
    simp only [Feed.step] at hs
    split at hs
    · rename_i st hst
      split_ifs at hs with hl
      cases hs
      exact (h.moveInbox hst hl).settle
    · cases hs
  | trySend ok =>
    simp only [Feed.step] at hs
    split at hs
    · rename_i st hst
      split at hs
      · rename_i i hi
        split at hs
        · rename_i ch hch
          have hsi := h.sending st hst (by rw [hi]; exact Phase.noConfusion)
          -- whether the send went through
          split_ifs at hs with hlt hok
          · cases hs
            exact (h.sent hst hsi (hsi.fast_pos i hi) hlt hch (hsi.fast_pos i hi)).settle
          · cases hs
            exact (h.tryFail hst hi).settle
        · cases hs
      · cases hs
    · cases hs
  | selectSend j =>
    simp only [Feed.step] at hs
    split at hs
    · rename_i st hst
      split_ifs at hs with hpre
      split at hs
      · rename_i ch hch
        cases hs
        have hsi := h.sending st hst (by rw [hpre.1]; exact Phase.noConfusion)
        exact (h.sent hst hsi hpre.2.1 hpre.2.2 hch (Nat.le_refl _)).settle
      · cases hs
    · cases hs
  | selectRemove ch =>
    simp only [Feed.step] at hs
    split at hs
    · rename_i st hst
      split_ifs at hs with hpre
      split at hs
      · rename_i index hfind
        have hsi := h.sending st hst (by rw [hpre.1]; exact Phase.noConfusion)
        -- whether the removed case was still active
        by_cases hk : index < st.cases
        · simp only [hk, if_true] at hs
          cases hs
          exact (h.removeActive hst hsi hpre.1 hfind hk).settle
        · simp only [hk, if_false] at hs
          cases hs
          exact (h.removePast hst hsi hpre.1 hfind (Nat.le_of_not_lt hk)).settle
      · rename_i hfind
        exact absurd (h.removing ch hpre.2) (find_eq_none.mp hfind)
    · cases hs

theorem Inv.init : Inv init := by
  refine ⟨⟨⟨[], rfl, List.not_mem_nil⟩, List.not_mem_nil, List.Perm.refl _, ?_, List.nodup_nil, rfl, ?_, ?_, ?_,
    ?_, ?_⟩, fun _ _ h => by cases h⟩ <;> intro _ h <;> cases h

theorem Inv.run {acts : List Action} (h : Inv f) (hrun : f.run acts = some g) : Inv g :=
  Lib.foldlM_invariant Feed.step (P := Inv) (fun _ _ _ hi hs => hi.step hs) acts f g h hrun

theorem Delivered.count {st : Sending} (h : Delivered f st) (ch : ℕ) :
    (f.receivedBy st.id).count ch = if ch ∈ st.snapshot ∧ ch ∉ st.gone then 1 else 0 := by
  have hsum := h.accounted.count_eq ch
  rw [List.count_append] at hsum
  split_ifs with hmem
  · have := List.count_eq_one_of_mem h.nodup hmem.1
    have := List.count_eq_zero_of_not_mem hmem.2
    omega
  · by_cases hs : ch ∈ st.snapshot
    · have h1 := List.count_eq_one_of_mem h.nodup hs
      have h2 := List.count_pos_iff.mpr (not_not.mp fun hg => hmem ⟨hs, hg⟩)
      omega
    · have := List.count_eq_zero_of_not_mem hs
      omega

end Feed

end EthereumAI.Event
