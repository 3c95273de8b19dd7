import EthereumAI.State.Mutators

/-! # Snapshots revert exactly

`Consistent` is the invariant of every state a run reaches: the live objects
agree with the trie, every entry of the journal is one a mutator appends, the
revision stack is increasing in ids and in journal indices and points into the
journal, and the dirty counter of every address other than `ripemd` counts its
entries. Along a run that starts after `Snapshot` returned `id`, as long as `id`
is valid, rolling the journal back to the index of `id` gives the view of the
state `Snapshot` was taken in (`Tracks`); `RevertToSnapshot id` does exactly that.
-/

namespace EthereumAI.State

open Lib

/-- The calls other than `Snapshot` and `RevertToSnapshot`. -/
def Op.IsMutation : Op → Prop
  | .Snapshot => False
  | .RevertToSnapshot _ => False
  | _ => True

namespace StateDB

variable {db : Database}

/-- `New`: no live object, an empty journal and no revision. -/
def New : StateDB :=
  { stateObjects := fun _ => none, refund := 0, thash := 0, bhash := 0, txIndex := 0,
    logs := fun _ => [], logSize := 0, preimages := fun _ => none,
    journal := ⟨[], fun _ => 0⟩, validRevisions := [], nextRevisionId := 0 }

/-- `r` was taken before `r'`: a smaller id, and no later in the journal. -/
def Revision.Below (r r' : Revision) : Prop := r.id < r'.id ∧ r.journalIndex ≤ r'.journalIndex

/-- The invariant of every state a run reaches. -/
structure Consistent (db : Database) (s : StateDB) : Prop where
  objects : s.ObjectsConsistent db
  wellFormed : ∀ e ∈ s.journal.entries, e.WellFormed
  sorted : s.validRevisions.Pairwise Revision.Below
  bounded : ∀ r ∈ s.validRevisions, r.id < s.nextRevisionId ∧ r.journalIndex ≤ s.journal.length
  dirties : ∀ a, a ≠ ripemd → s.journal.dirties a = Journal.count s.journal.entries a
  ripemd_dirties : (Journal.count s.journal.entries ripemd : ℤ) ≤ s.journal.dirties ripemd

theorem New_consistent (db : Database) : New.Consistent db :=
  ⟨⟨fun _ _ h => by simp [New] at h, fun _ _ h _ => by simp [New] at h⟩, by simp [New], List.Pairwise.nil,
    by simp [New], fun _ _ => rfl, le_refl _⟩

/-! ## Mutators and reads -/

theorem Consistent.methodSpec {s t : StateDB} (hs : s.Consistent db) (h : MethodSpec db s t) :
    t.Consistent db := by
  obtain ⟨es, hj, hc⟩ := h
  have hlen : s.journal.length ≤ t.journal.length := by
    simp [Journal.length, hj.entries]
  refine ⟨hc, ?_, hj.validRevisions ▸ hs.sorted, ?_, ?_, ?_⟩
  · intro e he
    rw [hj.entries] at he
    rcases List.mem_append.mp he with he | he
    · exact hs.wellFormed e he
    · exact hj.wellFormed e he
  · intro r hr
    rw [hj.validRevisions] at hr
    obtain ⟨hid, hidx⟩ := hs.bounded r hr
    exact ⟨hj.nextRevisionId ▸ hid, hidx.trans hlen⟩
  · intro a ha
    rw [hj.dirties a ha, hs.dirties a ha, hj.entries, Journal.count_append]
    push_cast
    rfl
  · have := hj.ripemd_dirties
    have := hs.ripemd_dirties
    rw [hj.entries, Journal.count_append]
    push_cast
    omega

theorem writeBack_spec {s : StateDB} (hs : s.ObjectsConsistent db) {addr : Address}
    {obj o : StateObject} (h : (s.getStateObject db addr).1 = some obj) (hv : o.view db = obj.view db)
    (ha : o.address = obj.address) (hd : o.deleted = obj.deleted) :
    MethodSpec db s ((s.getStateObject db addr).2.setStateObject o) := by
  obtain ⟨-, -, hdel⟩ := getStateObject_live db hs.keyed h
  obtain ⟨hj, hr, hn⟩ := @getStateObject_sameJournal db s addr
  exact ⟨[], Journalled.nil ⟨hj, hr, hn⟩ (view_writeBack db hs.keyed h hv ha hd),
    (hs.getStateObject addr).setStateObject o (hd.trans hdel)⟩

/-- A read is journalled with no entry. -/
theorem read_methodSpec {s : StateDB} (hs : s.ObjectsConsistent db) (q : Query) :
    MethodSpec db s (s.read db q) := by
  have hget : ∀ addr, MethodSpec db s (s.getStateObject db addr).2 := fun addr =>
    ⟨[], Journalled.nil (getStateObject_sameJournal s addr) (getStateObject_spec db s addr).2,
      hs.getStateObject addr⟩
  cases q with
  | Exist addr => exact hget addr
  | Empty addr => exact hget addr
  | HasSuicided addr => exact hget addr
  | GetBalance addr => exact hget addr
  | GetNonce addr => exact hget addr
  | GetCodeHash addr => exact hget addr
  | GetCodeSize addr =>
    have h := hget addr
    simp only [read, GetCodeSize]
    rcases hg : s.getStateObject db addr with ⟨_ | obj, t⟩ <;> rw [hg] at h <;> exact h
  | GetCode addr =>
    simp only [read, GetCode]
    rcases hg : s.getStateObject db addr with ⟨_ | obj, t⟩
    · have h := hget addr
      rw [hg] at h
      exact h
    · have h : (s.getStateObject db addr).1 = some obj := by rw [hg]
      obtain ⟨hv, ha, hd, -⟩ := StateObject.Code_snd db obj
      have hw := writeBack_spec hs h hv ha hd
      rw [hg] at hw
      exact hw
  | GetState addr key =>
    simp only [read, GetState]
    rcases hg : s.getStateObject db addr with ⟨_ | obj, t⟩
    · have h := hget addr
      rw [hg] at h
      exact h
    · have h : (s.getStateObject db addr).1 = some obj := by rw [hg]
      obtain ⟨hv, ha, hd, -⟩ := StateObject.GetState_snd db obj key
      have hw := writeBack_spec hs h hv ha hd
      rw [hg] at hw
      exact hw

theorem step_methodSpec {s t : StateDB} (hs : s.ObjectsConsistent db) {op : Op} (hop : op.IsMutation)
    (h : s.step db op = some t) : MethodSpec db s t := by
  cases op with
  | SetBalance addr amount => cases h; exact SetBalance_spec hs addr amount
  | AddBalance addr amount => cases h; exact AddBalance_spec hs addr amount
  | SubBalance addr amount => cases h; exact SubBalance_spec hs addr amount
  | SetNonce addr nonce => cases h; exact SetNonce_spec hs addr nonce
  | SetCode addr code => cases h; exact SetCode_spec hs addr code
  | SetState addr key value => cases h; exact SetState_spec hs addr key value
  | CreateAccount addr => cases h; exact CreateAccount_spec hs addr
  | Suicide addr => cases h; exact Suicide_spec hs addr
  | AddRefund gas => cases h; exact AddRefund_spec hs gas
  | AddLog log => cases h; exact AddLog_spec hs log
  | AddPreimage hash preimage => cases h; exact AddPreimage_spec hs hash preimage
  | Snapshot => exact hop.elim
  | RevertToSnapshot revid => exact hop.elim
  | read q => cases h; exact read_methodSpec hs q

/-! ## Rolling the journal back -/

theorem Journal.undirty_apply (d : Address → ℤ) (e : JournalEntry) (a : Address) :
    Journal.undirty d e a = d a - Journal.count [e] a := by
  unfold Journal.undirty Journal.count
  rcases hd : e.dirtied with _ | b
  · simp [hd]
  · by_cases h : a = b
    · subst h
      simp [hd]
    · have hne : (some b == some a) = false := by simp [Ne.symm h]
      simp [hd, Function.update_of_ne h, hne]

theorem revertStep_spec {s u : StateDB} (hs : s.ObjectsConsistent db) {e : JournalEntry}
    (he : e.WellFormed) (h : revertStep db e s = some u) :
    u.ObjectsConsistent db ∧ u.journal.entries = s.journal.entries ∧
      u.validRevisions = s.validRevisions ∧ u.nextRevisionId = s.nextRevisionId ∧
      ∀ a, u.journal.dirties a = s.journal.dirties a - Journal.count [e] a := by
  unfold revertStep at h
  obtain ⟨w, hw, rfl⟩ := Option.map_eq_some_iff.mp h
  obtain ⟨hwc, hwj, hwr, hwn⟩ := revertEntry_spec hs he hw
  exact ⟨⟨hwc.keyed, hwc.deleted_absent⟩, by simp [hwj], hwr, hwn,
    fun a => by simp only [Journal.undirty_apply, hwj]⟩

/-- Rolling back well-formed entries keeps the objects consistent, changes no
entry and no revision, and takes the dirty mark of each entry off. -/
theorem undoAll_revertStep {es : List JournalEntry} (hwf : ∀ e ∈ es, e.WellFormed) :
    ∀ s u : StateDB, s.ObjectsConsistent db → undoAll (revertStep db) es s = some u →
      u.ObjectsConsistent db ∧ u.journal.entries = s.journal.entries ∧
      u.validRevisions = s.validRevisions ∧ u.nextRevisionId = s.nextRevisionId ∧
      ∀ a, u.journal.dirties a = s.journal.dirties a - Journal.count es a := by
  induction es with
  | nil =>
    intro s u hs h
    cases h
    exact ⟨hs, rfl, rfl, rfl, fun a => by simp [Journal.count]⟩
  | cons e es ih =>
    intro s u hs h
    obtain ⟨v, hv, hu⟩ := Option.bind_eq_some_iff.mp h
    obtain ⟨hvc, hve, hvr, hvn, hvd⟩ :=
      ih (fun e' he' => hwf e' (List.mem_cons_of_mem e he')) s v hs hv
    obtain ⟨huc, hue, hur, hun, hud⟩ := revertStep_spec hvc (hwf e List.mem_cons_self) hu
    refine ⟨huc, hue.trans hve, hur.trans hvr, hun.trans hvn, fun a => ?_⟩
    rw [hud, hvd, show e :: es = [e] ++ es from rfl, Journal.count_append]
    push_cast
    omega

theorem undoAll_revertStep_view {es : List JournalEntry} (hwf : ∀ e ∈ es, e.WellFormed)
    {s : StateDB} (hs : s.ObjectsConsistent db) :
    (undoAll (revertStep db) es s).map (view db) = undoAll (View.revert db) es (s.view db) :=
  undoAll_map (P := fun s => s.ObjectsConsistent db) (Q := JournalEntry.WellFormed)
    (fun _ _ _ he hs h => (revertStep_spec hs he h).1) (fun e _ _ hs => revertStep_view db hs.keyed e)
    es hwf s hs

theorem revertJournal_spec {s u : StateDB} (hs : s.Consistent db) {L : ℕ}
    (h : s.revertJournal db L = some u) :
    u.ObjectsConsistent db ∧ u.journal.entries = s.journal.entries.take L ∧
      u.validRevisions = s.validRevisions ∧ u.nextRevisionId = s.nextRevisionId ∧
      (∀ a, u.journal.dirties a = s.journal.dirties a - Journal.count (s.journal.entries.drop L) a) ∧
      Undoes (View.revert db) (s.journal.entries.drop L) (s.view db) (u.view db) := by
  have hwf : ∀ e ∈ s.journal.entries.drop L, e.WellFormed :=
    fun e he => hs.wellFormed e (List.mem_of_mem_drop he)
  unfold revertJournal at h
  obtain ⟨v, hv, rfl⟩ := Option.map_eq_some_iff.mp h
  obtain ⟨hvc, -, hvr, hvn, hvd⟩ := undoAll_revertStep hwf s v hs.objects hv
  have hview := @undoAll_revertStep_view db _ hwf _ hs.objects
  rw [hv, Option.map_some] at hview
  exact ⟨⟨hvc.keyed, hvc.deleted_absent⟩, rfl, hvr, hvn, hvd, hview.symm⟩

theorem revertJournal_isSome {s : StateDB} (hs : s.Consistent db) {L : ℕ} {v : View}
    (h : Undoes (View.revert db) (s.journal.entries.drop L) (s.view db) v) :
    ∃ u, s.revertJournal db L = some u := by
  have hwf : ∀ e ∈ s.journal.entries.drop L, e.WellFormed :=
    fun e he => hs.wellFormed e (List.mem_of_mem_drop he)
  have hview := @undoAll_revertStep_view db _ hwf _ hs.objects
  unfold Undoes at h
  rw [h] at hview
  obtain ⟨u, hu, -⟩ := Option.map_eq_some_iff.mp hview
  exact ⟨_, by rw [revertJournal, hu]; rfl⟩

theorem RevertToSnapshot_split {s t : StateDB} {revid : ℕ} (h : s.RevertToSnapshot db revid = some t) :
    ∃ pre r rest u, s.validRevisions = pre ++ r :: rest ∧ r.id = revid ∧
      s.revertJournal db r.journalIndex = some u ∧ t = { u with validRevisions := pre } := by
  unfold RevertToSnapshot at h
  generalize s.validRevisions.findIdx (fun r => decide (revid ≤ r.id)) = idx at h
  dsimp only at h
  rcases hr : s.validRevisions[idx]? with _ | r <;> rw [hr] at h
  · cases h
  · simp only [ne_eq, ite_not] at h
    split_ifs at h with hid
    obtain ⟨u, hu, rfl⟩ := Option.map_eq_some_iff.mp h
    obtain ⟨hlt, hget⟩ := List.getElem?_eq_some_iff.mp hr
    refine ⟨s.validRevisions.take idx, r, s.validRevisions.drop (idx + 1), u, ?_, hid, hu, rfl⟩
    rw [← hget, ← List.drop_eq_getElem_cons hlt, List.take_append_drop]

/-! ## Every step keeps the invariant -/

theorem Consistent.snapshot {s : StateDB} (hs : s.Consistent db) : s.Snapshot.2.Consistent db := by
  have hnew : ∀ r ∈ s.validRevisions, r.id < s.nextRevisionId ∧ r.journalIndex ≤ s.journal.length :=
    hs.bounded
  refine ⟨⟨hs.objects.keyed, hs.objects.deleted_absent⟩, hs.wellFormed, ?_, ?_, hs.dirties,
    hs.ripemd_dirties⟩
  · simp only [Snapshot]
    rw [List.pairwise_append]
    refine ⟨hs.sorted, List.pairwise_singleton _ _, ?_⟩
    intro r hr r' hr'
    rw [List.mem_singleton] at hr'
    subst hr'
    exact hnew r hr
  · intro r hr
    simp only [Snapshot, List.mem_append, List.mem_singleton] at hr ⊢
    rcases hr with hr | rfl
    · exact ⟨Nat.lt_succ_of_lt (hnew r hr).1, (hnew r hr).2⟩
    · exact ⟨Nat.lt_succ_self _, le_refl _⟩

theorem Journal.count_take_drop (es : List JournalEntry) (L : ℕ) (a : Address) :
    (Journal.count es a : ℤ) = Journal.count (es.take L) a + Journal.count (es.drop L) a := by
  conv_lhs => rw [← List.take_append_drop L es]
  rw [Journal.count_append]
  push_cast
  rfl

theorem Consistent.revertToSnapshot {s t : StateDB} (hs : s.Consistent db) {revid : ℕ}
    (h : s.RevertToSnapshot db revid = some t) : t.Consistent db := by
  obtain ⟨pre, r, rest, u, hvr, -, hu, rfl⟩ := RevertToSnapshot_split h
  obtain ⟨huc, hue, -, hun, hud, -⟩ := revertJournal_spec hs hu
  have hsorted := hs.sorted
  rw [hvr, List.pairwise_append] at hsorted
  have hr : r.journalIndex ≤ s.journal.length := (hs.bounded r (by rw [hvr]; simp)).2
  refine ⟨⟨huc.keyed, huc.deleted_absent⟩, ?_, hsorted.1, ?_, ?_, ?_⟩
  · intro e he
    rw [hue] at he
    exact hs.wellFormed e (List.mem_of_mem_take he)
  · intro r' hr'
    have hid := (hs.bounded r' (by rw [hvr]; exact List.mem_append_left _ hr')).1
    have hle : r'.journalIndex ≤ r.journalIndex := (hsorted.2.2 r' hr' r List.mem_cons_self).2
    refine ⟨hun ▸ hid, ?_⟩
    show r'.journalIndex ≤ u.journal.entries.length
    rw [hue, List.length_take]
    exact le_min hle (hle.trans hr)
  · intro a ha
    show u.journal.dirties a = Journal.count u.journal.entries a
    rw [hud, hs.dirties a ha, hue, Journal.count_take_drop s.journal.entries r.journalIndex a]
    omega
  · show (Journal.count u.journal.entries ripemd : ℤ) ≤ u.journal.dirties ripemd
    rw [hud, hue]
    have := hs.ripemd_dirties
    rw [Journal.count_take_drop s.journal.entries r.journalIndex ripemd] at this
    omega

theorem step_consistent {s t : StateDB} (hs : s.Consistent db) {op : Op} (h : s.step db op = some t) :
    t.Consistent db := by
  cases op
  all_goals first
    | exact hs.methodSpec (step_methodSpec hs.objects (by exact trivial) h)
    | skip
  case Snapshot =>
    cases h
    exact hs.snapshot
  case RevertToSnapshot revid => exact hs.revertToSnapshot h

theorem run_consistent {s t : StateDB} (hs : s.Consistent db) {ops : List Op}
    (h : s.run db ops = some t) : t.Consistent db :=
  foldlM_invariant (step db) (fun _ _ _ hs h => step_consistent hs h) ops s t hs h

/-! ## Tracking a snapshot along a run -/

theorem id_not_mem_below {pre rest : List Revision} {x : Revision}
    (h : (pre ++ x :: rest).Pairwise Revision.Below) : x.id ∉ pre.map Revision.id := by
  intro hx
  obtain ⟨r, hr, hid⟩ := List.mem_map.mp hx
  have hlt := ((List.pairwise_append.mp h).2.2 r hr x List.mem_cons_self).1
  omega

/-- Cutting an increasing stack at `r` keeps `x` only if `x` lies below `r`. -/
theorem split_of_mem_ids {pre rest pre' rest' : List Revision} {x r : Revision}
    (hsorted : (pre ++ x :: rest).Pairwise Revision.Below) (heq : pre ++ x :: rest = pre' ++ r :: rest')
    (hx : x.id ∈ pre'.map Revision.id) :
    ∃ mid, pre' = pre ++ x :: mid ∧ x.journalIndex ≤ r.journalIndex := by
  rcases List.append_eq_append_iff.mp heq with ⟨as, hpre', hxs⟩ | ⟨bs, hpre, -⟩
  · cases as with
    | nil =>
      rw [List.append_nil] at hpre'
      subst hpre'
      exact absurd hx (id_not_mem_below hsorted)
    | cons y mid =>
      obtain ⟨rfl, hrest⟩ := List.cons_eq_cons.mp hxs
      refine ⟨mid, hpre', ?_⟩
      have hx' := (List.pairwise_append.mp hsorted).2.1
      exact (List.rel_of_pairwise_cons hx' (by rw [hrest]; simp)).2
  · -- the cut is below `x`
    subst hpre
    have : x.id ∈ (pre' ++ bs).map Revision.id := by
      rw [List.map_append]
      exact List.mem_append_left _ hx
    exact absurd this (id_not_mem_below hsorted)

theorem drop_take_append_drop {α : Type*} (l : List α) {L J : ℕ} (hJ : L ≤ J) (hl : L ≤ l.length) :
    l.drop L = (l.take J).drop L ++ l.drop J := by
  conv_lhs => rw [← List.take_append_drop J l]
  exact List.drop_append_of_le_length (by rw [List.length_take]; omega)

/-- The revision `⟨id, entries.length⟩` sits right above `pre` on the stack, the
journal still begins with `entries`, and rolling back what came after them gives
back the view `v`. -/
def Tracks (db : Database) (pre : List Revision) (id : ℕ) (entries : List JournalEntry) (v : View)
    (t : StateDB) : Prop :=
  (∃ rest, t.validRevisions = pre ++ ⟨id, entries.length⟩ :: rest) ∧ entries <+: t.journal.entries ∧
    Undoes (View.revert db) (t.journal.entries.drop entries.length) (t.view db) v

/-- What every state of a run after `Snapshot` returned `id` satisfies: the
invariant, `id` is never handed out again, and while `id` is valid it is tracked. -/
structure SnapshotInv (db : Database) (pre : List Revision) (id : ℕ) (entries : List JournalEntry)
    (v : View) (t : StateDB) : Prop where
  consistent : t.Consistent db
  fresh : id < t.nextRevisionId
  tracks : id ∈ t.validRevisions.map Revision.id → Tracks db pre id entries v t

section Tracking

variable {pre : List Revision} {id : ℕ} {entries : List JournalEntry} {v : View}

theorem Tracks.journalled {s t : StateDB} {es : List JournalEntry} (ht : Tracks db pre id entries v s)
    (hj : Journalled db s t es) : Tracks db pre id entries v t := by
  obtain ⟨hvr, hpre, hundo⟩ := ht
  refine ⟨hj.validRevisions ▸ hvr, hj.entries ▸ hpre.trans (List.prefix_append _ _), ?_⟩
  rw [hj.entries, List.drop_append_of_le_length hpre.length_le]
  exact hundo.append hj.undoes

theorem SnapshotInv.snapshot {s : StateDB} (hs : SnapshotInv db pre id entries v s) :
    SnapshotInv db pre id entries v s.Snapshot.2 := by
  refine ⟨hs.consistent.snapshot, Nat.lt_succ_of_lt hs.fresh, fun hid => ?_⟩
  have hid' : id ∈ s.validRevisions.map Revision.id := by
    simp only [Snapshot, List.map_append, List.mem_append, List.map_singleton,
      List.mem_singleton] at hid
    rcases hid with hid | hid
    · exact hid
    · exact absurd hid (Nat.ne_of_lt hs.fresh)
  obtain ⟨⟨rest, hvr⟩, hpre, hundo⟩ := hs.tracks hid'
  exact ⟨⟨rest ++ [⟨s.nextRevisionId, s.journal.length⟩], by simp [Snapshot, hvr]⟩, hpre, hundo⟩

theorem SnapshotInv.revertToSnapshot {s t : StateDB} (hs : SnapshotInv db pre id entries v s)
    {revid : ℕ} (h : s.RevertToSnapshot db revid = some t) : SnapshotInv db pre id entries v t := by
  have hc := hs.consistent.revertToSnapshot h
  obtain ⟨pre', r, rest', u, hvr', -, hu, rfl⟩ := RevertToSnapshot_split h
  obtain ⟨-, hue, -, hun, -, hundo'⟩ := revertJournal_spec hs.consistent hu
  refine ⟨hc, hun ▸ hs.fresh, fun hid => ?_⟩
  have hid' : id ∈ s.validRevisions.map Revision.id := by
    rw [hvr', List.map_append]
    exact List.mem_append_left _ hid
  obtain ⟨⟨rest, hvr⟩, hpre, hundo⟩ := hs.tracks hid'
  have hsorted := hs.consistent.sorted
  rw [hvr] at hsorted
  obtain ⟨mid, hpre', hle⟩ := split_of_mem_ids hsorted (hvr.symm.trans hvr') hid
  have hL : entries.length ≤ s.journal.entries.length := hpre.length_le
  rw [drop_take_append_drop s.journal.entries hle hL] at hundo
  obtain ⟨w, hw, hrest⟩ := undoes_append_iff.mp hundo
  rw [← Undoes.unique hundo' hw] at hrest
  refine ⟨⟨mid, hpre'⟩, ?_, ?_⟩
  · show entries <+: u.journal.entries
    rw [hue]
    exact List.prefix_take_iff.mpr ⟨hpre, hle⟩
  · show Undoes (View.revert db) (u.journal.entries.drop entries.length) (u.view db) v
    rw [hue]
    exact hrest

theorem SnapshotInv.step {s t : StateDB} (hs : SnapshotInv db pre id entries v s) {op : Op}
    (h : s.step db op = some t) : SnapshotInv db pre id entries v t := by
  by_cases hop : op.IsMutation
  · obtain ⟨es, hj, -⟩ := step_methodSpec hs.consistent.objects hop h
    refine ⟨step_consistent hs.consistent h, hj.nextRevisionId ▸ hs.fresh, fun hid => ?_⟩
    rw [hj.validRevisions] at hid
    exact (hs.tracks hid).journalled hj
  · cases op
    all_goals first
      | exact absurd trivial hop
      | skip
    case Snapshot =>
      cases h
      exact hs.snapshot
    case RevertToSnapshot revid => exact hs.revertToSnapshot h

theorem SnapshotInv.run {s t : StateDB} (hs : SnapshotInv db pre id entries v s) {ops : List Op}
    (h : s.run db ops = some t) : SnapshotInv db pre id entries v t :=
  foldlM_invariant (StateDB.step db) (fun _ _ _ hs h => hs.step h) ops s t hs h

end Tracking

theorem RevertToSnapshot_eq {s u : StateDB} {pre rest : List Revision} {id L : ℕ}
    (hvr : s.validRevisions = pre ++ ⟨id, L⟩ :: rest) (hpre : ∀ r ∈ pre, r.id < id)
    (hu : s.revertJournal db L = some u) :
    s.RevertToSnapshot db id = some { u with validRevisions := pre } := by
  have hbelow : pre.findIdx (fun r => decide (id ≤ r.id)) = pre.length := by
    refine List.findIdx_eq_length.mpr fun r hr => ?_
    have := hpre r hr
    simp only [decide_eq_false_iff_not, not_le]
    exact this
  have hidx : s.validRevisions.findIdx (fun r => decide (id ≤ r.id)) = pre.length := by
    rw [hvr, List.findIdx_append, hbelow, if_neg (lt_irrefl _), List.findIdx_cons]
    simp
  unfold RevertToSnapshot
  dsimp only
  rw [hidx, hvr, List.getElem?_append_right (le_refl _), Nat.sub_self, List.getElem?_cons_zero]
  simp only [ne_eq, not_true_eq_false, if_false, hu, Option.map_some, List.take_left']

theorem Consistent.snapshotInv {s : StateDB} (hc : s.Consistent db) :
    SnapshotInv db s.validRevisions s.nextRevisionId s.journal.entries (s.view db) s.Snapshot.2 := by
  refine ⟨hc.snapshot, Nat.lt_succ_self _, fun _ => ⟨⟨[], rfl⟩, List.prefix_refl _, ?_⟩⟩
  show Undoes (View.revert db) (s.journal.entries.drop s.journal.entries.length) (s.view db) (s.view db)
  rw [List.drop_length]
  exact undoes_nil _

theorem SnapshotInv.revertToSnapshot_view {pre : List Revision} {id : ℕ} {entries : List JournalEntry}
    {v : View} {t u : StateDB} (ht : SnapshotInv db pre id entries v t) (hpre : ∀ r ∈ pre, r.id < id)
    (hvalid : id ∈ t.validRevisions.map Revision.id) (h : t.RevertToSnapshot db id = some u) :
    u.view db = v ∧ u.validRevisions = pre := by
  obtain ⟨⟨rest, hvr⟩, -, hundo⟩ := ht.tracks hvalid
  obtain ⟨w, hw⟩ := revertJournal_isSome ht.consistent hundo
  obtain ⟨-, -, -, -, -, hundo'⟩ := revertJournal_spec ht.consistent hw
  rw [RevertToSnapshot_eq hvr hpre hw, Option.some.injEq] at h
  subst h
  exact ⟨Undoes.unique hundo' hundo, rfl⟩

/-- After any run from `New`, take a snapshot; after any further run that leaves
its id valid, `RevertToSnapshot` to it succeeds, every accessor answers as when
the snapshot was taken, the revisions taken after it are gone, and the dirty
counters count the remaining entries, except that of `ripemd`, which may exceed
it. -/
theorem revertToSnapshot_restores (db : Database) (history ops : List Op) (s t : StateDB)
    (hs : New.run db history = some s) (hrun : s.Snapshot.2.run db ops = some t)
    (hvalid : s.Snapshot.1 ∈ t.validRevisions.map Revision.id) :
    ∃ u, t.RevertToSnapshot db s.Snapshot.1 = some u ∧ u.observe db = s.Snapshot.2.observe db ∧
      u.validRevisions = s.validRevisions ∧ (∀ r ∈ u.validRevisions, r.id < s.Snapshot.1) ∧
      u.journal.entries = s.journal.entries ∧
      (∀ a, a ≠ ripemd → u.journal.dirties a = Journal.count u.journal.entries a) ∧
      (Journal.count u.journal.entries ripemd : ℤ) ≤ u.journal.dirties ripemd := by
  have hc : s.Consistent db := run_consistent (New_consistent db) hs
  have ht := hc.snapshotInv.run hrun
  obtain ⟨⟨rest, hvr⟩, hpre, hundo⟩ := ht.tracks hvalid
  obtain ⟨u, hu⟩ := revertJournal_isSome ht.consistent hundo
  obtain ⟨-, hue, -, -, -, hundo'⟩ := revertJournal_spec ht.consistent hu
  have hsorted := ht.consistent.sorted
  rw [hvr] at hsorted
  have hrev := RevertToSnapshot_eq hvr
    (fun r hr => ((List.pairwise_append.mp hsorted).2.2 r hr _ List.mem_cons_self).1) hu
  have hu' := ht.consistent.revertToSnapshot hrev
  refine ⟨_, hrev, ?_, rfl, fun r hr => (hc.bounded r hr).1, ?_, hu'.dirties, hu'.ripemd_dirties⟩
  · -- both are the rollback of the entries after the snapshot, from the view of `t`
    rw [observe_eq, observe_eq]
    show (u.view db).observe db = (s.view db).observe db
    rw [Undoes.unique hundo' hundo]
  · show u.journal.entries = s.journal.entries
    rw [hue, ← List.prefix_iff_eq_take.mp hpre]

/-- Keccak-256 of the empty string, the code hash of an account without code. -/
def keccakEmpty : Hash := 0xc5d2460186f7233c927e7db2dcc703c0e500b653ca82273b7bfad8045d85a470

/-- An empty database, as the tests open on an empty memory database. Its hash
agrees with Keccak-256 on the empty string, the only input the runs below hash. -/
def memDatabase : Database := ⟨fun _ => none, fun _ _ => 0, fun _ => none, fun _ => keccakEmpty⟩

theorem revertToSnapshot_restores_run :
    ∃ s t, New.run memDatabase [.AddBalance 5 100, .SetState 5 1 2] = some s ∧
      s.Snapshot.2.run memDatabase
        [.SetNonce 5 3, .CreateAccount 7, .Snapshot, .SetState 5 1 9, .RevertToSnapshot 1, .Suicide 5,
          .AddRefund 10, .AddPreimage 9 [1, 2]] = some t ∧
      s.Snapshot.1 ∈ t.validRevisions.map Revision.id ∧
      ∃ u, t.RevertToSnapshot memDatabase s.Snapshot.1 = some u ∧
        u.observe memDatabase = s.Snapshot.2.observe memDatabase ∧
        u.validRevisions = s.validRevisions ∧ (∀ r ∈ u.validRevisions, r.id < s.Snapshot.1) ∧
        u.journal.entries = s.journal.entries ∧
        (∀ a, a ≠ ripemd → u.journal.dirties a = Journal.count u.journal.entries a) ∧
        (Journal.count u.journal.entries ripemd : ℤ) ≤ u.journal.dirties ripemd := by
  refine ⟨_, _, rfl, rfl, by decide, ?_⟩
  exact revertToSnapshot_restores memDatabase [.AddBalance 5 100, .SetState 5 1 2]
    [.SetNonce 5 3, .CreateAccount 7, .Snapshot, .SetState 5 1 9, .RevertToSnapshot 1, .Suicide 5,
      .AddRefund 10, .AddPreimage 9 [1, 2]] _ _ rfl rfl (by decide)

/-- `touch` marks `ripemd` dirty once more than it journals, and rolling back does
not take that mark off: after a snapshot, a zero `AddBalance` to `ripemd` and the
revert, no entry is left but the counter of `ripemd` is one. -/
theorem ripemd_dirty_survives_revert :
    ((New.Snapshot.2.run memDatabase [.AddBalance ripemd 0]).bind
        fun t => t.RevertToSnapshot memDatabase New.Snapshot.1).map
      (fun u => (u.journal.entries.length, u.journal.dirties ripemd)) = some (0, 1) := by
  decide

end StateDB

end EthereumAI.State
