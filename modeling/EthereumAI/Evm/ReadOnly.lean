import EthereumAI.Evm.Calls

/-! # Static calls (`core/vm/evm.go`, `core/vm/interpreter.go`)

From Byzantium, `StaticCall` runs its callee with the interpreter's read-only flag set,
and `enforceRestrictions` then refuses `SSTORE`, `LOG0` .. `LOG4`, `CREATE`,
`SELFDESTRUCT` and a `CALL` with value before they run: the calls of the callee pass the
flag on, and a nested `StaticCall` finds it set and leaves it so, so this holds at every
depth below the static call. What its frames can still do to the state is what a `CALL`
without value does: the transfer of nothing finds or creates the objects at both of its
ends, and a missing account called is made unless EIP-158 skips the call, which it does
not for a precompiled contract. A static call can so make an empty account, and changes
nothing else the accessors see but the preimages.
-/

namespace EthereumAI.Evm

open State

/-- What a frame in read-only mode does to the state: what `Conserves` says, with no
self-destruct kept, and a view that only grows. -/
structure KeepsView (db : Database) (s t : StateDB) : Prop where
  conserves : Conserves db s t []
  grows : (s.view db).Grows db (t.view db)

namespace KeepsView

variable {db : Database} {s t u : StateDB}

theorem refl (s : StateDB) : KeepsView db s s := ⟨.refl s, .refl _⟩

theorem trans (h₁ : KeepsView db s t) (h₂ : KeepsView db t u) : KeepsView db s u :=
  ⟨h₁.conserves.nil_trans h₂.conserves, h₁.grows.trans h₂.grows⟩

theorem consistent (h : KeepsView db s t) (hs : s.Consistent db) : t.Consistent db :=
  h.conserves.consistent hs

theorem read (hs : s.Consistent db) (q : Query) : KeepsView db s (s.read db q) :=
  ⟨.read hs q, .of_eq (StateDB.read_spec db hs.objects.keyed q).1⟩

theorem Snapshot (s : StateDB) : KeepsView db s s.Snapshot.2 :=
  ⟨.Snapshot s, .refl _⟩

theorem loadCode (hs : s.Consistent db) (addr : Address) : KeepsView db s (loadCode db s addr) :=
  (read hs (.GetCodeHash addr)).trans (read ((read hs _).consistent hs) (.GetCode addr))

theorem CreateAccount (hs : s.Consistent db) {addr : Address} (h : s.accountView db addr = none) :
    KeepsView db s (s.CreateAccount db addr) :=
  ⟨.CreateAccount hs addr, StateDB.CreateAccount_grows h⟩

theorem Transfer_zero (hs : s.Consistent db) (sender recipient : Address) :
    KeepsView db s (Transfer db s sender recipient 0) :=
  ⟨.Transfer hs sender recipient 0,
    (StateDB.SubBalance_zero_grows sender).trans (StateDB.AddBalance_zero_grows recipient)⟩

theorem effect (hs : s.Consistent db) (self : Address) {e : Effect} (hw : e.writes = false)
    (h : s.step db (e.op self) = some t) : KeepsView db s t := by
  refine ⟨Conserves.effect hs self e h, ?_⟩
  cases e with
  | read q =>
    cases h
    exact .of_eq (StateDB.read_spec db hs.objects.keyed q).1
  | AddPreimage hash preimage =>
    cases h
    exact StateDB.AddPreimage_grows hash preimage
  | SetState _ _ | AddRefund _ | AddLog _ => cases hw

theorem effects (self : Address) :
    ∀ (es : List Effect) (s t : StateDB), s.Consistent db → es.any Effect.writes = false →
      s.run db (es.map (Effect.op self)) = some t → KeepsView db s t
  | [], s, t, _, _, h => by
    cases h
    exact refl s
  | e :: es, s, t, hs, hw, h => by
    simp only [List.any_cons, Bool.or_eq_false_iff] at hw
    simp only [List.map_cons, StateDB.run, List.foldlM_cons] at h
    obtain ⟨u, hu, h⟩ := Option.bind_eq_some_iff.mp h
    have h₁ := effect hs self hw.1 hu
    exact h₁.trans (effects self es u t (h₁.consistent hs) hw.2 h)

theorem revert (hs : s.Consistent db) (ht : KeepsView db s.Snapshot.2 t)
    (h : t.RevertToSnapshot db s.Snapshot.1 = some u) : KeepsView db s u :=
  ⟨revert_conserves hs ht.conserves h,
    .of_eq (revert_restores hs ht.conserves.reaches ht.conserves.revisions h).2.2⟩

end KeepsView

/-- A frame that, from every consistent state, keeps the view as `KeepsView` says and
keeps no self-destruct. -/
def FrameKeepsView (db : Database) (run : UInt64 → StateDB → Option Outcome) : Prop :=
  ∀ gas s o, s.Consistent db → run gas s = some o → KeepsView db s o.state ∧ o.burnt = []

/-! ## The read-only flag -/

namespace EVM

theorem staticReadOnly_fst (readOnly : Bool) : (staticReadOnly readOnly).1 = true := by
  cases readOnly <;> rfl

theorem staticReadOnly_snd (readOnly : Bool) : (staticReadOnly readOnly).2 = readOnly := by
  cases readOnly <;> rfl

theorem readOnlyAfter_eq (kind : CallKind) (readOnly : Bool) : readOnlyAfter kind readOnly = readOnly := by
  cases kind
  case STATICCALL => exact staticReadOnly_snd readOnly
  all_goals rfl

end EVM

section Calls

variable {r : Rules} {db : Database} {precompiled : Address → Bool} {s : StateDB} {c : Returned}

theorem Returned.AtOnce.keepsView {t : StateDB} {gas : UInt64} (hc : c.AtOnce t gas)
    (ht : KeepsView db s t) : KeepsView db s c.state ∧ c.burnt = [] := by
  rw [hc.state]
  exact ⟨ht, hc.burnt⟩

theorem settle_keepsView (hs : s.Consistent db) {o : Outcome} (ho : KeepsView db s.Snapshot.2 o.state)
    (hb : o.burnt = []) (h : settle db s.Snapshot.1 o = some c) : KeepsView db s c.state ∧ c.burnt = [] := by
  unfold settle at h
  split at h
  · cases h
    exact ⟨(KeepsView.Snapshot s).trans ho, hb⟩
  · obtain ⟨u, hu, rfl⟩ := Option.map_eq_some_iff.mp h
    exact ⟨KeepsView.revert hs ho hu, rfl⟩
  · obtain ⟨u, hu, rfl⟩ := Option.map_eq_some_iff.mp h
    exact ⟨KeepsView.revert hs ho hu, rfl⟩

theorem frame_keepsView {run : UInt64 → StateDB → Option Outcome} (hrun : FrameKeepsView db run)
    (hs : s.Consistent db) {t : StateDB} (ht : KeepsView db s.Snapshot.2 t) {gas : UInt64}
    (h : (run gas t).bind (settle db s.Snapshot.1) = some c) : KeepsView db s c.state ∧ c.burnt = [] := by
  obtain ⟨o, ho, hc⟩ := Option.bind_eq_some_iff.mp h
  obtain ⟨hrun₁, hb⟩ := hrun _ _ _ (ht.consistent ((KeepsView.Snapshot s).consistent hs)) ho
  exact settle_keepsView hs (ht.trans hrun₁) hb hc

/-- A `CALL` without value moves nothing, but makes the account called when it is missing. -/
theorem Call_keepsView {run : UInt64 → StateDB → Option Outcome} (hrun : FrameKeepsView db run)
    (hs : s.Consistent db) {depth : ℕ} {caller addr : Address} {gas : UInt64}
    (h : EVM.Call r db precompiled depth caller addr gas 0 run s = some c) :
    KeepsView db s c.state ∧ c.burnt = [] := by
  rcases Call_cases h with hc | ⟨s₁, rfl, h⟩
  · exact hc.keepsView (.refl s)
  have h₁ := KeepsView.read hs (.GetBalance caller)
  have hs₂ := (KeepsView.Snapshot _).consistent (h₁.consistent hs)
  have h₃ := KeepsView.read hs₂ (.Exist addr)
  rcases h with hc | ⟨s₃, rfl, hc | ⟨s₄, hs₄, h⟩⟩
  · exact hc.keepsView h₁
  · exact hc.keepsView (h₁.trans ((KeepsView.Snapshot _).trans h₃))
  have h₄ : KeepsView db (s.read db (.GetBalance caller)).Snapshot.2 s₄ := by
    rcases hs₄ with rfl | ⟨hnone, rfl⟩
    · exact h₃
    · exact h₃.trans (.CreateAccount (h₃.consistent hs₂) hnone)
  have h₅ := h₄.trans (KeepsView.Transfer_zero (h₄.consistent hs₂) caller addr)
  obtain ⟨hc₁, hb⟩ :=
    frame_keepsView hrun (h₁.consistent hs) (h₅.trans (KeepsView.loadCode (h₅.consistent hs₂) addr)) h
  exact ⟨h₁.trans hc₁, hb⟩

theorem CallCode_keepsView {run : UInt64 → StateDB → Option Outcome} (hrun : FrameKeepsView db run)
    (hs : s.Consistent db) {depth : ℕ} {caller addr : Address} {gas : UInt64} {value : ℕ}
    (h : EVM.CallCode r db depth caller addr gas value run s = some c) :
    KeepsView db s c.state ∧ c.burnt = [] := by
  rcases CallCode_cases h with hc | ⟨s₁, rfl, hc | h⟩
  · exact hc.keepsView (.refl s)
  · exact hc.keepsView (.read hs _)
  · have h₁ := KeepsView.read hs (.GetBalance caller)
    have hs₁ := h₁.consistent hs
    obtain ⟨hc₁, hb⟩ :=
      frame_keepsView hrun hs₁ (KeepsView.loadCode ((KeepsView.Snapshot _).consistent hs₁) addr) h
    exact ⟨h₁.trans hc₁, hb⟩

theorem DelegateCall_keepsView {run : UInt64 → StateDB → Option Outcome} (hrun : FrameKeepsView db run)
    (hs : s.Consistent db) {depth : ℕ} {addr : Address} {gas : UInt64}
    (h : EVM.DelegateCall r db depth addr gas run s = some c) :
    KeepsView db s c.state ∧ c.burnt = [] := by
  rcases DelegateCall_cases h with hc | h
  · exact hc.keepsView (.refl s)
  · exact frame_keepsView hrun hs (KeepsView.loadCode ((KeepsView.Snapshot s).consistent hs) addr) h

theorem callOf_keepsView {run : Bool → Address → UInt64 → StateDB → Option Outcome}
    (hrun : ∀ addr, FrameKeepsView db (run true addr)) (hs : s.Consistent db) {kind : CallKind}
    {depth : ℕ} {self : Address} {o : CallOperands} {gas : UInt64} (hv : kind = .CALL → o.value = 0)
    (h : EVM.callOf r db precompiled kind depth true self o gas run s = some c) :
    KeepsView db s c.state ∧ c.burnt = [] := by
  cases kind with
  | CALL =>
    have h' : EVM.Call r db precompiled depth self o.toAddr gas 0 (run true o.toAddr) s = some c := by
      rw [← hv rfl]
      exact h
    exact Call_keepsView (hrun _) hs h'
  | CALLCODE => exact CallCode_keepsView (hrun _) hs h
  | DELEGATECALL => exact DelegateCall_keepsView (hrun _) hs h
  | STATICCALL => exact DelegateCall_keepsView (hrun _) hs h

theorem Run_refused {CreateAddress : Address → UInt64 → Address} {depth : ℕ} {readOnly : Bool}
    {self : Address} {trace : Trace} {gas : UInt64} {o : Outcome}
    (he : Interpreter.enforceRestrictions r readOnly trace = true)
    (h : Interpreter.Run r db precompiled CreateAddress depth readOnly self trace gas s = some o) :
    o = ⟨.error, gas, [], s, []⟩ := by
  rw [Interpreter.Run.eq_def, if_pos he] at h
  exact (Option.some.inj h).symm

theorem Run_writeProtection (hB : r.IsByzantium = true) {CreateAddress : Address → UInt64 → Address}
    {depth : ℕ} {self : Address} {trace : Trace} (hw : trace.writes = true ∨ 0 < trace.callValue)
    (gas : UInt64) (s : StateDB) :
    Interpreter.Run r db precompiled CreateAddress depth true self trace gas s =
      some ⟨.error, gas, [], s, []⟩ := by
  have he : Interpreter.enforceRestrictions r true trace = true := by
    rcases hw with hw | hw <;> simp [Interpreter.enforceRestrictions, hB, hw]
  rw [Interpreter.Run.eq_def, if_pos he]

/-- Every frame in read-only mode from Byzantium, whatever its code and at every depth,
keeps the view as `KeepsView` says and keeps no self-destruct: the instructions that write
are refused, and the calls it makes run in read-only mode too. -/
theorem Run_keepsView (hB : r.IsByzantium = true) (CreateAddress : Address → UInt64 → Address)
    (trace : Trace) :
    ∀ depth self, FrameKeepsView db (Interpreter.Run r db precompiled CreateAddress depth true self trace) := by
  induction trace with
  | halt how ret =>
    intro depth self gas s o hs h
    rw [Interpreter.Run] at h
    split at h <;> cases h <;> exact ⟨.refl s, rfl⟩
  | op effects cost next ih =>
    intro depth self gas s o hs h
    rw [Interpreter.Run] at h
    split at h
    · cases h
      exact ⟨.refl s, rfl⟩
    rename_i hallowed
    -- an instruction let through writes nothing
    have hw : effects.any Effect.writes = false := by
      simpa [Interpreter.enforceRestrictions, hB, Trace.writes, Trace.callValue] using hallowed
    obtain ⟨s₁, he, h⟩ := Option.bind_eq_some_iff.mp h
    have h₁ := KeepsView.effects self effects s s₁ hs hw he
    split at h
    · cases h
      exact ⟨h₁, rfl⟩
    · split_ifs at h with hlt
      · cases h
        exact ⟨h₁, rfl⟩
      · obtain ⟨h₂, hb⟩ := ih depth self _ _ _ (h₁.consistent hs) h
        exact ⟨h₁.trans h₂, hb⟩
  | selfdestruct beneficiary =>
    intro depth self gas s o hs h
    rw [Run_refused (by simp [Interpreter.enforceRestrictions, hB, Trace.writes]) h]
    exact ⟨.refl s, rfl⟩
  | call kind o callee next ihc ihn =>
    intro depth self gas s out hs h
    rw [Interpreter.Run] at h
    split at h
    · cases h
      exact ⟨.refl s, rfl⟩
    rename_i hallowed
    -- a `CALL` let through carries no value
    have hv : kind = .CALL → o.value = 0 := by
      rintro rfl
      simpa [Interpreter.enforceRestrictions, hB, Trace.writes, Trace.callValue] using hallowed
    dsimp only at h
    split at h
    · cases h
      exact ⟨.refl s, rfl⟩
    · split_ifs at h with hlt
      · cases h
        exact ⟨.refl s, rfl⟩
      obtain ⟨c, hc, h⟩ := Option.bind_eq_some_iff.mp h
      obtain ⟨out', hout, rfl⟩ := Option.map_eq_some_iff.mp h
      obtain ⟨h₁, hb₁⟩ := callOf_keepsView (fun addr => ihc (depth + 1) addr) hs hv hc
      -- the caller goes on in read-only mode
      rw [EVM.readOnlyAfter_eq] at hout
      obtain ⟨h₂, hb₂⟩ := ihn depth self _ _ _ (h₁.consistent hs) hout
      exact ⟨h₁.trans h₂, by simp [hb₁, hb₂]⟩
  | create cost value initCode next ihi ihn =>
    intro depth self gas s out hs h
    rw [Run_refused (by simp [Interpreter.enforceRestrictions, hB, Trace.writes]) h]
    exact ⟨.refl s, rfl⟩

/-! ## What a static call leaves -/

/-- From Byzantium, `StaticCall` runs its callee, whatever its code, in read-only mode, and
the caller goes on with the flag it had; in read-only mode every instruction that writes and
every `CALL` with value fails with `errWriteProtection` before it runs. Once the call
returned, every account that was there is as it was, and so are the refund counter and the
logs; a missing account may now be there, empty; no self-destruct is kept. -/
theorem StaticCall_read_only (r : Rules) (hB : r.IsByzantium = true) (db : Database)
    (precompiled : Address → Bool) (CreateAddress : Address → UInt64 → Address) (callee : Trace)
    (depth : ℕ) (addr : Address) (gas : UInt64) (readOnly : Bool) (s : StateDB) (c : Returned)
    (hs : s.Consistent db)
    (h : EVM.StaticCall r db depth addr gas readOnly
      (fun ro g t => Interpreter.Run r db precompiled CreateAddress (depth + 1) ro addr callee g t) s = some c) :
    (EVM.staticReadOnly readOnly).1 = true ∧ (EVM.staticReadOnly readOnly).2 = readOnly ∧
      (∀ d a (t : Trace) g (u : StateDB), (t.writes = true ∨ 0 < t.callValue) →
        Interpreter.Run r db precompiled CreateAddress d true a t g u = some ⟨.error, g, [], u, []⟩) ∧
      (s.view db).Grows db (c.state.view db) ∧ c.burnt = [] := by
  have hrun : FrameKeepsView db (Interpreter.Run r db precompiled CreateAddress (depth + 1) true addr callee) :=
    Run_keepsView hB CreateAddress callee (depth + 1) addr
  have h' : EVM.DelegateCall r db depth addr gas
      (Interpreter.Run r db precompiled CreateAddress (depth + 1) true addr callee) s = some c := by
    rw [EVM.StaticCall, EVM.staticReadOnly_fst] at h
    exact h
  obtain ⟨hk, hb⟩ := DelegateCall_keepsView hrun hs h'
  exact ⟨EVM.staticReadOnly_fst readOnly, EVM.staticReadOnly_snd readOnly,
    fun _ _ _ g u hw => Run_writeProtection hB hw g u, hk.grows, hb⟩

/-- The rules of a block from Byzantium on. -/
def byzantium : Rules := ⟨true, true, true, true, false⟩

/-- The precompiled contracts from Byzantium, at `1` .. `8`. -/
def byzantiumPrecompiles (a : Address) : Bool := decide (1 ≤ a.val ∧ a.val ≤ 8)

/-- Code that calls the identity contract at `4` without value, passing it 100 gas:
`PUSH1 0` five times, `PUSH1 4`, `PUSH1 100`, `CALL`, `STOP`. -/
def callIdentityCode : Bytes := [0x60, 0, 0x60, 0, 0x60, 0, 0x60, 0, 0x60, 0, 0x60, 4, 0x60, 100, 0xF1, 0]

/-- What that code does: seven pushes of 3 gas each, then the `CALL`, in which the identity
contract charges 15 gas for its empty input and returns it. -/
def callIdentity : Trace :=
  .op [] (.ok 3) <| .op [] (.ok 3) <| .op [] (.ok 3) <| .op [] (.ok 3) <| .op [] (.ok 3) <|
    .op [] (.ok 3) <| .op [] (.ok 3) <|
      .call .CALL ⟨4, 100, 0, ⟨[], 0⟩, 0⟩ (.op [] (.ok 15) (.halt .stop [])) (.halt .stop [])

/-- A static call to `5`, whose code calls the identity contract without value: the account
of the contract, missing before, is there once the static call returned without error. -/
theorem StaticCall_creates_account :
    ∃ s c, StateDB.New.run StateDB.memDatabase [.SetCode 5 (some callIdentityCode)] = some s ∧
      EVM.StaticCall byzantium StateDB.memDatabase 1 5 100000 false
        (fun ro g t => Interpreter.Run byzantium StateDB.memDatabase byzantiumPrecompiles (fun _ _ => 9) 2 ro 5
          callIdentity g t) s = some c ∧
      c.err = none ∧ (s.Exist StateDB.memDatabase 4).1 = false ∧ (c.state.Exist StateDB.memDatabase 4).1 = true :=
  ⟨_, _, rfl, rfl, rfl, rfl, rfl⟩

theorem StaticCall_read_only_identity :
    ∃ s c, StateDB.New.run StateDB.memDatabase [.SetCode 5 (some callIdentityCode)] = some s ∧
      EVM.StaticCall byzantium StateDB.memDatabase 1 5 100000 false
        (fun ro g t => Interpreter.Run byzantium StateDB.memDatabase byzantiumPrecompiles (fun _ _ => 9) 2 ro 5
          callIdentity g t) s = some c ∧
      (EVM.staticReadOnly false).1 = true ∧ (EVM.staticReadOnly false).2 = false ∧
      (∀ d a (t : Trace) g (u : StateDB), (t.writes = true ∨ 0 < t.callValue) →
        Interpreter.Run byzantium StateDB.memDatabase byzantiumPrecompiles (fun _ _ => 9) d true a t g u =
          some ⟨.error, g, [], u, []⟩) ∧
      (s.view StateDB.memDatabase).Grows StateDB.memDatabase (c.state.view StateDB.memDatabase) ∧
      c.burnt = [] :=
  ⟨_, _, rfl, rfl, StaticCall_read_only byzantium rfl StateDB.memDatabase byzantiumPrecompiles (fun _ _ => 9)
    callIdentity 1 5 100000 false _ _
    (StateDB.Reaches.consistent ⟨[.SetCode 5 (some callIdentityCode)], rfl⟩ (StateDB.New_consistent _)) rfl⟩

end Calls

end EthereumAI.Evm
