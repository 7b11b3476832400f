import Waros.Kernel.Pkg.StateFile

/-!
The boot-health protocol of offline updates over whole runs. A trail next to
the system counts what has happened since the last apply that succeeded; the
state file and the trail stay in step, so the flags of the transaction say
how many boots there have been and whether the last one reached the shell.
-/

namespace Waros.Kernel.Pkg

open Lib Waros.Pkg UpdateOp UpdateState Bool Option

/-- The boots since the last apply that succeeded, and whether
`note_shell_ready` has been called since the last of them. -/
structure Trail where
  boots : ℕ
  ready : Bool
  deriving DecidableEq

def UpdateOp.follow (succeeded : Bool) (trail : Option Trail) : UpdateOp → Option Trail
  | .apply _ | .applyStaged => if succeeded then some ⟨0, false⟩ else trail
  | .prepareBoot => trail.map fun trail => ⟨trail.boots + 1, false⟩
  | .noteShellReady => trail.map fun trail => ⟨trail.boots, true⟩
  | _ => trail

structure Monitored where
  state : PkgState
  trail : Option Trail

variable (env : PkgEnv) (m : Monitored) (event : UpdateEvent)

def Monitored.step : Monitored :=
  let result := event.op.call env (m.state.inWorld event.world)
  ⟨result.2, event.op.follow result.1.isOk m.trail⟩

/-- The guard on a step. -/
def Monitored.Spares : Prop := event.op.SparesState env (m.state.inWorld event.world)
  deriving Decidable

def UpdateState.phase (state : UpdateState) : Option UpdatePhase :=
  state.current.map UpdateTransaction.phase

/-- How the flags of a pending transaction follow the trail. -/
def Tracks (transaction : UpdateTransaction) (trail : Trail) : Prop :=
  (trail.boots = 0 ∧ transaction.bootStarted = false) ∨
    (trail.boots = 1 ∧ transaction.bootStarted = true ∧
      (transaction.bootObserved = true → trail.ready = true))

structure Healthy (state : UpdateState) (trail : Option Trail) : Prop where
  failed : ∀ transaction, state.current = some transaction → transaction.phase = .failed →
    state.recoveryRequested = true
  observed : ∀ transaction, state.current = some transaction →
    transaction.bootObserved = true → transaction.bootStarted = true
  pending : ∀ transaction, state.current = some transaction →
    transaction.phase = .pendingConfirmation →
    ∃ found, trail = some found ∧ Tracks transaction found

lemma healthy_default (trail : Option Trail) : Healthy default trail := by
  constructor <;> simp [UpdateState.default]

variable {state : UpdateState} {trail : Option Trail} {transaction : UpdateTransaction}
  {before after : UpdateState} {op : UpdateOp}

lemma healthy_of_current (hcur : state.current = some transaction)
    (hfail : transaction.phase = .failed → state.recoveryRequested)
    (hobs : transaction.bootObserved → transaction.bootStarted)
    (hpend : transaction.phase = .pendingConfirmation →
      ∃ found, trail = some found ∧ Tracks transaction found) : Healthy state trail where
  failed other ho := by
    obtain rfl := some.inj (hcur.symm.trans ho)
    exact hfail
  observed other ho := by
    obtain rfl := some.inj (hcur.symm.trans ho)
    exact hobs
  pending other ho := by
    obtain rfl := some.inj (hcur.symm.trans ho)
    exact hpend

/-- The transaction stays, and recovery is not withdrawn from a failed one. -/
lemma Healthy.of_current (h : Healthy before trail) (hcur : after.current = before.current)
    (hreco : before.recoveryRequested → after.recoveryRequested = false →
      before.busy = false) : Healthy after trail where
  failed transaction haft hph := by
    have hbef := hcur.symm.trans haft
    cases hrequ : after.recoveryRequested with
    | true => rfl
    | false =>
      have hbusy := hreco (h.failed transaction hbef hph) hrequ
      simp [busy, hbef, hph] at hbusy
  observed transaction haft := h.observed transaction (hcur.symm.trans haft)
  pending transaction haft := h.pending transaction (hcur.symm.trans haft)

/-- The first boot of a pending transaction is recorded, the second fails it. -/
lemma healthy_bootPending {trail : Trail} (h : Healthy state (some trail))
    (hcur : state.current = some transaction) (hph : transaction.phase = .pendingConfirmation) :
    Healthy (bootPending state transaction).1 (some ⟨trail.boots + 1, false⟩) ∧
      (1 ≤ trail.boots → (bootPending state transaction).1.phase = some .failed ∧
        (bootPending state transaction).1.recoveryRequested) ∧
      (bootPending state transaction).1.phase ≠ some .confirmed := by
  obtain ⟨_, htra, htrs⟩ := h.pending transaction hcur hph
  cases htra
  have hobs := h.observed transaction hcur
  rw [bootPending]
  rcases htrs with ⟨hboo, hstd⟩ | ⟨hboo, hstd, hrdy⟩
  · have huns : transaction.bootObserved = false := by
      cases hse : transaction.bootObserved with
      | false => rfl
      | true => cases (hobs hse).symm.trans hstd
    simp only [hstd, huns]
    refine ⟨healthy_of_current rfl ?_ (fun _ => rfl) fun _ => ?_, fun hsec => ?_, ?_⟩
    · intro hfail
      cases hfail.symm.trans hph
    · exact ⟨_, rfl, .inr ⟨by rw [hboo], rfl, fun hse => absurd hse (by simp)⟩⟩
    · omega
    · simp [phase, hph]
  · cases hse : transaction.bootObserved with
    | false =>
      simp only [hstd, Bool.not_false, Bool.and_true, if_true]
      refine ⟨healthy_of_current rfl (fun _ => rfl) (fun _ => rfl) fun hpend => ?_,
        fun _ => ⟨rfl, trivial⟩, by simp [phase]⟩
      cases hpend
    | true =>
      simp only [hstd, Bool.not_true, Bool.and_false, false_eq_true, if_false, if_true]
      refine ⟨healthy_of_current rfl (fun _ => rfl) (fun _ => rfl) fun hpend => ?_,
        fun _ => ⟨rfl, trivial⟩, by simp [phase]⟩
      cases hpend

lemma healthy_bootState (h : Healthy state trail) :
    Healthy (bootState state).1 (trail.map fun trail => ⟨trail.boots + 1, false⟩) ∧
      (state.phase = some .pendingConfirmation → (∃ found, trail = some found ∧ 1 ≤ found.boots) →
        (bootState state).1.phase = some .failed ∧ (bootState state).1.recoveryRequested) ∧
      ((bootState state).1.phase = some .confirmed → state.phase = some .confirmed) := by
  cases hcur : state.current with
  | none =>
    have hboot : (bootState state).1 = state := by simp only [bootState, hcur]
    rw [hboot]
    exact ⟨⟨by simp [hcur], by simp [hcur], by simp [hcur]⟩, by simp [phase, hcur], id⟩
  | some transaction =>
    have hph : state.phase = some transaction.phase := by simp [phase, hcur]
    have hobs := h.observed transaction hcur
    cases hcase : transaction.phase with
    | pendingConfirmation =>
      have hboot : bootState state = bootPending state transaction := by
        simp only [bootState, hcur, hcase]
      obtain ⟨found, rfl, -⟩ := h.pending transaction hcur hcase
      obtain ⟨hhea, hsec, hconf⟩ := healthy_bootPending h hcur hcase
      rw [hboot]
      refine ⟨hhea, ?_, fun hcon => absurd hcon hconf⟩
      rintro - ⟨_, hfd, hboo⟩
      cases hfd
      exact hsec hboo
    | failed =>
      have hs : (bootState state).1.current = some transaction := by
        simp only [bootState, hcur, hcase]
      have hreco : (bootState state).1.recoveryRequested := by
        simp only [bootState, hcur, hcase]
      refine ⟨healthy_of_current hs (fun _ => hreco) hobs fun hpend => ?_,
        fun hpend => ?_, fun hconf => ?_⟩
      · cases hpend.symm.trans hcase
      · rw [hph, hcase] at hpend
        cases hpend
      · rw [phase, hs, map_some, hcase] at hconf
        cases hconf
    | staged | confirmed | rolledBack =>
      have hboot : (bootState state).1 = state := by simp only [bootState, hcur, hcase]
      rw [hboot]
      refine ⟨healthy_of_current hcur (fun hfail => ?_) hobs fun hpend => ?_, fun hpend => ?_, id⟩
      · cases hfail.symm.trans hcase
      · cases hpend.symm.trans hcase
      · rw [hph, hcase] at hpend
        cases hpend

/-- What a call that saves does to a healthy state. -/
lemma UpdateOp.next_healthy (h : Healthy before trail) (hnx : op.Next before after) :
    Healthy after (op.follow true trail) ∧
      (after.phase = some .confirmed → before.phase ≠ some .confirmed →
        op = .confirm ∧ trail = some ⟨1, true⟩) := by
  cases op with
  | stage =>
    obtain ⟨-, transaction, rfl, hph, hstd, hobs⟩ := hnx
    refine ⟨healthy_of_current rfl ?_ ?_ ?_, ?_⟩
    · simp [hph]
    · simp [hobs]
    · simp [hph]
    · simp [phase, hph]
  | apply path | applyStaged =>
    obtain ⟨-, transaction, haft, hph, hstd, hobs⟩ := hnx
    refine ⟨healthy_of_current haft ?_ ?_ fun _ => ⟨_, rfl, .inl ⟨rfl, hstd⟩⟩, ?_⟩
    · simp [hph]
    · simp [hobs]
    · simp [phase, haft, hph]
  | confirm =>
    obtain ⟨old, transaction, hbef, hpend, hse, haft, hph, -, hobs, -⟩ := hnx
    refine ⟨healthy_of_current haft ?_ ?_ ?_, fun _ _ => ⟨rfl, ?_⟩⟩
    · simp [hph]
    · simp [hobs]
    · simp [hph]
    · obtain ⟨⟨boots, ready⟩, rfl, htrs⟩ := h.pending old hbef hpend
      rcases htrs with ⟨-, hstd⟩ | ⟨hboo, -, hrdy⟩
      · cases (h.observed old hbef hse).symm.trans hstd
      · obtain rfl : boots = 1 := hboo
        obtain rfl : ready := hrdy hse
        rfl
  | reject =>
    obtain ⟨old, transaction, hbef, -, haft, hph, hstd, hobs, -, hreco⟩ := hnx
    refine ⟨healthy_of_current haft (fun _ => hreco) ?_ ?_, ?_⟩
    · rw [hstd, hobs]
      exact h.observed old hbef
    · simp [hph]
    · simp [phase, haft, hph]
  | rollback =>
    obtain ⟨transaction, haft, hph, -, hobs⟩ := hnx
    refine ⟨healthy_of_current haft ?_ ?_ ?_, ?_⟩
    · simp [hph]
    · simp [hobs]
    · simp [hph]
    · simp [phase, haft, hph]
  | clearCompleted =>
    have haft : after.current = none := hnx
    exact ⟨⟨by simp [haft], by simp [haft], by simp [haft]⟩, by simp [phase, haft]⟩
  | requestRecovery =>
    obtain ⟨hcur, hreco⟩ := hnx
    refine ⟨h.of_current hcur fun _ hcon => ?_, fun haft hbef => ?_⟩
    · cases hcon.symm.trans hreco
    · exact absurd ((congrArg (Option.map _) hcur).symm.trans haft) hbef
  | clearRecovery =>
    obtain ⟨hbusy, hcur⟩ := hnx
    refine ⟨h.of_current hcur fun _ _ => hbusy, fun haft hbef => ?_⟩
    exact absurd ((congrArg (Option.map _) hcur).symm.trans haft) hbef
  | prepareBoot =>
    obtain rfl : after = (bootState before).1 := hnx
    obtain ⟨hhea, -, hconf⟩ := healthy_bootState h
    exact ⟨hhea, fun haft hbef => absurd (hconf haft) hbef⟩
  | noteShellReady =>
    obtain ⟨old, transaction, hbef, hpend, hstd, haft, hph, hstd', -, -, -⟩ := hnx
    obtain ⟨found, rfl, htrs⟩ := h.pending old hbef hpend
    refine ⟨healthy_of_current haft ?_ (fun _ => hstd') fun _ => ?_, ?_⟩
    · simp [hph]
    · rcases htrs with ⟨-, hcon⟩ | ⟨hboo, -, -⟩
      · cases hstd.symm.trans hcon
      · exact ⟨_, rfl, .inr ⟨hboo, hstd', fun _ => rfl⟩⟩
    · simp [phase, haft, hph]

/-- A call that saves nothing, other than a boot. -/
lemma UpdateOp.unsaved_healthy {succeeded : Bool} (h : Healthy state trail)
    (hop : op ≠ .prepareBoot) (hsucc : succeeded → op = .noteShellReady) :
    Healthy state (op.follow succeeded trail) := by
  cases op with
  | prepareBoot => exact absurd rfl hop
  | apply path | applyStaged =>
    cases succeeded with
    | false => exact h
    | true => cases hsucc rfl
  | noteShellReady =>
    refine ⟨h.failed, h.observed, fun transaction hcur hph => ?_⟩
    obtain ⟨found, rfl, htrs⟩ := h.pending transaction hcur hph
    exact ⟨_, rfl, htrs.imp_right fun ⟨hboo, hstd, _⟩ => ⟨hboo, hstd, fun _ => rfl⟩⟩
  | _ => exact h

lemma prepareBoot_isOk (s : PkgState) : ((UpdateOp.prepareBoot.call env s).1).isOk := by
  have hok : ∃ report t, prepareBoot env s = (.ok report, t) := by
    rw [prepareBoot]
    split <;> exact ⟨_, _, rfl⟩
  obtain ⟨report, t, hprep⟩ := hok
  rw [call, Fallible.bind_of_ok hprep]
  rfl

lemma Monitored.step_healthy {env : PkgEnv} (hrd : env.states.RoundTrips) {m : Monitored}
    {ev : UpdateEvent} (hst : loadState env m.state = .ok state) (h : Healthy state m.trail)
    (hsp : m.Spares env ev) :
    ∃ after, loadState env (m.step env ev).state = .ok after ∧ Healthy after (m.step env ev).trail ∧
      (after.phase = some .confirmed → state.phase ≠ some .confirmed →
        ev.op = .confirm ∧ m.trail = some ⟨1, true⟩) ∧
      (ev.op = .prepareBoot → state.phase = some .pendingConfirmation →
        (∃ trail, m.trail = some trail ∧ 1 ≤ trail.boots) →
        after.phase = some .failed ∧ after.recoveryRequested) := by
  have hword : loadState env (m.state.inWorld ev.world) = .ok state :=
    (loadState_congr rfl).trans hst
  have hnx := ev.op.call_next hrd hword hsp
  rcases hc : ev.op.call env (m.state.inWorld ev.world) with ⟨error | _, t⟩
  · have hboot : ev.op ≠ .prepareBoot := by
      intro hop
      have hok := prepareBoot_isOk env (m.state.inWorld ev.world)
      rw [← hop, hc] at hok
      exact absurd hok false_ne_true
    refine ⟨state, ?_, ?_, fun haft hbef => absurd haft hbef, fun hop => absurd hop hboot⟩
    · simpa only [step, hc] using hnx.error hc
    · simp only [step, hc]
      exact unsaved_healthy h hboot fun hcon => absurd hcon false_ne_true
  · rcases hnx.ok hc with ⟨hop, hld⟩ | ⟨after, haft, hld⟩
    · have hboot : ev.op ≠ .prepareBoot := by
        rw [hop]
        simp
      refine ⟨state, ?_, ?_, fun haft hbef => absurd haft hbef, fun hop => absurd hop hboot⟩
      · simpa only [step, hc] using hld
      · exact unsaved_healthy h hboot fun _ => hop
    · obtain ⟨hhea, hconf⟩ := next_healthy h haft
      refine ⟨after, ?_, ?_, hconf, ?_⟩
      · simpa only [step, hc] using hld
      · simp only [step, hc]
        exact hhea
      · intro hop hpend hboo
        rw [hop] at haft
        obtain rfl : after = (bootState state).1 := haft
        exact (healthy_bootState h).2.1 hpend hboo

/-- The state can be loaded and agrees with the trail. -/
def Monitored.Sound : Prop := ∃ state, loadState env m.state = .ok state ∧ Healthy state m.trail

/-- In every run from no update state whose steps spare the state file: a
failed transaction has recovery requested, an observed boot was started, a
transaction is only confirmed by `confirm`, after one boot since its apply that
reached the shell, and a second boot fails it. -/
theorem bootHealth_of_spares {env : PkgEnv} (hround : env.states.RoundTrips) {s : PkgState}
    (hstart : s.find updateStatePath = none) {events : List UpdateEvent}
    (hok : StepsOk (Monitored.step env) (Monitored.Spares env) ⟨s, none⟩ events) :
    let m := run (Monitored.step env) ⟨s, none⟩ events
    ∃ state, loadState env m.state = .ok state ∧
      (∀ transaction, state.current = some transaction →
        (transaction.phase = .failed → state.recoveryRequested = true) ∧
          (transaction.bootObserved = true → transaction.bootStarted = true)) ∧
      ∀ event, m.Spares env event →
        ∃ after, loadState env (m.step env event).state = .ok after ∧
          (after.phase = some .confirmed → state.phase ≠ some .confirmed →
            event.op = .confirm ∧ m.trail = some ⟨1, true⟩) ∧
          (event.op = .prepareBoot → state.phase = some .pendingConfirmation →
            (∃ trail, m.trail = some trail ∧ 1 ≤ trail.boots) →
            after.phase = some .failed ∧ after.recoveryRequested = true) := by
  have hinit : Monitored.Sound env ⟨s, none⟩ :=
    ⟨default, loadState_of_absent hstart, healthy_default none⟩
  have hstp : ∀ m event, Monitored.Sound env m → m.Spares env event →
      (m.step env event).Sound env := by
    rintro m event ⟨state, hst, hhea⟩ hsp
    obtain ⟨after, haft, hhea', -⟩ := Monitored.step_healthy hround hst hhea hsp
    exact ⟨after, haft, hhea'⟩
  obtain ⟨state, hst, hhea⟩ := run_invariant hstp hinit hok
  refine ⟨state, hst, fun transaction hcur => ⟨hhea.failed transaction hcur,
    hhea.observed transaction hcur⟩, fun event hsp => ?_⟩
  obtain ⟨after, haft, -, hcla⟩ := Monitored.step_healthy hround hst hhea hsp
  exact ⟨after, haft, hcla⟩

/-- An update that is applied, booted and confirmed. -/
def healthyUpdate : List UpdateEvent :=
  [⟨bootWorld 20, .apply ['/', 'b']⟩, ⟨bootWorld 30, .prepareBoot⟩,
    ⟨bootWorld 40, .noteShellReady⟩, ⟨bootWorld 50, .confirm⟩]

theorem bootHealth_healthyUpdate :
    let env := oneBundle toolBundle
    let m := run (Monitored.step env) ⟨bootedWith bundleVolume, none⟩ healthyUpdate
    m.trail = some ⟨1, true⟩ ∧
      ∃ state, loadState env m.state = .ok state ∧ state.phase = some .confirmed ∧
        ∀ transaction, state.current = some transaction →
          (transaction.phase = .failed → state.recoveryRequested = true) ∧
            (transaction.bootObserved = true → transaction.bootStarted = true) := by
  obtain ⟨state, hst, hfl, -⟩ := bootHealth_of_spares
    (wire.codec_roundTrips : (oneBundle toolBundle).states.RoundTrips)
    (by decide)
    (by decide +kernel : StepsOk (.step (oneBundle toolBundle))
      (Monitored.Spares (oneBundle toolBundle)) ⟨bootedWith bundleVolume, none⟩ healthyUpdate)
  refine ⟨by decide +kernel, state, hst, ?_, hfl⟩
  have hph : (loadState (oneBundle toolBundle) (run (Monitored.step (oneBundle toolBundle))
      ⟨bootedWith bundleVolume, none⟩ healthyUpdate).state).toOption.bind phase =
        some .confirmed := by
    decide +kernel
  rwa [hst] at hph

/-- A failed transaction without a request for recovery. -/
def forgedState : UpdateState :=
  ⟨1, false, none,
    some ⟨['p'], none, [], [], none, [], .failed, none, none, false, false, none, none⟩⟩

def forgedText : Str := (wire.put forgedState).map fun byte => .ofNat byte.toNat

/-- A signed package whose first file goes to the state file and whose second
has no valid path. -/
def forgingBundle : WarPackBundle :=
  clearBundle ⟨['p'], ['1'], [], [], [], [⟨updateStatePath, ['x'], false, forgedText.length⟩,
      ⟨['.', '.'], ['x'], false, forgedText.length⟩], [], [], []⟩ [⟨['x'], forgedText⟩]

/-- From no update state, one apply that fails leaves the state that the
package brought along. -/
theorem bootHealth_forged :
    let env := oneBundle forgingBundle
    let m := run (Monitored.step env) ⟨bootedWith bundleVolume, none⟩
      [⟨bootWorld 20, .apply ['/', 'b']⟩]
    verifyBundle env.crypto forgingBundle env.root = .ok () ∧
      (bootedWith bundleVolume).find updateStatePath = none ∧
      loadState env m.state = .ok forgedState ∧ forgedState.phase = some .failed ∧
      forgedState.recoveryRequested = false := by
  decide +kernel

end Waros.Kernel.Pkg
