import RdkPerf.Proof.Settles

/-!
# When the service forgets what terminated

A pid has one process after the other, and each starts with nothing in the service exactly if the
ones before it took leave: if each that terminated had called `RDKPerf_CloseProcess` after the last
of its starts (`Clients.forgets_iff`). One that has not is remembered under its pid, and the next
process goes on where it stopped.

All of it is said of every moment of a run, as if the service handled there what was sent so far;
that takes a service that can, and so calls that have names and reports that are not too deep.
-/

namespace RdkPerf

open Lib

/-! ## The calls of one process -/

/-- The calls of the process that has the pid, or had it last. -/
def lastCalls (pID : pid_t) (actions : List Clients.Action) : List Op :=
  actions.foldl (fun calls a => match a with
    | .init p => if p = pID then [] else calls
    | .call p op => if p = pID then calls ++ [op] else calls
    | .terminate _ => calls
    | .handle _ => calls) []

/-- After each of its starts the process closes itself. -/
def ClosesItself (calls : List Op) : Prop :=
  ∀ pre op post, calls = pre ++ op :: post → op.isStart = true →
    ∃ caller p, .closeProcess caller p ∈ post

section LastCalls

variable {pID : pid_t} {actions : List Clients.Action} {calls : List Op} {op : Op}

theorem lastCalls_concat (a : Clients.Action) : lastCalls pID (actions ++ [a]) =
    match a with
    | .init p => if p = pID then [] else lastCalls pID actions
    | .call p op => if p = pID then lastCalls pID actions ++ [op] else lastCalls pID actions
    | .terminate _ => lastCalls pID actions
    | .handle _ => lastCalls pID actions := by
  rw [lastCalls, List.foldl_append]
  rfl

theorem closesItself_nil : ClosesItself [] :=
  fun _ _ _ hsplit => absurd hsplit (by simp)

theorem closesItself_of_silent (h : calls.any Op.isStart = false) : ClosesItself calls := by
  intro pre op post hsplit hstart
  rw [List.any_eq_false] at h
  exact absurd hstart (h op (by simp [hsplit]))

theorem not_closesItself_start (hop : op.isStart = true) : ¬ ClosesItself (calls ++ [op]) := by
  intro h
  obtain ⟨caller, p, hmem⟩ := h calls op [] rfl hop
  exact absurd hmem List.not_mem_nil

/-- What comes after the starts may be anything, and a close may come last. -/
theorem closesItself_concat (hop : op.isStart = false) : ClosesItself (calls ++ [op]) ↔
    (∃ caller p, op = .closeProcess caller p) ∨ ClosesItself calls := by
  constructor
  · intro h
    by_cases hclose : ∃ caller p, op = .closeProcess caller p
    · exact Or.inl hclose
    · refine Or.inr fun pre op' post hsplit hstart => ?_
      obtain ⟨caller, p, hmem⟩ := h pre op' (post ++ [op]) (by simp [hsplit]) hstart
      rcases List.mem_append.mp hmem with hmem | hmem
      · exact ⟨caller, p, hmem⟩
      · exact absurd ⟨caller, p, (List.mem_singleton.mp hmem).symm⟩ hclose
  · intro h pre op' post hsplit hstart
    rcases List.eq_nil_or_concat post with rfl | ⟨post, last, rfl⟩
    · obtain ⟨-, heq⟩ := List.append_inj' hsplit rfl
      obtain rfl := (List.cons.inj heq).1
      exact absurd hstart (by simp [hop])
    · rw [List.concat_eq_append, ← List.cons_append, ← List.append_assoc] at hsplit
      obtain ⟨rfl, heq⟩ := List.append_inj' hsplit rfl
      obtain rfl := (List.cons.inj heq).1
      rcases h with ⟨caller, p, rfl⟩ | h
      · exact ⟨caller, p, by simp⟩
      · obtain ⟨caller, p, hmem⟩ := h pre op' post rfl hstart
        exact ⟨caller, p, by simp [hmem]⟩

end LastCalls

namespace Clients

variable {actions : List Action} {s s' : State} {pID : pid_t}

theorem step_live_handle {env : Env} (hs : step s (.handle env) = some s') : s'.live = s.live := by
  cases step_happens hs with
  | handled _ _ _ _ _ _ => rfl

/-! ## Lives that end with a close -/

/-- What the calls of a process say of the life of its pid, if those before it left nothing. -/
structure Closed (pID : pid_t) (actions : List Action) (s : State) : Prop where
  opened : (lifeOf pID actions).opened = (lastCalls pID actions).any Op.isStart
  left : (lifeOf pID actions).left = false ↔ ClosesItself (lastCalls pID actions)
  gone : s.live pID = none → (lifeOf pID actions).left = false

theorem Closed.init : Closed pID [] .init where
  opened := rfl
  left := iff_of_true rfl closesItself_nil
  gone _ := rfl

theorem Closed.same {actions' : List Action} (h : Closed pID actions s)
    (hlife : lifeOf pID actions' = lifeOf pID actions)
    (hcalls : lastCalls pID actions' = lastCalls pID actions)
    (hgone : s'.live pID = none → s.live pID = none ∨ ClosesItself (lastCalls pID actions)) :
    Closed pID actions' s' where
  opened := by rw [hlife, hcalls, h.opened]
  left := by rw [hlife, hcalls, h.left]
  gone hnone := by
    rw [hlife]
    exact (hgone hnone).elim h.gone h.left.mpr

/-- The life and the calls, one call further. -/
theorem Closed.call (h : Closed pID actions s) (op : Op) :
    ((lifeOf pID actions).call op).opened = (lastCalls pID actions ++ [op]).any Op.isStart ∧
      (((lifeOf pID actions).call op).left = false ↔
        ClosesItself (lastCalls pID actions ++ [op])) := by
  have hother : op.isStart = false → (lifeOf pID actions).call op = lifeOf pID actions →
      (∀ caller p, op ≠ .closeProcess caller p) →
      ((lifeOf pID actions).call op).opened = (lastCalls pID actions ++ [op]).any Op.isStart ∧
        (((lifeOf pID actions).call op).left = false ↔
          ClosesItself (lastCalls pID actions ++ [op])) := by
    intro hstart hsame hclose
    rw [hsame, List.any_append, closesItself_concat hstart, h.left]
    refine ⟨by simp [h.opened, hstart], (or_iff_right ?_).symm⟩
    rintro ⟨caller, p, rfl⟩
    exact hclose caller p rfl
  cases op with
  | start caller szName nThresholdInUS env =>
    refine ⟨by simp [Life.call, Op.isStart], iff_of_false (by simp [Life.call]) ?_⟩
    exact not_closesItself_start rfl
  | closeProcess caller p =>
    rw [List.any_append, closesItself_concat rfl]
    cases hopened : (lifeOf pID actions).opened with
    | true =>
      rw [show (lifeOf pID actions).call (.closeProcess caller p) =
        { lifeOf pID actions with left := false } from if_pos hopened]
      refine ⟨?_, iff_of_true rfl (Or.inl ⟨caller, p, rfl⟩)⟩
      simp [← h.opened, hopened, Op.isStart]
    | false =>
      -- a process that has started nothing has nothing to close
      rw [show (lifeOf pID actions).call (.closeProcess caller p) = lifeOf pID actions from
        if_neg (by simp [hopened])]
      rw [h.opened] at hopened
      refine ⟨by simp [h.opened, Op.isStart], iff_of_true ?_ (Or.inl ⟨caller, p, rfl⟩)⟩
      exact h.left.mpr (closesItself_of_silent hopened)
  | stop _ _ _ | setThreshold _ _ _ | reportProcess _ _ _ | reportThread _ _ | closeThread _ _ =>
    exact hother rfl rfl (by simp)

theorem Closed.spawned {p : pid_t} (h : Closed pID actions s) (hnew : s.live p = none) :
    Closed pID (actions ++ [.init p]) (s.setLive p (some (.PerfModuleInit p))) := by
  by_cases hp : p = pID
  · subst hp
    have hlife : lifeOf p (actions ++ [.init p]) = { lifeOf p actions with opened := false } := by
      rw [lifeOf_concat, Life.step, if_pos rfl]
    have hcalls : lastCalls p (actions ++ [.init p]) = [] := by
      rw [lastCalls_concat]
      exact if_pos rfl
    have hleft := h.gone hnew
    refine ⟨by rw [hlife, hcalls]; rfl, ?_, fun _ => by rw [hlife]; exact hleft⟩
    rw [hlife, hcalls]
    exact iff_of_true hleft closesItself_nil
  · refine h.same ?_ ?_ fun hgone => Or.inl ?_
    · rw [lifeOf_concat, Life.step, if_neg hp]
    · rw [lastCalls_concat]
      exact if_neg hp
    · rwa [State.setLive_live, if_neg (Ne.symm hp)] at hgone

theorem Closed.called {p : pid_t} {op : Op} {process : ClientProcess} {queue : List PerfMessage}
    (h : Closed pID actions s) : Closed pID (actions ++ [.call p op])
      ({ s with queue := queue }.setLive p (some process)) := by
  by_cases hself : p = pID
  · subst hself
    have hlife : lifeOf p (actions ++ [.call p op]) = (lifeOf p actions).call op := by
      rw [lifeOf_concat, Life.step, if_pos rfl]
    have hcalls : lastCalls p (actions ++ [.call p op]) = lastCalls p actions ++ [op] := by
      rw [lastCalls_concat]
      exact if_pos rfl
    obtain ⟨hopened, hleft⟩ := h.call op
    refine ⟨by rw [hlife, hcalls, hopened], by rw [hlife, hcalls, hleft], fun hgone => ?_⟩
    rw [State.setLive_live, if_pos rfl] at hgone
    cases hgone
  · refine h.same ?_ ?_ fun hgone => Or.inl ?_
    · rw [lifeOf_concat, Life.step, if_neg hself]
    · rw [lastCalls_concat]
      exact if_neg hself
    · rwa [State.setLive_live, if_neg (Ne.symm hself)] at hgone

theorem Closed.step {a : Action} (h : Closed pID actions s) (hs : Happens s a s')
    (hclose : a = .terminate pID → ClosesItself (lastCalls pID actions)) :
    Closed pID (actions ++ [a]) s' := by
  cases hs with
  | started p hnew => exact h.spawned hnew
  | called p op process client msg _ _ _ _ => exact h.called
  | terminated p process _ =>
    refine h.same ?_ ?_ fun hgone => ?_
    · rw [lifeOf_concat, Life.step]
    · rw [lastCalls_concat]
    · by_cases hself : p = pID
      · exact Or.inr (hclose (by rw [hself]))
      · rw [State.setLive_live, if_neg (Ne.symm hself)] at hgone
        exact Or.inl hgone
  | handled env msg queue service _ _ =>
    refine h.same ?_ ?_ Or.inl
    · rw [lifeOf_concat, Life.step]
    · rw [lastCalls_concat]

theorem run_closed (h : run actions = some s)
    (hclose : ∀ pre a post, actions = pre ++ a :: post →
      a = .terminate pID → ClosesItself (lastCalls pID pre)) : Closed pID actions s := by
  induction actions using List.reverseRecOn generalizing s with
  | nil =>
    obtain rfl := Option.some.inj h
    exact .init
  | append_singleton actions a ih =>
    obtain ⟨s₀, hs₀, hstep⟩ := run_concat.mp h
    obtain ⟨hbefore, hlast⟩ := forall_places_concat.mp hclose
    exact (ih hs₀ hbefore).step (step_happens hstep) hlast

/-! ## A moment of a run -/

/-- A start without a name is an entry without one. -/
theorem step_unnamed {op : Op} (hs : step s (.call pID op) = some s') (hop : op.named = false) :
    ∃ msg ∈ s'.queue, ¬ msg.Named := by
  have hstart : op.isStart = true := by
    cases op with
    | start _ _ _ _ => rfl
    | _ => exact absurd hop (by simp [Op.named])
  cases step_happens hs with
  | called _ _ p client sent _ hstep hsent _ =>
    obtain ⟨-, hopen, hone⟩ := Client.step_spec hstep
    rw [hstart, Bool.true_or] at hopen
    rcases hone with ⟨hno, -⟩ | ⟨-, msg, hmade, hmsg⟩
    · exact absurd hopen (by simp [hno])
    · have hlist : sent.toList = [msg] := List.append_cancel_left (hsent.symm.trans hmsg)
      refine ⟨msg, List.mem_append_right _ (by simp [hlist]), fun hnamed => ?_⟩
      exact absurd (hmade.named_iff.mp hnamed) (by simp [hop])

/-- What was handled had its name. -/
theorem step_handled_named {env : Env} {msg : PerfMessage} {queue : List PerfMessage}
    (h : run actions = some s) (hqueue : s.queue = msg :: queue)
    (hs : step s (.handle env) = some s') : msg.Named ∧ s'.queue = queue := by
  obtain ⟨ds, hds⟩ := run_service h
  obtain ⟨w, hw⟩ := Service.run_rep hds
  cases step_happens hs with
  | handled _ first rest service hfirst hservice =>
    obtain ⟨rfl, rfl⟩ := List.cons.inj (hqueue.symm.trans hfirst)
    have hlegal := (Service.step_ok_iff hw ⟨msg, env⟩).mp ⟨service, hservice⟩
    refine ⟨fun hentry hempty => ?_, rfl⟩
    unfold PerfMessage.Legal at hlegal
    rw [hentry] at hlegal
    obtain ⟨szName, hname, hne⟩ := hlegal.1
    exact hne (Option.some.inj (hname.symm.trans hempty))

/-- The service gets through what is queued exactly if the entries there have names. -/
theorem run_drain_iff {envs : List Env} (h : run actions = some s)
    (hlen : envs.length = s.queue.length) :
    (∃ s', run (actions ++ envs.map .handle) = some s') ↔ ∀ msg ∈ s.queue, msg.Named := by
  constructor
  · rintro ⟨s', hs'⟩
    induction envs generalizing actions s with
    | nil => simp [List.eq_nil_of_length_eq_zero hlen.symm]
    | cons env envs ih =>
      obtain ⟨msg, queue, hqueue⟩ := List.exists_cons_of_length_eq_add_one hlen.symm
      rw [List.map_cons, List.append_cons] at hs'
      obtain ⟨s₁, hs₁, -⟩ := run_append.mp hs'
      obtain ⟨s₀, hs₀, hstep⟩ := run_concat.mp hs₁
      obtain rfl := Option.some.inj (h.symm.trans hs₀)
      obtain ⟨hname, hrest⟩ := step_handled_named h hqueue hstep
      rw [hqueue, List.forall_mem_cons, ← hrest]
      exact ⟨hname, ih hs₁ (by simpa [hqueue, hrest] using hlen) hs'⟩
  · intro hnames
    obtain ⟨s', hs', -⟩ := run_drain h hnames hlen
    exact ⟨s', hs'⟩

/-- Handling changes no process and no life. -/
theorem run_drain_same {envs : List Env} (h : run actions = some s)
    (h' : run (actions ++ envs.map .handle) = some s') :
    s'.live = s.live ∧ ∀ pID, lifeOf pID (actions ++ envs.map .handle) = lifeOf pID actions := by
  induction envs generalizing actions s with
  | nil =>
    rw [List.map_nil, List.append_nil] at h' ⊢
    obtain rfl := Option.some.inj (h.symm.trans h')
    exact ⟨rfl, fun _ => rfl⟩
  | cons env envs ih =>
    rw [List.map_cons, List.append_cons] at h' ⊢
    obtain ⟨s₁, hs₁, -⟩ := run_append.mp h'
    obtain ⟨s₀, hs₀, hstep⟩ := run_concat.mp hs₁
    obtain rfl := Option.some.inj (h.symm.trans hs₀)
    obtain ⟨hlive, hlife⟩ := ih hs₁ h'
    refine ⟨hlive.trans (step_live_handle hstep), fun pID => (hlife pID).trans ?_⟩
    rw [lifeOf_concat, Life.step]

/-- The service handles what was sent so far, inside its line buffers, and then its map has no pid
    without a process. -/
def ForgottenAt (actions : List Action) : Prop :=
  ∀ s (envs : List Env), run actions = some s → envs.length = s.queue.length →
    ∃ s', run (actions ++ envs.map .handle) = some s' ∧ s'.service.mem.LinesFit ∧
      ∀ pID, s'.service.mem.processMap.contains pID = true → s'.live pID ≠ none

/-- If the service handles what was sent so far, each report is shallow where it handles it. -/
def DrainsShallow (actions : List Action) : Prop :=
  ∀ s (envs : List Env), run actions = some s → envs.length = s.queue.length →
    HandlesShallow (actions ++ envs.map .handle)

theorem forgottenAt_iff (h : run actions = some s) : ForgottenAt actions ↔
    (∀ msg ∈ s.queue, msg.Named) ∧ DrainsShallow actions ∧
      ∀ pID, s.live pID = none → (lifeOf pID actions).left = false := by
  have hmap : ∀ {envs : List Env} {s'}, envs.length = s.queue.length →
      run (actions ++ envs.map .handle) = some s' →
      ((∀ pID, s'.service.mem.processMap.contains pID = true → s'.live pID ≠ none) ↔
        ∀ pID, s.live pID = none → (lifeOf pID actions).left = false) := by
    intro envs s' hlen hs'
    obtain ⟨s'', hs'', hnil⟩ := run_drain h ((run_drain_iff h hlen).mp ⟨s', hs'⟩) hlen
    obtain rfl := Option.some.inj (hs'.symm.trans hs'')
    obtain ⟨hlive, hlife⟩ := run_drain_same h hs'
    refine forall_congr' fun pID => ?_
    rw [run_registered hs' hnil, hlife, hlive, ← Bool.not_eq_true]
    exact imp_not_comm
  constructor
  · intro hall
    obtain ⟨s', hs', -, hforgot⟩ :=
      hall s (List.replicate s.queue.length {}) h List.length_replicate
    refine ⟨(run_drain_iff h List.length_replicate).mp ⟨s', hs'⟩, fun s₀ envs hs₀ hlen => ?_,
      (hmap List.length_replicate hs').mp hforgot⟩
    obtain ⟨s₁, hs₁, hfit, -⟩ := hall s₀ envs hs₀ hlen
    exact (run_linesFit_iff hs₁).mp hfit
  · rintro ⟨hnames, hshallow, hleft⟩ s₀ envs hs₀ hlen
    obtain rfl := Option.some.inj (h.symm.trans hs₀)
    obtain ⟨s', hs'⟩ := (run_drain_iff h hlen).mpr hnames
    exact ⟨s', hs', (run_linesFit_iff hs').mpr (hshallow s envs h hlen), (hmap hlen hs').mpr hleft⟩

/-! ## All moments -/

/-- **The service forgets what terminated.** -/
structure Forgets (actions : List Action) : Prop where
  map : ∀ pre post, actions = pre ++ post → ForgottenAt pre
  /-- A process that is given a pid finds nothing under it: no tree, and so no open call. -/
  fresh : ∀ pre pID post, actions = pre ++ .init pID :: post → ∀ s (envs : List Env) s',
    run pre = some s → envs.length = s.queue.length → run (pre ++ envs.map .handle) = some s' →
      ∀ tID, s'.service.mem.view pID tID = none

/-- A pid is given while no process has it. -/
theorem step_init {p : pid_t} (hs : step s (.init p) = some s') : s.live p = none := by
  cases step_happens hs with
  | started _ hnew => exact hnew

/-- Nobody has the pid of a process that terminated. -/
theorem step_terminate {p : pid_t} (hs : step s (.terminate p) = some s') : s'.live p = none := by
  cases step_happens hs with
  | terminated _ _ _ => exact if_pos rfl

/-- Nothing is known of a pid that is not in the map. -/
theorem view_of_unregistered (h : run actions = some s)
    (hreg : s.service.mem.processMap.contains pID = false) (tID : pthread_t) :
    s.service.mem.view pID tID = none := by
  obtain ⟨ds, hds⟩ := run_service h
  obtain ⟨w, hw⟩ := Service.run_rep hds
  rw [hw.registered] at hreg
  rw [hw.view]
  exact hw.tree_none_of_unregistered hreg

theorem forgets_of_moments (h : run actions = some s)
    (hall : ∀ pre post, actions = pre ++ post → ForgottenAt pre) : Forgets actions where
  map := hall
  fresh := by
    intro pre pID post hsplit s₀ envs s' hs₀ hlen hs' tID
    obtain ⟨s'', hs'', -, hforgot⟩ := hall pre _ hsplit s₀ envs hs₀ hlen
    obtain rfl := Option.some.inj (hs'.symm.trans hs'')
    rw [hsplit, List.append_cons] at h
    obtain ⟨s₁, hs₁, -⟩ := run_append.mp h
    obtain ⟨s₂, hs₂, hinit⟩ := run_concat.mp hs₁
    obtain rfl := Option.some.inj (hs₀.symm.trans hs₂)
    have hgone : s'.live pID = none := by
      rw [(run_drain_same hs₀ hs').1, step_init hinit]
    exact view_of_unregistered hs' (Bool.eq_false_iff.mpr fun hreg => hforgot pID hreg hgone) tID

/-- What was done last, if all is forgotten after it. -/
theorem step_of_forgotten {a : Action} (hC : ∀ pID, Closed pID actions s)
    (h : run (actions ++ [a]) = some s') (hs : step s a = some s')
    (hforgot : ForgottenAt (actions ++ [a])) : (∀ op, a.op = some op → op.named) ∧
      ∀ pID, a = .terminate pID → ClosesItself (lastCalls pID actions) := by
  obtain ⟨hnames, -, hleft⟩ := (forgottenAt_iff h).mp hforgot
  constructor
  · intro op hop
    cases a with
    | call pID op' =>
      obtain rfl : op' = op := Option.some.inj hop
      by_contra hno
      obtain ⟨msg, hmsg, hmsg'⟩ := step_unnamed hs (Bool.eq_false_iff.mpr hno)
      exact hmsg' (hnames msg hmsg)
    | init _ | terminate _ | handle _ => cases hop
  · rintro pID rfl
    have hlife : lifeOf pID (actions ++ [.terminate pID]) = lifeOf pID actions := by
      rw [lifeOf_concat, Life.step]
    rw [← (hC pID).left, ← hlife]
    exact hleft pID (step_terminate hs)

theorem closes_of_forgotten (h : run actions = some s)
    (hall : ∀ pre post, actions = pre ++ post → ForgottenAt pre) :
    ∀ pre a post, actions = pre ++ a :: post → (∀ op, a.op = some op → op.named) ∧
      ∀ pID, a = .terminate pID → ClosesItself (lastCalls pID pre) := by
  induction actions using List.reverseRecOn generalizing s with
  | nil => exact fun pre a post hsplit => absurd hsplit (by simp)
  | append_singleton actions a ih =>
    obtain ⟨s₀, hs₀, hstep⟩ := run_concat.mp h
    have hbefore := ih hs₀ fun pre post hsplit => hall pre (post ++ [a]) (by simp [hsplit])
    have hC : ∀ pID, Closed pID actions s₀ := fun pID =>
      run_closed hs₀ fun pre a' post hsplit => (hbefore pre a' post hsplit).2 pID
    exact forall_places_concat.mpr
      ⟨hbefore, step_of_forgotten hC h hstep (hall _ [] (List.append_nil _).symm)⟩

/-- **The service forgets what terminated exactly if each process that terminated took leave**,
    every call that was started has a name, and no report it handles is too deep. -/
theorem forgets_iff {actions : List Action} {s : State} (h : run actions = some s) :
    Forgets actions ↔
      (∀ pre a post, actions = pre ++ a :: post → (∀ op, a.op = some op → op.named) ∧
        ∀ pID, a = .terminate pID → ClosesItself (lastCalls pID pre)) ∧
      ∀ pre post, actions = pre ++ post → DrainsShallow pre := by
  constructor
  · intro hF
    refine ⟨closes_of_forgotten h hF.map, fun pre post hsplit => ?_⟩
    obtain ⟨s₀, hs₀, -⟩ := run_append.mp (hsplit ▸ h)
    exact ((forgottenAt_iff hs₀).mp (hF.map pre post hsplit)).2.1
  · rintro ⟨hall, hshallow⟩
    refine forgets_of_moments h fun pre post hsplit => ?_
    obtain ⟨s₀, hs₀, -⟩ := run_append.mp (hsplit ▸ h)
    refine (forgottenAt_iff hs₀).mpr
      ⟨run_queue_named hs₀ fun a ha op hop => ?_, hshallow pre post hsplit, fun pID => ?_⟩
    · obtain ⟨before, after, rfl⟩ := List.append_of_mem ha
      exact (hall before a (after ++ post) (by simp [hsplit])).1 op hop
    · refine (run_closed hs₀ fun before a after hpre ha => ?_).gone
      exact (hall before a (after ++ post) (by simp [hsplit, hpre])).2 pID ha

/-- A process that starts a call, closes itself and terminates, and a second one with its pid that does
    the same before the service has handled all of the first. -/
def twoLives : List Action :=
  [.init 42, .call 42 (.start threadA nameF none {}), .call 42 (.closeProcess threadA 42),
    .terminate 42, .handle {}, .init 42, .call 42 (.start threadA nameF none {}),
    .call 42 (.closeProcess threadA 42), .terminate 42]

theorem twoLives_forgotten : ∃ s, run twoLives = some s ∧ Forgets twoLives := by
  obtain ⟨s, hs, -⟩ := Option.map_eq_some_iff.mp
    (show (run twoLives).map (·.queue.length) = some 3 by decide)
  have hclosed : ClosesItself ([.start threadA nameF none {}] ++ [.closeProcess threadA 42]) :=
    (closesItself_concat rfl).mpr (Or.inl ⟨threadA, 42, rfl⟩)
  have hcloses : ∀ pre a post, twoLives = pre ++ a :: post →
      ∀ pID, a = .terminate pID → ClosesItself (lastCalls pID pre) := by
    rw [twoLives]
    repeat rw [forall_places_cons]
    refine ⟨?_, ?_, ?_, ?_, ?_, ?_, ?_, ?_, ?_, forall_places_nil⟩
    all_goals intro pID ha
    all_goals cases ha
    all_goals exact hclosed
  have hcalls : ∀ a ∈ twoLives, ∀ op, a.op = some op → op.named ∧ op.isReport = false := by
    simp [twoLives, Action.op, Op.named, Op.isReport, nameF]
  refine ⟨s, hs, (forgets_iff hs).mpr ⟨fun pre a post hsplit => ⟨fun op hop => ?_,
    hcloses pre a post hsplit⟩, fun pre post hsplit s₀ envs _ _ => ?_⟩⟩
  · exact (hcalls a (by simp [hsplit]) op hop).1
  · refine handlesShallow_of_silent fun a ha op hop => ?_
    rcases List.mem_append.mp ha with hpre | hdrain
    · exact (hcalls a (by simp [hsplit, hpre]) op hop).2
    · obtain ⟨env, -, rfl⟩ := List.mem_map.mp hdrain
      cases hop

/-- A process that terminates while it has a call open. -/
def leftOpen : List Action :=
  [.init 42, .call 42 (.start threadA nameF none {}), .terminate 42]

/-- The service has its pid, and the next process with this pid starts below the open call. -/
theorem leftOpen_remembered : ¬ (∀ (actions : List Action) (s : State), run actions = some s →
      Forgets actions) ∧
    ∃ s, run (leftOpen ++ [.handle {}, .init 42]) = some s ∧ s.queue = [] ∧
      (s.service.mem.view 42 1).map CallTree.active = some [nameF.bytes] := by
  constructor
  · intro hall
    obtain ⟨s, hs, hqueue⟩ := Option.map_eq_some_iff.mp
      (show (run leftOpen).map (·.queue.length) = some 1 by decide)
    obtain ⟨s', hs', -, hforgot⟩ :=
      (hall leftOpen s hs).map leftOpen [] (List.append_nil _).symm s [{}] hs hqueue.symm
    obtain ⟨s'', hs'', hend⟩ := Option.map_eq_some_iff.mp
      (show (run (leftOpen ++ [({} : Env)].map .handle)).map (fun s =>
        (s.service.mem.processMap.contains 42, (s.live 42).isNone)) = some (true, true) by decide)
    obtain rfl := Option.some.inj (hs'.symm.trans hs'')
    obtain ⟨hreg, hgone⟩ := Prod.mk.inj hend
    exact hforgot 42 hreg (Option.isNone_iff_eq_none.mp hgone)
  · obtain ⟨s, hs, hend⟩ := Option.map_eq_some_iff.mp
      (show (run (leftOpen ++ [.handle {}, .init 42])).map (fun s => (s.queue.length,
        (s.service.mem.view 42 1).map CallTree.active)) = some (0, some [nameF.bytes]) by decide)
    obtain ⟨hqueue, hactive⟩ := Prod.mk.inj hend
    exact ⟨s, hs, List.eq_nil_of_length_eq_zero hqueue, hactive⟩

end Clients
end RdkPerf
