import RdkPerf.Proof.Answers

/-!
# Entries and exits as brackets

What an exit is answered and what it pops are decided in two places: `HandleExit` compares names,
and `CloseNode` pops through the tree pointer of the node, which the root does not have. The two
part in one case, an exit that names the root when nothing else is on the stack (`ClosesRoot`), and
`brackets_iff` says that this case is the only one: without it the stack is as high as the entries
outnumber the exits accepted.

The counts are kept beside the run (`Tally`). They are nothing the service has, and they start
anew with each tree.
-/

namespace RdkPerf

open Lib

/-- The messages of one thread since its tree was created: entries handled, and exits for which
    `HandleExit` answered `true`. -/
structure Tally where
  entries : Nat := 0
  exits : Nat := 0

def Tally.count (tally : Tally) (type : Option MessageType) (retVal : Bool) : Tally :=
  match type, retVal with
  | some .eEntry, _ => { tally with entries := tally.entries + 1 }
  | some .eExit, true => { tally with exits := tally.exits + 1 }
  | _, _ => tally

/-- The process map, and the tallies of the threads. -/
structure Tallied where
  mem : Mem
  tally : pid_t → pthread_t → Tally

namespace Tallied

def init : Tallied := ⟨.init, fun _ _ => {}⟩

/-- `HandleMessage`, and what it adds to the tallies. A thread without a tree has none. -/
def step (s : Tallied) (d : Service.Delivery) : Except Fault Tallied := do
  let (mem, retVal) ← Service.handleMessage s.mem d.msg d.env
  let tally (pID : pid_t) (tID : pthread_t) : Tally :=
    let since := if s.mem.treePtr pID tID = none then {} else s.tally pID tID
    if d.msg.threadOf = some (pID, tID) then since.count (MessageType.ofCode d.msg.type) retVal
    else since
  pure ⟨mem, tally⟩

def run (ds : List Service.Delivery) : Except Fault Tallied := ds.foldlM step init

/-- The stack of each registered tree is one higher than its entries outnumber its exits. -/
def Bracketed (s : Tallied) : Prop :=
  ∀ pID tID t tree, s.mem.treePtr pID tID = some t → s.mem.trees.get t = some tree →
    tree.activeNode.length + (s.tally pID tID).exits = 1 + (s.tally pID tID).entries

end Tallied

/-- The statistics of the root of a registered tree. -/
def Mem.rootStats (m : Mem) (pID : pid_t) (tID : pthread_t) : Option TimingStats := do
  let t ← m.treePtr pID tID
  let tree ← m.trees.get t
  let r ← tree.rootNode
  (m.nodes.get r).map (·.stats)

/-- An exit with the name of the root, for a thread that has the root alone on its stack. -/
def ClosesRoot (m : Mem) (msg : PerfMessage) : Prop :=
  MessageType.ofCode msg.type = some .eExit ∧ msg.exit.szName = some rootName ∧
    ∃ t tree r, m.treePtr msg.exit.pID msg.exit.tID = some t ∧ m.trees.get t = some tree ∧
      tree.activeNode = [r]

/-! ## What a message does to a stack -/

/-- What happened to the tree of a thread that has one afterwards, `ct'`. -/
inductive StackStep (w : World) (msg : PerfMessage) (retVal : Bool) (pID : pid_t)
    (tID : pthread_t) (ct' : CallTree) : Prop where
  | entered (name : Name) (htype : MessageType.ofCode msg.type = some .eEntry)
      (hown : msg.threadOf = some (pID, tID))
      (hactive : ct'.active = name :: (w.tree pID tID).elim [] (·.active))
  | left (ct : CallTree) (htype : MessageType.ofCode msg.type = some .eExit)
      (hown : msg.threadOf = some (pID, tID)) (hret : retVal = true)
      (hct : w.tree pID tID = some ct) (hname : msg.exit.szName = some ct.active.label)
      (hct' : ct' = ct.stop ct.active msg.exit.nTimeStamp)
  /-- No entry of this thread, and no exit of it that was accepted. -/
  | kept (ct : CallTree) (hct : w.tree pID tID = some ct) (hactive : ct'.active = ct.active)
      (hcount : msg.threadOf = some (pID, tID) →
        ∀ tally : Tally, tally.count (MessageType.ofCode msg.type) retVal = tally)

section StackStep

variable {w w₁ : World} {msg : PerfMessage} {retVal : Bool} {pID : pid_t} {tID : pthread_t}
  {ct' : CallTree}

theorem StackStep.same (h : w₁.tree pID tID = w.tree pID tID) (hct : w₁.tree pID tID = some ct')
    (hcount : msg.threadOf = some (pID, tID) →
      ∀ tally : Tally, tally.count (MessageType.ofCode msg.type) retVal = tally) :
    StackStep w msg retVal pID tID ct' :=
  .kept ct' (h.symm.trans hct) rfl hcount

/-- A message that is counted for a thread is a message of that thread. -/
theorem Tally.count_other {type : Option MessageType} (hentry : type ≠ some .eEntry)
    (hexit : type = some .eExit → retVal = false) (tally : Tally) :
    tally.count type retVal = tally := by
  unfold Tally.count
  split
  · exact absurd rfl hentry
  · exact absurd (hexit rfl) (by simp)
  · rfl

/-- A new tree has nothing open, as no tree has. -/
theorem World.treeOrInit_active {name : Except Fault Name} {ct : CallTree}
    (h : w.treeOrInit pID tID name = .ok ct) :
    ct.active = (w.tree pID tID).elim [] (·.active) := by
  rcases World.treeOrInit_cases h with hct | ⟨hnone, threadName, -, rfl⟩
  · rw [hct]
    rfl
  · rw [hnone]
    rfl

/-- The tree of a thread, after a message of its own. -/
theorem World.handle_own (hown : msg.threadOf = some (pID, tID))
    (h : w.handle msg = .ok (w₁, retVal)) (hct : w₁.tree pID tID = some ct') :
    StackStep w msg retVal pID tID ct' := by
  have hthread := hown
  unfold PerfMessage.threadOf at hthread
  cases World.handle_cases h with
  | entry ct szName htype hinit hname =>
    rw [htype] at hthread
    obtain ⟨rfl, rfl⟩ := Prod.mk.inj (Option.some.inj hthread)
    rw [World.set_tree, if_pos ⟨rfl, rfl⟩] at hct
    obtain rfl := Option.some.inj hct
    refine .entered szName htype hown ?_
    rw [← World.treeOrInit_active hinit]
    split <;> rfl
  | exit ct htype hct₀ hname =>
    rw [htype] at hthread
    obtain ⟨rfl, rfl⟩ := Prod.mk.inj (Option.some.inj hthread)
    rw [World.set_tree, if_pos ⟨rfl, rfl⟩] at hct
    exact .left ct htype hown rfl hct₀ hname (Option.some.inj hct).symm
  | threshold ct htype hct₀ =>
    rw [htype] at hthread
    obtain ⟨rfl, rfl⟩ := Prod.mk.inj (Option.some.inj hthread)
    rw [World.set_tree, if_pos ⟨rfl, rfl⟩] at hct
    obtain rfl := Option.some.inj hct
    refine .kept ct hct₀ ?_ fun _ => Tally.count_other (by simp [htype]) (by simp [htype])
    rw [CallTree.onNode_active]
  | reportThread ct htype hct₀ =>
    rw [htype] at hthread
    obtain ⟨rfl, rfl⟩ := Prod.mk.inj (Option.some.inj hthread)
    rw [World.set_tree, if_pos ⟨rfl, rfl⟩] at hct
    obtain rfl := Option.some.inj hct
    exact .kept ct hct₀ rfl fun _ => Tally.count_other (by simp [htype]) (by simp [htype])
  | closeThread htype =>
    rw [htype] at hthread
    obtain ⟨rfl, rfl⟩ := Prod.mk.inj (Option.some.inj hthread)
    rw [World.set_tree, if_pos ⟨rfl, rfl⟩] at hct
    exact absurd hct (by simp)
  | rejected hentry _ => exact .same rfl hct fun _ => Tally.count_other hentry fun _ => rfl
  | reportProcess htype | closeProcess htype =>
    rw [htype] at hthread
    exact absurd hthread (by simp)

/-- What is left of a process after a message about it has the stacks it had. -/
theorem World.handle_process_stack {p : pid_t} (hp : msg.processOf = some p)
    (h : w.handle msg = .ok (w₁, retVal)) (hct : w₁.tree pID tID = some ct') :
    ∃ ct, w.tree pID tID = some ct ∧ ct'.active = ct.active := by
  unfold PerfMessage.processOf at hp
  cases World.handle_cases h with
  | reportProcess htype =>
    obtain ⟨ct, hct₀, rfl | rfl⟩ := World.tree_of_reportProcess hct
    · exact ⟨ct', hct₀, rfl⟩
    · exact ⟨ct, hct₀, rfl⟩
  | closeProcess htype => exact ⟨ct', World.tree_of_removeProcess hct, rfl⟩
  | rejected _ _ => exact ⟨ct', hct, rfl⟩
  | entry _ _ htype | threshold _ htype | exit _ htype | reportThread _ htype
  | closeThread htype =>
    rw [htype] at hp
    exact absurd hp (by simp)

/-- **What a message does to a stack.** -/
theorem World.handle_stack (h : w.handle msg = .ok (w₁, retVal))
    (hct : w₁.tree pID tID = some ct') : StackStep w msg retVal pID tID ct' := by
  by_cases hown : msg.threadOf = some (pID, tID)
  · exact World.handle_own hown h hct
  · cases hthread : msg.threadOf with
    | some pt =>
      refine .same ((World.handle_local hthread).frame h fun hk => hown ?_) hct fun h => absurd h hown
      rw [hthread, hk.1, hk.2]
    | none =>
      cases hprocess : msg.processOf with
      | some p =>
        obtain ⟨ct, hct₀, hactive⟩ := World.handle_process_stack hprocess h hct
        exact .kept ct hct₀ hactive fun h => absurd h hown
      | none =>
        rw [World.handle_ignored hthread hprocess] at h
        obtain ⟨rfl, -⟩ := Prod.mk.inj (Except.ok.inj h)
        exact .same rfl hct fun h => absurd h hown

end StackStep

/-! ## Reading the stack off the memory -/

section Read

variable {m : Mem} {w : World} {pID : pid_t} {tID : pthread_t} {msg : PerfMessage}

theorem Rep.stack_length (h : Rep m w) {t : TreePtr} {tree : PerfTree}
    (ht : m.treePtr pID tID = some t) (htree : m.trees.get t = some tree) :
    ∃ ct, w.tree pID tID = some ct ∧ tree.activeNode.length = ct.active.length + 1 := by
  obtain ⟨r, ct, hA⟩ := h.present ht
  obtain ⟨stack, hstack, hspells⟩ := hA.tracks.tree
  obtain rfl := Option.some.inj (htree.symm.trans hstack)
  exact ⟨ct, hA.spec, hspells.length⟩

theorem Rep.rootStats (h : Rep m w) (pID : pid_t) (tID : pthread_t) :
    m.rootStats pID tID = (w.tree pID tID).bind fun ct => (ct.node []).map (·.stats) := by
  unfold Mem.rootStats
  cases ht : m.treePtr pID tID with
  | none =>
    rw [h.absent ht]
    rfl
  | some t =>
    obtain ⟨r, ct, hA⟩ := h.present ht
    obtain ⟨stack, hstack, -⟩ := hA.tracks.tree
    obtain ⟨n, hn, -, -, hdata⟩ := hA.tracks.live walk_nil
    rw [hA.spec, Option.bind_some, hdata]
    simp only [Option.bind_eq_bind, Option.bind_some, hstack, CallTree.object, hn]
    rfl

/-- The root is alone exactly when nothing is open. -/
theorem Rep.closesRoot_iff (h : Rep m w) : ClosesRoot m msg ↔
    MessageType.ofCode msg.type = some .eExit ∧ msg.exit.szName = some rootName ∧
      ∃ ct, w.tree msg.exit.pID msg.exit.tID = some ct ∧ ct.active = [] := by
  refine and_congr_right fun _ => and_congr_right fun _ => ?_
  constructor
  · rintro ⟨t, tree, r, ht, htree, hone⟩
    obtain ⟨ct, hct, hlen⟩ := h.stack_length ht htree
    rw [hone, List.length_singleton] at hlen
    exact ⟨ct, hct, List.length_eq_zero_iff.mp (by omega)⟩
  · rintro ⟨ct, hct, hnil⟩
    obtain ⟨t, r, hA⟩ := h.at_of_tree hct
    obtain ⟨stack, hstack, hspells⟩ := hA.tracks.tree
    rw [hnil] at hspells
    exact ⟨t, _, r, hA.ptr, hstack, hspells⟩

end Read

namespace Tallied

variable {s s' : Tallied} {w : World} {d : Service.Delivery}

theorem bracketed_iff (h : Rep s.mem w) : s.Bracketed ↔
    ∀ pID tID ct, w.tree pID tID = some ct →
      ct.active.length + (s.tally pID tID).exits = (s.tally pID tID).entries := by
  constructor
  · intro hB pID tID ct hct
    obtain ⟨t, r, hA⟩ := h.at_of_tree hct
    obtain ⟨stack, hstack, hspells⟩ := hA.tracks.tree
    have hlen := hB pID tID t _ hA.ptr hstack
    have hspelled : (ct.object r stack).activeNode.length = ct.active.length + 1 := hspells.length
    omega
  · intro hB pID tID t tree ht htree
    obtain ⟨ct, hct, hlen⟩ := h.stack_length ht htree
    have := hB pID tID ct hct
    omega

/-- A step is one of the world, and what it adds to the tallies. -/
theorem step_cases (h : Rep s.mem w) (hs : s.step d = .ok s') : ∃ w' retVal,
    w.handle d.msg = .ok (w', retVal) ∧ Rep s'.mem w' ∧
      ∀ pID tID, s'.tally pID tID =
        let since := if w.tree pID tID = none then {} else s.tally pID tID
        if d.msg.threadOf = some (pID, tID) then
          since.count (MessageType.ofCode d.msg.type) retVal
        else since := by
  obtain ⟨⟨m', retVal⟩, hm', heq⟩ := bind_eq_ok.mp hs
  obtain rfl := Except.ok.inj heq
  have href := Service.handleMessage_refines h d.msg d.env
  cases hw : w.handle d.msg with
  | error e =>
    rw [hw] at href
    exact absurd (hm'.symm.trans href) (by simp)
  | ok wb =>
    obtain ⟨w', b⟩ := wb
    rw [hw] at href
    obtain ⟨m'', hm'', hE⟩ := href
    obtain ⟨rfl, rfl⟩ := Prod.mk.inj (Except.ok.inj (hm'.symm.trans hm''))
    refine ⟨w', retVal, rfl, hE.rep, fun pID tID => ?_⟩
    simp only [h.treePtr_none_iff]

theorem exit_thread {msg : PerfMessage} {pID : pid_t} {tID : pthread_t}
    (htype : MessageType.ofCode msg.type = some .eExit) (hown : msg.threadOf = some (pID, tID)) :
    msg.exit.pID = pID ∧ msg.exit.tID = tID := by
  unfold PerfMessage.threadOf at hown
  rw [htype] at hown
  exact Prod.mk.inj (Option.some.inj hown)

/-- **One message**: if it does not close the root, the stacks stay one higher than the entries
    outnumber the exits. -/
theorem step_bracketed (h : Rep s.mem w) (hs : s.step d = .ok s') (hB : s.Bracketed)
    (hroot : ¬ ClosesRoot s.mem d.msg) : s'.Bracketed := by
  obtain ⟨w', retVal, hw, hrep', htally⟩ := step_cases h hs
  rw [bracketed_iff h] at hB
  rw [bracketed_iff hrep']
  intro pID tID ct' hct'
  rw [htally]
  cases World.handle_stack hw hct' with
  | entered name htype hown hactive =>
    simp only [if_pos hown, htype, hactive, Tally.count, List.length_cons]
    cases hct : w.tree pID tID with
    | none => simp
    | some ct =>
      have := hB pID tID ct hct
      simp only [Option.elim_some, reduceCtorEq, if_false]
      omega
  | left ct htype hown hret hct hname hct₁ =>
    -- the call that is left is not the root, so it is popped
    have hne : ct.active ≠ [] := by
      intro hnil
      obtain ⟨rfl, rfl⟩ := exit_thread htype hown
      rw [hnil] at hname
      exact hroot (h.closesRoot_iff.mpr ⟨htype, hname, ct, hct, hnil⟩)
    have := hB pID tID ct hct
    have hpos := List.length_pos_iff.mpr hne
    simp only [if_pos hown, htype, hret, hct, reduceCtorEq, if_false, Tally.count, hct₁,
      CallTree.stop, CallTree.close, CallTree.onNode_active, ne_eq, hne, not_false_eq_true,
      and_self, if_true, List.length_tail]
    omega
  | kept ct hct hactive hcount =>
    have := hB pID tID ct hct
    simp only [hct, reduceCtorEq, if_false, hactive]
    split
    · next hown =>
      rw [hcount hown]
      exact this
    · exact this

theorem step_exit (h : Rep s.mem w) (hs : s.step d = .ok s')
    (htype : MessageType.ofCode d.msg.type = some .eExit) : ∃ w' retVal,
      w.handleExit d.msg.exit = .ok (w', retVal) ∧ Rep s'.mem w' := by
  obtain ⟨w', retVal, hw, hrep', -⟩ := step_cases h hs
  unfold World.handle at hw
  rw [htype] at hw
  exact ⟨w', retVal, hw, hrep'⟩

/-- … and an exit leaves the statistics of every root alone. -/
theorem step_rootStats (h : Rep s.mem w) (hs : s.step d = .ok s')
    (htype : MessageType.ofCode d.msg.type = some .eExit) (hroot : ¬ ClosesRoot s.mem d.msg)
    (pID : pid_t) (tID : pthread_t) : s'.mem.rootStats pID tID = s.mem.rootStats pID tID := by
  obtain ⟨w', retVal, hw, hrep'⟩ := step_exit h hs htype
  rw [hrep'.rootStats, h.rootStats]
  rcases World.handleExit_cases hw with ⟨-, ct, hct, hname, rfl⟩ | ⟨-, rfl⟩
  · rw [World.set_tree]
    split
    · next hk =>
      rw [hk.1, hk.2, hct, Option.bind_some, Option.bind_some]
      have hne : [] ≠ ct.active := by
        intro hnil
        rw [← hnil] at hname
        exact hroot (h.closesRoot_iff.mpr ⟨htype, hname, ct, hct, hnil.symm⟩)
      rw [CallTree.stop, CallTree.close_node]
      exact congrArg _ (if_neg hne)
    · rfl
  · rfl

/-- A message that closes the root is accepted, and pops nothing. -/
theorem step_closesRoot (h : Rep s.mem w) (hB : s.Bracketed) (hroot : ClosesRoot s.mem d.msg) :
    ∃ s', s.step d = .ok s' ∧ ¬ s'.Bracketed := by
  obtain ⟨htype, hname, ct, hct, hnil⟩ := h.closesRoot_iff.mp hroot
  have hexit : w.handle d.msg = .ok (w.set d.msg.exit.pID d.msg.exit.tID
      (some (ct.stop ct.active d.msg.exit.nTimeStamp)), true) := by
    unfold World.handle World.handleExit
    rw [htype]
    simp only [hct, hname]
    exact if_pos (by rw [hnil]; rfl)
  have href := Service.handleMessage_refines h d.msg d.env
  rw [hexit] at href
  obtain ⟨m', hm', hE⟩ := href
  have hs : ∃ s', s.step d = .ok s' := by
    rw [step, hm']
    exact ⟨_, rfl⟩
  obtain ⟨s', hs⟩ := hs
  refine ⟨s', hs, fun hB' => ?_⟩
  obtain ⟨w', retVal, hw, hrep', htally⟩ := step_cases h hs
  obtain ⟨rfl, rfl⟩ := Prod.mk.inj (Except.ok.inj (hexit.symm.trans hw))
  have hown : d.msg.threadOf = some (d.msg.exit.pID, d.msg.exit.tID) := by
    unfold PerfMessage.threadOf
    rw [htype]
  have hafter := (bracketed_iff hrep').mp hB' d.msg.exit.pID d.msg.exit.tID _
    (by rw [World.set_tree, if_pos ⟨rfl, rfl⟩])
  have hbefore := (bracketed_iff h).mp hB _ _ ct hct
  simp only [htally, if_pos hown, hct, reduceCtorEq, if_false, htype, Tally.count, hnil,
    CallTree.stop, CallTree.close_root, CallTree.onNode_active, List.length_nil] at hafter hbefore
  omega

/-! ## Runs -/

theorem init_bracketed : init.Bracketed := by
  rw [bracketed_iff Rep.init]
  intro pID tID ct hct
  exact absurd hct (by simp [World.init])

theorem run_rep {ds : List Service.Delivery} (h : run ds = .ok s) : ∃ w, Rep s.mem w := by
  refine foldlM_inv (I := fun s : Tallied => ∃ w, Rep s.mem w) ?_ ⟨_, .init⟩ h
  rintro s d s' - ⟨w, hrep⟩ hs
  obtain ⟨w', _, _, hrep', -⟩ := step_cases hrep hs
  exact ⟨w', hrep'⟩

/-- The tallies are kept beside the service, and do not meet it. -/
theorem run_mem (ds : List Service.Delivery) :
    (·.mem) <$> run ds = (·.mem) <$> Service.run ds := by
  induction ds using List.reverseRecOn with
  | nil => rfl
  | append_singleton ds d ih =>
    unfold run Service.run at ih ⊢
    rw [List.foldlM_append, List.foldlM_append]
    generalize ds.foldlM step init = tallied at ih
    generalize ds.foldlM Service.step .init = served at ih
    cases tallied with
    | error e =>
      cases served with
      | error e' =>
        obtain rfl := Except.error.inj ih
        rfl
      | ok s' => exact absurd ih (by simp [Functor.map, Except.map])
    | ok s =>
      cases served with
      | error e' => exact absurd ih (by simp [Functor.map, Except.map])
      | ok s' =>
        have hmem : s.mem = s'.mem := Except.ok.inj ih
        simp only [ok_bind, List.foldlM_cons, List.foldlM_nil, step, Service.step, hmem]
        cases Service.handleMessage s'.mem d.msg d.env <;> rfl

/-- As long as no exit closes a root, the brackets are balanced. -/
theorem run_bracketed {ds : List Service.Delivery}
    (hroot : ∀ pre d post, ds = pre ++ d :: post → ∀ s, run pre = .ok s → ¬ ClosesRoot s.mem d.msg)
    (h : run ds = .ok s) : s.Bracketed := by
  induction ds using List.reverseRecOn generalizing s with
  | nil =>
    obtain rfl := Except.ok.inj h
    exact init_bracketed
  | append_singleton ds d ih =>
    obtain ⟨s₀, hs₀, hd⟩ := foldlM_concat_ok.mp h
    obtain ⟨hpre, hlast⟩ := forall_places_concat.mp hroot
    obtain ⟨w, hrep⟩ := run_rep hs₀
    exact step_bracketed hrep hd (ih hpre hs₀) (hlast s₀ hs₀)

end Tallied

/-- After every prefix of the messages the stacks are one higher than the entries outnumber the
    exits, and no exit on the way changed the statistics of a root. -/
def BracketsHold (ds : List Service.Delivery) : Prop :=
  (∀ pre post, ds = pre ++ post → ∀ s, Tallied.run pre = .ok s → s.Bracketed) ∧
    ∀ pre d post, ds = pre ++ d :: post → MessageType.ofCode d.msg.type = some .eExit →
      ∀ s s', Tallied.run pre = .ok s → s.step d = .ok s' →
        ∀ pID tID, s'.mem.rootStats pID tID = s.mem.rootStats pID tID

/-- **The brackets balance if and only if no exit closes a root.** -/
theorem brackets_iff (ds : List Service.Delivery) : BracketsHold ds ↔
    ∀ pre d post, ds = pre ++ d :: post → ∀ s, Tallied.run pre = .ok s →
      ¬ ClosesRoot s.mem d.msg := by
  constructor
  · rintro ⟨hB, -⟩ pre d post hsplit s hs hroot
    obtain ⟨w, hrep⟩ := Tallied.run_rep hs
    obtain ⟨s', hs', hnot⟩ := Tallied.step_closesRoot hrep (hB pre _ hsplit s hs) hroot
    refine hnot (hB (pre ++ [d]) post (by rw [hsplit]; simp) s' ?_)
    exact foldlM_concat_ok.mpr ⟨s, hs, hs'⟩
  · intro hroot
    refine ⟨fun pre post hsplit s hs => ?_, fun pre d post hsplit htype s s' hs hs' => ?_⟩
    · refine Tallied.run_bracketed ?_ hs
      intro pre' d post' hpre
      exact hroot pre' d (post' ++ post) (by rw [hsplit, hpre]; simp)
    · obtain ⟨w, hrep⟩ := Tallied.run_rep hs
      exact Tallied.step_rootStats hrep hs' htype (hroot pre d post hsplit s hs)

/-- `f` is entered and left, and then the root is. -/
def rootExit : List Service.Delivery :=
  Service.handed ⟨threadA, 42⟩ .eEntry nameF ++ Service.handed ⟨threadA, 42⟩ .eExit nameF ++
    Service.handed ⟨threadA, 42⟩ .eExit ⟨rootName, by decide⟩

theorem rootExit_unbalanced : ¬ ∀ ds, BracketsHold ds := by
  intro hall
  obtain ⟨s, hs, hread⟩ := ok_of_toOption_bind (show (Tallied.run rootExit).toOption.bind
    (fun s => (s.mem.treePtr 42 1).bind fun t => (s.mem.trees.get t).map fun tree =>
      (tree.activeNode.length, (s.tally 42 1).entries, (s.tally 42 1).exits)) = some (1, 1, 2)
    by decide)
  obtain ⟨t, ht, hread⟩ := Option.bind_eq_some_iff.mp hread
  obtain ⟨tree, htree, hcounts⟩ := Option.map_eq_some_iff.mp hread
  have hB := (hall rootExit).1 rootExit [] (by simp) s hs 42 1 t tree ht htree
  simp only [Prod.mk.injEq] at hcounts
  omega

end RdkPerf
