import RdkPerf.Proof.InProcSim

/-!
# The representation invariant of the trees

`WellFormed` is what the methods of a tree take for granted and never check, said of the objects
alone: no world, no ledger, no log. It holds in every state either build reaches. Where a run of the
service has no further state, that is because a string of a message could not be used
(`Service.run_ok_iff`), never because the stack was empty or a walk lost its way.
-/

namespace RdkPerf

open Lib

/-- The tree at `t`, as the methods take it to be. -/
structure TreeInv (m : Mem) (tID : pthread_t) (t : TreePtr) (tr : PerfTree) (r : NodePtr) :
    Prop where
  root : tr.rootNode = some r
  key : tr.idThread = tID
  /-- The root is at the bottom of the stack, which so is not empty. -/
  bottom : tr.activeNode.getLast? = some r
  /-- Each other element is the child of the one below it under its own name. -/
  chain : tr.activeNode.IsChain fun child parent =>
    ∃ n, m.nodes.get child = some n ∧ childOf m parent n.elementName = some child
  nodup : tr.activeNode.Nodup
  keyed : ∀ {p name c}, Reaches (childOf m) r p → childOf m p name = some c →
    ∃ n, m.nodes.get c = some n ∧ n.elementName = name
  owned : ∀ {p}, Reaches (childOf m) r p → ∃ n, m.nodes.get p = some n ∧
    n.tree = if p = r then none else some t

def WellFormed (m : Mem) : Prop :=
  ∀ pID tID t, m.treePtr pID tID = some t → ∃ tr r, m.trees.get t = some tr ∧ TreeInv m tID t tr r

variable {m : Mem} {w : World} {t : TreePtr} {r : NodePtr} {ct : CallTree} {pID : pid_t}
  {tID : pthread_t}

/-- A stack that spells a path goes from child to parent. -/
theorem Tracks.isChain (hT : Tracks m t r ct) {π : Path} {stack : List NodePtr}
    (h : Spells (childOf m) r π stack) : stack.IsChain fun child parent =>
      ∃ n, m.nodes.get child = some n ∧ childOf m parent n.elementName = some child := by
  induction π generalizing stack with
  | nil =>
    rw [show stack = [r] from h]
    exact List.isChain_singleton _
  | cons name π ih =>
    obtain ⟨v, rest, rfl, hv, hrest⟩ := h
    obtain ⟨u, rest', rfl, hu⟩ := hrest.head
    obtain ⟨u', hu', hedge⟩ := walk_cons_eq_some.mp hv
    obtain rfl := Option.some.inj (hu.symm.trans hu')
    obtain ⟨n, hn, hname, -⟩ := hT.live hv
    have hname' : n.elementName = name := hname
    exact List.isChain_cons_cons.mpr ⟨⟨n, hn, by rw [hname']; exact hedge⟩, ih hrest⟩

theorem At.treeInv (hA : At m w pID tID t r ct) :
    ∃ tr, m.trees.get t = some tr ∧ TreeInv m tID t tr r := by
  obtain ⟨stack, htree, hspells⟩ := hA.tracks.tree
  refine ⟨_, htree, rfl, hA.idThread, hspells.getLast?, hA.tracks.isChain hspells,
    hspells.nodup hA.tracks.tidy, fun {p name c} hp hc => ?_, fun {p} hp => ?_⟩
  · obtain ⟨π, hπ⟩ := hp
    obtain ⟨n, hn, hname, -⟩ := hA.tracks.live (walk_cons_eq_some.mpr ⟨p, hπ, hc⟩)
    exact ⟨n, hn, hname⟩
  · obtain ⟨π, hπ⟩ := hp
    obtain ⟨n, hn, -, howner, -⟩ := hA.tracks.live hπ
    refine ⟨n, hn, howner.trans ?_⟩
    have hroot := hA.tracks.path_eq_iff hπ walk_nil
    cases π with
    | nil => rw [if_pos (hroot.mpr rfl)]; rfl
    | cons name π => rw [if_neg fun h => absurd (hroot.mp h) (by simp)]; rfl

theorem Rep.wellFormed (h : Rep m w) : WellFormed m := by
  intro pID tID t ht
  obtain ⟨r, ct, hA⟩ := h.present ht
  obtain ⟨tr, htr, hinv⟩ := hA.treeInv
  exact ⟨tr, r, htr, hinv⟩

/-! ## Which messages the service survives -/

/-- What its handler needs of the strings of a message, in a service with these trees. An entry needs
    a name, and for a thread that has no tree yet one of the thread that the tree has room for; an
    exit needs a string if there is a tree to compare it with. -/
def PerfMessage.Legal (tree : pid_t → pthread_t → Option CallTree) (msg : PerfMessage) : Prop :=
  match MessageType.ofCode msg.type with
  | some .eEntry =>
    (∃ szName, msg.entry.szName = some szName ∧ szName ≠ []) ∧
      (tree msg.entry.pID msg.entry.tID = none →
        ∃ szThreadName, msg.entry.szThreadName = some szThreadName ∧
          szThreadName.length ≤ THREAD_NAMELEN)
  | some .eExit => tree msg.exit.pID msg.exit.tID ≠ none → msg.exit.szName ≠ none
  | _ => True

theorem fitThreadName_ok_iff {szThreadName : Option Name} :
    (∃ name, fitThreadName szThreadName = .ok name) ↔
      ∃ name, szThreadName = some name ∧ name.length ≤ THREAD_NAMELEN := by
  unfold fitThreadName
  cases szThreadName with
  | none => simp
  | some name =>
    dsimp only
    split
    · next hfit => exact iff_of_true ⟨_, rfl⟩ ⟨name, rfl, hfit⟩
    · next hlong =>
      refine iff_of_false (by simp) ?_
      rintro ⟨name', heq, hfit⟩
      obtain rfl := Option.some.inj heq
      exact hlong hfit

namespace World

theorem treeOrInit_ok_iff {threadName : Except Fault Name} :
    (∃ ct, w.treeOrInit pID tID threadName = .ok ct) ↔
      (w.tree pID tID = none → ∃ name, threadName = .ok name) := by
  unfold treeOrInit
  cases w.tree pID tID with
  | some ct => exact iff_of_true ⟨ct, rfl⟩ fun h => absurd h (by simp)
  | none =>
    cases threadName with
    | error e => exact iff_of_false (by simp [Functor.map, Except.map]) fun h => by simp at h
    | ok name => exact iff_of_true ⟨_, rfl⟩ fun _ => ⟨name, rfl⟩

theorem handleEntry_ok_iff {msg : EntryMessage} : (∃ wb, w.handleEntry msg = .ok wb) ↔
    (∃ szName, msg.szName = some szName ∧ szName ≠ []) ∧
      (w.tree msg.pID msg.tID = none → ∃ name, msg.szThreadName = some name ∧
        name.length ≤ THREAD_NAMELEN) := by
  rw [← fitThreadName_ok_iff, ← treeOrInit_ok_iff]
  constructor
  · rintro ⟨wb, h⟩
    obtain ⟨ct, hct, h⟩ := bind_eq_ok.mp h
    refine ⟨?_, ct, hct⟩
    split at h
    · exact absurd h (by simp)
    · next szName hname =>
      split at h
      · exact absurd h (by simp)
      · next hne => exact ⟨szName, hname, hne⟩
  · rintro ⟨⟨szName, hname, hne⟩, ct, hct⟩
    exact ⟨_, by simp only [handleEntry, hct, ok_bind, hname, if_neg hne]; rfl⟩

theorem handleExit_ok_iff {msg : ExitMessage} : (∃ wb, w.handleExit msg = .ok wb) ↔
    (w.tree msg.pID msg.tID ≠ none → msg.szName ≠ none) := by
  unfold handleExit
  cases w.tree msg.pID msg.tID with
  | none => exact iff_of_true ⟨_, rfl⟩ fun h => absurd rfl h
  | some ct =>
    cases msg.szName with
    | none => exact iff_of_false (by simp) fun h => h (by simp) rfl
    | some szName =>
      refine iff_of_true ?_ fun _ => by simp
      dsimp only
      split
      · exact ⟨_, rfl⟩
      · exact ⟨_, rfl⟩

/-- **A message is handled** exactly when its strings can be used. -/
theorem handle_ok_iff {msg : PerfMessage} :
    (∃ wb, w.handle msg = .ok wb) ↔ msg.Legal w.tree := by
  unfold handle PerfMessage.Legal
  cases MessageType.ofCode msg.type with
  | none => exact iff_of_true ⟨_, rfl⟩ trivial
  | some type =>
    cases type with
    | eEntry => exact handleEntry_ok_iff
    | eExit => exact handleExit_ok_iff
    | _ => exact iff_of_true ⟨_, rfl⟩ trivial

end World

namespace Service

theorem step_ok_iff {s : State} (hw : Rep s.mem w) (d : Delivery) :
    (∃ s', step s d = .ok s') ↔ d.msg.Legal s.mem.view := by
  have hview : s.mem.view = w.tree := funext fun p => funext fun u => hw.view p u
  rw [hview, ← World.handle_ok_iff]
  have href := handleMessage_refines hw d.msg d.env
  constructor
  · rintro ⟨s', hs'⟩
    obtain ⟨⟨m', b⟩, hm', -⟩ := bind_eq_ok.mp hs'
    cases hhandle : w.handle d.msg with
    | error e =>
      rw [hhandle] at href
      exact absurd (hm'.symm.trans href) (by simp)
    | ok wb => exact ⟨wb, rfl⟩
  · rintro ⟨⟨w', b⟩, hhandle⟩
    rw [hhandle] at href
    obtain ⟨m', hm', -⟩ := href
    exact ⟨_, bind_eq_ok.mpr ⟨_, hm', rfl⟩⟩

/-- **The service survives a run** exactly when it can use the strings of each message where it meets
    it. -/
theorem run_ok_iff {ds : List Delivery} : (∃ s, run ds = .ok s) ↔
    ∀ pre d post, ds = pre ++ d :: post → ∀ s, run pre = .ok s → d.msg.Legal s.mem.view := by
  refine foldlM_ok_iff.trans (forall₃_congr fun pre d post => forall_congr' fun _ =>
    forall₂_congr fun s hs => ?_)
  obtain ⟨w, hw⟩ := run_rep hs
  exact step_ok_iff hw d

end Service

end RdkPerf
