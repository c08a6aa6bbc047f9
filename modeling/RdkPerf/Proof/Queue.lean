import RdkPerf.Model.Queue

/-!
# The reference count of the queue

`Release` deletes the queue with the last reference, and leaves `s_PerfQueue` pointing to it: the
next `GetQueue` counts a reference to the deleted object. Up to then, and while fewer than `2 ^ 32`
references are out, the count is what it should be (`Session.refCount_sound_iff`).

A `Session` goes with the objects and keeps for each of them the references that were obtained and
not given back, from what the calls answer.
-/

namespace RdkPerf
namespace Queues

open Lib

/-- The objects, and the references outstanding. -/
structure Session where
  queues : Queues
  refs : QueuePtr → Nat

namespace Session

def init : Session := ⟨.init, fun _ => 0⟩

/-- The references to one object become `n`. -/
def count (s : Session) (queues : Queues) (this : QueuePtr) (n : Nat) : Session :=
  ⟨queues, fun p => if p = this then n else s.refs p⟩

def step (s : Session) : Call → Except Fault Session
  | .GetQueue bService => do
    let (queues, this) ← s.queues.GetQueue bService
    pure (s.count queues this (s.refs this + 1))
  | .AddRef this => do
    let (queues, _) ← s.queues.AddRef this
    pure (s.count queues this (s.refs this + 1))
  | .Release this => do
    let (queues, _) ← s.queues.Release this
    pure (s.count queues this (s.refs this - 1))

def run (calls : List Call) : Except Fault Session := calls.foldlM step init

/-- What `Release` gives back is a reference that was obtained. -/
def GivesBack (s : Session) : Call → Prop
  | .Release this => s.refs this ≠ 0
  | _ => True

/-- A queue was made, and the last reference to it is given back. -/
def Deleted (s : Session) : Prop := ∃ p, s.queues.s_PerfQueue = some p ∧ s.refs p = 0

/-- The call takes no reference to a queue of which the last one was given back. -/
def TakesLive (s : Session) : Call → Prop
  | .GetQueue _ => ¬ s.Deleted
  | .AddRef this => s.refs this ≠ 0
  | .Release _ => True

/-- The count of a queue that lives is that of the references to it, and it lives as long as there
    is one. -/
structure Sound (s : Session) : Prop where
  counts : ∀ {p queue}, s.queues.objects.get p = some queue → queue.refCount.toNat = s.refs p
  lives : ∀ p, s.queues.objects.get p ≠ none ↔ s.refs p ≠ 0

/-- `GetQueue` returns a queue that lives, and a new one where there is no reference. -/
def Serves (s : Session) (bService : Bool) : Prop :=
  ∃ queues this, s.queues.GetQueue bService = .ok (queues, this) ∧
    queues.objects.get this ≠ none ∧ ((∀ p, s.refs p = 0) → this = s.queues.objects.next)

/-- After any of the calls the count is sound, and `GetQueue` serves whoever asks. -/
structure RefCounted (calls : List Call) : Prop where
  sound : ∀ pre post, calls = pre ++ post → ∃ s, run pre = .ok s ∧ s.Sound
  serves : ∀ pre bService post s, calls = pre ++ .GetQueue bService :: post →
    run pre = .ok s → s.Serves bService

end Session

/-! ## What the three do -/

section Calls

variable {s : Queues} {this p : QueuePtr} {queue : PerfMsgQueue} {bService : Bool}

theorem queue_ok : s.queue this = .ok queue ↔ s.objects.get this = some queue := by
  unfold Queues.queue
  cases s.objects.get this with
  | none => simp
  | some q => simp

theorem queue_dead (h : s.objects.get this = none) : s.queue this = .error .dangling := by
  unfold Queues.queue
  rw [h]

theorem get_setRefCount {n : UInt32} :
    (s.setRefCount this n).objects.get p =
      if p = this then (s.objects.get p).map (fun queue => { queue with refCount := n })
      else s.objects.get p := by
  rw [setRefCount, Store.get_modify]

theorem AddRef_live (h : s.objects.get this = some queue) :
    s.AddRef this = .ok (s.setRefCount this (queue.refCount + 1), queue.refCount + 1) := by
  rw [AddRef, queue_ok.mpr h]
  rfl

theorem AddRef_dead (h : s.objects.get this = none) : s.AddRef this = .error .dangling := by
  rw [AddRef, queue_dead h]
  rfl

/-- The reference that is not the last. -/
theorem Release_live (h : s.objects.get this = some queue) (hn : queue.refCount - 1 ≠ 0) :
    s.Release this = .ok (s.setRefCount this (queue.refCount - 1), queue.refCount - 1) := by
  rw [Release, queue_ok.mpr h, ok_bind, if_neg hn]
  rfl

/-- The objects without the one that is deleted. -/
def deleted (s : Queues) (this : QueuePtr) : Queues :=
  { s.setRefCount this 0 with objects := (s.setRefCount this 0).objects.free this }

theorem get_deleted : (s.deleted this).objects.get p =
    if p = this then none else s.objects.get p := by
  rw [deleted, Store.get_free, get_setRefCount]
  by_cases hp : p = this
  · rw [if_pos hp, if_pos hp]
  · rw [if_neg hp, if_neg hp, if_neg hp]

theorem Release_last (h : s.objects.get this = some queue) (hn : queue.refCount - 1 = 0) :
    s.Release this = .ok (s.deleted this, 0) := by
  rw [Release, queue_ok.mpr h, ok_bind, hn, if_pos rfl]
  rfl

theorem GetQueue_again (hthis : s.s_PerfQueue = some this) (h : s.objects.get this = some queue) :
    s.GetQueue bService = .ok (s.setRefCount this (queue.refCount + 1), this) := by
  unfold GetQueue
  simp only [hthis]
  rw [AddRef_live h]
  rfl

/-- `s_PerfQueue` is what the last `new` gave, deleted or not. -/
theorem GetQueue_dead (hthis : s.s_PerfQueue = some this) (h : s.objects.get this = none) :
    s.GetQueue bService = .error .dangling := by
  unfold GetQueue
  simp only [hthis]
  rw [AddRef_dead h]
  rfl

/-- The objects with the one that the first `GetQueue` makes. -/
def made (s : Queues) (bService : Bool) : Queues :=
  { objects := s.objects.alloc { bService := bService }, s_PerfQueue := some s.objects.next }

theorem get_made : (s.made bService).objects.get p =
    if p = s.objects.next then some { bService := bService } else s.objects.get p := by
  rw [made, Store.get_alloc]

theorem GetQueue_first (hnone : s.s_PerfQueue = none) : s.GetQueue bService =
    .ok ((s.made bService).setRefCount s.objects.next 1, s.objects.next) := by
  have hmade : (s.made bService).objects.get s.objects.next = some { bService := bService } := by
    rw [get_made, if_pos rfl]
  unfold GetQueue
  simp only [hnone]
  show ((s.made bService).AddRef s.objects.next >>= _) = _
  rw [AddRef_live hmade]
  rfl

end Calls

/-! ## The invariant -/

namespace Session

variable {s s' : Session} {this : QueuePtr} {queue : PerfMsgQueue} {call : Call}
  {calls : List Call}

theorem Sound.init : init.Sound where
  counts := by
    intro p queue hp
    exact absurd hp (by simp [Session.init, Queues.init])
  lives := by
    intro p
    simp [Session.init, Queues.init]

/-- A count that fits its field is what the field says, and is not 0 where the queue lives. -/
theorem Sound.refs_lt (hs : s.Sound) (p : QueuePtr) : s.refs p < 2 ^ 32 := by
  cases hp : s.queues.objects.get p with
  | none =>
    have hrefs : s.refs p = 0 := by
      by_contra hrefs
      exact (hs.lives p).mpr hrefs hp
    rw [hrefs]
    decide
  | some queue =>
    rw [← hs.counts hp]
    exact queue.refCount.toNat_lt

theorem Sound.live (hs : s.Sound) (h : s.refs this ≠ 0) :
    ∃ queue, s.queues.objects.get this = some queue ∧ queue.refCount.toNat = s.refs this := by
  obtain ⟨queue, hqueue⟩ := Option.ne_none_iff_exists'.mp ((hs.lives this).mpr h)
  exact ⟨queue, hqueue, hs.counts hqueue⟩

theorem Sound.dead (hs : s.Sound) (h : s.refs this = 0) : s.queues.objects.get this = none := by
  by_contra hlive
  exact (hs.lives this).mp hlive h

/-- Only one object changes, and its count becomes the number of the references to it. -/
theorem Sound.count (hs : s.Sound) {queues : Queues} {n : Nat}
    (hother : ∀ p, p ≠ this → queues.objects.get p = s.queues.objects.get p)
    (hcount : ∀ queue, queues.objects.get this = some queue → queue.refCount.toNat = n)
    (hlive : queues.objects.get this ≠ none ↔ n ≠ 0) : (s.count queues this n).Sound where
  counts := by
    intro p queue hp
    show _ = if p = this then n else s.refs p
    by_cases hthis : p = this
    · subst hthis
      rw [if_pos rfl]
      exact hcount queue hp
    · rw [if_neg hthis]
      apply hs.counts
      rw [← hother p hthis]
      exact hp
  lives := by
    intro p
    show queues.objects.get p ≠ none ↔ (if p = this then n else s.refs p) ≠ 0
    by_cases hthis : p = this
    · subst hthis
      rw [if_pos rfl]
      exact hlive
    · rw [if_neg hthis, hother p hthis]
      exact hs.lives p

/-- The object stays, with `n` references. -/
theorem Sound.counted (hs : s.Sound) {queues : Queues} {n : UInt32} {k : Nat}
    (hother : ∀ p, p ≠ this → queues.objects.get p = s.queues.objects.get p)
    (hthis : queues.objects.get this = some queue) (hn : n.toNat = k) (hk : k ≠ 0) :
    (s.count (queues.setRefCount this n) this k).Sound := by
  have hget : (queues.setRefCount this n).objects.get this = some { queue with refCount := n } := by
    rw [get_setRefCount, if_pos rfl, hthis]
    rfl
  apply hs.count
  · intro p hp
    rw [get_setRefCount, if_neg hp, hother p hp]
  · intro queue' hqueue'
    rw [hget] at hqueue'
    obtain rfl := Option.some.inj hqueue'
    exact hn
  · rw [hget]
    exact iff_of_true (by simp) hk

/-- One more reference, if the count has room for it. -/
theorem toNat_succ {n : UInt32} {k : Nat} (hn : n.toNat = k) (h : k + 1 < 2 ^ 32) :
    (n + 1).toNat = k + 1 := by
  rw [UInt32.toNat_add, hn]
  exact Nat.mod_eq_of_lt h

theorem toNat_pred {n : UInt32} (hn : n.toNat ≠ 0) : (n - 1).toNat = n.toNat - 1 := by
  apply UInt32.toNat_sub_of_le
  rw [UInt32.le_iff_toNat_le]
  exact Nat.one_le_iff_ne_zero.mpr hn

/-- The step takes a reference to an object that lives, and the count has room for it. -/
theorem Sound.taken (hs : s.Sound) {queues : Queues}
    (hother : ∀ p, p ≠ this → queues.objects.get p = s.queues.objects.get p)
    (hthis : queues.objects.get this = some queue) (hcount : queue.refCount.toNat = s.refs this)
    (hstep : s.step call =
      .ok (s.count (queues.setRefCount this (queue.refCount + 1)) this (s.refs this + 1)))
    (h : ∀ s', s.step call = .ok s' → ∀ p, s'.refs p < 2 ^ 32) :
    ∃ s', s.step call = .ok s' ∧ s'.Sound := by
  have hroom : s.refs this + 1 < 2 ^ 32 := by
    have hnext := h _ hstep this
    rw [Session.count] at hnext
    simp only [if_pos] at hnext
    exact hnext
  refine ⟨_, hstep, ?_⟩
  exact hs.counted hother hthis (toNat_succ hcount hroom) (Nat.succ_ne_zero _)

theorem Sound.addRef (hs : s.Sound) (hlive : s.refs this ≠ 0)
    (h : ∀ s', s.step (.AddRef this) = .ok s' → ∀ p, s'.refs p < 2 ^ 32) :
    ∃ s', s.step (.AddRef this) = .ok s' ∧ s'.Sound := by
  obtain ⟨queue, hqueue, hcount⟩ := hs.live hlive
  apply hs.taken (fun _ _ => rfl) hqueue hcount _ h
  rw [step, AddRef_live hqueue]
  rfl

/-- A queue no one has made yet has no references. -/
theorem Sound.refs_next (hs : s.Sound) : s.refs s.queues.objects.next = 0 := by
  by_contra hrefs
  exact (hs.lives _).mpr hrefs (Store.get_next _)

/-- `s_PerfQueue` is a queue that lives, unless its last reference was given back. -/
theorem Sound.perfQueue (hs : s.Sound) (hlive : ¬ s.Deleted)
    (hthis : s.queues.s_PerfQueue = some this) :
    ∃ queue, s.queues.objects.get this = some queue ∧ queue.refCount.toNat = s.refs this := by
  apply hs.live
  intro hrefs
  exact hlive ⟨this, hthis, hrefs⟩

theorem Sound.getQueue (hs : s.Sound) {bService : Bool} (hlive : ¬ s.Deleted)
    (h : ∀ s', s.step (.GetQueue bService) = .ok s' → ∀ p, s'.refs p < 2 ^ 32) :
    ∃ s', s.step (.GetQueue bService) = .ok s' ∧ s'.Sound := by
  cases hperf : s.queues.s_PerfQueue with
  | none =>
    -- The new object has no reference before this one.
    have hmade : (s.queues.made bService).objects.get s.queues.objects.next =
        some { bService := bService } := by
      rw [get_made, if_pos rfl]
    have hother : ∀ p, p ≠ s.queues.objects.next →
        (s.queues.made bService).objects.get p = s.queues.objects.get p := by
      intro p hp
      rw [get_made, if_neg hp]
    apply hs.taken hother hmade hs.refs_next.symm _ h
    rw [step, GetQueue_first hperf]
    rfl
  | some this =>
    obtain ⟨queue, hqueue, hcount⟩ := hs.perfQueue hlive hperf
    apply hs.taken (fun _ _ => rfl) hqueue hcount _ h
    rw [step, GetQueue_again hperf hqueue]
    rfl

theorem Sound.release (hs : s.Sound) (hgive : s.refs this ≠ 0) :
    ∃ s', s.step (.Release this) = .ok s' ∧ s'.Sound := by
  obtain ⟨queue, hqueue, hcount⟩ := hs.live hgive
  have hpred : (queue.refCount - 1).toNat = s.refs this - 1 := by
    rw [← hcount] at hgive ⊢
    exact toNat_pred hgive
  by_cases hlast : queue.refCount - 1 = 0
  · -- `delete this`, with the last reference.
    have hnone : s.refs this - 1 = 0 := by
      rw [← hpred, hlast]
      rfl
    have hstep : s.step (.Release this) =
        .ok (s.count (s.queues.deleted this) this (s.refs this - 1)) := by
      rw [step, Release_last hqueue hlast]
      rfl
    refine ⟨_, hstep, ?_⟩
    apply hs.count
    · intro p hp
      rw [get_deleted, if_neg hp]
    · intro queue' hqueue'
      rw [get_deleted, if_pos rfl] at hqueue'
      exact absurd hqueue' (by simp)
    · rw [get_deleted, if_pos rfl, hnone]
      exact iff_of_false (by simp) (by simp)
  · refine ⟨_, ?_, hs.counted (fun _ _ => rfl) hqueue hpred ?_⟩
    · rw [step, Release_live hqueue hlast]
      rfl
    · intro hnone
      apply hlast
      apply UInt32.toNat_inj.mp
      rw [hpred, hnone]
      rfl

/-- **One call.** -/
theorem Sound.step (hs : s.Sound) (hgive : s.GivesBack call) (hlive : s.TakesLive call)
    (h : ∀ s', s.step call = .ok s' → ∀ p, s'.refs p < 2 ^ 32) :
    ∃ s', s.step call = .ok s' ∧ s'.Sound := by
  cases call with
  | GetQueue bService => exact hs.getQueue hlive h
  | AddRef this => exact hs.addRef hlive h
  | Release this => exact hs.release hgive

theorem Sound.serves (hs : s.Sound) {bService : Bool} (hlive : ¬ s.Deleted) :
    s.Serves bService := by
  cases hperf : s.queues.s_PerfQueue with
  | none =>
    refine ⟨_, _, GetQueue_first hperf, ?_, fun _ => rfl⟩
    rw [get_setRefCount, if_pos rfl, get_made, if_pos rfl]
    simp
  | some this =>
    obtain ⟨queue, hqueue, -⟩ := hs.perfQueue hlive hperf
    refine ⟨_, _, GetQueue_again hperf hqueue, ?_, ?_⟩
    · rw [get_setRefCount, if_pos rfl, hqueue]
      simp
    · intro hrefs
      exact absurd ⟨this, hperf, hrefs this⟩ hlive

/-- A call that does not fault takes no reference to what is gone. -/
theorem Sound.takesLive (hs : s.Sound) (h : s.step call = .ok s') : s.TakesLive call := by
  cases call with
  | GetQueue bService =>
    rintro ⟨this, hperf, hrefs⟩
    rw [Session.step, GetQueue_dead hperf (hs.dead hrefs)] at h
    exact absurd h (by simp)
  | AddRef this =>
    intro hrefs
    rw [Session.step, AddRef_dead (hs.dead hrefs)] at h
    exact absurd h (by simp)
  | Release this => trivial

theorem count_refs_le {queues : Queues} {n : Nat} {p : QueuePtr} (h : n ≤ s.refs this + 1) :
    (s.count queues this n).refs p ≤ s.refs p + 1 := by
  show (if p = this then n else s.refs p) ≤ s.refs p + 1
  by_cases hp : p = this
  · rw [if_pos hp, hp]
    exact h
  · rw [if_neg hp]
    exact Nat.le_succ _

/-- There are at most as many references as there were calls, so that it takes `2 ^ 32` calls to
    fill the count. -/
theorem run_refs_le {p : QueuePtr} (h : run calls = .ok s) : s.refs p ≤ calls.length := by
  induction calls using List.reverseRecOn generalizing s with
  | nil =>
    obtain rfl := Except.ok.inj h
    exact Nat.le_refl 0
  | append_singleton calls call ih =>
    obtain ⟨s₀, hs₀, hstep⟩ := foldlM_concat_ok.mp h
    have hle : s.refs p ≤ s₀.refs p + 1 := by
      cases call with
      | GetQueue bService =>
        obtain ⟨⟨queues, this⟩, -, hret⟩ := bind_eq_ok.mp hstep
        obtain rfl := Except.ok.inj hret
        exact count_refs_le (Nat.le_refl _)
      | AddRef this =>
        obtain ⟨⟨queues, n⟩, -, hret⟩ := bind_eq_ok.mp hstep
        obtain rfl := Except.ok.inj hret
        exact count_refs_le (Nat.le_refl _)
      | Release this =>
        obtain ⟨⟨queues, n⟩, -, hret⟩ := bind_eq_ok.mp hstep
        obtain rfl := Except.ok.inj hret
        exact count_refs_le (by omega)
    rw [List.length_append]
    exact Nat.le_trans hle (Nat.succ_le_succ (ih hs₀))

/-- **The calls.** The count is sound as long as there is room for it and every reference is taken
    to a queue that lives. -/
theorem run_sound (hgive : ∀ pre call post, calls = pre ++ call :: post →
      ∀ s, run pre = .ok s → s.GivesBack call)
    (hbound : ∀ pre post, calls = pre ++ post → ∀ s, run pre = .ok s → ∀ p, s.refs p < 2 ^ 32)
    (hlive : ∀ pre call post, calls = pre ++ call :: post →
      ∀ s, run pre = .ok s → s.TakesLive call) :
    ∃ s, run calls = .ok s ∧ s.Sound := by
  have hstep : ∀ done call rest s, calls = done ++ call :: rest → run done = .ok s ∧ s.Sound →
      ∃ s', s.step call = .ok s' ∧ run (done ++ [call]) = .ok s' ∧ s'.Sound := by
    rintro done call rest s hdone ⟨hs, hsound⟩
    have hnext : ∀ s', s.step call = .ok s' → run (done ++ [call]) = .ok s' :=
      fun s' hs' => foldlM_concat_ok.mpr ⟨s, hs, hs'⟩
    have hroom : ∀ s', s.step call = .ok s' → ∀ p, s'.refs p < 2 ^ 32 := by
      intro s' hs'
      apply hbound (done ++ [call]) rest _ s' (hnext s' hs')
      rw [hdone]
      simp
    obtain ⟨s', hs', hsound'⟩ := hsound.step (hgive done call rest hdone s hs)
      (hlive done call rest hdone s hs) hroom
    exact ⟨s', hs', hnext s' hs', hsound'⟩
  obtain ⟨s, hs, -, hsound⟩ := foldlM_total calls hstep ⟨rfl, .init⟩
  exact ⟨s, hs, hsound⟩

/-- **The reference count is sound exactly if it never overflows and no reference is taken to a
    queue of which the last one was given back.** -/
theorem refCount_sound_iff {calls : List Call}
    (hgive : ∀ pre call post, calls = pre ++ call :: post →
      ∀ s, run pre = .ok s → s.GivesBack call) :
    RefCounted calls ↔
      (∀ pre post, calls = pre ++ post → ∀ s, run pre = .ok s → ∀ p, s.refs p < 2 ^ 32) ∧
        ∀ pre call post, calls = pre ++ call :: post →
          ∀ s, run pre = .ok s → s.TakesLive call := by
  constructor
  · intro hcounted
    have hsound : ∀ pre post, calls = pre ++ post → ∀ s, run pre = .ok s → s.Sound := by
      intro pre post hsplit s hs
      obtain ⟨s', hs', hsound⟩ := hcounted.sound pre post hsplit
      rw [hs] at hs'
      exact (Except.ok.inj hs') ▸ hsound
    constructor
    · intro pre post hsplit s hs
      exact (hsound pre post hsplit s hs).refs_lt
    · intro pre call post hsplit s hs
      obtain ⟨s', hs', -⟩ := hcounted.sound (pre ++ [call]) post (by rw [hsplit]; simp)
      obtain ⟨s₁, hs₁, hstep⟩ := foldlM_concat_ok.mp hs'
      rw [run] at hs
      rw [hs] at hs₁
      obtain rfl := Except.ok.inj hs₁
      exact (hsound pre _ hsplit s hs).takesLive hstep
  · rintro ⟨hbound, hlive⟩
    have hsound : ∀ pre post, calls = pre ++ post → ∃ s, run pre = .ok s ∧ s.Sound := by
      rintro pre post rfl
      apply run_sound
      · intro pre' call post' hsplit
        exact hgive pre' call (post' ++ post) (by rw [hsplit]; simp)
      · intro pre' post' hsplit
        exact hbound pre' (post' ++ post) (by rw [hsplit]; simp)
      · intro pre' call post' hsplit
        exact hlive pre' call (post' ++ post) (by rw [hsplit]; simp)
    constructor
    · exact hsound
    · intro pre bService post s hsplit hs
      obtain ⟨s', hs', hsound'⟩ := hsound pre _ hsplit
      rw [hs] at hs'
      obtain rfl := Except.ok.inj hs'
      exact hsound'.serves (hlive pre _ post hsplit s hs)

/-- The references at the end of a run that is evaluated. -/
theorem refs_of_run {p : QueuePtr} {n : Nat} (hs : run calls = .ok s)
    (h : (run calls).map (fun s => s.refs p) = .ok n) : s.refs p = n := by
  rw [hs] at h
  exact Except.ok.inj h

/-- Every reference is given back. -/
def givenBack : List Call := [.GetQueue false, .AddRef 0, .Release 0, .Release 0]

theorem givenBack_counted : RefCounted givenBack := by
  refine (refCount_sound_iff ?_).mpr ⟨?_, ?_⟩
  · rw [givenBack, forall_places_cons, forall_places_cons, forall_places_cons,
      forall_places_cons]
    refine ⟨?_, ?_, ?_, ?_, forall_places_nil⟩
    · exact fun _ _ => trivial
    · exact fun _ _ => trivial
    · intro s hs
      exact ne_of_eq_of_ne (refs_of_run hs rfl) (by decide : 2 ≠ 0)
    · intro s hs
      exact ne_of_eq_of_ne (refs_of_run hs rfl) (by decide : 1 ≠ 0)
  · intro pre post hpre s hs p
    have hlen : pre.length + post.length = 4 := by
      rw [← List.length_append, ← hpre]
      rfl
    have hle := run_refs_le (p := p) hs
    omega
  · rw [givenBack, forall_places_cons, forall_places_cons, forall_places_cons,
      forall_places_cons]
    refine ⟨?_, ?_, ?_, ?_, forall_places_nil⟩
    · rintro s hs ⟨p, hp, -⟩
      obtain rfl := Except.ok.inj hs
      exact absurd hp (by simp [Session.init, Queues.init])
    · intro s hs
      exact ne_of_eq_of_ne (refs_of_run hs rfl) (by decide : 1 ≠ 0)
    · exact fun _ _ => trivial
    · exact fun _ _ => trivial

/-- The last reference is given back, and another one is asked for. -/
def askedAgain : List Call := [.GetQueue false, .Release 0, .GetQueue false]

theorem askedAgain_dangling : ¬ ∀ calls : List Call,
    (∀ pre call post, calls = pre ++ call :: post →
      ∀ s, run pre = .ok s → s.GivesBack call) → RefCounted calls := by
  intro hall
  have hgive : ∀ pre call post, askedAgain = pre ++ call :: post →
      ∀ s, run pre = .ok s → s.GivesBack call := by
    rw [askedAgain, forall_places_cons, forall_places_cons, forall_places_cons]
    refine ⟨fun _ _ => trivial, ?_, fun _ _ => trivial, forall_places_nil⟩
    intro s hs
    exact ne_of_eq_of_ne (refs_of_run hs rfl) (by decide : 1 ≠ 0)
  obtain ⟨s, hs, -⟩ := (hall askedAgain hgive).sound askedAgain [] rfl
  have hfault : run askedAgain = .error .dangling := rfl
  rw [hfault] at hs
  exact absurd hs (by simp)

end Session
end Queues
end RdkPerf
