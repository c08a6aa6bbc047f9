import RdkPerf.Lib.Fold
import RdkPerf.Model.RunLoop
import RdkPerf.Proof.RoundTrip

/-!
# The loop of the service stops for other reasons too

`Stated` is the loop as its messages and names describe it: it ends on `eExitQueue`, on a failed
receive and on too many time-outs in a row, and handles everything else. `RunLoop` reads all of
this off the type of the message and off `errno`, which a client can bring about in other ways. A
message of type `eMaxType` ends the loop like a failure; one of type `eNoMessage` counts as a
time-out; and a message that is too short does one or the other, as `errno` was left by whatever
failed last (`loop_as_stated_iff`).
-/

namespace RdkPerf

open Lib PerfMsgQueue

/-- Whether the loop goes on, the time-outs in a row, and what was handled. -/
structure Stated where
  running : Bool
  timeouts : Nat
  handled : List PerfMessage

namespace Stated

def init : Stated := ⟨true, 0, []⟩

/-- What is to become of an outcome while the loop runs. -/
def meets (s : Stated) : Outcome → Stated
  | .message msg =>
    if msg.type = MessageType.eExitQueue.code then { s with running := false }
    else { s with timeouts := 0, handled := s.handled ++ [msg] }
  | .short _ _ => { s with timeouts := 0 }
  | .timedOut =>
    { s with running := s.timeouts + 1 ≤ MAX_TIMEOUT.toNat, timeouts := s.timeouts + 1 }
  | .failed _ _ => { s with running := false }

def step (s : Stated) (outcome : Outcome) : Stated := if s.running then s.meets outcome else s

def run (outcomes : List Outcome) : Stated := outcomes.foldl step init

theorem run_concat (outcomes : List Outcome) (outcome : Outcome) :
    run (outcomes ++ [outcome]) = (run outcomes).step outcome := by
  simp [run]

theorem step_running {s : Stated} (h : s.running = true) (outcome : Outcome) :
    s.step outcome = s.meets outcome := if_pos h

/-- A loop that runs has not met too many time-outs. -/
theorem run_timeouts (outcomes : List Outcome) (h : (run outcomes).running = true) :
    (run outcomes).timeouts ≤ MAX_TIMEOUT.toNat := by
  induction outcomes using List.reverseRecOn with
  | nil => exact Nat.zero_le _
  | append_singleton outcomes outcome ih =>
    rw [run_concat] at h ⊢
    unfold step at h ⊢
    split at h
    · next hrun =>
      rw [if_pos hrun]
      cases outcome with
      | message msg =>
        unfold meets at h ⊢
        dsimp only at h ⊢
        split at h
        · exact absurd h (by simp)
        · next hexit =>
          rw [if_neg hexit]
          exact Nat.zero_le _
      | short bytes hlen => exact Nat.zero_le _
      | timedOut => simpa [meets] using h
      | failed errnum he => simp [meets] at h
    · next hrun => exact absurd h hrun

end Stated

/-! ## What the loop is given -/

variable {errno : Int32} {msg : PerfMessage} {outcome : Outcome}

theorem type_setType (type : MessageType) : (setType msg type).type = type.code :=
  Buf.fetch_put _ _ (by decide)

theorem receive_message :
    receiveMessage MESSAGE_TIMEOUT errno (.message msg) = (msg, true, errno) := rfl

/-- Whatever is not a whole message is a time-out, if `errno` says so, and a failure otherwise. -/
theorem receive_incomplete (h : (mq_receive errno outcome).nRead ≠ UInt64.ofNat PERF_MSG_SIZE) :
    receiveMessage MESSAGE_TIMEOUT errno outcome =
      (setType (blank .eNoMessage)
        (if (mq_receive errno outcome).errno = ETIMEDOUT then .eNoMessage else .eMaxType),
        false, (mq_receive errno outcome).errno) := by
  have hwait : MESSAGE_TIMEOUT ≠ 0 := by decide
  simp only [receiveMessage, if_neg hwait, if_pos (Or.inl h)]
  split
  · rfl
  · rfl

theorem incomplete_short {bytes : List UInt8} (h : bytes.length < PERF_MSG_SIZE) :
    (mq_receive errno (.short bytes h)).nRead ≠ UInt64.ofNat PERF_MSG_SIZE := by
  have hsize : PERF_MSG_SIZE < 2 ^ 64 := by decide
  intro heq
  have hlen := congrArg UInt64.toNat heq
  rw [mq_receive, UInt64.toNat_ofNat_of_lt' hsize,
    UInt64.toNat_ofNat_of_lt' (Nat.lt_trans h hsize)] at hlen
  exact Nat.ne_of_lt h hlen

/-! ## One turn -/

namespace RunLoop

variable {s : State}

/-- What can be compared with the stated loop. -/
def State.view (s : State) : Stated := ⟨s.bContinue, s.nTimeoutCount.toNat, s.handled⟩

/-- An outcome that is what it looks like to the loop: a message has its full size and neither of
    the two types that stand for something else. -/
def Plain : Outcome → Prop
  | .message msg =>
    msg.type ≠ MessageType.eNoMessage.code ∧ msg.type ≠ MessageType.eMaxType.code
  | .short _ _ => False
  | .timedOut => True
  | .failed _ _ => True

theorem body_exit (h : msg.type = MessageType.eExitQueue.code ∨
    msg.type = MessageType.eMaxType.code) : (body s msg).view = { s.view with running := false } := by
  rw [body, if_pos h]
  rfl

/-- A time-out is counted, or one too many. -/
theorem body_timeout (h : msg.type = MessageType.eNoMessage.code)
    (hs : s.nTimeoutCount.toNat ≤ MAX_TIMEOUT.toNat) (hrun : s.bContinue = true) :
    (body s msg).view = s.view.meets .timedOut := by
  have hexit : ¬ (msg.type = MessageType.eExitQueue.code ∨
      msg.type = MessageType.eMaxType.code) := by
    rw [h]
    decide
  have hmax : MAX_TIMEOUT.toNat = 6 := rfl
  have hcount : (s.nTimeoutCount + 1).toNat = s.nTimeoutCount.toNat + 1 := by
    rw [UInt32.toNat_add, UInt32.toNat_one, Nat.mod_eq_of_lt (by omega)]
  simp only [body, if_neg hexit, if_pos h, Stated.meets, State.view]
  split
  · next hgt =>
    have hgt' := UInt32.lt_iff_toNat_lt.mp hgt
    rw [hcount] at hgt' ⊢
    simp [Nat.le_of_lt_succ hgt']
  · next hle =>
    have hle' : (s.nTimeoutCount + 1).toNat ≤ MAX_TIMEOUT.toNat :=
      UInt32.le_iff_toNat_le.mp (UInt32.not_lt.mp hle)
    rw [hcount] at hle' ⊢
    simp [hle', hrun]

theorem body_handles (h : ¬ (msg.type = MessageType.eExitQueue.code ∨
    msg.type = MessageType.eMaxType.code)) (h' : msg.type ≠ MessageType.eNoMessage.code) :
    (body s msg).view = s.view.meets (.message msg) := by
  have hexit : msg.type ≠ MessageType.eExitQueue.code := fun he => h (Or.inl he)
  rw [body, if_neg h, if_neg h', Stated.meets, if_neg hexit]
  rfl

theorem step_eq (hrun : s.bContinue = true) : step s outcome =
    body { s with errno := (receiveMessage MESSAGE_TIMEOUT s.errno outcome).2.2 }
      (receiveMessage MESSAGE_TIMEOUT s.errno outcome).1 := by
  rw [step, if_pos hrun]

theorem step_stopped (hrun : s.bContinue = false) : step s outcome = s := by
  rw [step, if_neg (by simp [hrun])]

/-- On what is plain the loop does what is stated, -/
theorem step_plain (hs : s.bContinue = true → s.nTimeoutCount.toNat ≤ MAX_TIMEOUT.toNat)
    (h : s.bContinue = true → Plain outcome) : (step s outcome).view = s.view.step outcome := by
  cases hrun : s.bContinue with
  | false =>
    rw [step_stopped hrun, Stated.step, if_neg (by simp [State.view, hrun])]
  | true =>
    rw [step_eq hrun, Stated.step_running hrun]
    have hle := hs hrun
    cases outcome with
    | message msg =>
      obtain ⟨hnone, hmax⟩ := h hrun
      rw [receive_message]
      by_cases hexit : msg.type = MessageType.eExitQueue.code
      · rw [body_exit (Or.inl hexit), Stated.meets, if_pos hexit]
      · exact body_handles (by simp [hexit, hmax]) hnone
    | short bytes hlen => exact absurd (h hrun) id
    | timedOut => exact body_timeout (type_setType _) hle hrun
    | failed errnum he =>
      have hread : (mq_receive s.errno (.failed errnum he)).nRead ≠ UInt64.ofNat PERF_MSG_SIZE := by
        show (-1 : UInt64) ≠ UInt64.ofNat PERF_MSG_SIZE
        decide
      rw [receive_incomplete hread, body_exit]
      · rfl
      · right
        rw [type_setType, mq_receive, if_neg he]

/-- and on nothing else. -/
theorem step_not_plain (hs : s.nTimeoutCount.toNat ≤ MAX_TIMEOUT.toNat)
    (hrun : s.bContinue = true) (h : ¬ Plain outcome) :
    (step s outcome).view ≠ s.view.step outcome := by
  rw [step_eq hrun, Stated.step_running hrun]
  intro heq
  cases outcome with
  | message msg =>
    rw [receive_message] at heq
    by_cases hnone : msg.type = MessageType.eNoMessage.code
    · -- counted, where a message that is handled starts the count again
      rw [body_timeout hnone hs hrun, Stated.meets, Stated.meets, if_neg (by rw [hnone]; decide)]
        at heq
      exact absurd (congrArg Stated.timeouts heq) (by simp)
    · have hmax : msg.type = MessageType.eMaxType.code := by
        refine Classical.byContradiction fun hmax => h ⟨hnone, hmax⟩
      rw [body_exit (Or.inr hmax), Stated.meets, if_neg (by rw [hmax]; decide)] at heq
      exact absurd (congrArg Stated.running heq) (by simp [State.view, hrun])
  | short bytes hlen =>
    rw [receive_incomplete (incomplete_short hlen)] at heq
    by_cases he : (mq_receive s.errno (.short bytes hlen)).errno = ETIMEDOUT
    · rw [if_pos he] at heq
      have hcount := heq.symm.trans (body_timeout (type_setType _) hs hrun)
      exact absurd (congrArg Stated.timeouts hcount) (by simp [Stated.meets])
    · rw [if_neg he, body_exit (Or.inr (type_setType _))] at heq
      exact absurd (congrArg Stated.running heq) (by simp [State.view, Stated.meets, hrun])
  | timedOut => exact h trivial
  | failed errnum he => exact h trivial

/-! ## The loop -/

theorem run_concat (errno : Int32) (outcomes : List Outcome) (outcome : Outcome) :
    run errno (outcomes ++ [outcome]) = step (run errno outcomes) outcome := by
  simp [run]

/-- **The loop is the stated one exactly as long as each outcome is plain.** -/
theorem loop_as_stated_iff (errno : Int32) (outcomes : List Outcome) :
    (∀ pre post, outcomes = pre ++ post → (run errno pre).view = Stated.run pre) ↔
      ∀ pre outcome post, outcomes = pre ++ outcome :: post →
        (Stated.run pre).running = true → Plain outcome := by
  constructor
  · intro hall pre outcome post hsplit hrun
    have hpre := hall pre (outcome :: post) hsplit
    have hnext := hall (pre ++ [outcome]) post (by rw [hsplit]; simp)
    have hle := Stated.run_timeouts pre hrun
    rw [← hpre] at hrun hle
    rw [run_concat, Stated.run_concat, ← hpre] at hnext
    exact Classical.byContradiction fun hplain => step_not_plain hle hrun hplain hnext
  · intro hplain pre post hsplit
    induction pre using List.reverseRecOn generalizing post with
    | nil => rfl
    | append_singleton pre outcome ih =>
      rw [List.append_assoc] at hsplit
      have hpre := ih _ hsplit
      rw [run_concat, Stated.run_concat, ← hpre]
      apply step_plain
      · intro hrun
        have hrun' : (Stated.run pre).running = true := by rw [← hpre]; exact hrun
        have hle := Stated.run_timeouts pre hrun'
        rw [← hpre] at hle
        exact hle
      · intro hrun
        exact hplain pre outcome post hsplit (by rw [← hpre]; exact hrun)

/-- A client sends a message of no bytes. -/
theorem shortMessage_ends_loop : ¬ ∀ (errno : Int32) (outcomes : List Outcome),
    (run errno outcomes).view = Stated.run outcomes := by
  intro hall
  have hempty := hall 0 [.short [] (by decide)]
  have hne : (step (init 0) (.short [] (by decide))).view ≠
      (init 0).view.step (.short [] (by decide)) :=
    step_not_plain (Nat.zero_le _) rfl id
  exact hne hempty

end RunLoop
end RdkPerf
