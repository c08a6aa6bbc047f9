import RdkPerf.Model.Message

/-!
# What a handler reads of what `SendMessage` wrote

The sender writes some members of the union and the receiver reads others, so every field is a
question about offsets: the member read is the last one written at its offset, and no later write
reached it. `Carries` is what should arrive. It does for every type but `eThreshold`, whose
sender fills `entry` and whose receiver reads `threshold`: the threshold is written at 288 and
looked for at 152, among the bytes `memset` left.
-/

namespace RdkPerf

open Lib Layout

/-! ## The offsets in question -/

/-- All structs of the union begin with the ids, where they have them. -/
theorem dataAt_ids {struct : List CType} (h : struct.take 2 = [Layout.pid_t, Layout.pthread_t]) :
    dataAt struct 0 = 8 ∧ dataAt struct 1 = 16 := by
  obtain ⟨rest, rfl⟩ : ∃ rest, struct = [Layout.pid_t, Layout.pthread_t] ++ rest :=
    ⟨struct.drop 2, by rw [← h, List.take_append_drop]⟩
  exact ⟨rfl, rfl⟩

theorem length_cutName_le (szName : Name) : (cutName szName).length ≤ 127 := by
  simp [cutName, MAX_NAME_LEN]

theorem zero_not_mem_cutName (szName : CString) : 0 ∉ cutName szName.bytes :=
  fun h => szName.noNul (List.mem_of_mem_take h)

/-! ## Writing past the type -/

namespace PerfMsgQueue

variable {self : Sender} {type : MessageType} {szName : CString} {msg : PerfMessage}

theorem type_blank : (blank type).type = type.code :=
  Buf.fetch_put _ _ (by decide)

theorem byteAt_blank {i : Nat} (hi : 4 ≤ i) : (blank type).byteAt i = 0 := by
  unfold blank Buf.put
  rw [Buf.byteAt_write_of_outside, Buf.byteAt_zero]
  rw [WordCodec.i32.length_encode]
  exact Or.inr hi

theorem type_write {off : Nat} {bs : List UInt8} (h : 4 ≤ off) :
    PerfMessage.type (msg.write off bs) = msg.type :=
  Buf.fetch_write_of_disjoint _ _ (Or.inl h)

theorem type_put {α : Type} {c : WordCodec α} {off : Nat} {a : α} (h : 4 ≤ off) :
    PerfMessage.type (msg.put c off a) = msg.type := type_write h

section Ids

variable {struct : List CType} (hs : struct.take 2 = [Layout.pid_t, Layout.pthread_t])
include hs

theorem type_putIds : (putIds msg struct self).type = msg.type := by
  obtain ⟨h0, h1⟩ := dataAt_ids hs
  rw [putIds, type_put (by omega), type_put (by omega)]

theorem fetch_putIds_pID : (putIds msg struct self).fetch .i32 8 = self.pID := by
  obtain ⟨h0, h1⟩ := dataAt_ids hs
  rw [putIds, h0, h1, Buf.fetch_put_of_disjoint _ _ (by decide), Buf.fetch_put _ _ (by decide)]

theorem fetch_putIds_tID : (putIds msg struct self).fetch .u64 16 = self.tid := by
  obtain ⟨h0, h1⟩ := dataAt_ids hs
  rw [putIds, h1, Buf.fetch_put _ _ (by decide)]

/-- Past the ids nothing is written. -/
theorem byteAt_putIds {i : Nat} (hi : 24 ≤ i) : (putIds msg struct self).byteAt i = msg.byteAt i := by
  obtain ⟨h0, h1⟩ := dataAt_ids hs
  have hw : WordCodec.u64.width = 8 ∧ WordCodec.i32.width = 4 := ⟨rfl, rfl⟩
  unfold putIds Buf.put
  rw [Buf.byteAt_write_of_outside, Buf.byteAt_write_of_outside]
  · rw [WordCodec.i32.length_encode]
    omega
  · rw [WordCodec.u64.length_encode]
    omega

end Ids

/-- The name is copied into zeroed bytes, which terminate it. -/
theorem cstr_copied (hz : ∀ i, 24 ≤ i → i < 152 → msg.byteAt i = 0) :
    (msg.write 24 (cutName szName.bytes)).cstr 24 = some (cutName szName.bytes) := by
  have hlen := length_cutName_le szName.bytes
  have hsize : PERF_MSG_SIZE = 296 := rfl
  refine Buf.HasCStr.cstr_eq (.write (hz _ (by omega) (by omega)) (by omega))
    (zero_not_mem_cutName szName) (by omega)

/-- What is outside the name is not touched by it. -/
theorem fetch_copied {α : Type} (c : WordCodec α) {off : Nat}
    (h : off + c.width ≤ 24 ∨ 151 ≤ off) :
    (msg.write 24 (cutName szName.bytes)).fetch c off = msg.fetch c off := by
  have hlen := length_cutName_le szName.bytes
  exact Buf.fetch_write_of_disjoint _ _ (by omega)

/-! ## What arrives, type by type -/

variable {nTimeStamp : UInt64} {nThresholdInUS : Int32}

theorem sent_entry (h : sendMessage self .eEntry (some szName) nTimeStamp nThresholdInUS =
    .ok (some msg)) : msg.type = MessageType.eEntry.code ∧
      msg.entry = ⟨self.pID, self.tid, some (cutName szName.bytes),
        some self.threadName.bytes, nTimeStamp, nThresholdInUS⟩ := by
  have hids : entry.take 2 = [Layout.pid_t, Layout.pthread_t] := rfl
  have hsize : PERF_MSG_SIZE = 296 := rfl
  have hlen := length_cutName_le szName.bytes
  have hthr := self.threadName.short
  let ids := putIds (blank .eEntry) entry self
  let words := (ids.put .u64 280 nTimeStamp).put .i32 288 nThresholdInUS
  let named := words.write 152 (self.threadName.bytes ++ [0])
  obtain rfl : named.write 24 (cutName szName.bytes) = msg := Option.some.inj (Except.ok.inj h)
  have hnamed : ∀ {α : Type} (c : WordCodec α) {off : Nat},
      off + c.width ≤ 152 ∨ 168 ≤ off → named.fetch c off = words.fetch c off := by
    intro α c off hoff
    refine Buf.fetch_write_of_disjoint _ _ ?_
    rw [List.length_append, List.length_singleton]
    omega
  refine ⟨?_, (EntryMessage.mk.injEq ..).mpr ⟨?_, ?_, ?_, ?_, ?_, ?_⟩⟩
  · rw [type_write (by decide), type_write (by decide), type_put (by decide),
      type_put (by decide), type_putIds hids, type_blank]
  · show (named.write 24 _).fetch .i32 8 = _
    rw [fetch_copied _ (by decide), hnamed _ (by decide), Buf.fetch_put_of_disjoint _ _ (by decide),
      Buf.fetch_put_of_disjoint _ _ (by decide), fetch_putIds_pID hids]
  · show (named.write 24 _).fetch .u64 16 = _
    rw [fetch_copied _ (by decide), hnamed _ (by decide), Buf.fetch_put_of_disjoint _ _ (by decide),
      Buf.fetch_put_of_disjoint _ _ (by decide), fetch_putIds_tID hids]
  · refine cstr_copied fun i hi hi' => ?_
    show (((ids.put .u64 280 nTimeStamp).put .i32 288 nThresholdInUS).write 152 _).byteAt i = 0
    unfold Buf.put
    rw [Buf.byteAt_write_of_outside _ _ _ _ (by omega),
      Buf.byteAt_write_of_outside _ _ _ _ (by omega),
      Buf.byteAt_write_of_outside _ _ _ _ (by omega), byteAt_putIds hids hi,
      byteAt_blank (by omega)]
  · show (named.write 24 _).cstr 152 = _
    refine Buf.HasCStr.cstr_eq (.write_of_disjoint ?_ (by omega)) self.threadName.noNul (by omega)
    exact .write_terminated words (by omega)
  · show (named.write 24 _).fetch .u64 280 = _
    rw [fetch_copied _ (by decide), hnamed _ (by decide), Buf.fetch_put_of_disjoint _ _ (by decide),
      Buf.fetch_put _ _ (by decide)]
  · show (named.write 24 _).fetch .i32 288 = _
    rw [fetch_copied _ (by decide), hnamed _ (by decide), Buf.fetch_put _ _ (by decide)]

theorem sent_exit (h : sendMessage self .eExit (some szName) nTimeStamp nThresholdInUS =
    .ok (some msg)) : msg.type = MessageType.eExit.code ∧
      msg.exit = ⟨self.pID, self.tid, some (cutName szName.bytes), nTimeStamp⟩ := by
  have hids : exit.take 2 = [Layout.pid_t, Layout.pthread_t] := rfl
  let ids := putIds (blank .eExit) exit self
  let words := ids.put .u64 152 nTimeStamp
  -- the name goes through `entry`, at the offset it has in `exit` too
  obtain rfl : words.write 24 (cutName szName.bytes) = msg := Option.some.inj (Except.ok.inj h)
  refine ⟨?_, (ExitMessage.mk.injEq ..).mpr ⟨?_, ?_, ?_, ?_⟩⟩
  · rw [type_write (by decide), type_put (by decide), type_putIds hids, type_blank]
  · show (words.write 24 _).fetch .i32 8 = _
    rw [fetch_copied _ (by decide), Buf.fetch_put_of_disjoint _ _ (by decide),
      fetch_putIds_pID hids]
  · show (words.write 24 _).fetch .u64 16 = _
    rw [fetch_copied _ (by decide), Buf.fetch_put_of_disjoint _ _ (by decide),
      fetch_putIds_tID hids]
  · refine cstr_copied fun i hi hi' => ?_
    show (ids.write 152 _).byteAt i = 0
    rw [Buf.byteAt_write_of_outside _ _ _ _ (by omega), byteAt_putIds hids hi,
      byteAt_blank (by omega)]
  · show (words.write 24 _).fetch .u64 152 = _
    rw [fetch_copied _ (by decide), Buf.fetch_put _ _ (by decide)]

/-- The threshold does not arrive: the receiver finds zero, whatever was sent. -/
theorem sent_threshold (h : sendMessage self .eThreshold (some szName) nTimeStamp nThresholdInUS =
    .ok (some msg)) : msg.type = MessageType.eThreshold.code ∧
      msg.threshold = ⟨self.pID, self.tid, some (cutName szName.bytes), 0⟩ := by
  have hids : entry.take 2 = [Layout.pid_t, Layout.pthread_t] := rfl
  let ids := putIds (blank .eThreshold) entry self
  let words := ids.put .i32 288 nThresholdInUS
  obtain rfl : words.write 24 (cutName szName.bytes) = msg := Option.some.inj (Except.ok.inj h)
  refine ⟨?_, (ThresholdMessage.mk.injEq ..).mpr ⟨?_, ?_, ?_, ?_⟩⟩
  · rw [type_write (by decide), type_put (by decide), type_putIds hids, type_blank]
  · show (words.write 24 _).fetch .i32 8 = _
    rw [fetch_copied _ (by decide), Buf.fetch_put_of_disjoint _ _ (by decide),
      fetch_putIds_pID hids]
  · show (words.write 24 _).fetch .u64 16 = _
    rw [fetch_copied _ (by decide), Buf.fetch_put_of_disjoint _ _ (by decide),
      fetch_putIds_tID hids]
  · refine cstr_copied fun i hi hi' => ?_
    show (ids.write 288 _).byteAt i = 0
    rw [Buf.byteAt_write_of_outside _ _ _ _ (by omega), byteAt_putIds hids hi,
      byteAt_blank (by omega)]
  · show (words.write 24 _).fetch .i32 152 = _
    rw [fetch_copied _ (by decide), Buf.fetch_put_of_disjoint _ _ (by decide)]
    -- 152 is in `entry.szThreadName`, which only `eEntry` fills
    have hslice : ids.slice 152 4 = List.replicate 4 0 := by
      refine List.ext_getElem (by simp) fun i h₁ _ => ?_
      rw [Buf.length_slice] at h₁
      simp only [Buf.slice, List.getElem_map, List.getElem_range, List.getElem_replicate]
      rw [byteAt_putIds hids (by omega), byteAt_blank (by omega)]
    show WordCodec.i32.decode (ids.slice 152 4) = 0
    rw [hslice]
    rfl

theorem sent_reportThread {name : Option CString}
    (h : sendMessage self .eReportThread name nTimeStamp nThresholdInUS = .ok (some msg)) :
    msg.type = MessageType.eReportThread.code ∧ msg.report_thread = ⟨self.pID, self.tid⟩ := by
  obtain rfl : putIds (blank .eReportThread) reportThread self = msg :=
    Option.some.inj (Except.ok.inj h)
  refine ⟨by rw [type_putIds rfl, type_blank], (ThreadMessage.mk.injEq ..).mpr ⟨?_, ?_⟩⟩
  · exact fetch_putIds_pID rfl
  · exact fetch_putIds_tID rfl

theorem sent_closeThread {name : Option CString}
    (h : sendMessage self .eCloseThread name nTimeStamp nThresholdInUS = .ok (some msg)) :
    msg.type = MessageType.eCloseThread.code ∧ msg.close_thread = ⟨self.pID, self.tid⟩ := by
  obtain rfl : putIds (blank .eCloseThread) closeThread self = msg :=
    Option.some.inj (Except.ok.inj h)
  refine ⟨by rw [type_putIds rfl, type_blank], (ThreadMessage.mk.injEq ..).mpr ⟨?_, ?_⟩⟩
  · exact fetch_putIds_pID rfl
  · exact fetch_putIds_tID rfl

theorem sent_reportProcess {name : Option CString}
    (h : sendMessage self .eReportProcess name nTimeStamp nThresholdInUS = .ok (some msg)) :
    msg.type = MessageType.eReportProcess.code ∧ msg.report_process = ⟨self.pID⟩ := by
  obtain rfl : (blank .eReportProcess).put .i32 8 self.pID = msg :=
    Option.some.inj (Except.ok.inj h)
  refine ⟨by rw [type_put (by decide), type_blank], (ProcessMessage.mk.injEq ..).mpr ?_⟩
  exact Buf.fetch_put _ _ (by decide)

theorem sent_closeProcess {name : Option CString}
    (h : sendMessage self .eCloseProcess name nTimeStamp nThresholdInUS = .ok (some msg)) :
    msg.type = MessageType.eCloseProcess.code ∧ msg.close_process = ⟨self.pID⟩ := by
  obtain rfl : (blank .eCloseProcess).put .i32 8 self.pID = msg :=
    Option.some.inj (Except.ok.inj h)
  refine ⟨by rw [type_put (by decide), type_blank], (ProcessMessage.mk.injEq ..).mpr ?_⟩
  exact Buf.fetch_put _ _ (by decide)

/-! ## The whole format -/

/-- A message without its name is sent for these types only. -/
theorem sendMessage_accepts_iff {type : MessageType} {name : Option CString} :
    (∃ msg, sendMessage self type name nTimeStamp nThresholdInUS = .ok (some msg)) ↔
      type ≠ .eNoMessage ∧ type ≠ .eMaxType ∧
        (name = none → type ≠ .eEntry ∧ type ≠ .eExit ∧ type ≠ .eThreshold) := by
  cases type with
  | eNoMessage | eMaxType => simp [sendMessage]
  | eEntry | eExit | eThreshold =>
    cases name with
    | none => simp [sendMessage, copyName]
    | some szName => simp [sendMessage, copyName]
  | eReportThread | eReportProcess | eCloseThread | eCloseProcess | eExitQueue =>
    simp [sendMessage]

/-- What the handler of `type` reads is what was sent: the sender's ids, the name cut to what the
    array holds, the time stamp and the threshold. `eExitQueue` ends the service's loop and has no
    handler. -/
def Carries (self : Sender) (type : MessageType) (name : Option CString) (nTimeStamp : UInt64)
    (nThresholdInUS : Int32) (msg : PerfMessage) : Prop :=
  let szName := name.map fun szName => cutName szName.bytes
  MessageType.ofCode msg.type = some type ∧
  match type with
  | .eEntry => msg.entry = ⟨self.pID, self.tid, szName, some self.threadName.bytes, nTimeStamp,
      nThresholdInUS⟩
  | .eExit => msg.exit = ⟨self.pID, self.tid, szName, nTimeStamp⟩
  | .eThreshold => msg.threshold = ⟨self.pID, self.tid, szName, nThresholdInUS⟩
  | .eReportThread => msg.report_thread = ⟨self.pID, self.tid⟩
  | .eReportProcess => msg.report_process = ⟨self.pID⟩
  | .eCloseThread => msg.close_thread = ⟨self.pID, self.tid⟩
  | .eCloseProcess => msg.close_process = ⟨self.pID⟩
  | .eExitQueue => True
  | .eNoMessage | .eMaxType => False

/-- **Everything arrives but a threshold sent with `eThreshold`**, unless it is the zero that
    arrives in its place. -/
theorem sendMessage_carries_iff (self : Sender) (type : MessageType) (name : Option CString)
    (nTimeStamp : UInt64) (nThresholdInUS : Int32) (msg : PerfMessage)
    (h : sendMessage self type name nTimeStamp nThresholdInUS = .ok (some msg)) :
    Carries self type name nTimeStamp nThresholdInUS msg ↔
      (type = .eThreshold → nThresholdInUS = 0) := by
  have hcode : ∀ {type}, msg.type = MessageType.code type →
      MessageType.ofCode msg.type = some type := by
    intro type htype
    rw [htype, MessageType.ofCode_code]
  obtain ⟨hno, hmax, hname⟩ := sendMessage_accepts_iff.mp ⟨msg, h⟩
  cases type with
  | eNoMessage => exact absurd rfl hno
  | eMaxType => exact absurd rfl hmax
  | eEntry =>
    cases name with
    | none => exact absurd rfl (hname rfl).1
    | some szName =>
      obtain ⟨htype, hentry⟩ := sent_entry h
      exact iff_of_true ⟨hcode htype, hentry⟩ (by simp)
  | eExit =>
    cases name with
    | none => exact absurd rfl (hname rfl).2.1
    | some szName =>
      obtain ⟨htype, hexit⟩ := sent_exit h
      exact iff_of_true ⟨hcode htype, hexit⟩ (by simp)
  | eThreshold =>
    cases name with
    | none => exact absurd rfl (hname rfl).2.2
    | some szName =>
      obtain ⟨htype, hthreshold⟩ := sent_threshold h
      constructor
      · rintro ⟨-, hcarried⟩ -
        have hthr := congrArg ThresholdMessage.nThresholdInUS (hthreshold.symm.trans hcarried)
        exact hthr.symm
      · intro hzero
        refine ⟨hcode htype, ?_⟩
        show msg.threshold = ⟨self.pID, self.tid, some (cutName szName.bytes), nThresholdInUS⟩
        rw [hthreshold, hzero rfl]
  | eReportThread =>
    obtain ⟨htype, hfields⟩ := sent_reportThread h
    exact iff_of_true ⟨hcode htype, hfields⟩ (by simp)
  | eReportProcess =>
    obtain ⟨htype, hfields⟩ := sent_reportProcess h
    exact iff_of_true ⟨hcode htype, hfields⟩ (by simp)
  | eCloseThread =>
    obtain ⟨htype, hfields⟩ := sent_closeThread h
    exact iff_of_true ⟨hcode htype, hfields⟩ (by simp)
  | eCloseProcess =>
    obtain ⟨htype, hfields⟩ := sent_closeProcess h
    exact iff_of_true ⟨hcode htype, hfields⟩ (by simp)
  | eExitQueue =>
    obtain rfl : blank .eExitQueue = msg := Option.some.inj (Except.ok.inj h)
    exact iff_of_true ⟨hcode type_blank, trivial⟩ (by simp)

/-- A sender with the name `worker`. -/
def worker : Sender where
  tid := 7
  threadName := ⟨⟨[119, 111, 114, 107, 101, 114], by decide⟩, by decide⟩
  pID := 42

def decode : CString := ⟨[100, 101, 99, 111, 100, 101], by decide⟩

theorem sendMessage_carries_entry :
    ∃ msg, sendMessage worker .eEntry (some decode) 5 100 = .ok (some msg) ∧
      Carries worker .eEntry (some decode) 5 100 msg :=
  ⟨_, rfl, (sendMessage_carries_iff worker .eEntry (some decode) 5 100 _ rfl).mpr (by simp)⟩

/-- A threshold of 100 is received as 0. -/
theorem threshold_not_carried : ¬ ∀ (self : Sender) (type : MessageType) (name : Option CString)
    (nTimeStamp : UInt64) (nThresholdInUS : Int32) (msg : PerfMessage),
    sendMessage self type name nTimeStamp nThresholdInUS = .ok (some msg) →
      Carries self type name nTimeStamp nThresholdInUS msg := by
  intro hall
  have hcarried := (hall worker .eThreshold (some decode) 0 100 _ rfl).2
  exact absurd (congrArg ThresholdMessage.nThresholdInUS hcarried) (by decide)

end PerfMsgQueue
end RdkPerf
