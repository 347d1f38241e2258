import Tenok.Lib.Runs
import Tenok.Tools.DebugLinkRoundTrip

/-!
The receiver of `tools/rtplot` call by call, with the times of the messages that `prompt` keeps. A
frame with a wrong checksum loses its first byte; one that `decode_msg` refuses stays in the FIFO, and
its four values do not fit in the three that `receive_msg` takes.
-/
namespace Tenok

/-- `SerialManager`; `recvd_time_last` has an entry for each message that was loaded when the port was
opened. Of times it matters only whether they are the same. -/
structure SerialManager where
  serialFifo : List Byte
  recvdTimeLast : List Int
  msgManager : MsgList

namespace SerialManager

/-- `prompt`; `none` is an `IndexError`, or a `ZeroDivisionError` when no time has passed. -/
def prompt (s : SerialManager) (msgId : Nat) (currTime : Int) : Option SerialManager :=
  match s.recvdTimeLast[msgId]? with
  | none => none
  | some last =>
      if currTime - last = 0 then none
      else some { s with recvdTimeLast := s.recvdTimeLast.set msgId currTime }

def decodeMsg (s : SerialManager) (buffer : List Byte) (msgId : Nat) (currTime : Int) :
    SerialManager × DecodeResult :=
  match s.msgManager.findId msgId with
  | none => (s, .failed)
  | some msgInfo => match s.prompt msgId currTime with
    | none => (s, .raised)
    | some s => match decodeFields buffer msgInfo.fields with
      | none => (s, .failed)
      | some (dataList, _) => (s, .success msgInfo.name dataList)

/-- `receive_msg` with the bytes that wait at the port. -/
def receiveMsg (s : SerialManager) (waiting : List Byte) (currTime : Int) :
    SerialManager × ReceiveResult :=
  let fifo := s.serialFifo ++ waiting
  let s := { s with serialFifo := fifo }
  match fifo with
  | startByte :: size :: msgId :: payload =>
      if startByte ≠ 64#8 then ({ s with serialFifo := fifo.drop 1 }, .retry)
      else
        let payloadCnt := size.toNat
        if fifo.length < payloadCnt + dbglinkHeaderSize + 1 then (s, .retry)
        else
          let buf := payload.take (payloadCnt + 1)
          let checksum := (buf.take payloadCnt).foldl (· ^^^ ·) dbglinkChecksumInitVal
          if buf[payloadCnt]? ≠ some checksum then ({ s with serialFifo := fifo.drop 1 }, .failed)
          else match s.decodeMsg buf msgId.toNat currTime with
            | (s, .failed) | (s, .raised) => (s, .raised)
            | (s, .success msgName data) =>
                ({ s with serialFifo := fifo.drop (payloadCnt + dbglinkHeaderSize + 1) },
                  .success msgId.toNat msgName data)
  | _ => (s, .retry)

end SerialManager

/-- The types of the elements that `decode_msg` reads. -/
def TenokMsg.types (m : TenokMsg) : List CType := m.fields.flatMap fun f => List.replicate f.passes f.cType

/-- `decode_field` can read every element of the message, and finds it in a buffer of `n` bytes. -/
def TenokMsg.Fits (m : TenokMsg) (n : Nat) : Prop :=
  ∀ i t, m.types[i]? = some t → t.Decodable ∧ i * 4 + t.size ≤ n

section Decoding
variable {buffer : List Byte} {i : Nat} {t : CType}

theorem exists_decodeField_iff :
    (∃ v, decodeField buffer t i = some v) ↔ t.Decodable ∧ i * 4 + t.size ≤ buffer.length := by
  refine ⟨fun ⟨v, hv⟩ => decodeField_some hv, fun ⟨hdec, hle⟩ => ?_⟩
  have hread : ∀ (f : PyFormat), i * 4 + f.size ≤ buffer.length →
      ∃ v, (fieldBytes buffer i f.size).bind (unpack f) = some v := by
    intro f hf
    have hlen : ((buffer.drop (i * 4)).take f.size).length = f.size := by
      rw [List.length_take, List.length_drop]
      omega
    rw [fieldBytes_eq hf, Option.bind_some]
    exact ⟨_, if_neg (not_not.mpr hlen)⟩
  obtain rfl | rfl | rfl | rfl | rfl := hdec
  · exact hread .bool hle
  · exact hread .uint16 hle
  · exact hread .uint32 hle
  · exact hread .int32 hle
  · exact hread .float hle

theorem exists_decodeTypes_iff (types : List CType) (acc : Decoded) :
    (∃ acc', decodeTypes buffer types acc = some acc') ↔ ∀ i t, types[i]? = some t →
      t.Decodable ∧ (acc.2 + i) * 4 + t.size ≤ buffer.length := by
  induction types generalizing acc with
  | nil => exact iff_of_true ⟨acc, rfl⟩ fun i t h => by cases h
  | cons t types ih =>
      have hstep : ∀ data, decodeField buffer t acc.2 = some data →
          decodeTypes buffer (t :: types) acc =
            decodeTypes buffer types (acc.1 ++ [data], acc.2 + 1) := by
        intro data hdata
        rw [decodeTypes, List.foldlM_cons, decodeElement, hdata]
        rfl
      constructor
      · rintro ⟨acc', h⟩ i u hu
        obtain ⟨acc₁, hfirst, -⟩ := Option.bind_eq_some_iff.mp h
        obtain ⟨data, hdata, -⟩ := Option.map_eq_some_iff.mp hfirst
        have hrest := (ih (acc.1 ++ [data], acc.2 + 1)).mp ⟨acc', (hstep data hdata).symm.trans h⟩
        cases i with
        | zero =>
            obtain rfl := Option.some.inj hu
            exact exists_decodeField_iff.mp ⟨data, hdata⟩
        | succ i =>
            have hi := hrest i u hu
            rwa [show acc.2 + (i + 1) = acc.2 + 1 + i by omega]
      · intro hall
        obtain ⟨data, hdata⟩ := exists_decodeField_iff.mpr (hall 0 t rfl)
        rw [hstep data hdata, ih]
        intro i u hu
        have hi := hall (i + 1) u hu
        rwa [show acc.2 + (i + 1) = acc.2 + 1 + i by omega] at hi

theorem exists_decodeFields_iff (m : TenokMsg) :
    (∃ acc, decodeFields buffer m.fields = some acc) ↔ m.Fits buffer.length := by
  rw [decodeFields_eq, exists_decodeTypes_iff]
  simp only [Nat.zero_add]
  exact Iff.rfl

end Decoding

namespace SerialManager

def WrongStart (fifo : List Byte) : Prop :=
  ∃ startByte size msgId payload, fifo = startByte :: size :: msgId :: payload ∧ startByte ≠ 64#8

/-- The FIFO starts with all the bytes of a frame. -/
def Frame (fifo : List Byte) (size msgId : Byte) (payload : List Byte) : Prop :=
  fifo = 64#8 :: size :: msgId :: payload ∧ size.toNat + 1 ≤ payload.length

def ChecksumOk (size : Byte) (payload : List Byte) : Prop :=
  payload[size.toNat]? = some ((payload.take size.toNat).foldl (· ^^^ ·) dbglinkChecksumInitVal)

/-- The message is known, was loaded in time, does not come at the time of the last one, and its
fields can be decoded from the payload. -/
def Accepts (s : SerialManager) (currTime : Int) (size msgId : Byte) : Prop :=
  ∃ m last, s.msgManager.findId msgId.toNat = some m ∧
    s.recvdTimeLast[msgId.toNat]? = some last ∧ last ≠ currTime ∧ m.Fits (size.toNat + 1)

/-- The call returns a result and removes bytes from the front. -/
def Progress (s : SerialManager) (waiting : List Byte) (currTime : Int) : Prop :=
  (s.receiveMsg waiting currTime).2 ≠ .raised ∧ ∃ n, 0 < n ∧
    n ≤ (s.serialFifo ++ waiting).length ∧
      (s.receiveMsg waiting currTime).1.serialFifo = (s.serialFifo ++ waiting).drop n

variable {s : SerialManager} {waiting payload : List Byte} {currTime : Int} {size msgId : Byte}

theorem decodeMsg_success_iff (s : SerialManager) (buffer : List Byte) (currTime : Int) :
    (∃ s' name data, s.decodeMsg buffer msgId.toNat currTime = (s', .success name data)) ↔
      ∃ m last, s.msgManager.findId msgId.toNat = some m ∧
        s.recvdTimeLast[msgId.toNat]? = some last ∧ last ≠ currTime ∧ m.Fits buffer.length := by
  cases hfind : s.msgManager.findId msgId.toNat with
  | none => simp [decodeMsg, hfind]
  | some m =>
      cases hlast : s.recvdTimeLast[msgId.toNat]? with
      | none => simp [decodeMsg, hfind, prompt, hlast]
      | some last =>
          by_cases hclock : currTime - last = 0
          · have hsame : last = currTime := by omega
            simp [decodeMsg, hfind, prompt, hlast, hsame]
          · have hmoved : last ≠ currTime := by omega
            have hfits : (∃ acc, decodeFields buffer m.fields = some acc) ↔ m.Fits buffer.length :=
              exists_decodeFields_iff m
            cases hfields : decodeFields buffer m.fields with
            | none =>
                rw [hfields] at hfits
                have hnot : ¬ m.Fits buffer.length := fun h => by
                  obtain ⟨acc, hacc⟩ := hfits.mpr h
                  cases hacc
                simp [decodeMsg, hfind, prompt, hlast, hclock, hfields, hmoved, hnot]
            | some acc =>
                have hok : m.Fits buffer.length := hfits.mp ⟨acc, hfields⟩
                simp [decodeMsg, hfind, prompt, hlast, hclock, hfields, hmoved, hok]

theorem prompt_keeps {s t : SerialManager} {id : Nat} (h : s.prompt id currTime = some t) :
    t.serialFifo = s.serialFifo ∧ t.msgManager = s.msgManager ∧
      t.recvdTimeLast.length = s.recvdTimeLast.length := by
  rw [prompt] at h
  split at h
  · cases h
  · split at h
    · cases h
    · obtain rfl := Option.some.inj h
      exact ⟨rfl, rfl, List.length_set⟩

theorem decodeMsg_keeps (s : SerialManager) (buffer : List Byte) (id : Nat) (currTime : Int) :
    (s.decodeMsg buffer id currTime).1.serialFifo = s.serialFifo ∧
      (s.decodeMsg buffer id currTime).1.msgManager = s.msgManager ∧
      (s.decodeMsg buffer id currTime).1.recvdTimeLast.length = s.recvdTimeLast.length := by
  rw [decodeMsg]
  cases s.msgManager.findId id with
  | none => exact ⟨rfl, rfl, rfl⟩
  | some m =>
      dsimp only
      cases hprompt : s.prompt id currTime with
      | none => exact ⟨rfl, rfl, rfl⟩
      | some t =>
          dsimp only
          cases decodeFields buffer m.fields with
          | none => exact prompt_keeps hprompt
          | some acc => exact prompt_keeps hprompt

theorem decodeMsg_msgList {buffer : List Byte} {id : Nat}
    (hlen : s.recvdTimeLast.length = s.msgManager.length)
    (htime : ∀ last ∈ s.recvdTimeLast, last ≠ currTime) :
    (s.decodeMsg buffer id currTime).2 = s.msgManager.decodeMsg buffer id := by
  rw [decodeMsg, MsgList.decodeMsg]
  cases s.msgManager.findId id with
  | none => rfl
  | some m =>
      dsimp only
      rw [prompt]
      cases hlast : s.recvdTimeLast[id]? with
      | none => rw [if_pos (hlen ▸ List.getElem?_eq_none_iff.mp hlast)]
      | some last =>
          have hid : id < s.msgManager.length := hlen ▸ (List.getElem?_eq_some_iff.mp hlast).1
          have hpassed : ¬ currTime - last = 0 := fun h =>
            htime last (List.mem_of_getElem? hlast) (Int.sub_eq_zero.mp h).symm
          rw [if_neg (Nat.not_le.mpr hid)]
          dsimp only
          rw [if_neg hpassed]
          dsimp only
          cases decodeFields buffer m.fields <;> rfl

/-- Between messages that do not come at one time, the times make no difference. -/
theorem receiveMsg_msgList (hlen : s.recvdTimeLast.length = s.msgManager.length)
    (htime : ∀ last ∈ s.recvdTimeLast, last ≠ currTime) :
    ((s.receiveMsg waiting currTime).1.serialFifo, (s.receiveMsg waiting currTime).2) =
      s.msgManager.receiveMsg s.serialFifo waiting := by
  have hdecode : ∀ buffer id,
      (decodeMsg { s with serialFifo := s.serialFifo ++ waiting } buffer id currTime).2 =
        s.msgManager.decodeMsg buffer id := fun buffer id => decodeMsg_msgList hlen htime
  rw [receiveMsg, MsgList.receiveMsg]
  rcases hfifo : s.serialFifo ++ waiting with _ | ⟨startByte, _ | ⟨size, _ | ⟨msgId, payload⟩⟩⟩
  · rfl
  · rfl
  · rfl
  · rw [hfifo] at hdecode
    dsimp only
    split
    · rfl
    split
    · rfl
    split
    · rfl
    have hkeeps := decodeMsg_keeps { s with serialFifo := startByte :: size :: msgId :: payload }
      (payload.take (size.toNat + 1)) msgId.toNat currTime
    rw [← hdecode]
    generalize decodeMsg _ _ _ _ = r at hkeeps
    obtain ⟨s', failed | raised | ⟨msgName, data⟩⟩ := r
    · exact congrArg (·, ReceiveResult.raised) hkeeps.1
    · exact congrArg (·, ReceiveResult.raised) hkeeps.1
    · rfl

theorem receiveMsg_frame (hframe : Frame (s.serialFifo ++ waiting) size msgId payload)
    (hsum : ChecksumOk size payload) :
    (s.Accepts currTime size msgId → s.Progress waiting currTime) ∧
      (¬ s.Accepts currTime size msgId → (s.receiveMsg waiting currTime).2 = .raised ∧
        (s.receiveMsg waiting currTime).1.serialFifo = s.serialFifo ++ waiting ∧
        (s.receiveMsg waiting currTime).1.msgManager = s.msgManager ∧
        (s.receiveMsg waiting currTime).1.recvdTimeLast.length = s.recvdTimeLast.length) := by
  obtain ⟨hfifo, hlen⟩ := hframe
  let t : SerialManager := { s with serialFifo := s.serialFifo ++ waiting }
  let buf := payload.take (size.toNat + 1)
  have hbuf : buf.length = size.toNat + 1 := List.length_take_of_le hlen
  have hlong : ¬ (s.serialFifo ++ waiting).length < size.toNat + dbglinkHeaderSize + 1 := by
    rw [hfifo]
    simp only [List.length_cons, dbglinkHeaderSize]
    omega
  have hsum' : ¬ buf[size.toNat]? ≠
      some ((buf.take size.toNat).foldl (· ^^^ ·) dbglinkChecksumInitVal) := by
    rw [List.getElem?_take_of_lt (by omega), List.take_take, Nat.min_eq_left (by omega)]
    exact not_not.mpr hsum
  have hcall : s.receiveMsg waiting currTime = match t.decodeMsg buf msgId.toNat currTime with
      | (s', .failed) | (s', .raised) => (s', .raised)
      | (s', .success msgName data) =>
          ({ s' with serialFifo :=
              (s.serialFifo ++ waiting).drop (size.toNat + dbglinkHeaderSize + 1) },
            .success msgId.toNat msgName data) := by
    simp only [receiveMsg]
    rw [hfifo] at hlong ⊢
    simp only [ne_eq, not_true_eq_false, if_false]
    rw [if_neg hlong, if_neg hsum', ← hfifo]
  have haccepts : (∃ s' name data,
      t.decodeMsg buf msgId.toNat currTime = (s', .success name data)) ↔
      ∃ m last, t.msgManager.findId msgId.toNat = some m ∧
        t.recvdTimeLast[msgId.toNat]? = some last ∧ last ≠ currTime ∧ m.Fits buf.length :=
    decodeMsg_success_iff t buf currTime
  rw [hbuf] at haccepts
  have hkeeps := decodeMsg_keeps t buf msgId.toNat currTime
  constructor
  · intro hok
    obtain ⟨s', name, data, hdecode⟩ := haccepts.mpr hok
    rw [hdecode] at hcall
    refine ⟨by rw [hcall]; simp, size.toNat + dbglinkHeaderSize + 1, by omega, by omega, ?_⟩
    rw [hcall]
  · intro hnot
    have hfailed : ∀ s' name data, t.decodeMsg buf msgId.toNat currTime ≠ (s', .success name data) :=
      fun s' name data h => hnot (haccepts.mp ⟨s', name, data, h⟩)
    cases hdecode : t.decodeMsg buf msgId.toNat currTime with
    | mk s' r =>
        rw [hdecode] at hcall hkeeps
        cases r with
        | failed =>
            rw [hcall]
            exact ⟨rfl, hkeeps⟩
        | raised =>
            rw [hcall]
            exact ⟨rfl, hkeeps⟩
        | success name data => exact absurd hdecode (hfailed s' name data)

theorem receiveMsg_wrongStart (h : WrongStart (s.serialFifo ++ waiting)) :
    s.Progress waiting currTime := by
  obtain ⟨startByte, size, msgId, rest, hfifo, hstart⟩ := h
  have hcall : s.receiveMsg waiting currTime =
      ({ s with serialFifo := (s.serialFifo ++ waiting).drop 1 }, .retry) := by
    simp only [receiveMsg]
    rw [hfifo]
    exact if_pos hstart
  refine ⟨by rw [hcall]; simp, 1, Nat.one_pos, by rw [hfifo]; simp, by rw [hcall]⟩

theorem receiveMsg_badChecksum (hframe : Frame (s.serialFifo ++ waiting) size msgId payload)
    (hsum : ¬ ChecksumOk size payload) : s.Progress waiting currTime := by
  obtain ⟨hfifo, hlen⟩ := hframe
  have hlong : ¬ (s.serialFifo ++ waiting).length < size.toNat + dbglinkHeaderSize + 1 := by
    rw [hfifo]
    simp only [List.length_cons, dbglinkHeaderSize]
    omega
  have hsum' : (payload.take (size.toNat + 1))[size.toNat]? ≠
      some (((payload.take (size.toNat + 1)).take size.toNat).foldl (· ^^^ ·)
        dbglinkChecksumInitVal) := by
    rw [List.getElem?_take_of_lt (by omega), List.take_take, Nat.min_eq_left (by omega)]
    exact hsum
  have hcall : s.receiveMsg waiting currTime =
      ({ s with serialFifo := (s.serialFifo ++ waiting).drop 1 }, .failed) := by
    simp only [receiveMsg]
    rw [hfifo] at hlong ⊢
    simp only [ne_eq, not_true_eq_false, if_false]
    rw [if_neg hlong]
    exact if_pos hsum'
  refine ⟨by rw [hcall]; simp, 1, Nat.one_pos, by rw [hfifo]; simp, by rw [hcall]⟩

/-- A call with a wrong start byte or a frame returns a result and removes bytes, exactly if a frame
whose checksum is right is of a message that can be decoded. -/
theorem receiveMsg_progress_iff (s : SerialManager) (waiting : List Byte) (currTime : Int) :
    (WrongStart (s.serialFifo ++ waiting) ∨
        (∃ size msgId payload, Frame (s.serialFifo ++ waiting) size msgId payload) →
      s.Progress waiting currTime) ↔
    ∀ size msgId payload, Frame (s.serialFifo ++ waiting) size msgId payload →
      ChecksumOk size payload → s.Accepts currTime size msgId := by
  constructor
  · intro hprogress size msgId payload hframe hsum
    by_contra hnot
    obtain ⟨hraised, -⟩ := (receiveMsg_frame hframe hsum).2 hnot
    exact (hprogress (Or.inr ⟨size, msgId, payload, hframe⟩)).1 hraised
  · rintro hok (hstart | ⟨size, msgId, payload, hframe⟩)
    · exact receiveMsg_wrongStart hstart
    · by_cases hsum : ChecksumOk size payload
      · exact (receiveMsg_frame hframe hsum).1 (hok size msgId payload hframe hsum)
      · exact receiveMsg_badChecksum hframe hsum

/-- A frame of a message that is not known keeps the receiver where it is: the call raises an
exception, and nothing is removed. -/
theorem receiveMsg_no_progress :
    let s : SerialManager := ⟨[], [], []⟩
    let frame := [64#8, 0#8, 5#8, 63#8]
    Frame (s.serialFifo ++ frame) 0#8 5#8 [63#8] ∧
      s.receiveMsg frame 0 = ({ s with serialFifo := frame }, .raised) ∧ ¬ s.Progress frame 0 := by
  intro s frame
  have hcall : s.receiveMsg frame 0 = ({ s with serialFifo := frame }, .raised) := rfl
  refine ⟨⟨rfl, by decide⟩, hcall, fun hprogress => hprogress.1 ?_⟩
  rw [hcall]

end SerialManager

end Tenok
