import Tenok.Common.Util
import Tenok.Lib.Runs

/-!
`drivers/devices/sbus.c`: the window over the bytes of a remote control. The buffer has 25 bytes, but
the handler stops counting at 24: it looks at byte 24 before anything was written there, and shifts
the bytes before it without it.
-/
namespace Tenok

/-- `sbus_t` up to what `sbus_read` computes from it, and the calls of `decode_sbus`. -/
structure Sbus where
  buf : Nat → Byte
  index : Nat
  rcVal : List (BitVec 16)
  currTimeMs : Int
  lastTimeMs : Int

namespace Sbus

def init : Sbus where
  buf _ := 0#8
  index := 0
  rcVal := List.replicate 16 0#16
  currTimeMs := 0
  lastTimeMs := 0

/-- `(a | b << …) & 0x07ff` of the bytes of a frame, computed as an `int`. -/
def channel (bits : BitVec 32) : BitVec 16 := (bits &&& 0x07ff#32).setWidth 16

def decodeSbus (s : Sbus) : Sbus :=
  let frame : Nat → BitVec 32 := fun i => (s.buf i).setWidth 32
  { s with rcVal := [
      channel (frame 1 ||| frame 2 <<< 8),
      channel (frame 2 >>> 3 ||| frame 3 <<< 5),
      channel (frame 3 >>> 6 ||| frame 4 <<< 2 ||| frame 5 <<< 10),
      channel (frame 5 >>> 1 ||| frame 6 <<< 7),
      channel (frame 6 >>> 4 ||| frame 7 <<< 4),
      channel (frame 7 >>> 7 ||| frame 8 <<< 1 ||| frame 9 <<< 9),
      channel (frame 9 >>> 2 ||| frame 10 <<< 6),
      channel (frame 10 >>> 5 ||| frame 11 <<< 3),
      channel (frame 12 ||| frame 13 <<< 8),
      channel (frame 13 >>> 3 ||| frame 14 <<< 5),
      channel (frame 14 >>> 6 ||| frame 15 <<< 2 ||| frame 16 <<< 10),
      channel (frame 16 >>> 1 ||| frame 17 <<< 7),
      channel (frame 17 >>> 4 ||| frame 18 <<< 4),
      channel (frame 18 >>> 7 ||| frame 19 <<< 1 ||| frame 20 <<< 9),
      channel (frame 20 >>> 2 ||| frame 21 <<< 6),
      channel (frame 21 >>> 5 ||| frame 22 <<< 3)] }

def removeOldest (buf : Nat → Byte) : Nat → Byte :=
  (List.range 23).foldl (fun buf i => Function.update buf i (buf (i + 1))) buf

/-- The difference is compared as a `float`, which keeps it on its side of 2. -/
def Restarts (s : Sbus) (now : Int) : Prop := now - s.lastTimeMs > 2

instance (s : Sbus) (now : Int) : Decidable (s.Restarts now) := inferInstanceAs (Decidable (_ < _))

/-- The new byte is appended, or it takes the place of the oldest one. -/
def takeByte (s : Sbus) (newByte : Byte) : Sbus :=
  if s.index < 24 then
    { s with buf := Function.update s.buf s.index newByte, index := s.index + 1 }
  else { s with buf := Function.update (removeOldest s.buf) s.index newByte }

def HasFrame (s : Sbus) : Prop := s.index = 24 ∧ s.buf 0 = 0x0f#8 ∧ s.buf 24 = 0#8

instance (s : Sbus) : Decidable s.HasFrame := inferInstanceAs (Decidable (_ ∧ _ ∧ _))

/-- `sbus_interrupt_handler`, and whether it has called `decode_sbus`. -/
def interruptHandler (s : Sbus) (now : Int) (newByte : Byte) : Sbus × Bool :=
  let s := { s with currTimeMs := now, index := if s.Restarts now then 0 else s.index }
  let s := s.takeByte newByte
  let decoded := decide s.HasFrame
  let s := if decoded then s.decodeSbus else s
  ({ s with lastTimeMs := s.currTimeMs }, decoded)

end Sbus

/-- The driver with the bytes since the last restart, and whether the last one was decoded. -/
structure SbusRun where
  sbus : Sbus
  recent : List Byte
  decoded : Bool

namespace SbusRun
open Sbus

def start : SbusRun := ⟨init, [], false⟩

/-- The bytes since the last restart once one more has come. -/
def received (s : SbusRun) (e : Int × Byte) : List Byte :=
  (if s.sbus.Restarts e.1 then [] else s.recent) ++ [e.2]

/-- A byte at its time of arrival. -/
def step (s : SbusRun) (e : Int × Byte) : Option SbusRun :=
  let r := s.sbus.interruptHandler e.1 e.2
  some ⟨r.1, s.received e, r.2⟩

def frame (recent : List Byte) : List Byte := recent.drop (recent.length - 25)

def Due (recent : List Byte) : Prop :=
  25 ≤ recent.length ∧ (frame recent)[0]? = some 0x0f#8 ∧ (frame recent)[24]? = some 0#8

/-- `decode_sbus` is called for a frame and for nothing else, and gets the frame. -/
def Framed (s : SbusRun) : Prop :=
  (s.decoded = true ↔ Due s.recent) ∧ (s.decoded = true → bytesAt s.sbus.buf 25 = frame s.recent)

/-- With 24 bytes since the restart, the stale last byte of the buffer does not end a frame. With
more, a zero does not come after a frame's start where the buffer, which has lost the byte there, or
the stream has it, unless the 24 bytes before it are all the same. -/
def WindowOk (s : SbusRun) (e : Int × Byte) : Prop :=
  ((s.received e).length = 24 → (s.received e)[0]? = some 0x0f#8 → s.sbus.buf 24 ≠ 0#8) ∧
    (25 ≤ (s.received e).length → e.2 = 0#8 →
      ((frame (s.received e))[0]? ≠ some 0x0f#8 ∧ s.sbus.buf 1 ≠ 0x0f#8) ∨
        ((∀ b ∈ (frame (s.received e)).take 24, b = 0x0f#8) ∧ s.sbus.buf 1 = 0x0f#8))

/-- The buffer over the bytes `bs` since the restart: behind the first 24 nothing gets in but the
last byte, and each byte after them drops one from the front. -/
structure Holds (s : Sbus) (bs : List Byte) : Prop where
  index : s.index = min bs.length 24
  kept : ∀ i < min bs.length 24, bs[min (i + (bs.length - 24)) 23]? = some (s.buf i)
  last : 25 ≤ bs.length → bs[bs.length - 1]? = some (s.buf 24)

theorem removeOldest_apply (buf : Nat → Byte) (i : Nat) :
    removeOldest buf i = if i < 23 then buf (i + 1) else buf i := by
  have hloop : ∀ n, (List.range n).foldl (fun buf i => Function.update buf i (buf (i + 1))) buf i =
      if i < n then buf (i + 1) else buf i := by
    intro n
    induction n generalizing i with
    | zero => rfl
    | succ n ih =>
        rw [List.range_succ, List.foldl_append, List.foldl_cons, List.foldl_nil]
        by_cases hi : i = n
        · subst hi
          rw [Function.update_self, ih, if_neg (by omega), if_pos (by omega)]
        · rw [Function.update_of_ne hi, ih]
          exact if_congr (by omega) rfl rfl
  exact hloop 23

section Window
variable {s : Sbus} {bs : List Byte} {b : Byte}

theorem Holds.restart (s : Sbus) (now : Int) :
    Holds { s with currTimeMs := now, index := 0 } [] :=
  ⟨rfl, fun _ hi => absurd hi (Nat.not_lt_zero _), fun h => absurd h (by decide)⟩

theorem Holds.clock (h : Holds s bs) (now : Int) :
    Holds { s with currTimeMs := now, index := s.index } bs :=
  ⟨h.index, h.kept, h.last⟩

theorem getElem?_old {i : Nat} (hi : i < bs.length) : (bs ++ [b])[i]? = bs[i]? :=
  List.getElem?_append_left hi

theorem Holds.takeByte (h : Holds s bs) (b : Byte) : Holds (s.takeByte b) (bs ++ [b]) := by
  have hindex := h.index
  have hnew : (bs ++ [b])[bs.length]? = some b := by simp
  have hlen : (bs ++ [b]).length = bs.length + 1 := by simp
  by_cases hlt : bs.length < 24
  · have htake : s.takeByte b =
        { s with buf := Function.update s.buf bs.length b, index := bs.length + 1 } := by
      rw [Sbus.takeByte, if_pos (by omega), show s.index = bs.length by omega]
    rw [htake]
    refine ⟨?_, fun i hi => ?_, fun hle => ?_⟩
    · rw [hlen]
      change bs.length + 1 = _
      omega
    · rw [hlen] at hi ⊢
      rw [show min (i + (bs.length + 1 - 24)) 23 = i by omega]
      dsimp only
      by_cases hnewest : i = bs.length
      · rw [hnewest, hnew, Function.update_self]
      · have hkept := h.kept i (by omega)
        rw [show min (i + (bs.length - 24)) 23 = i by omega] at hkept
        rw [getElem?_old (by omega), hkept, Function.update_of_ne hnewest]
    · rw [hlen] at hle
      omega
  · have htake : s.takeByte b = { s with buf := Function.update (removeOldest s.buf) 24 b } := by
      rw [Sbus.takeByte, if_neg (by omega), show s.index = 24 by omega]
    rw [htake]
    refine ⟨?_, fun i hi => ?_, fun _ => ?_⟩
    · rw [hlen]
      change s.index = _
      omega
    · rw [hlen] at hi ⊢
      dsimp only
      rw [Function.update_of_ne (by omega), removeOldest_apply, getElem?_old (by omega)]
      by_cases hshift : i < 23
      · have hkept := h.kept (i + 1) (by omega)
        rw [if_pos hshift, ← hkept]
        exact congrArg (bs[·]?) (by omega)
      · have hkept := h.kept i (by omega)
        rw [if_neg hshift, ← hkept]
        exact congrArg (bs[·]?) (by omega)
    · rw [hlen, Nat.add_sub_cancel, hnew]
      dsimp only
      rw [Function.update_self]

theorem Holds.takeByte_ends (h : Holds s bs) (b : Byte) :
    (bs.length + 1 = 24 → (s.takeByte b).buf 24 = s.buf 24) ∧
      (25 ≤ bs.length + 1 → (s.takeByte b).buf 0 = s.buf 1) := by
  have hindex := h.index
  constructor
  · intro hlen
    rw [Sbus.takeByte, if_pos (by omega)]
    exact Function.update_of_ne (by omega) ..
  · intro hlen
    rw [Sbus.takeByte, if_neg (by omega)]
    dsimp only
    rw [Function.update_of_ne (by omega), removeOldest_apply, if_pos (by omega)]

theorem frame_getElem? (bs : List Byte) (i : Nat) :
    (frame bs)[i]? = bs[bs.length - 25 + i]? := List.getElem?_drop

theorem length_frame (hlen : 25 ≤ bs.length) : (frame bs).length = 25 := by
  rw [frame, List.length_drop]
  omega

theorem bytesAt_eq_frame_iff (hlen : 25 ≤ bs.length) (buf : Nat → Byte) :
    bytesAt buf 25 = frame bs ↔ ∀ i < 25, bs[bs.length - 25 + i]? = some (buf i) := by
  constructor
  · intro heq i hi
    rw [← frame_getElem?, ← heq]
    simp [bytesAt, hi]
  · intro hsame
    refine List.ext_getElem? fun i => ?_
    by_cases hi : i < 25
    · rw [frame_getElem?, hsame i hi]
      simp [bytesAt, hi]
    · rw [List.getElem?_eq_none (by rw [length_bytesAt]; omega),
        List.getElem?_eq_none (by rw [length_frame hlen]; omega)]

/-- From the 25th byte on, the buffer is the frame only if all its bytes up to the last are the one
at its front: each of them is compared with the one before it. -/
theorem Holds.eq_frame_iff (h : Holds s bs) (hlen : 25 ≤ bs.length) (hfirst : s.buf 0 = 0x0f#8) :
    bytesAt s.buf 25 = frame bs ↔ ∀ b ∈ (frame bs).take 24, b = 0x0f#8 := by
  have hk : ∀ i < 24, bs[min (i + (bs.length - 24)) 23]? = some (s.buf i) :=
    fun i hi => h.kept i (by omega)
  have hall : (∀ b ∈ (frame bs).take 24, b = 0x0f#8) ↔
      ∀ i < 24, bs[bs.length - 25 + i]? = some 0x0f#8 := by
    constructor
    · intro hsame i hi
      have hlt : bs.length - 25 + i < bs.length := by omega
      rw [List.getElem?_eq_getElem hlt]
      refine congrArg some (hsame _ (List.mem_iff_getElem?.mpr ⟨i, ?_⟩))
      rw [List.getElem?_take_of_lt hi, frame_getElem?, List.getElem?_eq_getElem hlt]
    · intro hsame b hb
      obtain ⟨i, hi⟩ := List.mem_iff_getElem?.mp hb
      obtain ⟨hlt, -⟩ := List.getElem?_eq_some_iff.mp hi
      have hi24 : i < 24 := Nat.lt_of_lt_of_le hlt (List.length_take_le ..)
      rw [List.getElem?_take_of_lt hi24, frame_getElem?, hsame i hi24] at hi
      exact (Option.some.inj hi).symm
  rw [bytesAt_eq_frame_iff hlen, hall]
  constructor
  · intro hsame i hi
    induction i with
    | zero => rw [hsame 0 (by omega), hfirst]
    | succ i ih =>
        -- both are what the buffer has at one of the places `i` and `i + 1`
        have hprev := ih (by omega)
        rw [hsame i (by omega), ← hk i (by omega)] at hprev
        by_cases hin : i + (bs.length - 24) ≤ 23
        · rw [← hprev]
          exact congrArg (bs[·]?) (by omega)
        · rw [hsame (i + 1) (by omega), ← hk (i + 1) hi, ← hprev]
          exact congrArg (bs[·]?) (by omega)
  · intro hsame i hi
    by_cases hlast : i = 24
    · subst hlast
      rw [← h.last hlen]
      exact congrArg (bs[·]?) (by omega)
    · rw [hsame i (by omega), ← hk i (by omega)]
      by_cases hin : bs.length - 24 ≤ 24
      · have hplace := hsame (min (i + (bs.length - 24)) 23 - (bs.length - 25)) (by omega)
        rw [← hplace]
        exact congrArg (bs[·]?) (by omega)
      · rw [← hfirst, ← hk 0 (by omega)]
        exact congrArg (bs[·]?) (by omega)

/-- A byte is taken as the law says exactly if it is none of those that the window gets wrong. -/
theorem Holds.lawful_iff (h : Holds s bs) (b : Byte) :
    (((s.takeByte b).HasFrame ↔ Due (bs ++ [b])) ∧
      ((s.takeByte b).HasFrame → bytesAt (s.takeByte b).buf 25 = frame (bs ++ [b]))) ↔
    ((bs ++ [b]).length = 24 → (bs ++ [b])[0]? = some 0x0f#8 → s.buf 24 ≠ 0#8) ∧
      (25 ≤ (bs ++ [b]).length → b = 0#8 →
        ((frame (bs ++ [b]))[0]? ≠ some 0x0f#8 ∧ s.buf 1 ≠ 0x0f#8) ∨
          ((∀ c ∈ (frame (bs ++ [b])).take 24, c = 0x0f#8) ∧ s.buf 1 = 0x0f#8)) := by
  have hafter := h.takeByte b
  obtain ⟨hend, hfront⟩ := h.takeByte_ends b
  have hlen : (bs ++ [b]).length = bs.length + 1 := by simp
  have hindex := hafter.index
  by_cases hlong : 25 ≤ (bs ++ [b]).length
  · have hlast : (frame (bs ++ [b]))[24]? = some b := by
      rw [frame_getElem?, show (bs ++ [b]).length - 25 + 24 = bs.length by omega]
      simp
    have hbuf : (s.takeByte b).buf 24 = b := by
      have hb := hafter.last hlong
      rw [hlen, Nat.add_sub_cancel] at hb
      simpa using hb.symm
    have hframe : (s.takeByte b).HasFrame ↔ s.buf 1 = 0x0f#8 ∧ b = 0#8 := by
      rw [HasFrame, hbuf, hfront (by omega)]
      exact and_iff_right (by omega)
    have hdue : Due (bs ++ [b]) ↔ (frame (bs ++ [b]))[0]? = some 0x0f#8 ∧ b = 0#8 := by
      rw [Due, hlast, Option.some.injEq]
      exact and_iff_right hlong
    have hall : s.buf 1 = 0x0f#8 → (bytesAt (s.takeByte b).buf 25 = frame (bs ++ [b]) ↔
        ∀ c ∈ (frame (bs ++ [b])).take 24, c = 0x0f#8) := fun hone =>
      hafter.eq_frame_iff hlong ((hfront (by omega)).trans hone)
    rw [hframe, hdue]
    constructor
    · rintro ⟨hiff, hsame⟩
      refine ⟨fun h24 => absurd hlong (by omega), fun _ hzero => ?_⟩
      by_cases hone : s.buf 1 = 0x0f#8
      · exact Or.inr ⟨(hall hone).mp (hsame ⟨hone, hzero⟩), hone⟩
      · exact Or.inl ⟨fun hfirst => hone (hiff.mpr ⟨hfirst, hzero⟩).1, hone⟩
    · rintro ⟨-, hok⟩
      by_cases hzero : b = 0#8
      · obtain ⟨hfirst, hone⟩ | ⟨hsame, hone⟩ := hok hlong hzero
        · exact ⟨iff_of_false (fun h => hone h.1) fun h => hfirst h.1, fun h => absurd h.1 hone⟩
        · have hlt : 0 < (frame (bs ++ [b])).length := by
            rw [length_frame hlong]
            omega
          have hmem : (frame (bs ++ [b]))[0] ∈ (frame (bs ++ [b])).take 24 := by
            refine List.mem_iff_getElem?.mpr ⟨0, ?_⟩
            rw [List.getElem?_take_of_lt (by omega), List.getElem?_eq_getElem hlt]
          have hfirst : (frame (bs ++ [b]))[0]? = some 0x0f#8 := by
            rw [List.getElem?_eq_getElem hlt, hsame _ hmem]
          exact ⟨iff_of_true ⟨hone, hzero⟩ ⟨hfirst, hzero⟩, fun _ => (hall hone).mpr hsame⟩
      · exact ⟨iff_of_false (fun h => hzero h.2) fun h => hzero h.2, fun h => absurd h.2 hzero⟩
  · have hnotDue : ¬ Due (bs ++ [b]) := fun hdue => hlong hdue.1
    refine Iff.trans ?_ (and_iff_left fun h => absurd h hlong).symm
    by_cases h24 : (bs ++ [b]).length = 24
    · have hkept := hafter.kept 0 (by omega)
      rw [h24] at hkept
      have hframe : (s.takeByte b).HasFrame ↔
          (bs ++ [b])[0]? = some 0x0f#8 ∧ s.buf 24 = 0#8 := by
        rw [HasFrame, hend (by omega), show (bs ++ [b])[0]? = _ from hkept, Option.some.injEq]
        exact and_iff_right (by omega)
      simp only [hframe, hnotDue, h24, iff_false, forall_const, not_and]
      exact and_iff_left_of_imp fun hnot hboth => absurd hboth.2 (hnot hboth.1)
    · have hnot : ¬ (s.takeByte b).HasFrame := fun hframe => by
        have h24' := hframe.1
        omega
      exact iff_of_true ⟨iff_of_false hnot hnotDue, fun hframe => absurd hframe hnot⟩
        fun hlen24 => absurd hlen24 h24

end Window

theorem decodeSbus_window (decoded : Bool) (s : Sbus) :
    (if decoded then s.decodeSbus else s).index = s.index ∧
      (if decoded then s.decodeSbus else s).buf = s.buf := by
  cases decoded with
  | true => exact ⟨rfl, rfl⟩
  | false => exact ⟨rfl, rfl⟩

/-- The handler takes the byte into the window, which it empties first at a restart. -/
theorem step_window {s t : SbusRun} {e : Int × Byte} (hs : Holds s.sbus s.recent)
    (hstep : s.step e = some t) : Holds t.sbus t.recent ∧ (s.WindowOk e ↔ t.Framed) := by
  obtain rfl := Option.some.inj hstep
  let cleared : Sbus :=
    { s.sbus with currTimeMs := e.1, index := if s.sbus.Restarts e.1 then 0 else s.sbus.index }
  let bs := if s.sbus.Restarts e.1 then [] else s.recent
  have hcleared : Holds cleared bs := by
    by_cases hrestart : s.sbus.Restarts e.1
    · simp only [cleared, bs, if_pos hrestart]
      exact Holds.restart s.sbus e.1
    · simp only [cleared, bs, if_neg hrestart]
      exact hs.clock e.1
  have hwindow : (s.sbus.interruptHandler e.1 e.2).1.index = (cleared.takeByte e.2).index ∧
      (s.sbus.interruptHandler e.1 e.2).1.buf = (cleared.takeByte e.2).buf := by
    exact decodeSbus_window (decide (cleared.takeByte e.2).HasFrame) (cleared.takeByte e.2)
  have hframed : SbusRun.Framed ⟨(s.sbus.interruptHandler e.1 e.2).1, s.received e,
        (s.sbus.interruptHandler e.1 e.2).2⟩ ↔
      (((cleared.takeByte e.2).HasFrame ↔ Due (bs ++ [e.2])) ∧
        ((cleared.takeByte e.2).HasFrame →
          bytesAt (cleared.takeByte e.2).buf 25 = frame (bs ++ [e.2]))) := by
    rw [SbusRun.Framed, ← hwindow.2]
    dsimp only
    rw [show (s.sbus.interruptHandler e.1 e.2).2 = decide (cleared.takeByte e.2).HasFrame from rfl,
      decide_eq_true_eq]
    exact Iff.rfl
  refine ⟨?_, ?_⟩
  · have hafter := hcleared.takeByte e.2
    refine ⟨hwindow.1.trans hafter.index, ?_, ?_⟩
    · rw [hwindow.2]
      exact hafter.kept
    · rw [hwindow.2]
      exact hafter.last
  · rw [hframed]
    exact (hcleared.lawful_iff e.2).symm

/-- The driver decodes exactly the frames after every byte of a stream if and only if each byte is
one that its window gets right. -/
theorem interruptHandler_framed_iff (es : List (Int × Byte)) : Runs.AllOk WindowOk step start es ↔
    ∀ n < es.length, ∀ t, Runs.exec step start (es.take (n + 1)) = some t → t.Framed := by
  have hstart : Holds start.sbus start.recent :=
    ⟨rfl, fun _ hi => absurd hi (Nat.not_lt_zero _), fun h => absurd h (by decide)⟩
  obtain ⟨t, ht⟩ := Runs.exec_total (fun s e => ⟨_, rfl⟩) start es
  exact Runs.allOk_iff_forall_take_succ (I := fun s => Holds s.sbus s.recent)
    (fun _ _ _ hs hstep => (step_window hs hstep).1)
    (fun _ _ _ hs hstep => (step_window hs hstep).2) hstart ht

/-- A frame whose bytes arrive together: after 24 of them the handler decodes, with a byte that has
never come, and after all of them it does not. -/
def lonelyFrame : List (Int × Byte) :=
  (0x0f#8 :: (List.range 23).map (fun i => BitVec.ofNat 8 (i + 1)) ++ [0#8]).map fun b => (0, b)

theorem interruptHandler_not_framed :
    (∃ t, Runs.exec step start (lonelyFrame.take 24) = some t ∧ t.decoded = true ∧ ¬ t.Framed) ∧
      ∃ t, Runs.exec step start lonelyFrame = some t ∧ Due t.recent ∧ t.decoded = false := by
  have hearly : (Runs.exec step start (lonelyFrame.take 24)).map
      (fun t => (t.decoded, t.recent.length)) = some (true, 24) := by decide +kernel
  have hlate : (Runs.exec step start lonelyFrame).map (fun t => (t.decoded, t.recent)) =
      some (false, lonelyFrame.map Prod.snd) := by decide +kernel
  obtain ⟨t, ht, hfacts⟩ := Option.map_eq_some_iff.mp hearly
  obtain ⟨u, hu, hfacts'⟩ := Option.map_eq_some_iff.mp hlate
  obtain ⟨hdecoded, hlen⟩ := Prod.mk.inj hfacts
  obtain ⟨hnot, hrecent⟩ := Prod.mk.inj hfacts'
  refine ⟨⟨t, ht, hdecoded, fun hframed => ?_⟩, u, hu, ?_, hnot⟩
  · have hdue := (hframed.1.mp hdecoded).1
    omega
  · rw [hrecent]
    exact ⟨by decide, by decide, by decide⟩

end SbusRun

end Tenok
