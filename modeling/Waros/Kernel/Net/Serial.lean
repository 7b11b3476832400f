import Waros.Kernel.Net.NetError
import Waros.Lib.Framing
import Waros.Lib.Fallible
import Mathlib.Data.List.Infix
import Mathlib.Data.Nat.Bitwise

/-!
The link on the serial port COM2 (`kernel/src/net/serial.rs`): messages are
framed by the magic bytes `WNET`, a type, a length and a checksum. A call of
`receive` is given the bytes that arrived at the port since the last one.
-/

namespace Waros.Kernel.Net

open Lib List Framing Nat

inductive MessageType
  | ping
  | pong
  | circuitData
  | measurementResult
  | text
  deriving DecidableEq

structure Message where
  msgType : MessageType
  payload : List UInt8

structure NetInterface where
  serialPort : UInt16
  rxBuffer : List UInt8
  initialized : Bool

/-- The bytes of `WNET`. -/
def magic : List UInt8 := [0x57, 0x4E, 0x45, 0x54]

namespace MessageType

def toByte : MessageType → UInt8
  | ping => 0x01
  | pong => 0x02
  | circuitData => 0x10
  | measurementResult => 0x11
  | text => 0x20

def tryFrom (value : UInt8) : Except NetError MessageType :=
  if value = 0x01 then .ok ping
  else if value = 0x02 then .ok pong
  else if value = 0x10 then .ok circuitData
  else if value = 0x11 then .ok measurementResult
  else if value = 0x20 then .ok text
  else .error .invalidFrame

@[simp] lemma tryFrom_toByte (kind : MessageType) : tryFrom kind.toByte = .ok kind := by
  cases kind <;> rfl

end MessageType

variable (crc : UInt16) (word : UInt16) (message : Message) {msg : Message}

def crc16Bit : UInt16 :=
  if crc &&& 1 = 1 then (crc >>> 1) ^^^ 0xA001 else crc >>> 1

def crc16Byte (byte : UInt8) : UInt16 :=
  (range 8).foldl (fun crc _ => crc16Bit crc) (crc ^^^ byte.toUInt16)

def lowByte : UInt8 := (word &&& 0xFF).toUInt8

def highByte : UInt8 := (word >>> 8).toUInt8

/-- The word put together from two bytes of the buffer. -/
def wordOf (low high : UInt8) : UInt16 := low.toUInt16 ||| high.toUInt16 <<< 8

def crc16 (msgType : UInt8) (length : UInt16) (payload : List UInt8) : UInt16 :=
  payload.foldl crc16Byte
    (crc16Byte (crc16Byte (crc16Byte 0xFFFF msgType) (lowByte length)) (highByte length))

namespace NetInterface

/-- `NetInterface::new`. -/
def new (serialPort : UInt16) : NetInterface :=
  { serialPort := serialPort, rxBuffer := [], initialized := false }

variable (iface : NetInterface)

/-- `init` also programs the port. -/
def init : NetInterface := { iface with initialized := true }

/-- The bytes that `send` writes to the port. -/
def send (msgType : MessageType) (payload : List UInt8) : Except NetError (List UInt8) :=
  if !iface.initialized then .error .notInitialized
  else if payload.length > 0xFFFF then .error .payloadTooLarge
  else
    let length := .ofNat payload.length
    let checksum := crc16 msgType.toByte length payload
    .ok (magic ++ [msgType.toByte, lowByte length, highByte length] ++ payload ++
      [lowByte checksum, highByte checksum])

/-- What `receive` takes off its buffer, and the buffer it leaves. -/
def takeFrame (rxBuffer : List UInt8) : Option Message × List UInt8 :=
  match rxBuffer.tails.findIdx? magic.isPrefixOf with
  | none => (none, rxBuffer)
  | some start =>
    let rxBuffer := rxBuffer.drop start
    if rxBuffer.length < 9 then (none, rxBuffer)
    else
      let msgType := rxBuffer.getD 4 0
      let length := wordOf (rxBuffer.getD 5 0) (rxBuffer.getD 6 0)
      let frameLen := 4 + 1 + 2 + length.toNat + 2
      if rxBuffer.length < frameLen then (none, rxBuffer)
      else
        let payload := (rxBuffer.drop 7).take length.toNat
        let checksumOffset := 7 + length.toNat
        let checksum :=
          wordOf (rxBuffer.getD checksumOffset 0) (rxBuffer.getD (checksumOffset + 1) 0)
        -- the frame is gone from here on, also when it turns out to be damaged
        match MessageType.tryFrom msgType with
        | .error _ => (none, rxBuffer.drop frameLen)
        | .ok kind =>
          if checksum ≠ crc16 msgType length payload then (none, rxBuffer.drop frameLen)
          else (some ⟨kind, payload⟩, rxBuffer.drop frameLen)

/-- The payload of the answer to a ping. -/
def pong : List UInt8 := [0x70, 0x6F, 0x6E, 0x67]

/-- What `receive` writes to the port: a ping is answered, and an error of the
answer is ignored. -/
def reply (received : Option Message) : List UInt8 :=
  if received.map Message.msgType = some .ping then
    match iface.send .pong pong with
    | .ok bytes => bytes
    | .error _ => []
  else []

structure Received where
  iface : NetInterface
  message : Option Message
  written : List UInt8

def receive (arrived : List UInt8) : Received :=
  { iface := { iface with rxBuffer := (takeFrame (iface.rxBuffer ++ arrived)).2 }
    message := (takeFrame (iface.rxBuffer ++ arrived)).1
    written := iface.reply (takeFrame (iface.rxBuffer ++ arrived)).1 }

/-- The bytes on the link after sending the messages in order. -/
def sendAll (messages : List Message) : Except NetError (List UInt8) := do
  let frames ← messages.mapM fun message => iface.send message.msgType message.payload
  return frames.flatten

/-- The results of one call of `receive` for each piece of the stream. -/
def receiveAll (iface : NetInterface) : List (List UInt8) → List (Option Message)
  | [] => []
  | arrived :: more =>
    (iface.receive arrived).message :: (iface.receive arrived).iface.receiveAll more

end NetInterface

/-! ### One frame -/

lemma wordOf_lowByte_highByte : wordOf (lowByte word) (highByte word) = word := by
  apply UInt16.toNat_inj.mp
  have hlt : word.toNat < 65536 := word.toNat_lt
  have hlow : (lowByte word).toUInt16.toNat = word.toNat % 256 := by
    have hand : word.toNat &&& 255 = word.toNat % 2 ^ 8 := and_two_pow_sub_one_eq_mod _ 8
    exact (congrArg (· % 256) hand).trans (mod_mod _ _)
  have hhigh : ((highByte word).toUInt16 <<< 8).toNat = 2 ^ 8 * (word.toNat / 256) := by
    have hshi : word.toNat >>> 8 = word.toNat / 256 := shiftRight_eq_div_pow _ 8
    simp only [highByte, UInt16.toNat_shiftLeft, UInt8.toNat_toUInt16, UInt16.toNat_toUInt8,
      UInt16.toNat_shiftRight, UInt16.reduceToNat, reduceMod, hshi]
    omega
  rw [wordOf, UInt16.toNat_or, hhigh, Nat.or_comm, ← two_pow_add_eq_or_of_lt (by omega)]
  omega

def frame : List UInt8 :=
  let length := .ofNat message.payload.length
  let checksum := crc16 message.msgType.toByte length message.payload
  0x57 :: 0x4E :: 0x45 :: 0x54 :: message.msgType.toByte :: lowByte length :: highByte length ::
    (message.payload ++ [lowByte checksum, highByte checksum])

/-- The length field holds the length of the payload. -/
def Sendable : Prop := message.payload.length ≤ 0xFFFF

lemma toNat_length (h : Sendable msg) :
    (UInt16.ofNat msg.payload.length).toNat = msg.payload.length := by
  rw [UInt16.toNat_ofNat', mod_eq_of_lt]
  exact lt_succ_of_le h

lemma length_frame (msg : Message) : (frame msg).length = 9 + msg.payload.length := by
  simp only [frame, length_cons, length_append, length_nil]
  omega

lemma send_eq_ok {iface : NetInterface} (hinit : iface.initialized) (h : Sendable msg) :
    iface.send msg.msgType msg.payload = .ok (frame msg) := by
  have hlen : ¬msg.payload.length > 0xFFFF := not_lt.mpr h
  simp [NetInterface.send, hinit, hlen, frame, magic]

/-- A buffer that begins with the magic bytes is not cut at the front. -/
lemma findIdx_magic (rest : List UInt8) :
    (0x57 :: 0x4E :: 0x45 :: 0x54 :: rest).tails.findIdx? magic.isPrefixOf = some 0 := by
  rfl

section

open NetInterface
variable {buf : List UInt8} {msg : Message} (serialPort : UInt16)

lemma findIdx_of_prefix (h : magic <+: buf) : buf.tails.findIdx? magic.isPrefixOf = some 0 := by
  obtain ⟨rest, rfl⟩ := h
  rfl

/-- The length of the frame at the front of the buffer, as its header says. -/
def frameLen (buffer : List UInt8) : ℕ := 9 + (wordOf (buffer.getD 5 0) (buffer.getD 6 0)).toNat

lemma frameLen_append {f : List UInt8} (h : 7 ≤ f.length) (rest : List UInt8) :
    frameLen (f ++ rest) = frameLen f := by
  rw [frameLen, frameLen, getD_append _ _ _ _ (by omega), getD_append _ _ _ _ (by omega)]

lemma frameLen_frame (h : Sendable msg) : frameLen (frame msg) = (frame msg).length := by
  rw [length_frame, ← toNat_length h]
  simp [frameLen, frame, wordOf_lowByte_highByte]

/-- A buffer that is shorter than its header says is left as it is. -/
lemma takeFrame_waits {buf : List UInt8} (h : magic <+: buf) (hlt : buf.length < frameLen buf) :
    takeFrame buf = (none, buf) := by
  rw [frameLen] at hlt
  rw [takeFrame, findIdx_of_prefix h]
  simp only [drop_zero]
  by_cases hnine : buf.length < 9
  · rw [if_pos hnine]
  · rw [if_neg hnine, if_pos (by omega)]

/-- A buffer that is not shorter loses a frame, whatever is in it. -/
lemma takeFrame_takes (h : magic <+: buf) (hle : frameLen buf ≤ buf.length) :
    (takeFrame buf).2 = buf.drop (frameLen buf) := by
  rw [frameLen] at hle ⊢
  rw [takeFrame, findIdx_of_prefix h]
  simp only [drop_zero]
  rw [if_neg (by omega), if_neg (by omega), show ∀ k, 4 + 1 + 2 + k + 2 = 9 + k by omega]
  split
  · rfl
  · split_ifs <;> rfl

lemma getD_payload (pay rest : List UInt8) (low high : UInt8) :
    (pay ++ low :: high :: rest).getD pay.length 0 = low ∧
      (pay ++ low :: high :: rest).getD (pay.length + 1) 0 = high := by
  simp

lemma takeFrame_frame (h : Sendable msg) (rest : List UInt8) :
    takeFrame (frame msg ++ rest) = (some msg, rest) := by
  have hlen := toNat_length h
  simp only [frame, cons_append, append_assoc]
  generalize hchec : crc16 msg.msgType.toByte (.ofNat msg.payload.length)
    msg.payload = checksum
  have hbs := getD_payload msg.payload rest (lowByte checksum) (highByte checksum)
  have hoff : 7 + msg.payload.length = msg.payload.length + 7 := add_comm _ _
  have hdrop : (msg.payload ++ lowByte checksum :: highByte checksum :: rest).drop
      (msg.payload.length + 2) = rest := by
    rw [← drop_drop, drop_left]
    rfl
  simp only [takeFrame, findIdx_magic, drop_zero, getD_cons_succ, getD_cons_zero,
    wordOf_lowByte_highByte, hlen, hoff, drop_succ_cons, take_left, hchec]
  rw [if_neg (by simp; omega)]
  simp [wordOf_lowByte_highByte]

lemma magic_prefix_drop_iff {start : ℕ} :
    magic <+: buf.drop start ↔ ∀ k < 4, buf[start + k]? = magic[k]? := by
  rw [prefix_iff_getElem?]
  simp only [getElem?_drop]
  exact ⟨fun h k hk => (h k hk).trans (getElem?_eq_getElem hk).symm,
    fun h k hk => (h k hk).trans (getElem?_eq_getElem hk)⟩

lemma magic_prefix_drop_append {start : ℕ} (h : start + 4 ≤ buf.length) (rest : List UInt8) :
    magic <+: (buf ++ rest).drop start ↔ magic <+: buf.drop start := by
  rw [magic_prefix_drop_iff, magic_prefix_drop_iff]
  refine forall₂_congr fun k hk => ?_
  rw [getElem?_append_left (by omega)]

lemma add_four_le_length {start : ℕ} (h : magic <+: buf.drop start) : start + 4 ≤ buf.length := by
  have hle := h.length_le
  rw [length_drop] at hle
  simp only [magic, length_cons, length_nil] at hle
  omega

structure FirstMagic (buf : List UInt8) (start : ℕ) : Prop where
  found : magic <+: buf.drop start
  first : ∀ i < start, ¬ magic <+: buf.drop i

lemma FirstMagic.findIdx {start : ℕ} (h : FirstMagic buf start) :
    buf.tails.findIdx? magic.isPrefixOf = some start := by
  have hle := add_four_le_length h.found
  rw [findIdx?_eq_some_iff_getElem]
  refine ⟨by rw [length_tails]; omega, ?_, fun i hi => ?_⟩
  · rw [getElem_tails, isPrefixOf_iff_prefix]
    exact h.found
  · rw [getElem_tails, isPrefixOf_iff_prefix]
    exact h.first i hi

lemma FirstMagic.zero (h : magic <+: buf) : FirstMagic buf 0 := ⟨h, by simp⟩

lemma FirstMagic.takeFrame_eq {start : ℕ} (h : FirstMagic buf start) :
    takeFrame buf = takeFrame (buf.drop start) := by
  rw [takeFrame, h.findIdx, takeFrame, findIdx_of_prefix h.found]
  rfl

lemma takeFrame_none (h : ∀ start, ¬ magic <+: buf.drop start) : takeFrame buf = (none, buf) := by
  have hnone : buf.tails.findIdx? magic.isPrefixOf = none := by
    rw [findIdx?_eq_none_iff]
    intro tail htail
    obtain ⟨front, rfl⟩ := (mem_tails _ _).mp htail
    rw [← Bool.not_eq_true, isPrefixOf_iff_prefix]
    have hnot := h front.length
    rwa [drop_left] at hnot
  rw [takeFrame, hnone]

/-- Bytes without the magic bytes do not help the next frame to have them earlier: they
do not overlap with themselves. -/
lemma firstMagic_append (h : ∀ start, ¬ magic <+: buf.drop start) {rest : List UInt8}
    (hrest : magic <+: rest) : FirstMagic (buf ++ rest) buf.length := by
  refine ⟨by rwa [drop_left], fun i hi hmagic => ?_⟩
  by_cases hin : i + 4 ≤ buf.length
  · exact h i ((magic_prefix_drop_append hin rest).1 hmagic)
  · have hbyte := magic_prefix_drop_iff.1 hmagic (buf.length - i) (by omega)
    rw [Nat.add_sub_cancel' hi.le, getElem?_append_right le_rfl, Nat.sub_self] at hbyte
    obtain ⟨more, rfl⟩ := hrest
    obtain hk | hk | hk : buf.length - i = 1 ∨ buf.length - i = 2 ∨ buf.length - i = 3 := by omega
    all_goals
      rw [hk] at hbyte
      exact absurd hbyte (by simp [magic])

/-- A frame that is in the buffer is read in the same way whatever comes after it. -/
lemma takeFrame_append (h : magic <+: buf) (hle : frameLen buf ≤ buf.length) (rest : List UInt8) :
    takeFrame (buf ++ rest) = ((takeFrame buf).1, (takeFrame buf).2 ++ rest) := by
  rw [frameLen] at hle
  have hget : ∀ i < buf.length, (buf ++ rest).getD i 0 = buf.getD i 0 :=
    fun i hi => getD_append _ _ _ _ hi
  rw [takeFrame, takeFrame, findIdx_of_prefix h, findIdx_of_prefix (h.trans (prefix_append ..))]
  simp only [drop_zero]
  rw [hget 4 (by omega), hget 5 (by omega), hget 6 (by omega)]
  generalize (wordOf (buf.getD 5 0) (buf.getD 6 0)) = word at hle ⊢
  rw [hget _ (by omega), hget _ (by omega), if_neg (by rw [length_append]; omega),
    if_neg (by rw [length_append]; omega), if_neg (by omega), if_neg (by omega),
    drop_append_of_le_length (by omega), drop_append_of_le_length (by omega),
    take_append_of_le_length (by rw [length_drop]; omega)]
  split
  · rfl
  · split_ifs <;> rfl

/-! ### Going through a stream -/

/-- The frame that the first magic bytes announce ends within the stream. -/
def TakesFrame (stream : List UInt8) (result : Option Message) (rest : List UInt8) : Prop :=
  ∃ start, FirstMagic stream start ∧
    frameLen (stream.drop start) ≤ (stream.drop start).length ∧ takeFrame stream = (result, rest)

def NoMagic (stream : List UInt8) : Prop := ∀ start, ¬ magic <+: stream.drop start

lemma NoMagic.of_append {rest : List UInt8} (h : NoMagic (buf ++ rest)) : NoMagic buf :=
  fun start hmagic => h start
    ((magic_prefix_drop_append (add_four_le_length hmagic) rest).2 hmagic)

lemma parses_takeFrame : Parses TakesFrame NoMagic takeFrame where
  whole := fun ⟨_, _, _, h⟩ => h
  idle := fun {buffer _} h => ⟨buffer, takeFrame_none h.of_append, h⟩
  part := by
    rintro buffer unread result rest ⟨start, hfirst, hle, htake⟩
    by_cases hshort : buffer.length < start + 4
    · -- the magic bytes have not all arrived
      refine .inl ⟨buffer, takeFrame_none fun i hmagic => ?_, start, hfirst, hle, htake⟩
      have hi := add_four_le_length hmagic
      exact hfirst.first i (by omega) ((magic_prefix_drop_append hi unread).2 hmagic)
    have hbuffer : FirstMagic buffer start := by
      refine ⟨(magic_prefix_drop_append (by omega) unread).1 hfirst.found, fun i hi => ?_⟩
      rw [← magic_prefix_drop_append (by omega) unread]
      exact hfirst.first i hi
    have hdrop : (buffer ++ unread).drop start = buffer.drop start ++ unread :=
      drop_append_of_le_length (by omega)
    rw [hfirst.takeFrame_eq, hdrop] at htake
    rw [hdrop] at hle
    rw [hbuffer.takeFrame_eq]
    have hmagic := hbuffer.found
    by_cases hwait : (buffer.drop start).length < frameLen (buffer.drop start)
    · exact .inl ⟨_, takeFrame_waits hmagic hwait, 0,
        .zero (hmagic.trans (prefix_append ..)), hle, htake⟩
    · rw [takeFrame_append hmagic (not_lt.1 hwait)] at htake
      obtain ⟨rfl, rfl⟩ := Prod.mk.inj htake
      exact .inr ⟨_, rfl, rfl⟩

lemma takesFrame_frame (h : Sendable msg) (hbuf : NoMagic buf) (rest : List UInt8) :
    TakesFrame (buf ++ (frame msg ++ rest)) (some msg) rest := by
  have hmagic : magic <+: frame msg ++ rest := ⟨_, rfl⟩
  have hfirst := firstMagic_append hbuf hmagic
  refine ⟨buf.length, hfirst, ?_, ?_⟩
  · rw [drop_left, frameLen_append (by rw [length_frame]; omega), frameLen_frame h, length_append]
    omega
  · rw [hfirst.takeFrame_eq, drop_left, takeFrame_frame h]

lemma noMagic_nil : NoMagic [] := fun start h => by
  have hle := add_four_le_length h
  rw [length_nil] at hle
  omega

/-- Frames, after bytes that are none. -/
lemma runs_frames {messages : List Message} (h : ∀ message ∈ messages, Sendable message)
    (hbuf : NoMagic buf) :
    Runs TakesFrame NoMagic (buf ++ messages.flatMap frame) (messages.map some) := by
  induction messages generalizing buf with
  | nil =>
    rw [flatMap_nil, append_nil]
    exact .idle hbuf
  | cons message messages ih =>
    obtain ⟨hmessage, hrest⟩ := forall_mem_cons.1 h
    exact .take (takesFrame_frame hmessage hbuf _) (ih hrest noMagic_nil)

/-- Wherever `receive` comes to magic bytes among these, the length that it finds there
ends among them too. -/
inductive Contained : List UInt8 → Prop
  | clean {bytes} : NoMagic bytes → Contained bytes
  | announced {bytes start} : FirstMagic bytes start →
      frameLen (bytes.drop start) ≤ (bytes.drop start).length →
      Contained ((bytes.drop start).drop (frameLen (bytes.drop start))) → Contained bytes

/-- Contained bytes cost no frame after them. -/
lemma Contained.runs {bytes : List UInt8} (h : Contained bytes) {messages : List Message}
    (hsendable : ∀ message ∈ messages, Sendable message) :
    ∃ between, between.length ≤ bytes.length ∧
      Runs TakesFrame NoMagic (bytes ++ messages.flatMap frame) (between ++ messages.map some) := by
  induction h with
  | clean hclean => exact ⟨[], Nat.zero_le _, runs_frames hsendable hclean⟩
  | @announced bytes start hfirst hle _ ih =>
    obtain ⟨between, hbetween, hruns⟩ := ih
    have hstart := add_four_le_length hfirst.found
    have hdrop : (bytes ++ messages.flatMap frame).drop start =
        bytes.drop start ++ messages.flatMap frame := drop_append_of_le_length (by omega)
    have hnine : 9 ≤ frameLen (bytes.drop start) := Nat.le_add_right ..
    have hwhole : FirstMagic (bytes ++ messages.flatMap frame) start := by
      refine ⟨(magic_prefix_drop_append hstart _).2 hfirst.found, fun i hi => ?_⟩
      rw [magic_prefix_drop_append (by omega)]
      exact hfirst.first i hi
    refine ⟨(takeFrame (bytes.drop start)).1 :: between, ?_, .take ⟨start, hwhole, ?_, ?_⟩ hruns⟩
    · rw [length_drop, length_drop] at hbetween
      rw [length_drop] at hle
      rw [length_cons]
      omega
    · rw [hdrop, frameLen_append (by omega), length_append]
      omega
    · rw [hwhole.takeFrame_eq, hdrop, takeFrame_append hfirst.found hle,
        takeFrame_takes hfirst.found hle]

lemma runs_append {left : List Message} (hleft : ∀ message ∈ left, Sendable message)
    {stream : List UInt8} {results : List (Option Message)}
    (h : Runs TakesFrame NoMagic stream results) :
    Runs TakesFrame NoMagic (left.flatMap frame ++ stream) (left.map some ++ results) := by
  induction left with
  | nil => exact h
  | cons message left ih =>
    obtain ⟨hmessage, hrest⟩ := forall_mem_cons.1 hleft
    have htakes := takesFrame_frame hmessage noMagic_nil (left.flatMap frame ++ stream)
    rw [flatMap_cons, append_assoc]
    exact .take htakes (ih hrest)

lemma reduceOption_map_some (messages : List Message) :
    (messages.map some).reduceOption = messages := by
  simp [reduceOption]

lemma receiveAll_eq_calls (iface : NetInterface) (arrivals : List (List UInt8)) :
    iface.receiveAll arrivals = calls takeFrame iface.rxBuffer arrivals := by
  induction arrivals generalizing iface with
  | nil => rfl
  | cons _ _ ih => rw [receiveAll, ih]; rfl

lemma sendAll_eq_ok {iface : NetInterface} (hinit : iface.initialized)
    {ms : List Message} (h : ∀ message ∈ ms, Sendable message) :
    iface.sendAll ms = .ok (ms.flatMap frame) := by
  have hfrs : ms.mapM (fun message => iface.send message.msgType message.payload) =
      .ok (ms.map frame) := by
    induction ms with
    | nil => rfl
    | cons message _ ih =>
      rw [mapM_cons, send_eq_ok hinit (h message (by simp)),
        ih fun other ho => h other (by simp [ho])]
      rfl
  rw [sendAll, hfrs]
  rfl

/-- The messages sent over an error-free link come out in order: at any time
those received are the first ones sent, and once all bytes have arrived, as
many calls as there are messages are enough for all of them. -/
theorem receiveAll_delivers {sender : NetInterface} (hinit : sender.initialized = true)
    (serialPort : UInt16) {messages : List Message}
    (hsendable : ∀ message ∈ messages, message.payload.length ≤ 65535) :
    ∃ stream, sender.sendAll messages = .ok stream ∧
      (∀ arrivals : List (List UInt8), arrivals.flatten <+: stream →
        ((new serialPort).receiveAll arrivals).reduceOption <+: messages) ∧
      ∀ (arrivals : List (List UInt8)) (n : ℕ), arrivals.flatten = stream →
        messages.length ≤ n →
        ((new serialPort).receiveAll (arrivals ++ List.replicate n [])).reduceOption =
          messages := by
  refine ⟨messages.flatMap frame, sendAll_eq_ok hinit hsendable, ?_, ?_⟩
  · rintro arrivals ⟨unread, hstr⟩
    rw [receiveAll_eq_calls, ← reduceOption_map_some messages]
    exact parses_takeFrame.calls_prefix_results (runs_frames hsendable noMagic_nil) arrivals hstr
  · intro arrivals n hstr hn
    rw [receiveAll_eq_calls, parses_takeFrame.calls_eq (runs_frames hsendable noMagic_nil) arrivals
      hstr (by rwa [length_map]), reduceOption_map_some]

/-- A payload that holds the magic bytes, and a stream cut inside them. -/
theorem receiveAll_delivers_magic :
    ((new 0x2F8).init.initialized = true ∧
      ∀ message ∈ [Message.mk .text magic, Message.mk .ping []],
        message.payload.length ≤ 65535) ∧
    ∃ stream, (new 0x2F8).init.sendAll [⟨.text, magic⟩, ⟨.ping, []⟩] = .ok stream ∧
      (∀ arrivals : List (List UInt8), arrivals.flatten <+: stream →
        ((new 0x2F8).receiveAll arrivals).reduceOption <+: [⟨.text, magic⟩, ⟨.ping, []⟩]) ∧
      ∀ (arrivals : List (List UInt8)) (n : ℕ), arrivals.flatten = stream → 2 ≤ n →
        ((new 0x2F8).receiveAll (arrivals ++ List.replicate n [])).reduceOption =
          [⟨.text, magic⟩, ⟨.ping, []⟩] :=
  ⟨by decide, receiveAll_delivers (by decide) 0x2F8 (by decide)⟩

/-- Damaged bytes in place of a frame cost at most that frame, as long as no length
that is found among them reaches beyond them: the frames before and after them are
delivered, in whatever pieces the stream arrives. -/
theorem receiveAll_after_damage (before after : List Message)
    (hbefore : ∀ message ∈ before, Sendable message)
    (hafter : ∀ message ∈ after, Sendable message) {damaged : List UInt8}
    (hdamaged : Contained damaged) :
    ∃ between : List Message, ∀ (arrivals : List (List UInt8)) (n : ℕ),
      arrivals.flatten = before.flatMap frame ++ (damaged ++ after.flatMap frame) →
      before.length + damaged.length + after.length ≤ n →
      ((new serialPort).receiveAll (arrivals ++ replicate n [])).reduceOption =
        before ++ (between ++ after) := by
  obtain ⟨between, hlength, hruns⟩ := hdamaged.runs hafter
  refine ⟨between.reduceOption, fun arrivals n hstream hn => ?_⟩
  -- what the reader makes of the whole stream, however it is cut
  have hwhole := runs_append hbefore hruns
  rw [receiveAll_eq_calls, parses_takeFrame.calls_eq hwhole arrivals hstream ?_,
    reduceOption_append, reduceOption_append, reduceOption_map_some, reduceOption_map_some]
  simp only [length_append, length_map]
  omega

/-- A length that is too small, in a frame that arrives in three pieces together with
its neighbours. -/
theorem receiveAll_after_damage_length :
    Contained ((frame ⟨.text, [5, 6]⟩).set 5 0) ∧
    ∃ between : List Message, ∀ (arrivals : List (List UInt8)) (n : ℕ),
      arrivals.flatten = [⟨.text, magic⟩].flatMap frame ++
        ((frame ⟨.text, [5, 6]⟩).set 5 0 ++ [⟨.ping, []⟩].flatMap frame) →
      1 + ((frame ⟨.text, [5, 6]⟩).set 5 0).length + 1 ≤ n →
      ((new 0x2F8).receiveAll (arrivals ++ replicate n [])).reduceOption =
        [⟨.text, magic⟩] ++ (between ++ [⟨.ping, []⟩]) := by
  have hrest : NoMagic (((frame ⟨.text, [5, 6]⟩).set 5 0).drop 9) := fun start h => by
    have hle := add_four_le_length h
    rw [length_drop, length_set, length_frame] at hle
    simp only [length_cons, length_nil] at hle
    omega
  have hfirst : FirstMagic ((frame ⟨.text, [5, 6]⟩).set 5 0) 0 := .zero ⟨_, rfl⟩
  have hdamaged : Contained ((frame ⟨.text, [5, 6]⟩).set 5 0) :=
    .announced hfirst (by decide) (.clean hrest)
  exact ⟨hdamaged, receiveAll_after_damage 0x2F8 [⟨.text, magic⟩] [⟨.ping, []⟩]
    (by simp [Sendable, magic]) (by simp [Sendable]) hdamaged⟩

/-- With a wrong length the receiver waits for bytes that never come. -/
theorem not_delivered_of_length : ¬∃ n,
    ((new 0x2F8).receiveAll (([0x57, 0x4E, 0x45, 0x54, 1, 0, 0xFF] ++
      ((frame ⟨.ping, []⟩).drop 7 ++ frame ⟨.ping, []⟩)) :: replicate n [])).reduceOption ≠ [] := by
  rintro ⟨n, hne⟩
  refine hne ?_
  have hwait := @takeFrame_waits ([0x57, 0x4E, 0x45, 0x54, 1, 0, 0xFF] ++
    ((frame ⟨.ping, []⟩).drop 7 ++ frame ⟨.ping, []⟩)) ⟨_, rfl⟩ (by decide)
  rw [receiveAll_eq_calls, show ∀ stream, calls takeFrame (new 0x2F8).rxBuffer
    (stream :: replicate n []) = calls takeFrame stream (replicate (n + 1) []) from fun stream => by
      rw [replicate_succ, calls, calls, append_nil]; rfl]
  induction n + 1 with
  | zero => rfl
  | succ _ ih => rw [replicate_succ, calls, append_nil, hwait, reduceOption_cons_of_none, ih]

end

end Waros.Kernel.Net
