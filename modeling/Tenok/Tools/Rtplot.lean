import Tenok.User.DebugLink

/-!
The receiver of `tools/rtplot`: `yaml_loader.py`, and `serial.py` from the bytes in its
FIFO to the values of a message. It runs on a little-endian host, and its clock has moved
on since the last message.
-/
namespace Tenok
open LittleEndian

/-- A field in the YAML file of a message; 0 is the array size of a variable. -/
structure TenokMsgField where
  cType : CType
  varName : String
  arraySize : Nat
  deriving DecidableEq, Repr

structure TenokMsg where
  name : String
  msgId : Nat
  fields : List TenokMsgField
  deriving DecidableEq, Repr

abbrev MsgList := List TenokMsg

/-- `TenokMsgManager.load`. The payload of a file without fields is `None`, and `len` raises. -/
def MsgList.load (l : MsgList) (file : TenokMsg) : Option MsgList :=
  if file.fields = [] then none else some (l ++ [file])

def MsgList.findId (l : MsgList) (msgId : Nat) : Option TenokMsg := l.find? (·.msgId = msgId)

/-- A decoded value; a floating-point number is known by its encoding. -/
inductive PyValue
  | bool (b : Bool)
  | int (n : Int)
  | float (encoding : BitVec 32)
  | double (encoding : BitVec 64)
  deriving DecidableEq, Repr

/-- The value that a C object stands for. -/
def CType.python : (t : CType) → t.Value → PyValue
  | .bool, b => .bool b
  | .uint8, x => .int (x : BitVec 8).toNat
  | .int8, x => .int (x : BitVec 8).toInt
  | .uint16, x => .int (x : BitVec 16).toNat
  | .int16, x => .int (x : BitVec 16).toInt
  | .uint32, x => .int (x : BitVec 32).toNat
  | .int32, x => .int (x : BitVec 32).toInt
  | .uint64, x => .int (x : BitVec 64).toNat
  | .int64, x => .int (x : BitVec 64).toInt
  | .float, x => .float x
  | .double, x => .double x

/-- The formats that `struct.unpack` is called with. -/
inductive PyFormat
  /-- `?` -/
  | bool
  /-- `H` -/
  | uint16
  /-- `h` -/
  | int16
  /-- `I` -/
  | uint32
  /-- `i` -/
  | int32
  /-- `f` -/
  | float
  deriving DecidableEq, Repr

def PyFormat.size : PyFormat → Nat
  | .bool => 1
  | .uint16 | .int16 => 2
  | .uint32 | .int32 | .float => 4

/-- `struct.unpack`; `none` is `struct.error`. -/
def unpack (format : PyFormat) (data : List Byte) : Option PyValue :=
  if data.length ≠ format.size then none
  else some (match format with
    | .bool => .bool (decide (value 8 data ≠ 0#8))
    | .uint16 => .int (value 16 data).toNat
    | .int16 => .int (value 16 data).toInt
    | .uint32 => .int (value 32 data).toNat
    | .int32 => .int (value 32 data).toInt
    | .float => .float (value 32 data))

/-- The bytes `buffer[i*4]` up to `buffer[i*4 + n - 1]`; `none` is `IndexError`. -/
def fieldBytes (buffer : List Byte) (i n : Nat) : Option (List Byte) :=
  (List.range n).mapM fun j => buffer[i * 4 + j]?

def parseBool (buffer : List Byte) (i : Nat) : Option PyValue :=
  (fieldBytes buffer i 1).bind (unpack .bool)

def parseUint8 (buffer : List Byte) (i : Nat) : Option PyValue :=
  (fieldBytes buffer i 1).bind (unpack .uint16)

def parseInt8 (buffer : List Byte) (i : Nat) : Option PyValue :=
  (fieldBytes buffer i 1).bind (unpack .int16)

def parseUint16 (buffer : List Byte) (i : Nat) : Option PyValue :=
  (fieldBytes buffer i 2).bind (unpack .uint16)

def parseUint32 (buffer : List Byte) (i : Nat) : Option PyValue :=
  (fieldBytes buffer i 4).bind (unpack .uint32)

/-- The second method of that name; it replaces the first one, which reads two bytes. -/
def parseInt32 (buffer : List Byte) (i : Nat) : Option PyValue :=
  (fieldBytes buffer i 4).bind (unpack .int32)

def parseFloat (buffer : List Byte) (i : Nat) : Option PyValue :=
  (fieldBytes buffer i 4).bind (unpack .float)

def parseDouble (buffer : List Byte) (i : Nat) : Option PyValue :=
  (fieldBytes buffer i 8).bind (unpack .float)

/-- `decode_field`; `none` is `None`, also for the types whose `parse` method does not exist. -/
def decodeField (buffer : List Byte) (cType : CType) (i : Nat) : Option PyValue :=
  match cType with
  | .bool => parseBool buffer i
  | .uint8 => parseUint8 buffer i
  | .int8 => parseInt8 buffer i
  | .uint16 => parseUint16 buffer i
  | .int16 => none
  | .uint32 => parseUint32 buffer i
  | .int32 => parseInt32 buffer i
  | .uint64 => none
  | .int64 => none
  | .float => parseFloat buffer i
  | .double => parseDouble buffer i

/-- `data_list` and `recept_cnt`. -/
abbrev Decoded := List PyValue × Nat

/-- The body of the inner loop of `decode_msg`. -/
def decodeElement (buffer : List Byte) (cType : CType) (acc : Decoded) : Option Decoded :=
  (decodeField buffer cType acc.2).map fun data => (acc.1 ++ [data], acc.2 + 1)

/-- The number of passes of the inner loop. -/
def TenokMsgField.passes (f : TenokMsgField) : Nat := if f.arraySize = 0 then 1 else f.arraySize

def decodeFields (buffer : List Byte) (fields : List TenokMsgField) : Option Decoded :=
  fields.foldlM (fun acc f =>
    (List.range f.passes).foldlM (fun acc _ => decodeElement buffer f.cType acc) acc) ([], 0)

inductive DecodeResult
  | failed
  /-- `prompt` has no entry for the message in `recvd_time_last`. -/
  | raised
  | success (msgName : String) (dataList : List PyValue)
  deriving DecidableEq, Repr

def MsgList.decodeMsg (l : MsgList) (buffer : List Byte) (msgId : Nat) : DecodeResult :=
  match l.findId msgId with
  | none => .failed
  | some msgInfo =>
      if l.length ≤ msgId then .raised
      else match decodeFields buffer msgInfo.fields with
        | none => .failed
        | some (dataList, _) => .success msgInfo.name dataList

inductive ReceiveResult
  | retry
  | failed
  /-- An exception; where `decode_msg` fails it is that four values do not fit in three. -/
  | raised
  | success (msgId : Nat) (msgName : String) (data : List PyValue)
  deriving DecidableEq, Repr

/-- `receive_msg` with the bytes that wait at the port, and what it leaves in the FIFO. -/
def MsgList.receiveMsg (l : MsgList) (serialFifo waiting : List Byte) :
    List Byte × ReceiveResult :=
  let fifo := serialFifo ++ waiting
  match fifo with
  | startByte :: size :: msgId :: payload =>
      if startByte ≠ 64#8 then (fifo.drop 1, .retry)
      else
        let payloadCnt := size.toNat
        if fifo.length < payloadCnt + dbglinkHeaderSize + 1 then (fifo, .retry)
        else
          let buf := payload.take (payloadCnt + 1)
          let checksum := (buf.take payloadCnt).foldl (· ^^^ ·) dbglinkChecksumInitVal
          if buf[payloadCnt]? ≠ some checksum then (fifo.drop 1, .failed)
          else match l.decodeMsg buf msgId.toNat with
            | .failed | .raised => (fifo, .raised)
            | .success msgName data =>
                (fifo.drop (payloadCnt + dbglinkHeaderSize + 1),
                  .success msgId.toNat msgName data)
  | _ => (fifo, .retry)

/-- A message of the directory that `msggen` reads. -/
structure MsgFile where
  name : String
  vars : List MsgVar

/-- The YAML file that `codegen` writes for the message with number `msgCnt`. -/
def codegenYaml (msgCnt : Nat) (file : MsgFile) : TenokMsg where
  name := file.name
  msgId := msgCnt
  fields := file.vars.map fun v => ⟨v.cType, v.varName, v.arraySize.getD 0⟩

/-- The YAML files of a directory; the messages are numbered as they are found. -/
def msggen (files : List MsgFile) : List TenokMsg :=
  files.zipIdx.map fun f => codegenYaml f.2 f.1

end Tenok
