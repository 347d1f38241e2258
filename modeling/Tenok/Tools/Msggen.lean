import Tenok.Tools.MsgNames

/-!
`codegen` of `tools/msggen/msggen.c`, from the text of a message to the text of its C header and of
its YAML file. The files of the output open, and memory is never short.
-/
namespace Tenok.Msggen

def newline : Byte := 10#8

/-- `strncpy(dest, src, n)`. -/
def copy (dest src : List Byte) (n : Nat) : Except MsgError (List Byte) :=
  if n ≤ dest.length then .ok (strncpy src n ++ dest.drop n) else .error .outside

def msgNameRuleCheck (msgName : List Byte) : Bool :=
  msgName.all (fun c => isDigit c || isLetter c) && !(msgName.head?.any isDigit)

def getMessageName (fileName : List Byte) : Except MsgError (List Byte) :=
  if fileName.length < 4 then .error .outside
  else if msgNameRuleCheck (fileName.take (fileName.length - 4)) then
    .ok (fileName.take (fileName.length - 4))
  else .error .badMessageName

/-- `struct msg_var_entry`, with the buffers its members point to. -/
structure MsgVarEntry where
  varName : List Byte
  cType : List Byte
  arraySize : List Byte
  description : List Byte

/-- The body of the loop for a line that is not empty: the new variable and `desc_len`, if there is
something to read. There, the type is checked before the name; either error ends the run. -/
def parseLine (line : List Byte) : Except MsgError (Option (MsgVarEntry × Nat)) := do
  let tokens ← splitTokens (List.replicate 3 (calloc (line.length + 1))) line
  if tokens.2 = 0 then .ok none
  else do
    let type ← string (tokens.1.getD 0 [])
    let input ← string (tokens.1.getD 1 [])
    let desc ← string (tokens.1.getD 2 [])
    let name ← parseVariableName input (calloc (line.length + 1)) (calloc (line.length + 1))
    if typeCheck type = false then .error .unknownType
    else do
      -- The size of the buffer is the length of the name.
      let cType ← copy (calloc (input.length + 1)) type type.length
      let description ← copy (calloc (desc.length + 1)) desc desc.length
      .ok (some (⟨name.1, cType, name.2, description⟩, desc.length))

structure ParseState where
  msgVarList : List MsgVarEntry
  descLen : Nat

def ParseState.add (st : ParseState) (v : MsgVarEntry × Nat) : ParseState :=
  ⟨st.msgVarList ++ [v.1], v.2⟩

/-- The loop of `codegen` over what is left of the text. -/
def parseMsgs : Nat → List Byte → ParseState → Option (Except MsgError ParseState)
  | 0, _, _ => none
  | fuel + 1, text, st =>
      match text.dropWhile (· ≠ newline) with
      | [] => some (.ok st)
      | _ :: rest =>
          match text.takeWhile (· ≠ newline) with
          | [] => parseMsgs fuel rest st
          | c :: line =>
              match parseLine (c :: line) with
              | .error e => some (.error e)
              | .ok none => parseMsgs fuel rest st
              | .ok (some v) => parseMsgs fuel rest (st.add v)

def varDuplicated (names : List (List Byte)) : Bool :=
  names.any fun name => decide (1 < names.countP fun name' => decide (name' = name))

/-- A variable of a message. -/
structure MsgField where
  cType : List Byte
  varName : List Byte
  arraySize : List Byte
  description : List Byte
  deriving DecidableEq

def MsgVarEntry.field (v : MsgVarEntry) : Except MsgError MsgField := do
  let cType ← string v.cType
  let varName ← string v.varName
  let arraySize ← string v.arraySize
  let description ← string v.description
  .ok ⟨cType, varName, arraySize, description⟩

namespace MsgField

def declaration (comments : Bool) (f : MsgField) : List Byte :=
  ascii "    " ++ f.cType ++ ascii " " ++ f.varName ++
    (if 0 < f.arraySize.length then ascii "[" ++ f.arraySize ++ ascii "];" else ascii ";") ++
    (if comments then ascii " //" ++ f.description ++ ascii "\n" else ascii "\n")

def packing (f : MsgField) : List Byte :=
  if 0 < f.arraySize.length then
    ascii "    pack_debug_link_msg_" ++ f.cType ++ ascii "(msg->" ++ f.varName ++
      ascii ", &payload, " ++ f.arraySize ++ ascii ");\n"
  else
    ascii "    pack_debug_link_msg_" ++ f.cType ++ ascii "(&msg->" ++ f.varName ++
      ascii ", &payload, 1);\n"

def entry (f : MsgField) : List Byte :=
  ascii "  -\n    c_type: " ++ f.cType ++ ascii "\n    var_name: " ++ f.varName ++
    ascii "\n    array_size: " ++ (if 0 < f.arraySize.length then f.arraySize else ascii "0") ++
    ascii "\n    description: \"" ++ f.description ++ ascii "\"\n"

end MsgField

/-- The two files. -/
structure Output where
  cHeader : List Byte
  yaml : List Byte
  deriving DecidableEq

def cHeader (msgName : List Byte) (msgCnt : Nat) (comments : Bool) (fields : List MsgField) :
    List Byte :=
  ascii "#pragma once\n\n#include \"debug_link.h\"\n\n#define DEBUG_LINK_MSG_ID_" ++ msgName ++
    ascii " " ++ ascii (toString msgCnt) ++ ascii "\n\n" ++
    ascii "typedef struct __debug_link_msg_" ++ msgName ++ ascii "_t \x7b\n" ++
    fields.flatMap (MsgField.declaration comments) ++
    ascii "\x7d debug_link_msg_" ++ msgName ++ ascii "_t;\n\n" ++
    ascii "static inline size_t pack_debug_link_" ++ msgName ++ ascii "_msg(debug_link_msg_" ++
    msgName ++ ascii "_t *msg, uint8_t *data)\n\x7b\n" ++
    ascii "    debug_link_payload_t payload = \x7b.data = data\x7d;\n" ++
    ascii "    pack_debug_link_msg_header(&payload, DEBUG_LINK_MSG_ID_" ++ msgName ++ ascii ");\n" ++
    fields.flatMap MsgField.packing ++
    ascii "    generate_debug_link_msg_checksum(&payload);\n" ++
    ascii "    return payload.size;\n\x7d\n"

def yaml (msgCnt : Nat) (fields : List MsgField) : List Byte :=
  ascii "msg_id: " ++ ascii (toString msgCnt) ++ ascii "\n\npayload:\n" ++
    fields.flatMap MsgField.entry

def generate (msgName : List Byte) (msgCnt : Nat) (st : ParseState) : Except MsgError Output := do
  let names ← st.msgVarList.mapM fun v => string v.varName
  if varDuplicated names then .error .duplicated
  else do
    let fields ← st.msgVarList.mapM MsgVarEntry.field
    .ok ⟨cHeader msgName msgCnt (decide (0 < st.descLen)) fields, yaml msgCnt fields⟩

/-- `codegen` on a text that ends at its first null character. -/
def codegen (fileName : List Byte) (msgCnt : Nat) (msgs : List Byte) :
    Option (Except MsgError Output) :=
  match getMessageName fileName with
  | .error e => some (.error e)
  | .ok msgName =>
      (parseMsgs (msgs.length + 1) msgs ⟨[], 0⟩).map fun r => do
        let st ← r
        generate msgName msgCnt st

end Tenok.Msggen
