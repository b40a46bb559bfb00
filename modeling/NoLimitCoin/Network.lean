import NoLimitCoin.Lib.Buffer
import NoLimitCoin.Bytes
import NoLimitCoin.Node

/-!
# Messages on the wire

`net.h` and `net.cpp`: a node puts the messages for a peer into a queue of buffers and gives
them to the socket piece by piece; the peer gathers what arrives in `CNetMessage` objects, a
header of 24 bytes first and then as many bytes as the header says.
-/

namespace NoLimitCoin

namespace Network

open Buffer

/-- `MAX_SIZE`. -/
def maxSize : Nat := 0x02000000

def pchMessageStart (env : Env) : List UInt8 :=
  if env.fTestNet then [0xf9, 0xff, 0xdd, 0xbd] else [0xb1, 0xb6, 0xf8, 0xa6]

/-! ## Headers -/

structure CMessageHeader where
  pchMessageStart : List UInt8
  pchCommand : List UInt8
  nMessageSize : Nat
  nChecksum : Nat
deriving Repr, DecidableEq

namespace CMessageHeader

def messageStartSize : Nat := 4
def commandSize : Nat := 12
def messageSizeOffset : Nat := 16
def checksumOffset : Nat := 20
def headerSize : Nat := 24

/-- `strncpy`: the command, filled up with zeros. -/
def commandBytes (pszCommand : List UInt8) : List UInt8 :=
  (pszCommand ++ List.replicate commandSize 0).take commandSize

/-- `CMessageHeader(pszCommand, nMessageSizeIn)`. -/
def ofCommand (env : Env) (pszCommand : List UInt8) (nMessageSizeIn : Nat) : CMessageHeader :=
  ⟨Network.pchMessageStart env, commandBytes pszCommand, nMessageSizeIn, 0⟩

/-- `CMessageHeader()`. -/
def default (env : Env) : CMessageHeader :=
  ⟨Network.pchMessageStart env, [0, 1] ++ List.replicate 10 0, uint32Max, 0⟩

def serialize (hdr : CMessageHeader) : List UInt8 :=
  hdr.pchMessageStart ++ hdr.pchCommand ++ leBytes 4 hdr.nMessageSize ++ leBytes 4 hdr.nChecksum

/-- `hdrbuf >> hdr`; reading past the end of the buffer throws. -/
def unserialize (hdrbuf : List UInt8) : Option CMessageHeader :=
  if hdrbuf.length < headerSize then none
  else some ⟨hdrbuf.take messageStartSize, (hdrbuf.drop messageStartSize).take commandSize,
    leNat ((hdrbuf.drop messageSizeOffset).take 4), leNat ((hdrbuf.drop checksumOffset).take 4)⟩

end CMessageHeader

/-! ## Receiving -/

structure CNetMessage where
  in_data : Bool
  hdrbuf : List UInt8
  hdr : CMessageHeader
  nHdrPos : Nat
  vRecv : List UInt8
  nDataPos : Nat
deriving Repr, DecidableEq

namespace CNetMessage

def empty (env : Env) : CNetMessage :=
  ⟨false, List.replicate CMessageHeader.headerSize 0, .default env, 0, [], 0⟩

def complete (msg : CNetMessage) : Bool :=
  if !msg.in_data then false else msg.hdr.nMessageSize == msg.nDataPos

/-- `readHeader`: the message and the number of bytes that were handled, `none` for `-1`. -/
def readHeader (msg : CNetMessage) (pch : List UInt8) : Option (CNetMessage × Nat) :=
  let nRemaining := CMessageHeader.headerSize - msg.nHdrPos
  let nCopy := min nRemaining pch.length
  let msg := { msg with
    hdrbuf := overwrite msg.hdrbuf msg.nHdrPos (pch.take nCopy)
    nHdrPos := msg.nHdrPos + nCopy }
  if msg.nHdrPos < CMessageHeader.headerSize then some (msg, nCopy)
  else
    match CMessageHeader.unserialize msg.hdrbuf with
    | none => none
    | some hdr =>
      if maxSize < hdr.nMessageSize then none
      else
        some ({ msg with
          hdrbuf := []
          hdr := hdr
          in_data := true
          vRecv := (msg.vRecv ++ List.replicate hdr.nMessageSize 0).take hdr.nMessageSize }, nCopy)

/-- `readData`. -/
def readData (msg : CNetMessage) (pch : List UInt8) : CNetMessage × Nat :=
  let nRemaining := msg.hdr.nMessageSize - msg.nDataPos
  let nCopy := min nRemaining pch.length
  ({ msg with
    vRecv := overwrite msg.vRecv msg.nDataPos (pch.take nCopy)
    nDataPos := msg.nDataPos + nCopy }, nCopy)

end CNetMessage

/-- The current incomplete message, or a new one, and the messages before it. -/
def currentMessage (env : Env) (vRecvMsg : List CNetMessage) : List CNetMessage × CNetMessage :=
  match vRecvMsg.getLast? with
  | none => (vRecvMsg, .empty env)
  | some msg => if msg.complete then (vRecvMsg, .empty env) else (vRecvMsg.dropLast, msg)

/-- `ReceiveMsgBytes`, `none` for `false`.  Every round handles at least one byte, so `fuel` is
the number of bytes. -/
def receiveMsgBytes (env : Env) : (fuel : Nat) → (vRecvMsg : List CNetMessage) →
    (pch : List UInt8) → Option (List CNetMessage)
  | _, vRecvMsg, [] => some vRecvMsg
  | 0, _, _ :: _ => none
  | fuel + 1, vRecvMsg, b :: bs =>
    let (before, msg) := currentMessage env vRecvMsg
    match if !msg.in_data then msg.readHeader (b :: bs) else some (msg.readData (b :: bs)) with
    | none => none
    | some (msg, handled) => receiveMsgBytes env fuel (before ++ [msg]) ((b :: bs).drop handled)

/-! ## Sending -/

/-- What `send` answers. -/
inductive Answer where
  | bytes (nBytes : Nat)
  | again
  | failed
deriving Repr, DecidableEq

/-- The sending side of `CNode`.  `socket` holds the bytes that the socket has taken. -/
structure CNode where
  ssSend : List UInt8
  vSendMsg : List (List UInt8)
  nSendOffset : Nat
  nSendSize : Nat
  fDisconnect : Bool
  socket : List UInt8
deriving Repr, DecidableEq

def CNode.initial : CNode := ⟨[], [], 0, 0, false, []⟩

/-- `assert`: the text of the assertion that fails. -/
def assert (b : Bool) (text : String) : Except String Unit := if b then pure () else throw text

/-- The loop of `SocketSendData` from one buffer of the queue on.  The socket takes at most the
bytes it is given, and answers `again` when `answers` has run out. -/
def sendFrom (node : CNode) : (vSendMsg : List (List UInt8)) → (answers : List Answer) →
    Except String CNode
  | [], _ => do
    assert (node.nSendOffset == 0) "pnode->nSendOffset == 0"
    assert (node.nSendSize == 0) "pnode->nSendSize == 0"
    pure { node with vSendMsg := [] }
  | data :: rest, answers => do
    assert (decide (node.nSendOffset < data.length)) "data.size() > pnode->nSendOffset"
    match answers.headD .again with
    | .bytes nBytes =>
      let given := data.drop node.nSendOffset
      let nBytes := min nBytes given.length
      if 0 < nBytes then
        let node := { node with
          nSendOffset := node.nSendOffset + nBytes
          socket := node.socket ++ given.take nBytes }
        if node.nSendOffset = data.length then
          sendFrom { node with nSendOffset := 0, nSendSize := node.nSendSize - data.length } rest
            answers.tail
        else pure { node with vSendMsg := data :: rest }
      else pure { node with vSendMsg := data :: rest }
    | .again => pure { node with vSendMsg := data :: rest }
    | .failed => pure { node with vSendMsg := data :: rest, fDisconnect := true }

/-- `SocketSendData`. -/
def socketSendData (node : CNode) (answers : List Answer) : Except String CNode :=
  sendFrom node node.vSendMsg answers

/-- `BeginMessage`. -/
def beginMessage (env : Env) (node : CNode) (pszCommand : List UInt8) : Except String CNode := do
  assert node.ssSend.isEmpty "ssSend.size() == 0"
  pure { node with ssSend := (CMessageHeader.ofCommand env pszCommand 0).serialize }

/-- The size and the checksum that `EndMessage` writes into the header. -/
def finishHeader (env : Env) (ssSend : List UInt8) : List UInt8 :=
  let nSize := (ssSend.length - CMessageHeader.headerSize) % 2 ^ 32
  let ssSend := overwrite ssSend CMessageHeader.messageSizeOffset (leBytes 4 nSize)
  let nChecksum := env.hashOf (ssSend.drop CMessageHeader.headerSize) % 2 ^ 32
  overwrite ssSend CMessageHeader.checksumOffset (leBytes 4 nChecksum)

/-- `EndMessage`; `dropped` tells whether `-dropmessagestest` drops the message. -/
def endMessage (env : Env) (node : CNode) (dropped : Bool) (answers : List Answer) :
    Except String CNode :=
  if dropped then pure { node with ssSend := [] }
  else if node.ssSend.isEmpty then pure node
  else do
    let ssSend := finishHeader env node.ssSend
    assert (decide (CMessageHeader.checksumOffset + 4 ≤ ssSend.length))
      "ssSend.size () >= CMessageHeader::CHECKSUM_OFFSET + sizeof(nChecksum)"
    let optimistic := node.vSendMsg.isEmpty
    let node := { node with
      ssSend := []
      vSendMsg := node.vSendMsg ++ [ssSend]
      nSendSize := node.nSendSize + ssSend.length }
    if optimistic then socketSendData node answers else pure node

/-- `PushMessage` with a payload that has been serialized. -/
def pushMessage (env : Env) (node : CNode) (pszCommand payload : List UInt8) (dropped : Bool)
    (answers : List Answer) : Except String CNode := do
  let node ← beginMessage env node pszCommand
  endMessage env { node with ssSend := node.ssSend ++ payload } dropped answers

/-! ## A connection -/

/-- A message that has been put into the queue. -/
structure Message where
  pszCommand : List UInt8
  payload : List UInt8
deriving Repr, DecidableEq

/-- One direction of a connection: the sender, the messages it has queued so far, and the
messages of its peer, which has received all but `wire` of what the socket has taken. -/
structure Connection where
  sender : CNode
  pushed : List Message
  wire : List UInt8
  vRecvMsg : List CNetMessage
deriving Repr, DecidableEq

def Connection.initial : Connection := ⟨.initial, [], [], []⟩

/-- What happens on a connection. -/
inductive Event where
  /-- `PushMessage` by the sender. -/
  | push (message : Message) (dropped : Bool) (answers : List Answer)
  /-- `SocketSendData`, when the socket can take more. -/
  | send (answers : List Answer)
  /-- The next `nBytes` bytes arrive. -/
  | deliver (nBytes : Nat)
deriving Repr, DecidableEq

/-- The sender has done something: what the socket has taken is on the wire. -/
def Connection.sent (c : Connection) (node : CNode) : Connection :=
  { c with sender := { node with socket := [] }, wire := c.wire ++ node.socket }

/-- One event; `none` when the peer gives the connection up, the text of an assertion when it
fails. -/
def Connection.step (env : Env) (c : Connection) : Event → Except String (Option Connection)
  | .push message dropped answers => do
    let node ← pushMessage env c.sender message.pszCommand message.payload dropped answers
    pure (some { c.sent node with pushed := if dropped then c.pushed else c.pushed ++ [message] })
  | .send answers => do
    let node ← socketSendData c.sender answers
    pure (some (c.sent node))
  | .deliver nBytes =>
    let chunk := c.wire.take nBytes
    pure ((receiveMsgBytes env chunk.length c.vRecvMsg chunk).map fun vRecvMsg =>
      { c with wire := c.wire.drop nBytes, vRecvMsg := vRecvMsg })

/-- A run. -/
def Connection.run (env : Env) (c : Connection) : List Event → Except String (Option Connection)
  | [] => pure (some c)
  | event :: events => do
    match ← c.step env event with
    | none => pure none
    | some c => c.run env events

end Network

end NoLimitCoin
