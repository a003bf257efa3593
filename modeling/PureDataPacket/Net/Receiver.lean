/-
# `PureDataPacket.Net.Receiver` — the receiving side of the raw packet protocol

The receiver keeps one transmission.  A `PDP_UDP_NEW` with an id that is not the
current one starts it afresh; data for the current id is copied to its place and
the chunk is marked; a `PDP_UDP_DONE` is answered with the chunks that are still
missing, and if there are none, `pdp_udp_receiver_receive` returns 1, once.

`recvfrom` writes the header and the buffer behind it in one go (`fill`), so
that whatever a short datagram does not cover is left from earlier ones.
A `pdp_alloc` that fails is written to, which stops the program; of these only
the requests that must fail are modelled, the ones that do not fit an `int`.
-/
import PureDataPacket.Net.Protocol

namespace PureDataPacket

/-- `t_pdp_udp_receiver`.  The area is `x_header` and `x_buf`. -/
structure Receiver where
  area : List UInt8
  xBufSize : Nat
  xConnectionId : Nat
  xNbChunks : Nat
  xChunkSize : Nat
  xChunkList : List Bool
  xDataType : List UInt8
  xDataSize : Nat
  xData : List UInt8
  xReceiveFinished : Bool
  xPacketTransferred : Bool
  length_area : area.length = udpHeaderSize + pdpUdpBufsize

namespace Receiver

/-- `x_header`. -/
def xHeader (x : Receiver) : UdpHeader := readUdpHeader x.area

/-- `x_buf`. -/
def xBuf (x : Receiver) : List UInt8 := x.area.drop udpHeaderSize

/-- `pdp_udp_receiver_new`. -/
def new : Receiver where
  area := List.replicate (udpHeaderSize + pdpUdpBufsize) 0
  xBufSize := 0
  xConnectionId := 0
  xNbChunks := 0
  xChunkSize := 0
  xChunkList := []
  xDataType := []
  xDataSize := 0
  xData := []
  xReceiveFinished := false
  xPacketTransferred := false
  length_area := List.length_replicate

/-- `pdp_udp_receiver_reset`. -/
def reset (x : Receiver) : Receiver := { x with xConnectionId := 0 }

/-- `recvfrom`: what does not fit is cut off. -/
def fill (x : Receiver) (d : Datagram) : Receiver :=
  let d := d.take (udpHeaderSize + pdpUdpBufsize)
  { x with
    area := d ++ x.area.drop d.length
    xBufSize := u32 (d.length + (2 ^ 32 - udpHeaderSize))
    length_area := by
      have := x.length_area
      have : d.length ≤ udpHeaderSize + pdpUdpBufsize := List.length_take_le ..
      rw [List.length_append, List.length_drop]
      omega }

/-- `pdp_alloc(n)` and `memset(_, 0, n)`.  The size is passed on as an `int`. -/
def allocCleared (n : Nat) : Except Fault Unit :=
  if toInt32 n < 0 then .error .nullPointer
  else if toInt32 n < n then .error .outOfBounds
  else .ok ()

/-- The reception that `_handle_PDP_UDP_NEW` prepares. -/
def prepare (x : Receiver) : Except Fault Receiver := do
  let np := x.xBuf
  let dataSize := word np
  let nbChunks := word (np.drop 4)
  let chunkSize := word (np.drop 8)
  allocCleared dataSize
  allocCleared (4 * nbChunks)
  .ok { x with
    xDataType := (np.drop newpacketSize).takeWhile (· ≠ 0)
    xDataSize := dataSize
    xData := List.replicate dataSize 0
    xConnectionId := x.xHeader.connectionId
    xNbChunks := nbChunks
    xChunkSize := chunkSize
    xChunkList := List.replicate nbChunks false
    xReceiveFinished := false
    xPacketTransferred := false }

/-- `_handle_PDP_UDP_NEW`; the answer is sent even if nothing was prepared. -/
def handleNew (x : Receiver) : Except Fault (List Datagram × Receiver) := do
  let x ← if x.xConnectionId ≠ x.xHeader.connectionId then x.prepare else .ok x
  .ok ([datagram x.xConnectionId pdpUdpAcknew []], x)

/-- The numbers, from `chunk` on, of the chunks that are not marked. -/
def missingFrom : Nat → List Bool → List Nat
  | _, [] => []
  | chunk, received :: l =>
      if received then missingFrom (chunk + 1) l else chunk :: missingFrom (chunk + 1) l

/-- `_handle_PDP_UDP_DONE`.  The list of missing chunks is filled from its end. -/
def handleDone (x : Receiver) : List Datagram × Receiver :=
  if x.xConnectionId ≠ x.xHeader.connectionId then ([], x)
  else
    let missing := (missingFrom 0 x.xChunkList).take resendMaxChunks
    let body := missing.reverse.flatMap le32
    ([datagram x.xConnectionId pdpUdpResend body],
      if missing = [] then { x with xReceiveFinished := true } else x)

/-- `_handle_UDP_DATA`. -/
def handleData (x : Receiver) : Except Fault Receiver :=
  let seq := x.xHeader.sequenceNumber
  let offset := u32 (x.xChunkSize * seq)
  if x.xConnectionId = 0 ∨ x.xConnectionId ≠ x.xHeader.connectionId then .ok x
  else if seq ≥ x.xNbChunks then .ok x
  else if offset + x.xBufSize > x.xData.length then .error .outOfBounds
  else .ok { x with
    xData := blit x.xData offset (x.xBuf.take x.xBufSize)
    xChunkList := x.xChunkList.set seq true }

/-- What `select` and `recvfrom` have for the receiver. -/
inductive Incoming where
  | selectError
  | timeout
  | recvError
  | datagram (d : Datagram)

/-- A call of the interface of `pdp_net.c`. -/
inductive Call where
  | receive (i : Incoming)
  | reset

/-- The part of `pdp_udp_receiver_receive` that acts on a datagram with a
header: the result, and what has been sent. -/
def handle (x : Receiver) : Except Fault (Int × List Datagram × Receiver) :=
  let type := toInt32 x.xHeader.sequenceNumber
  if type < 0 then
    if type = pdpUdpNew then do
      let (sent, x) ← x.handleNew
      .ok (0, sent, x)
    else if type = pdpUdpDone then
      let (sent, x) := x.handleDone
      if x.xReceiveFinished && !x.xPacketTransferred then
        .ok (1, sent, { x with xPacketTransferred := true })
      else .ok (0, sent, x)
    else .ok (0, [], x)
  else do
    let x ← x.handleData
    .ok (0, [], x)

/-- `pdp_udp_receiver_receive`. -/
def pdpUdpReceiverReceive (x : Receiver) : Incoming → Except Fault (Int × List Datagram × Receiver)
  | .selectError => .ok (-1, [], x)
  | .timeout => .ok (0, [], x)
  | .recvError => .ok (-1, [], x)
  | .datagram d =>
      let size := (d.take (udpHeaderSize + pdpUdpBufsize)).length
      let x := x.fill d
      if isUdpHeader x.xHeader size then x.handle else .ok (0, [], x)

end Receiver

end PureDataPacket
