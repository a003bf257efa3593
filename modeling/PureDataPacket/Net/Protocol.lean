/-
# `PureDataPacket.Net.Protocol` — datagrams of the raw packet protocol

Every datagram starts with the signature `PDP`, the protocol version, a
connection id and a sequence number.  A negative sequence number is the kind of
a control message, any other the number of the chunk in the body.

A transmission is what one call of `pdp_udp_sender_send` is about: the type and
the bytes to send, the connection id that `rand` gave, and the chunk size that
the sender is set to.  `Emitted` are the datagrams that such a call may send.
-/
import PureDataPacket.Kernel.Packet
import PureDataPacket.Lib.Bytes
import PureDataPacket.Lib.CInt

namespace PureDataPacket

/-- What is sent over the socket in one piece. -/
abbrev Datagram : Type := List UInt8

/-- `PDP_UDP_VERSION`. -/
def pdpUdpVersion : Nat := 1

/-- `PDP_UDP_BUFSIZE`. -/
def pdpUdpBufsize : Nat := 0xF000

/-- `MAX_UDP_PACKET`. -/
def maxUdpPacket : Nat := 1472

/-- `sizeof(t_pdp_udp_header)`. -/
def udpHeaderSize : Nat := 16

/-- `RESEND_MAX_CHUNKS`. -/
def resendMaxChunks : Nat := (maxUdpPacket - udpHeaderSize) / 4

/-- `PDP_UDP_NEW`: the start of a transmission. -/
def pdpUdpNew : Int := -1

/-- `PDP_UDP_DONE`: all chunks have been sent. -/
def pdpUdpDone : Int := -2

/-- `PDP_UDP_RESEND`: the chunks that are missing. -/
def pdpUdpResend : Int := -3

/-- `PDP_UDP_ACKNEW`: the answer to `PDP_UDP_NEW`. -/
def pdpUdpAcknew : Int := -4

/-- `sizeof(t_pdp_udp_newpacket)`. -/
def newpacketSize : Nat := 12

/-- `t_pdp_udp_header`. -/
structure UdpHeader where
  signature : List UInt8
  version : Nat
  connectionId : Nat
  sequenceNumber : Nat
deriving DecidableEq

/-- The signature `"PDP"`, with its terminating zero. -/
def pdpSignature : List UInt8 := [80, 68, 80, 0]

/-- The header at the start of a buffer. -/
def readUdpHeader (area : List UInt8) : UdpHeader where
  signature := area.take 4
  version := word (area.drop 4)
  connectionId := word (area.drop 8)
  sequenceNumber := word (area.drop 12)

/-- `_is_udp_header`. -/
def isUdpHeader (header : UdpHeader) (size : Nat) : Bool :=
  !decide (size < udpHeaderSize) && decide (header.signature = pdpSignature) &&
    decide (header.version = pdpUdpVersion)

/-- A datagram with the header that `_make_udp_header` completes. -/
def datagram (connectionId : Nat) (sequenceNumber : Int) (body : List UInt8) : Datagram :=
  pdpSignature ++ le32 pdpUdpVersion ++ le32 connectionId ++ le32 (ofInt32 sequenceNumber) ++ body

theorem length_datagram (id : Nat) (seq : Int) (body : List UInt8) :
    (datagram id seq body).length = udpHeaderSize + body.length := by
  simp only [datagram, pdpSignature, le32, List.length_append, List.length_cons, List.length_nil,
    udpHeaderSize]

/-- The header is read back from any buffer that the datagram is in front of. -/
theorem readUdpHeader_datagram {id : Nat} (hid : id < 2 ^ 32) (seq : Int)
    (body rest : List UInt8) :
    readUdpHeader (datagram id seq body ++ rest) =
      ⟨pdpSignature, pdpUdpVersion, id, ofInt32 seq⟩ := by
  have hversion : word (le32 pdpUdpVersion ++ (le32 id ++ le32 (ofInt32 seq) ++ body ++ rest)) =
      pdpUdpVersion := word_le32 (by decide) _
  have hseq : word (le32 (ofInt32 seq) ++ (body ++ rest)) = ofInt32 seq :=
    word_le32 (ofInt32_lt seq) _
  have hconn : word (le32 id ++ (le32 (ofInt32 seq) ++ body ++ rest)) = id := word_le32 hid _
  simp only [readUdpHeader, UdpHeader.mk.injEq]
  exact ⟨rfl, hversion, hconn, hseq⟩

theorem drop_datagram (id : Nat) (seq : Int) (body rest : List UInt8) :
    (datagram id seq body ++ rest).drop udpHeaderSize = body ++ rest := rfl

theorem isUdpHeader_datagram {id : Nat} {n : Nat} {seq : Nat} (hn : udpHeaderSize ≤ n) :
    isUdpHeader ⟨pdpSignature, pdpUdpVersion, id, seq⟩ n = true := by
  simp [isUdpHeader, hn]

/-! ## Transmissions -/

/-- One call of `pdp_udp_sender_send`, with what it may rely on: `rand` has
given a new id that is not zero, the type is a C string, there is data, and a
chunk fits into the buffer. -/
structure Transmission where
  connectionId : Nat
  type : List UInt8
  data : List UInt8
  chunkSize : Nat
  id_ne_zero : connectionId ≠ 0
  id_lt : connectionId < 2 ^ 32
  type_ne_zero : ∀ b ∈ type, b ≠ 0
  data_pos : 0 < data.length
  data_lt : data.length < 2 ^ 32
  chunk_pos : 0 < chunkSize
  chunk_le : chunkSize ≤ pdpUdpBufsize

namespace Transmission

variable (tr : Transmission)

/-- `x_nb_chunks`. -/
def nbChunks : Nat := (tr.data.length - 1) / tr.chunkSize + 1

theorem lt_nbChunks_iff {i : Nat} : i < tr.nbChunks ↔ tr.chunkSize * i < tr.data.length := by
  have hpos := tr.data_pos
  have hc := tr.chunk_pos
  unfold nbChunks
  rw [Nat.lt_succ_iff, Nat.le_div_iff_mul_le hc, Nat.mul_comm]
  omega

theorem length_le : tr.data.length ≤ tr.chunkSize * tr.nbChunks := by
  have := (tr.lt_nbChunks_iff (i := tr.nbChunks)).not.mp (Nat.lt_irrefl _)
  omega

theorem nbChunks_le : tr.nbChunks ≤ tr.data.length := by
  have hlast : tr.nbChunks - 1 < tr.nbChunks := Nat.sub_lt (Nat.succ_pos _) Nat.one_pos
  have := tr.lt_nbChunks_iff.mp hlast
  have := Nat.le_mul_of_pos_left (tr.nbChunks - 1) tr.chunk_pos
  omega

/-- The start of the `PDP_UDP_NEW` body, and then the type. -/
def newBody : List UInt8 :=
  le32 tr.data.length ++ le32 tr.nbChunks ++ le32 tr.chunkSize ++ tr.type ++ [0]

/-- `PDP_UDP_NEW`. -/
def newDatagram : Datagram := datagram tr.connectionId pdpUdpNew tr.newBody

/-- `PDP_UDP_DONE`. -/
def doneDatagram : Datagram := datagram tr.connectionId pdpUdpDone []

/-- The datagram with chunk `i`. -/
def chunkDatagram (i : Nat) : Datagram :=
  datagram tr.connectionId i (chunk tr.chunkSize i tr.data)

/-- The datagrams of a transmission. -/
inductive Emitted : Datagram → Prop
  | new (h : newpacketSize + tr.type.length + 1 ≤ pdpUdpBufsize) : Emitted tr.newDatagram
  | chunk {i : Nat} (hi : i < tr.nbChunks) : Emitted (tr.chunkDatagram i)
  | done : Emitted tr.doneDatagram

end Transmission

end PureDataPacket
