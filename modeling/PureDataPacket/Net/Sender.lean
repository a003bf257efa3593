/-
# `PureDataPacket.Net.Sender` — the sending side of the raw packet protocol

`pdp_udp_sender_send` announces a transmission until this is acknowledged, sends
its chunks, asks what is missing and sends that again.  It is a program that
sends and receives; what it receives is for the other side to say.

`_receive_packet` goes on waiting when it gets a datagram that is not for it.
This loop has no bound and no effect, so here it is one action: whatever it
waits through, it ends with an error, a timeout, or a datagram that passes
`receiveFilter`.

| | |
| :-- | :-- |
| `Sends` | the sender only sends datagrams of its transmission |
| `Sound` | a request to send chunks again names chunks that there are |
| `obeys_pdpUdpSenderSend` | what the sender emits |
-/
import PureDataPacket.Lib.Program
import PureDataPacket.Net.Protocol

namespace PureDataPacket

/-- How `_receive_packet` ends.  The list is `x_resend_chunks`, as far as
`x_resend_items` goes. -/
inductive Reply where
  | timeout
  | error
  | got (chunks : List Nat)
deriving DecidableEq

/-- The tests of `_receive_packet` on a datagram. -/
def receiveFilter (connectionId : Nat) (desiredType : Int) (d : Datagram) : Option Reply :=
  let d := d.take maxUdpPacket
  let header := readUdpHeader d
  if !isUdpHeader header d.length then none
  else if connectionId ≠ header.connectionId then none
  else if toInt32 header.sequenceNumber ≠ desiredType then none
  else some (.got (words (d.drop udpHeaderSize)))

/-- The actions of the sender. -/
inductive SendOp where
  | send (d : Datagram)
  | receivePacket (connectionId : Nat) (desiredType : Int)

@[reducible] def SendOp.Answer : SendOp → Type
  | .send _ => Unit
  | .receivePacket _ _ => Reply

abbrev SendProg (α : Type) : Type := Prog SendOp SendOp.Answer Fault α

namespace SendProg

/-- The program that performs one action. -/
def call (o : SendOp) : SendProg o.Answer := Prog.call o

end SendProg

open SendProg (call)

section Sender

variable (tr : Transmission)

/-- `_send_header_packet`: `strcpy` does not ask whether the type fits. -/
def sendHeaderPacket : SendProg Unit :=
  if newpacketSize + tr.type.length + 1 ≤ pdpUdpBufsize then call (.send tr.newDatagram)
  else .crash .outOfBounds

/-- `current_chunk_size`, in 32-bit arithmetic. -/
def currentChunkSize (offset : Nat) : Nat :=
  if u32 (offset + tr.chunkSize) > tr.data.length then u32 (tr.data.length + 2 ^ 32 - offset)
  else tr.chunkSize

/-- `_send_chunks`. -/
def sendChunks : List Nat → SendProg Unit
  | [] => pure ()
  | seq :: l => do
      let offset := u32 (seq * tr.chunkSize)
      let size := currentChunkSize tr offset
      if tr.data.length < offset + size ∨ pdpUdpBufsize < size then .crash .outOfBounds
      else do
        call (.send (datagram tr.connectionId seq ((tr.data.drop offset).take size)))
        sendChunks l

/-- `_send_done`. -/
def sendDone : SendProg Unit := call (.send tr.doneDatagram)

/-- `_need_resend`, with `retries` left: the new `x_chunk_list`. -/
def needResend : Nat → SendProg (List Nat)
  | 0 => pure []
  | retries + 1 => do
      sendDone tr
      match ← call (.receivePacket tr.connectionId pdpUdpResend) with
      | .timeout => needResend retries
      | .error => pure []
      | .got chunks => if chunks.length > tr.nbChunks then needResend retries else pure chunks

/-- The handshake loop of `pdp_udp_sender_send`. -/
def handshake : Nat → SendProg Bool
  | 0 => pure false
  | hsRetry + 1 => do
      sendHeaderPacket tr
      match ← call (.receivePacket tr.connectionId pdpUdpAcknew) with
      | .timeout => handshake hsRetry
      | .error => pure true
      | .got _ => pure true

/-- The transmission loop of `pdp_udp_sender_send`. -/
def transmit : Nat → List Nat → SendProg Int
  | 0, _ => pure 0
  | rsRetry + 1, chunks => do
      sendChunks tr chunks
      let chunks ← needResend tr 3
      if chunks ≠ [] then transmit rsRetry chunks else pure 1

/-- `pdp_udp_sender_send`.  The list of all chunks is what
`_prepare_for_new_transmission` makes. -/
def pdpUdpSenderSend (xSocket : Int) : SendProg Int := do
  if xSocket = -1 then pure 0
  else
    if ← handshake tr 5 then transmit tr 5 (List.range tr.nbChunks) else pure 0

end Sender

/-! ## What the sender emits -/

/-- The sender only sends datagrams of its transmission. -/
def Sends (tr : Transmission) : SendOp → Prop
  | .send d => tr.Emitted d
  | .receivePacket id _ => id = tr.connectionId

/-- A request to send chunks again names chunks that there are. -/
def Sound (tr : Transmission) : ∀ o : SendOp, o.Answer → Prop
  | .receivePacket _ t, .got chunks => t = pdpUdpResend → ∀ i ∈ chunks, i < tr.nbChunks
  | .receivePacket _ _, .timeout => True
  | .receivePacket _ _, .error => True
  | .send _, _ => True

section Obeys

variable {tr : Transmission}

theorem sent_chunk {seq : Nat} (hseq : seq < tr.nbChunks) :
    (tr.data.drop (u32 (seq * tr.chunkSize))).take
        (currentChunkSize tr (u32 (seq * tr.chunkSize))) =
      chunk tr.chunkSize seq tr.data := by
  have hlt := tr.lt_nbChunks_iff.mp hseq
  have hdata := tr.data_lt
  have hchunk : tr.chunkSize ≤ 0xF000 := tr.chunk_le
  have hoff : u32 (seq * tr.chunkSize) = tr.chunkSize * seq := by
    rw [Nat.mul_comm]
    exact u32_eq_self (by omega)
  rw [hoff]
  unfold currentChunkSize chunk
  split
  · next hcut =>
      have hsize : u32 (tr.data.length + 2 ^ 32 - tr.chunkSize * seq) =
          tr.data.length - tr.chunkSize * seq := by
        simp only [u32]
        omega
      rw [hsize, List.take_of_length_le (by simp), List.take_of_length_le]
      -- the sum did not wrap: it would be small
      simp only [u32] at hcut
      rw [List.length_drop]
      omega
  · rfl

theorem obeys_sendChunks {l : List Nat} (hl : ∀ i ∈ l, i < tr.nbChunks) :
    (sendChunks tr l).Obeys (Sends tr) (Sound tr) fun _ => True := by
  induction l with
  | nil => trivial
  | cons seq l ih =>
      have hseq := hl seq List.mem_cons_self
      show Prog.Obeys _ _ (if _ then _ else _) _
      split
      · trivial
      · refine ⟨?_, fun _ _ => ih fun i hi => hl i (List.mem_cons_of_mem _ hi)⟩
        show tr.Emitted _
        rw [sent_chunk hseq]
        exact .chunk hseq

theorem obeys_needResend (n : Nat) :
    (needResend tr n).Obeys (Sends tr) (Sound tr) fun l => ∀ i ∈ l, i < tr.nbChunks := by
  induction n with
  | zero => exact fun i hi => absurd hi List.not_mem_nil
  | succ n ih =>
      refine ⟨.done, fun _ _ => ⟨rfl, fun reply hreply => ?_⟩⟩
      cases reply with
      | timeout => exact ih
      | error => exact fun i hi => absurd hi List.not_mem_nil
      | got chunks =>
          show Prog.Obeys _ _ (if _ then _ else _) _
          split
          · exact ih
          · exact hreply rfl

theorem obeys_handshake (n : Nat) :
    (handshake tr n).Obeys (Sends tr) (Sound tr) fun _ => True := by
  induction n with
  | zero => trivial
  | succ n ih =>
      unfold handshake
      refine Prog.obeys_bind (Q := fun _ => True) ?_ fun _ _ => ⟨rfl, fun reply _ => ?_⟩
      · unfold sendHeaderPacket
        split
        · next hfits => exact ⟨.new hfits, fun _ _ => trivial⟩
        · trivial
      · cases reply with
        | timeout => exact ih
        | error => trivial
        | got chunks => trivial

theorem obeys_transmit {n : Nat} {l : List Nat} (hl : ∀ i ∈ l, i < tr.nbChunks) :
    (transmit tr n l).Obeys (Sends tr) (Sound tr) fun _ => True := by
  induction n generalizing l with
  | zero => trivial
  | succ n ih =>
      refine Prog.obeys_bind (obeys_sendChunks hl) fun _ _ => ?_
      refine Prog.obeys_bind (obeys_needResend 3) fun l' hl' => ?_
      split
      · exact ih hl'
      · trivial

/-- Whatever sound answers it gets, the sender emits datagrams of its
transmission only. -/
theorem obeys_pdpUdpSenderSend (tr : Transmission) (xSocket : Int) :
    (pdpUdpSenderSend tr xSocket).Obeys (Sends tr) (Sound tr) fun _ => True := by
  unfold pdpUdpSenderSend
  split
  · trivial
  · refine Prog.obeys_bind (obeys_handshake 5) fun accepted _ => ?_
    split
    · exact obeys_transmit fun i hi => List.mem_range.mp hi
    · trivial

end Obeys

end PureDataPacket
