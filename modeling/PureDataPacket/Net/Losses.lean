/-
# `PureDataPacket.Net.Losses` — a sender and a receiver on a network that loses datagrams

The sender sends its header five times at most before it gives up, its chunks five times at most,
and after each time it asks three times at most what is missing.  So it survives any two losses,
of datagrams in either direction; when three requests get lost it takes the silence for success.

| | |
| :-- | :-- |
| `Going` | the receiver is at this transmission |
| `Opening` | what the handshake finds: an older transmission, or its own beginning |
| `Going.sendChunks` | a round of chunks |
| `Going.needResend` | `_need_resend`, which asks until an answer arrives |
| `Going.transmit` | the rounds |
| `Fitting` | a transmission that the sender can describe and the receiver has room for |
-/
import PureDataPacket.Net.Resend

namespace PureDataPacket

open Receiver

/-! ## The network -/

/-- The receiver, and the network between it and the sender. -/
structure Link where
  receiver : Receiver
  /-- the answers that the sender has not read -/
  inbox : List Incoming
  /-- which of the next datagrams get lost -/
  losses : List Bool
  /-- the types and the data that the receiver has handed over -/
  handed : List (List UInt8 × List UInt8)

namespace Link

def arriving : List Datagram → List Bool → List Datagram × List Bool
  | [], losses => ([], losses)
  | d :: l, losses =>
      let (rest, left) := arriving l losses.tail
      (if losses.headD false then rest else d :: rest, left)

/-- A datagram arrives: `pdp_udp_receiver_receive`, and what its caller does when it returns 1. -/
def deliver (d : Datagram) (s : Link) : Except Fault Link := do
  let (r, sent, x) ← s.receiver.pdpUdpReceiverReceive (.datagram d)
  let (answers, losses) := arriving sent s.losses
  return {
    receiver := x
    inbox := s.inbox ++ answers.map .datagram
    losses
    handed := if r = 1 then s.handed ++ [(x.xDataType, x.xData)] else s.handed }

def exec : ∀ o : SendOp, Link → Except Fault (o.Answer × Link)
  | .send d, s =>
      if s.losses.headD false then .ok ((), { s with losses := s.losses.tail })
      else (deliver d { s with losses := s.losses.tail }).map fun s => ((), s)
  | .receivePacket id t, s =>
      let (reply, inbox) := receivePacket id t s.inbox
      .ok (reply, { s with inbox })

/-- How many datagrams may still get lost. -/
def budget (s : Link) : Nat := s.losses.count true

/-- Transmissions one after the other, each with the losses it meets. -/
def sendAll (xSocket : Int) : List (Transmission × List Bool) → Link → Except Fault (List Int × Link)
  | [], s => .ok ([], s)
  | (tr, losses) :: l, s => do
      let (r, s) ← (pdpUdpSenderSend tr xSocket).run exec { s with losses }
      let (rs, s) ← sendAll xSocket l s
      return (r :: rs, s)

/-! ## One datagram -/

/-- What becomes of a datagram: it gets lost, or it is answered and the answer arrives or not. -/
inductive Sent (s : Link) (r : Int) (sent : List Datagram) (y : Receiver) : Link → Prop
  | lost {losses : List Bool} (h : losses.count true < s.budget) : Sent s r sent y { s with losses }
  | answered {losses : List Bool} (h : losses.count true ≤ s.budget) : Sent s r sent y
      ⟨y, s.inbox ++ sent.map .datagram, losses,
        if r = 1 then s.handed ++ [(y.xDataType, y.xData)] else s.handed⟩
  | unanswered {losses : List Bool} (h : losses.count true < s.budget) : Sent s r sent y
      ⟨y, s.inbox, losses, if r = 1 then s.handed ++ [(y.xDataType, y.xData)] else s.handed⟩

theorem count_tail (losses : List Bool) :
    losses.tail.count true + (if losses.headD false then 1 else 0) = losses.count true := by
  cases losses with
  | nil => rfl
  | cons b l => cases b <;> simp

theorem exec_send {s : Link} {d : Datagram} {r : Int} {sent : List Datagram} {y : Receiver}
    (h : s.receiver.pdpUdpReceiverReceive (.datagram d) = .ok (r, sent, y))
    (hsent : sent.length ≤ 1) :
    ∃ s', exec (.send d) s = .ok ((), s') ∧ Sent s r sent y s' := by
  have hcount := count_tail s.losses
  by_cases hlost : s.losses.headD false = true
  · rw [if_pos hlost] at hcount
    refine ⟨{ s with losses := s.losses.tail }, ?_, .lost (by unfold budget; omega)⟩
    rw [exec, if_pos hlost]
  · rw [if_neg hlost] at hcount
    have hexec : exec (.send d) s =
        (deliver d { s with losses := s.losses.tail }).map fun s => ((), s) := by
      rw [exec, if_neg hlost]
    match sent, hsent with
    | [], _ =>
        refine ⟨_, ?_, .answered (show s.losses.tail.count true ≤ s.budget by unfold budget; omega)⟩
        rw [hexec, deliver, h]
        rfl
    | [a], _ =>
        have hcount' := count_tail s.losses.tail
        by_cases hquiet : s.losses.tail.headD false = true
        · rw [if_pos hquiet] at hcount'
          refine ⟨_, ?_, .unanswered
            (show s.losses.tail.tail.count true < s.budget by unfold budget; omega)⟩
          rw [hexec, deliver, h]
          show Except.ok ((), Link.mk y (s.inbox ++ (if s.losses.tail.headD false then [] else
            [a]).map .datagram) s.losses.tail.tail _) = _
          rw [if_pos hquiet, List.map_nil, List.append_nil]
        · rw [if_neg hquiet] at hcount'
          refine ⟨_, ?_, .answered
            (show s.losses.tail.tail.count true ≤ s.budget by unfold budget; omega)⟩
          rw [hexec, deliver, h]
          show Except.ok ((), Link.mk y (s.inbox ++ (if s.losses.tail.headD false then [] else
            [a]).map .datagram) s.losses.tail.tail _) = _
          rw [if_neg hquiet]

end Link

/-! ## What the receiver does -/

section Receive

variable {tr : Transmission} {x : Receiver}

theorem Receiving.expecting (hx : Receiving tr x) : Expecting tr x :=
  ⟨hx.id, hx.nbChunks, hx.chunkSize, hx.length, hx.flags, hx.small⟩

theorem allocCleared_eq {n : Nat} (h : n < 2 ^ 31) : allocCleared n = .ok () := by
  unfold allocCleared
  rw [toInt32_of_nat_lt h, if_neg (by omega), if_neg (by omega)]

/-- `PDP_UDP_NEW`, the first time and again. -/
theorem receive_new (hlen : newpacketSize + tr.type.length + 1 ≤ pdpUdpBufsize)
    (hdata : tr.data.length < 2 ^ 31) (hlist : 4 * tr.nbChunks < 2 ^ 31) : ∃ y,
    x.pdpUdpReceiverReceive (.datagram tr.newDatagram) =
      .ok (0, [datagram tr.connectionId pdpUdpAcknew []], y) ∧
    (x.xConnectionId ≠ tr.connectionId → Receiving tr y ∧ y.xReceiveFinished = false ∧
      y.xPacketTransferred = false) ∧
    (x.xConnectionId = tr.connectionId → SameReception x y ∧
      y.xReceiveFinished = x.xReceiveFinished ∧ y.xPacketTransferred = x.xPacketTransferred) := by
  have hbody : tr.newBody.length ≤ pdpUdpBufsize := by
    simpa [Transmission.newBody, le32, newpacketSize, Nat.add_comm, Nat.add_left_comm] using hlen
  have hholds := holds_fill x tr.id_lt pdpUdpNew hbody
  have hsame := same_fill x (datagram tr.connectionId pdpUdpNew tr.newBody)
  have hfinished : (x.fill (datagram tr.connectionId pdpUdpNew tr.newBody)).xReceiveFinished =
      x.xReceiveFinished := rfl
  have htransferred : (x.fill (datagram tr.connectionId pdpUdpNew tr.newBody)).xPacketTransferred =
      x.xPacketTransferred := rfl
  unfold Transmission.newDatagram
  rw [receive_datagram x tr.id_lt pdpUdpNew hbody]
  generalize x.fill (datagram tr.connectionId pdpUdpNew tr.newBody) = x₁
    at hholds hsame hfinished htransferred ⊢
  have htype : toInt32 (ofInt32 pdpUdpNew) = pdpUdpNew := toInt32_ofInt32 (by decide) (by decide)
  unfold handle
  rw [hholds.header]
  simp only [htype, show pdpUdpNew < 0 by decide, if_true, handleNew, hholds.header]
  by_cases hid : x₁.xConnectionId = tr.connectionId
  · refine ⟨x₁, ?_, fun hne => absurd (hsame.id.symm.trans hid) hne, fun _ =>
      ⟨hsame, hfinished, htransferred⟩⟩
    rw [if_neg (not_not_intro hid)]
    show Except.ok (0, [datagram x₁.xConnectionId pdpUdpAcknew []], x₁) = _
    rw [hid]
  · obtain ⟨rest, hbuf⟩ := hholds.buf
    obtain ⟨hsize, hnb, -, -⟩ := newBody_fields tr rest
    obtain ⟨y, hy, htrans⟩ : ∃ y, x₁.prepare = .ok y ∧ y.xPacketTransferred = false := by
      unfold prepare
      simp only [hbuf, hsize, hnb, allocCleared_eq hdata, allocCleared_eq hlist]
      exact ⟨_, rfl, rfl⟩
    obtain ⟨hrec, hfin⟩ := receiving_prepare hholds hy
    refine ⟨y, ?_, fun _ => ⟨hrec, hfin, htrans⟩, fun heq => absurd (hsame.id.trans heq) hid⟩
    rw [if_pos hid, hy]
    show Except.ok (0, [datagram y.xConnectionId pdpUdpAcknew []], y) = _
    rw [hrec.id]

theorem receive_chunk (hx : Receiving tr x) {i : Nat} (hi : i < tr.nbChunks) : ∃ y,
    x.pdpUdpReceiverReceive (.datagram (tr.chunkDatagram i)) = .ok (0, [], y) ∧ Receiving tr y ∧
    y.xReceiveFinished = x.xReceiveFinished ∧ y.xPacketTransferred = x.xPacketTransferred ∧
    y.xChunkList = x.xChunkList.set i true := by
  obtain ⟨y, hrun, -, hset⟩ := hx.expecting.receive_chunk hi
  have hsmall : i < 2 ^ 31 := Nat.lt_trans (Nat.lt_of_lt_of_le hi tr.nbChunks_le) hx.small
  have hbody : (chunk tr.chunkSize i tr.data).length ≤ pdpUdpBufsize := by
    have := tr.chunk_le
    rw [length_chunk]
    omega
  have hholds := holds_fill x tr.id_lt i hbody
  have hrec := hx.same (same_fill x (tr.chunkDatagram i))
  have hseq : toInt32 (x.fill (tr.chunkDatagram i)).xHeader.sequenceNumber = i := by
    have hheader : (x.fill (tr.chunkDatagram i)).xHeader = _ := hholds.header
    rw [hheader, ofInt32_of_nat_lt (by omega), toInt32_of_nat_lt hsmall]
  have hhandle : x.pdpUdpReceiverReceive (.datagram (tr.chunkDatagram i)) =
      (x.fill (tr.chunkDatagram i)).handleData.map fun y => (0, [], y) := by
    have hrun := receive_datagram x tr.id_lt i hbody
    unfold handle at hrun
    rw [if_neg (by have := hseq; unfold Transmission.chunkDatagram at this; omega)] at hrun
    exact hrun
  rw [hhandle] at hrun
  cases hd : (x.fill (tr.chunkDatagram i)).handleData with
  | error e =>
      rw [hd] at hrun
      cases hrun
  | ok z =>
      rw [hd] at hrun
      cases hrun
      obtain ⟨hrec', hfin, htrans⟩ := hrec.data hi hholds hd
      exact ⟨y, by rw [hhandle, hd]; rfl, hrec', hfin, htrans, hset⟩

/-- `PDP_UDP_DONE`, with the flags in step. -/
theorem receive_done (hx : Receiving tr x) (hflags : x.xReceiveFinished = x.xPacketTransferred) :
    ∃ y, x.pdpUdpReceiverReceive (.datagram tr.doneDatagram) =
      .ok (if missingFrom 0 x.xChunkList = [] ∧ x.xPacketTransferred = false then 1 else 0,
        [datagram tr.connectionId pdpUdpResend
          (((missingFrom 0 x.xChunkList).take resendMaxChunks).reverse.flatMap le32)], y) ∧
    Receiving tr y ∧ y.xChunkList = x.xChunkList ∧
    y.xReceiveFinished = y.xPacketTransferred ∧
    y.xPacketTransferred = (x.xPacketTransferred || decide (missingFrom 0 x.xChunkList = [])) := by
  have hnil : ([] : List UInt8).length ≤ pdpUdpBufsize := Nat.zero_le _
  have hheader := (holds_fill x tr.id_lt pdpUdpDone hnil).header
  have hsame := same_fill x (datagram tr.connectionId pdpUdpDone [])
  have hfinished : (x.fill (datagram tr.connectionId pdpUdpDone [])).xReceiveFinished =
      x.xReceiveFinished := rfl
  have htransferred : (x.fill (datagram tr.connectionId pdpUdpDone [])).xPacketTransferred =
      x.xPacketTransferred := rfl
  unfold Transmission.doneDatagram
  rw [receive_datagram x tr.id_lt pdpUdpDone hnil]
  generalize x.fill (datagram tr.connectionId pdpUdpDone []) = x₁
    at hheader hsame hfinished htransferred ⊢
  have hdone : toInt32 (ofInt32 pdpUdpDone) = pdpUdpDone := toInt32_ofInt32 (by decide) (by decide)
  have htake : (missingFrom 0 x.xChunkList).take resendMaxChunks = [] ↔
      missingFrom 0 x.xChunkList = [] := by
    refine ⟨fun h => (List.take_eq_nil_iff.mp h).resolve_left (by decide), fun h => ?_⟩
    rw [h, List.take_nil]
  have hx₁ := hx.same hsame
  have hid : ¬ x₁.xConnectionId ≠ x₁.xHeader.connectionId := by
    rw [hheader, hx₁.id]
    exact not_not_intro rfl
  have hanswer : x₁.handleDone = ([datagram tr.connectionId pdpUdpResend
      (((missingFrom 0 x.xChunkList).take resendMaxChunks).reverse.flatMap le32)],
      if missingFrom 0 x.xChunkList = [] then { x₁ with xReceiveFinished := true } else x₁) := by
    unfold handleDone
    simp only [if_neg hid, hsame.chunkList, htake]
    rw [hx₁.id]
  unfold handle
  simp only [hheader, hdone, show pdpUdpDone < 0 by decide, show ¬ pdpUdpDone = pdpUdpNew by decide,
    if_true, if_false, hanswer]
  by_cases hm : missingFrom 0 x.xChunkList = []
  · simp only [if_pos hm, Bool.true_and]
    by_cases ht : x.xPacketTransferred = true
    · have hdelivered : ¬(!x₁.xPacketTransferred) = true := by
        rw [htransferred, ht]
        decide
      rw [if_neg hdelivered, if_neg (fun h => by rw [ht] at h; cases h.2), ht]
      exact ⟨_, rfl, hx₁.same ⟨rfl, rfl, rfl, rfl, rfl, rfl, rfl⟩, hsame.chunkList,
        (htransferred.trans ht).symm, htransferred.trans ht⟩
    · rw [Bool.not_eq_true] at ht
      have hnew : (!x₁.xPacketTransferred) = true := by
        rw [htransferred, ht]
        rfl
      have hfirst : missingFrom 0 x.xChunkList = [] ∧ x.xPacketTransferred = false := ⟨hm, ht⟩
      rw [if_pos hnew, if_pos hfirst, decide_eq_true hm, Bool.or_true]
      exact ⟨_, rfl, hx₁.same ⟨rfl, rfl, rfl, rfl, rfl, rfl, rfl⟩, hsame.chunkList, rfl, rfl⟩
  · have hbusy : ¬(x₁.xReceiveFinished && !x₁.xPacketTransferred) = true := by
      rw [hfinished, htransferred, hflags, Bool.and_not_self]
      decide
    simp only [if_neg hm]
    rw [if_neg hbusy, if_neg fun h => hm h.1, decide_eq_false hm, Bool.or_false]
    exact ⟨x₁, rfl, hx₁, hsame.chunkList, hfinished.trans (hflags.trans htransferred.symm),
      htransferred⟩

end Receive

/-! ## What the sender does -/

theorem receiveFilter_datagram {id : Nat} (hid : id < 2 ^ 32) {t : Int} (lo : -2 ^ 31 ≤ t)
    (hi : t < 2 ^ 31) {body : List UInt8} (hbody : udpHeaderSize + body.length ≤ maxUdpPacket) :
    receiveFilter id t (datagram id t body) = some (.got (words body)) := by
  have hsize := length_datagram id t body
  have htake : (datagram id t body).take maxUdpPacket = datagram id t body :=
    List.take_of_length_le (by omega)
  have hheader := readUdpHeader_datagram hid t body []
  have hdrop := drop_datagram id t body []
  rw [List.append_nil] at hheader hdrop
  rw [List.append_nil] at hdrop
  have his : isUdpHeader ⟨pdpSignature, pdpUdpVersion, id, ofInt32 t⟩
      (datagram id t body).length = true := isUdpHeader_datagram (by omega)
  simp only [receiveFilter, htake, hheader, hdrop, his, toInt32_ofInt32 lo hi, Bool.not_true,
    Bool.false_eq_true, if_false, ne_eq, not_true_eq_false]

namespace Link

variable {tr : Transmission} {s : Link} {done : List (List UInt8 × List UInt8)} {n : Nat}

/-- The receiver is at `tr`: it has handed over `done`, and `tr` if nothing is left to do. -/
structure Going (tr : Transmission) (done : List (List UInt8 × List UInt8)) (s : Link) : Prop where
  receiving : Receiving tr s.receiver
  flags : s.receiver.xReceiveFinished = s.receiver.xPacketTransferred
  handed : s.handed =
    done ++ if s.receiver.xPacketTransferred then [(tr.type, tr.data)] else []
  read : s.inbox = []

/-- What the handshake finds: an older transmission, or its own beginning. -/
structure Opening (tr : Transmission) (done : List (List UInt8 × List UInt8)) (s : Link) :
    Prop where
  begun : s.receiver.xConnectionId = tr.connectionId →
    Receiving tr s.receiver ∧ s.receiver.xReceiveFinished = false ∧
      s.receiver.xPacketTransferred = false
  handed : s.handed = done
  read : s.inbox = []

theorem exec_receivePacket {id : Nat} {t : Int} {reply : Reply} {rest : List Incoming}
    (h : receivePacket id t s.inbox = (reply, rest)) :
    exec (.receivePacket id t) s = .ok (reply, { s with inbox := rest }) := by
  rw [exec, h]

theorem Opening.handshake (hlen : newpacketSize + tr.type.length + 1 ≤ pdpUdpBufsize)
    (hdata : tr.data.length < 2 ^ 31) (hlist : 4 * tr.nbChunks < 2 ^ 31)
    (hs : Opening tr done s) (hn : s.budget < n) : ∃ s',
    (PureDataPacket.handshake tr n).run exec s = .ok (true, s') ∧ Going tr done s' ∧
      s'.budget ≤ s.budget := by
  induction n generalizing s with
  | zero => omega
  | succ n ih =>
      obtain ⟨next, hprog, hwait, hdone⟩ : ∃ next : Reply → SendProg Bool,
          PureDataPacket.handshake tr (n + 1) = .act (.send tr.newDatagram) (fun _ =>
            .act (.receivePacket tr.connectionId pdpUdpAcknew) next) ∧
          next .timeout = PureDataPacket.handshake tr n ∧
          ∀ chunks, next (.got chunks) = .done true := by
        rw [PureDataPacket.handshake, sendHeaderPacket, if_pos hlen]
        exact ⟨_, rfl, rfl, fun _ => rfl⟩
      obtain ⟨y, hreceive, hfresh, hagain⟩ := @receive_new tr s.receiver hlen hdata hlist
      have hbegun : Receiving tr y ∧ y.xReceiveFinished = false ∧ y.xPacketTransferred = false := by
        by_cases hid : s.receiver.xConnectionId = tr.connectionId
        · obtain ⟨hrec, hfin, htrans⟩ := hs.begun hid
          obtain ⟨hsame, hfin', htrans'⟩ := hagain hid
          exact ⟨hrec.same hsame, hfin'.trans hfin, htrans'.trans htrans⟩
        · exact hfresh hid
      obtain ⟨s', hexec, hsent⟩ := exec_send hreceive (Nat.le_refl 1)
      rw [hprog, Prog.run_act_ok hexec]
      cases hsent with
      | @lost losses hless =>
          have htimeout : receivePacket tr.connectionId pdpUdpAcknew s.inbox = (.timeout, []) := by
            rw [hs.read]
            rfl
          rw [Prog.run_act_ok (exec_receivePacket (s := { s with losses := losses }) htimeout), hwait]
          have hnext := @ih { s with losses := losses, inbox := [] } ⟨hs.begun, hs.handed, rfl⟩
            (show losses.count true < n by omega)
          obtain ⟨s', hrun, hgoing, hle⟩ := hnext
          exact ⟨s', hrun, hgoing, Nat.le_trans hle (Nat.le_of_lt hless)⟩
      | @answered losses hle =>
          have hack : receivePacket tr.connectionId pdpUdpAcknew
              (s.inbox ++ [datagram tr.connectionId pdpUdpAcknew []].map .datagram) =
                (.got (words []), []) := by
            rw [hs.read, List.nil_append, List.map_singleton, receivePacket,
              receiveFilter_datagram tr.id_lt (by decide) (by decide) (by decide)]
          rw [Prog.run_act_ok (exec_receivePacket (s := ⟨y, _, losses, _⟩) hack), hdone]
          refine ⟨⟨y, [], losses, s.handed⟩, rfl, ⟨hbegun.1, ?_, ?_, rfl⟩, hle⟩
          · exact hbegun.2.1.trans hbegun.2.2.symm
          · show s.handed = done ++ if y.xPacketTransferred then _ else _
            rw [hbegun.2.2, hs.handed]
            exact (List.append_nil done).symm
      | @unanswered losses hless =>
          have htimeout : receivePacket tr.connectionId pdpUdpAcknew s.inbox = (.timeout, []) := by
            rw [hs.read]
            rfl
          rw [Prog.run_act_ok (exec_receivePacket (s := ⟨y, s.inbox, losses, _⟩) htimeout), hwait]
          obtain ⟨s', hrun, hgoing, hle⟩ := @ih ⟨y, [], losses, s.handed⟩
            ⟨fun _ => hbegun, hs.handed, rfl⟩ (show losses.count true < n by omega)
          exact ⟨s', hrun, hgoing, Nat.le_trans hle (Nat.le_of_lt hless)⟩

/-- A round of chunks: those that do not arrive are among the ones that got lost. -/
theorem Going.sendChunks (hs : Going tr done s) {l : List Nat} (hl : ∀ i ∈ l, i < tr.nbChunks) :
    ∃ (s' : Link) (dropped : List Nat),
      (PureDataPacket.sendChunks tr l).run exec s = .ok ((), s') ∧ Going tr done s' ∧
      dropped.length + s'.budget ≤ s.budget ∧
      ∀ i, s'.receiver.xChunkList[i]? = some false →
        i ∈ dropped ∨ i ∉ l ∧ s.receiver.xChunkList[i]? = some false := by
  induction l generalizing s with
  | nil =>
      exact ⟨s, [], rfl, hs, Nat.le_of_eq (Nat.zero_add _), fun i hi => Or.inr ⟨List.not_mem_nil, hi⟩⟩
  | cons seq l ih =>
      have hseq := hl seq List.mem_cons_self
      have hrest : ∀ i ∈ l, i < tr.nbChunks := fun i hi => hl i (List.mem_cons_of_mem _ hi)
      obtain ⟨y, hreceive, hrec, hfin, htrans, hset⟩ := receive_chunk hs.receiving hseq
      obtain ⟨s', hexec, hsent⟩ := exec_send hreceive (Nat.zero_le 1)
      rw [sendChunks_cons hs.receiving.small hseq, Prog.run_act_ok hexec]
      -- A chunk that arrives is marked.
      have harrived : ∀ losses, losses.count true ≤ s.budget → ∃ (s' : Link) (dropped : List Nat),
          (PureDataPacket.sendChunks tr l).run exec ⟨y, s.inbox, losses, s.handed⟩ =
            .ok ((), s') ∧ Going tr done s' ∧ dropped.length + s'.budget ≤ s.budget ∧
          ∀ i, s'.receiver.xChunkList[i]? = some false →
            i ∈ dropped ∨ i ∉ seq :: l ∧ s.receiver.xChunkList[i]? = some false := by
        intro losses hle
        obtain ⟨s', dropped, hrun, hgoing, hbudget, hmissing⟩ := @ih ⟨y, s.inbox, losses, s.handed⟩
          ⟨hrec, hfin.trans (hs.flags.trans htrans.symm), hs.handed.trans (by rw [htrans]), hs.read⟩
          hrest
        refine ⟨s', dropped, hrun, hgoing, Nat.le_trans hbudget hle, fun i hi => ?_⟩
        rcases hmissing i hi with hdrop | ⟨hnot, hlist⟩
        · exact Or.inl hdrop
        · have hlist : y.xChunkList[i]? = some false := hlist
          rw [hset] at hlist
          by_cases hne : seq = i
          · subst hne
            rw [List.getElem?_set_self (by rw [hs.receiving.flags]; exact hseq)] at hlist
            cases hlist
          · rw [List.getElem?_set_ne hne] at hlist
            exact Or.inr ⟨List.not_mem_cons_of_ne_of_not_mem (Ne.symm hne) hnot, hlist⟩
      cases hsent with
      | @lost losses hless =>
          obtain ⟨s', dropped, hrun, hgoing, hbudget, hmissing⟩ :=
            @ih { s with losses := losses } ⟨hs.receiving, hs.flags, hs.handed, hs.read⟩ hrest
          have hbudget : dropped.length + s'.budget ≤ losses.count true := hbudget
          refine ⟨s', seq :: dropped, hrun, hgoing, ?_, fun i hi => ?_⟩
          · rw [List.length_cons]
            omega
          · rcases hmissing i hi with hdrop | ⟨hnot, hlist⟩
            · exact Or.inl (List.mem_cons_of_mem _ hdrop)
            · by_cases hne : i = seq
              · exact Or.inl (hne ▸ List.mem_cons_self)
              · exact Or.inr ⟨List.not_mem_cons_of_ne_of_not_mem hne hnot, hlist⟩
      | @answered losses hle =>
          rw [List.map_nil, List.append_nil]
          exact harrived losses hle
      | @unanswered losses hless => exact harrived losses (Nat.le_of_lt hless)

/-- What `PDP_UDP_DONE` leaves behind: a transmission that has all its chunks is handed over. -/
theorem Going.receiveDone (hs : Going tr done s) : ∃ r y,
    s.receiver.pdpUdpReceiverReceive (.datagram tr.doneDatagram) = .ok (r,
      [datagram tr.connectionId pdpUdpResend
        (((missingFrom 0 s.receiver.xChunkList).take resendMaxChunks).reverse.flatMap le32)], y) ∧
    y.xChunkList = s.receiver.xChunkList ∧
    (missingFrom 0 s.receiver.xChunkList = [] → y.xPacketTransferred = true) ∧
    ∀ losses, Going tr done
      ⟨y, [], losses, if r = 1 then s.handed ++ [(y.xDataType, y.xData)] else s.handed⟩ := by
  obtain ⟨y, hreceive, hrec, hlist, hflags, htrans⟩ := receive_done hs.receiving hs.flags
  refine ⟨_, y, hreceive, hlist, fun hm => ?_, fun losses => ⟨hrec, hflags, ?_, rfl⟩⟩
  · rw [htrans, decide_eq_true hm, Bool.or_true]
  · show (if _ = (1 : Int) then _ else _) = done ++ if y.xPacketTransferred then _ else _
    by_cases hnew : missingFrom 0 s.receiver.xChunkList = [] ∧ s.receiver.xPacketTransferred = false
    · have hcomplete : Complete tr y := hrec.complete (by rw [hlist, hnew.1, List.take_nil])
      rw [if_pos hnew, if_pos rfl, hs.handed, htrans, hnew.2, decide_eq_true hnew.1,
        hcomplete.type, hcomplete.data, if_neg (by decide), if_pos (by decide), List.append_nil]
    · have hkept : y.xPacketTransferred = s.receiver.xPacketTransferred := by
        rw [htrans]
        cases ht : s.receiver.xPacketTransferred with
        | true => rfl
        | false =>
            rw [ht] at hnew
            rw [decide_eq_false fun hm => hnew ⟨hm, rfl⟩]
            rfl
      rw [if_neg hnew, if_neg (by decide), hs.handed, hkept]

theorem Going.needResend (hs : Going tr done s) (hn : s.budget < n) : ∃ s',
    (PureDataPacket.needResend tr n).run exec s =
      .ok (((missingFrom 0 s.receiver.xChunkList).take resendMaxChunks).reverse, s') ∧
    Going tr done s' ∧ s'.receiver.xChunkList = s.receiver.xChunkList ∧ s'.budget ≤ s.budget ∧
    (missingFrom 0 s.receiver.xChunkList = [] → s'.receiver.xPacketTransferred = true) := by
  induction n generalizing s with
  | zero => omega
  | succ n ih =>
      obtain ⟨next, hprog, hwait, hdone⟩ : ∃ next : Reply → SendProg (List Nat),
          PureDataPacket.needResend tr (n + 1) = .act (.send tr.doneDatagram) (fun _ =>
            .act (.receivePacket tr.connectionId pdpUdpResend) next) ∧
          next .timeout = PureDataPacket.needResend tr n ∧
          ∀ chunks, next (.got chunks) = if chunks.length > tr.nbChunks then
            PureDataPacket.needResend tr n else .done chunks :=
        ⟨_, rfl, rfl, fun _ => rfl⟩
      obtain ⟨r, y, hreceive, hlist, htrans, hgoing⟩ := hs.receiveDone
      obtain ⟨s', hexec, hsent⟩ := exec_send hreceive (Nat.le_refl 1)
      have htimeout : receivePacket tr.connectionId pdpUdpResend s.inbox = (.timeout, []) := by
        rw [hs.read]
        rfl
      rw [hprog, Prog.run_act_ok hexec]
      cases hsent with
      | @lost losses hless =>
          rw [Prog.run_act_ok (exec_receivePacket (s := { s with losses := losses }) htimeout), hwait]
          obtain ⟨s', hrun, hs', hkept, hle, hall⟩ := @ih { s with losses := losses, inbox := [] }
            ⟨hs.receiving, hs.flags, hs.handed, rfl⟩ (show losses.count true < n by omega)
          exact ⟨s', hrun, hs', hkept, Nat.le_trans hle (Nat.le_of_lt hless), hall⟩
      | @answered losses hle =>
          have hmax : ((missingFrom 0 s.receiver.xChunkList).take resendMaxChunks).reverse.length ≤
              resendMaxChunks := by
            rw [List.length_reverse]
            exact List.length_take_le ..
          have hlt : ∀ i ∈ ((missingFrom 0 s.receiver.xChunkList).take resendMaxChunks).reverse,
              i < tr.nbChunks := fun i hi => hs.receiving.flags ▸ missing_lt hi
          have hfew : ((missingFrom 0 s.receiver.xChunkList).take resendMaxChunks).reverse.length ≤
              tr.nbChunks := by
            rw [List.length_reverse, ← hs.receiving.flags]
            refine Nat.le_trans (List.length_take_le' ..) ?_
            rw [length_missingFrom]
            exact List.count_le_length
          have hgot : receivePacket tr.connectionId pdpUdpResend (s.inbox ++
              [datagram tr.connectionId pdpUdpResend (((missingFrom 0 s.receiver.xChunkList).take
                resendMaxChunks).reverse.flatMap le32)].map .datagram) =
                (.got ((missingFrom 0 s.receiver.xChunkList).take resendMaxChunks).reverse, []) := by
            rw [hs.read, List.nil_append, List.map_singleton, receivePacket,
              receiveFilter_resend hlt hmax]
          rw [Prog.run_act_ok (exec_receivePacket (s := ⟨y, _, losses, _⟩) hgot), hdone,
            if_neg (Nat.not_lt_of_le hfew)]
          exact ⟨_, rfl, hgoing losses, hlist, hle, htrans⟩
      | @unanswered losses hless =>
          rw [Prog.run_act_ok (exec_receivePacket (s := ⟨y, s.inbox, losses, _⟩) htimeout), hwait]
          obtain ⟨s', hrun, hs', hkept, hle, hall⟩ := ih (hgoing losses)
            (show losses.count true < n by omega)
          have hkept : s'.receiver.xChunkList = y.xChunkList := hkept
          have hall : missingFrom 0 y.xChunkList = [] → _ := hall
          have hrun : (PureDataPacket.needResend tr n).run exec _ = .ok
            (((missingFrom 0 y.xChunkList).take resendMaxChunks).reverse, s') := hrun
          rw [hlist] at hkept hall hrun
          exact ⟨s', hrun, hs', hkept, Nat.le_trans hle (Nat.le_of_lt hless), hall⟩

/-- The rounds: the chunks that one leaves out have got lost in it, so there are few of them and
the next one sends them all. -/
theorem Going.transmit (hs : Going tr done s) {l : List Nat} (hl : ∀ i ∈ l, i < tr.nbChunks)
    (hall : ∀ i, s.receiver.xChunkList[i]? = some false → i ∈ l) (htwo : s.budget ≤ 2)
    (hn : s.budget < n) : ∃ s', (PureDataPacket.transmit tr n l).run exec s = .ok (1, s') ∧
      Going tr done s' ∧ missingFrom 0 s'.receiver.xChunkList = [] ∧
      s'.receiver.xPacketTransferred = true := by
  induction n generalizing s l with
  | zero => omega
  | succ n ih =>
      obtain ⟨s₁, dropped, hrun₁, hs₁, hbudget₁, hmissing⟩ := hs.sendChunks hl
      obtain ⟨s₂, hrun₂, hs₂, hlist₂, hbudget₂, htrans₂⟩ := hs₁.needResend
        (show s₁.budget < 3 by omega)
      have hdropped : missingFrom 0 s₁.receiver.xChunkList ⊆ dropped := by
        intro i hi
        have hlist := mem_missingFrom_zero.mp hi
        exact (hmissing i hlist).resolve_right fun h => h.1 (hall i h.2)
      have hfew : (missingFrom 0 s₁.receiver.xChunkList).length ≤ dropped.length :=
        (List.subperm_of_subset (missingFrom_nodup 0 _) hdropped).length_le
      have hshort : (missingFrom 0 s₁.receiver.xChunkList).length ≤ resendMaxChunks := by
        have hmax : resendMaxChunks = 364 := rfl
        omega
      rw [List.take_of_length_le hshort] at hrun₂
      have hprog : (PureDataPacket.transmit tr (n + 1) l).run exec s =
          Prog.run exec (if (missingFrom 0 s₁.receiver.xChunkList).reverse ≠ [] then
            PureDataPacket.transmit tr n (missingFrom 0 s₁.receiver.xChunkList).reverse
            else .done 1) s₂ :=
        (Prog.run_bind_ok hrun₁).trans (Prog.run_bind_ok hrun₂)
      rw [hprog]
      by_cases hm : missingFrom 0 s₁.receiver.xChunkList = []
      · rw [if_neg (by rw [hm]; exact not_not_intro rfl)]
        exact ⟨s₂, rfl, hs₂, by rw [hlist₂, hm], htrans₂ hm⟩
      · rw [if_pos (by rwa [ne_eq, List.reverse_eq_nil_iff])]
        have hlost : 0 < (missingFrom 0 s₁.receiver.xChunkList).length := List.length_pos_of_ne_nil hm
        refine ih hs₂ (fun i hi => ?_) (fun i hi => ?_) (by omega) (by omega)
        · have hlist := mem_missingFrom_zero.mp (List.mem_reverse.mp hi)
          exact hs₁.receiving.flags ▸ (List.getElem?_eq_some_iff.mp hlist).1
        · rw [hlist₂] at hi
          exact List.mem_reverse.mpr (mem_missingFrom_zero.mpr hi)

/-- A transmission that the sender can describe and the receiver has room for. -/
structure Fitting (tr : Transmission) : Prop where
  type : newpacketSize + tr.type.length + 1 ≤ pdpUdpBufsize
  data : tr.data.length < 2 ^ 31
  chunks : 4 * tr.nbChunks < 2 ^ 31

/-- One call of `pdp_udp_sender_send`. -/
theorem send_once {xSocket : Int} (hsocket : xSocket ≠ -1) (hfits : Fitting tr)
    (hs : s.receiver.xConnectionId ≠ tr.connectionId) (hread : s.inbox = [])
    (htwo : s.budget ≤ 2) : ∃ s',
    (pdpUdpSenderSend tr xSocket).run exec s = .ok (1, s') ∧ Complete tr s'.receiver ∧
      s'.handed = s.handed ++ [(tr.type, tr.data)] ∧ s'.inbox = [] := by
  have hopening : Opening tr s.handed s := ⟨fun h => absurd h hs, rfl, hread⟩
  obtain ⟨s₁, hrun₁, hs₁, hbudget₁⟩ := hopening.handshake (n := 5) hfits.type hfits.data
    hfits.chunks (by omega)
  obtain ⟨s₂, hrun₂, hs₂, hm, htrans⟩ := hs₁.transmit (n := 5) (l := List.range tr.nbChunks)
    (fun i hi => List.mem_range.mp hi) (fun i hi => by
      rw [List.mem_range, ← hs₁.receiving.flags]
      exact (List.getElem?_eq_some_iff.mp hi).1) (by omega) (by omega)
  refine ⟨s₂, ?_, hs₂.receiving.complete (by rw [hm, List.take_nil]), ?_, hs₂.read⟩
  · unfold pdpUdpSenderSend
    rw [if_neg hsocket]
    exact (Prog.run_bind_ok hrun₁).trans hrun₂
  · rw [hs₂.handed, htrans, if_pos rfl]

theorem sendAll_handed {xSocket : Int} (hsocket : xSocket ≠ -1)
    {l : List (Transmission × List Bool)}
    (hl : ∀ p ∈ l, Fitting p.1 ∧ p.2.count true ≤ 2) (hread : s.inbox = [])
    (hids : (s.receiver.xConnectionId :: l.map fun p => p.1.connectionId).IsChain (· ≠ ·)) :
    ∃ s', sendAll xSocket l s = .ok (List.replicate l.length 1, s') ∧
      s'.handed = s.handed ++ l.map fun p => (p.1.type, p.1.data) := by
  induction l generalizing s with
  | nil => exact ⟨s, rfl, (List.append_nil _).symm⟩
  | cons p l ih =>
      obtain ⟨tr, losses⟩ := p
      obtain ⟨hfits, htwo⟩ := hl _ List.mem_cons_self
      rw [List.map_cons, List.isChain_cons_cons] at hids
      obtain ⟨s₁, hrun, hcomplete, hhanded, hread₁⟩ :=
        send_once (s := { s with losses := losses }) hsocket hfits hids.1 hread htwo
      obtain ⟨s₂, hruns, hall⟩ := @ih s₁ (fun p hp => hl p (List.mem_cons_of_mem _ hp)) hread₁
        (hcomplete.id ▸ hids.2)
      refine ⟨s₂, ?_, ?_⟩
      · rw [sendAll, hrun]
        show (sendAll xSocket l s₁ >>= fun p => .ok (1 :: p.1, p.2)) = _
        rw [hruns]
        rfl
      · rw [hall, hhanded, List.append_assoc]
        rfl

end Link

open Link

/-- Whatever two datagrams of a transmission get lost, of the sender's or of the receiver's, and
whatever the receiver was doing before: every call of `pdp_udp_sender_send` returns 1, and the
receiver hands over each transmission once, whole and in order. -/
theorem survives_two_losses {xSocket : Int} (hsocket : xSocket ≠ -1) (x : Receiver)
    {l : List (Transmission × List Bool)} (hl : ∀ p ∈ l, Fitting p.1 ∧ p.2.count true ≤ 2)
    (hids : (x.xConnectionId :: l.map fun p => p.1.connectionId).IsChain (· ≠ ·)) :
    ∃ s', sendAll xSocket l ⟨x, [], [], []⟩ = .ok (List.replicate l.length 1, s') ∧
      s'.handed = l.map fun p => (p.1.type, p.1.data) :=
  sendAll_handed (s := ⟨x, [], [], []⟩) hsocket hl rfl hids

/-- The header and the chunk get lost. -/
theorem survives_two_losses_oneByte : ∃ s',
    sendAll 3 [(System.oneByte, [true, false, false, true])] ⟨.new, [], [], []⟩ = .ok ([1], s') ∧
      s'.handed = [([105], [42])] :=
  survives_two_losses (l := [(System.oneByte, [true, false, false, true])]) (by decide) .new
    (fun p hp => by
      obtain rfl := List.mem_singleton.mp hp
      exact ⟨⟨by decide, by decide, by decide⟩, by decide⟩)
    (List.isChain_cons_cons.mpr ⟨by decide, .singleton _⟩)

/-- When all three requests of a round get lost, the sender says 1 and nothing is handed over. -/
theorem not_survives_three_losses :
    (sendAll 3 [(System.oneByte, [false, false, false, true, true, true])]
      ⟨.new, [], [], []⟩).toOption.map (fun p => (p.1, p.2.handed)) = some ([1], []) := by
  decide +kernel

end PureDataPacket
