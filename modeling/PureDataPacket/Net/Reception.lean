/-
# `PureDataPacket.Net.Reception` — what the receiver makes of a transmission

The receiver is given datagrams of several transmissions, in any order and with
repetitions.  `Receiving` is what holds while it has the id of one of them: its
sizes are those of the transmission, and every chunk that is marked agrees with
the data.  When no chunk is missing, the data is complete.

| | |
| :-- | :-- |
| `Receiving` | the receiver has begun to receive `tr` |
| `Complete` | what the receiver has is `tr`, all of it |
| `ReceiverOk` | what holds of every receiver |
| `Holds` | a datagram in the buffer: its header, and the body at the start of `x_buf` |
| `Received` | what one call of `pdp_udp_receiver_receive` achieves |
| `received_done` | the answer to `PDP_UDP_DONE` |
-/
import PureDataPacket.Net.Receiver

namespace PureDataPacket

open Receiver

/-! ## The invariant -/

/-- The receiver has begun to receive `tr`. -/
structure Receiving (tr : Transmission) (x : Receiver) : Prop where
  id : x.xConnectionId = tr.connectionId
  nbChunks : x.xNbChunks = tr.nbChunks
  chunkSize : x.xChunkSize = tr.chunkSize
  type : x.xDataType = tr.type
  size : x.xDataSize = tr.data.length
  length : x.xData.length = tr.data.length
  flags : x.xChunkList.length = tr.nbChunks
  small : tr.data.length < 2 ^ 31
  marked : ∀ i, x.xChunkList[i]? = some true → AgreesAt tr.chunkSize i x.xData tr.data

/-- What the receiver has is `tr`, all of it. -/
structure Complete (tr : Transmission) (x : Receiver) : Prop where
  id : x.xConnectionId = tr.connectionId
  type : x.xDataType = tr.type
  size : x.xDataSize = tr.data.length
  data : x.xData = tr.data

/-- The receiver has no transmission, or one of `history`, and a finished one
has been handed over. -/
structure ReceiverOk (history : List Transmission) (x : Receiver) : Prop where
  current : x.xConnectionId = 0 ∨ ∃ tr ∈ history, Receiving tr x
  finished : x.xReceiveFinished = true → x.xPacketTransferred = true

def DistinctIds (history : List Transmission) : Prop :=
  ∀ a ∈ history, ∀ b ∈ history, a.connectionId = b.connectionId → a = b

/-- An answer of the receiver: an acknowledgement, or chunk numbers that the
transmission has. -/
inductive ReplyTo (tr : Transmission) : Datagram → Prop
  | ack : ReplyTo tr (datagram tr.connectionId pdpUdpAcknew [])
  | resend {l : List Nat} (hl : ∀ i ∈ l, i < tr.nbChunks) (hmax : l.length ≤ resendMaxChunks) :
      ReplyTo tr (datagram tr.connectionId pdpUdpResend (l.flatMap le32))

/-- What one call of `pdp_udp_receiver_receive` achieves. -/
structure Received (history : List Transmission) (r : Int) (sent : List Datagram)
    (x : Receiver) : Prop where
  ok : ReceiverOk history x
  replies : ∀ d ∈ sent, ∃ tr ∈ history, ReplyTo tr d
  complete : r = 1 → ∃ tr ∈ history, Complete tr x

theorem ReceiverOk.receiving {history : List Transmission} {x : Receiver} {tr : Transmission}
    (hx : ReceiverOk history x) (hids : DistinctIds history) (htr : tr ∈ history)
    (hid : x.xConnectionId = tr.connectionId) : Receiving tr x := by
  rcases hx.current with h0 | ⟨tr', htr', hrec⟩
  · exact absurd (hid.symm.trans h0) tr.id_ne_zero
  · obtain rfl := hids tr' htr' tr htr (hrec.id.symm.trans hid)
    exact hrec

/-! ## Reading a datagram -/

/-- The parts of the receiver that tell what has been received. -/
structure SameReception (x y : Receiver) : Prop where
  id : y.xConnectionId = x.xConnectionId
  nbChunks : y.xNbChunks = x.xNbChunks
  chunkSize : y.xChunkSize = x.xChunkSize
  chunkList : y.xChunkList = x.xChunkList
  type : y.xDataType = x.xDataType
  size : y.xDataSize = x.xDataSize
  data : y.xData = x.xData

theorem Receiving.same {tr : Transmission} {x y : Receiver} (h : Receiving tr x)
    (hs : SameReception x y) : Receiving tr y where
  id := hs.id.trans h.id
  nbChunks := hs.nbChunks.trans h.nbChunks
  chunkSize := hs.chunkSize.trans h.chunkSize
  type := hs.type.trans h.type
  size := hs.size.trans h.size
  length := hs.data ▸ h.length
  flags := hs.chunkList ▸ h.flags
  small := h.small
  marked i hi := by
    rw [hs.chunkList] at hi
    rw [hs.data]
    exact h.marked i hi

theorem ReceiverOk.same {history : List Transmission} {x y : Receiver}
    (h : ReceiverOk history x) (hs : SameReception x y)
    (hf : y.xReceiveFinished = true → y.xPacketTransferred = true) : ReceiverOk history y where
  current := h.current.imp hs.id.trans
    fun ⟨tr, htr, hrec⟩ => ⟨tr, htr, hrec.same hs⟩
  finished := hf

/-- A datagram in the buffer: its header, and the body at the start of `x_buf`. -/
structure Holds (x : Receiver) (id : Nat) (seq : Int) (body : List UInt8) : Prop where
  header : x.xHeader = ⟨pdpSignature, pdpUdpVersion, id, ofInt32 seq⟩
  buf : ∃ rest, x.xBuf = body ++ rest
  size : x.xBufSize = body.length

theorem same_fill (x : Receiver) (d : Datagram) : SameReception x (x.fill d) :=
  ⟨rfl, rfl, rfl, rfl, rfl, rfl, rfl⟩

theorem holds_fill (x : Receiver) {id : Nat} (hid : id < 2 ^ 32) (seq : Int)
    {body : List UInt8} (hbody : body.length ≤ pdpUdpBufsize) :
    Holds (x.fill (datagram id seq body)) id seq body := by
  have hlen := length_datagram id seq body
  have htake : (datagram id seq body).take (udpHeaderSize + pdpUdpBufsize) =
      datagram id seq body := List.take_of_length_le (by omega)
  refine ⟨?_, ?_, ?_⟩
  · show readUdpHeader _ = _
    simp only [fill, htake]
    exact readUdpHeader_datagram hid seq body _
  · refine ⟨x.area.drop (datagram id seq body).length, ?_⟩
    show List.drop udpHeaderSize _ = _
    simp only [fill, htake]
    exact drop_datagram id seq body _
  · show u32 _ = _
    rw [htake, hlen]
    simp only [u32, udpHeaderSize, pdpUdpBufsize] at hbody ⊢
    omega

theorem toInt32_ofInt32 {s : Int} (lo : -2 ^ 31 ≤ s) (hi : s < 2 ^ 31) :
    toInt32 (ofInt32 s) = s := by
  have hcast : ((ofInt32 s : Nat) : Int) = s % 2 ^ 32 := by
    unfold ofInt32
    omega
  unfold toInt32
  rw [hcast, show (2 : Int) ^ 32 = ((2 ^ 32 : Nat) : Int) by rfl, Int.emod_bmod]
  apply Int.bmod_eq_of_le <;> omega

theorem receive_datagram (x : Receiver) {id : Nat} (hid : id < 2 ^ 32) (seq : Int)
    {body : List UInt8} (hbody : body.length ≤ pdpUdpBufsize) :
    x.pdpUdpReceiverReceive (.datagram (datagram id seq body)) =
      (x.fill (datagram id seq body)).handle := by
  have hlen := length_datagram id seq body
  have htake : (datagram id seq body).take (udpHeaderSize + pdpUdpBufsize) =
      datagram id seq body := List.take_of_length_le (by omega)
  have hheader : isUdpHeader ⟨pdpSignature, pdpUdpVersion, id, ofInt32 seq⟩
      (datagram id seq body).length = true := isUdpHeader_datagram (by omega)
  simp only [pdpUdpReceiverReceive, htake, (holds_fill x hid seq hbody).header, hheader, if_true]

/-! ## `PDP_UDP_NEW` -/

theorem allocCleared_ok {n : Nat} (h : allocCleared n = .ok ()) : n < 2 ^ 31 := by
  unfold allocCleared at h
  split at h
  · cases h
  · next hneg =>
      split at h
      · cases h
      · next hfull =>
          have hle : toInt32 n < 2 ^ 31 := by
            unfold toInt32
            exact Int.bmod_lt (by decide)
          omega

theorem takeWhile_type {type rest : List UInt8} (h : ∀ b ∈ type, b ≠ 0) :
    (type ++ 0 :: rest).takeWhile (· ≠ 0) = type := by
  induction type with
  | nil => simp
  | cons b type ih =>
      have hb : b ≠ 0 := h b List.mem_cons_self
      rw [List.cons_append, List.takeWhile_cons_of_pos (by simpa using hb),
        ih fun b' hb' => h b' (List.mem_cons_of_mem _ hb')]

section New

variable {tr : Transmission} {x y : Receiver}

/-- The body of `PDP_UDP_NEW`, read back. -/
theorem newBody_fields (tr : Transmission) (rest : List UInt8) :
    word (tr.newBody ++ rest) = tr.data.length ∧
      word ((tr.newBody ++ rest).drop 4) = tr.nbChunks ∧
      word ((tr.newBody ++ rest).drop 8) = tr.chunkSize ∧
      ((tr.newBody ++ rest).drop newpacketSize).takeWhile (· ≠ 0) = tr.type := by
  have hdata := tr.data_lt
  have hnb : tr.nbChunks < 2 ^ 32 := Nat.lt_of_le_of_lt tr.nbChunks_le hdata
  have hchunk : tr.chunkSize < 2 ^ 32 := Nat.lt_of_le_of_lt tr.chunk_le (by decide)
  refine ⟨word_le32 hdata _, word_le32 hnb _, word_le32 hchunk _, ?_⟩
  show List.takeWhile _ (tr.type ++ [0] ++ rest) = _
  rw [List.append_assoc]
  exact takeWhile_type tr.type_ne_zero

theorem receiving_prepare (hx : Holds x tr.connectionId pdpUdpNew tr.newBody)
    (h : x.prepare = .ok y) :
    Receiving tr y ∧ y.xReceiveFinished = false := by
  obtain ⟨rest, hbuf⟩ := hx.buf
  obtain ⟨hsize, hnb, hchunk, htype⟩ := newBody_fields tr rest
  simp only [prepare, hbuf, hsize, hnb, hchunk, htype, hx.header] at h
  cases hdata : allocCleared tr.data.length with
  | error e =>
      rw [hdata] at h
      cases h
  | ok _ =>
      cases hlist : allocCleared (4 * tr.nbChunks) with
      | error e =>
          rw [hdata, hlist] at h
          cases h
      | ok _ =>
          rw [hdata, hlist] at h
          cases h
          refine ⟨⟨rfl, rfl, rfl, rfl, rfl, List.length_replicate, List.length_replicate,
            allocCleared_ok hdata, fun i hi => ?_⟩, rfl⟩
          have hmem := List.mem_of_getElem? hi
          cases List.eq_of_mem_replicate hmem

/-- After `PDP_UDP_NEW` the receiver has begun to receive, or goes on with it. -/
theorem received_new {history : List Transmission} (htr : tr ∈ history) (hx : ReceiverOk history x)
    (hlen : newpacketSize + tr.type.length + 1 ≤ pdpUdpBufsize) {r : Int} {sent : List Datagram}
    (h : x.pdpUdpReceiverReceive (.datagram tr.newDatagram) = .ok (r, sent, y)) :
    Received history r sent y := by
  have hbody : tr.newBody.length ≤ pdpUdpBufsize := by
    simpa [Transmission.newBody, le32, newpacketSize, Nat.add_comm, Nat.add_left_comm] using hlen
  unfold Transmission.newDatagram at h
  rw [receive_datagram x tr.id_lt pdpUdpNew hbody] at h
  have hholds := holds_fill x tr.id_lt pdpUdpNew hbody
  have hsame := same_fill x (datagram tr.connectionId pdpUdpNew tr.newBody)
  have hf : (x.fill (datagram tr.connectionId pdpUdpNew tr.newBody)).xReceiveFinished = true →
      (x.fill (datagram tr.connectionId pdpUdpNew tr.newBody)).xPacketTransferred = true :=
    hx.finished
  generalize x.fill (datagram tr.connectionId pdpUdpNew tr.newBody) = x₁ at h hholds hsame hf
  have htype : toInt32 (ofInt32 pdpUdpNew) = pdpUdpNew := toInt32_ofInt32 (by decide) (by decide)
  unfold handle at h
  rw [hholds.header] at h
  simp only [htype, show pdpUdpNew < 0 by decide, if_true, handleNew, hholds.header] at h
  by_cases hid : x₁.xConnectionId = tr.connectionId
  · simp only [hid, ne_eq, not_true_eq_false, if_false] at h
    cases h
    refine ⟨hx.same hsame hf, fun d hd => ?_, fun h => by cases h⟩
    rw [List.mem_singleton.mp hd, hid]
    exact ⟨tr, htr, .ack⟩
  · simp only [hid, ne_eq, not_false_eq_true, if_true] at h
    cases hp : x₁.prepare with
    | error e =>
        rw [hp] at h
        cases h
    | ok x₂ =>
        rw [hp] at h
        cases h
        obtain ⟨hrec, hfin⟩ := receiving_prepare hholds hp
        refine ⟨⟨Or.inr ⟨tr, htr, hrec⟩, fun h => ?_⟩, fun d hd => ?_, fun h => by cases h⟩
        · rw [hfin] at h
          cases h
        · rw [List.mem_singleton.mp hd, hrec.id]
          exact ⟨tr, htr, .ack⟩

end New

/-! ## `PDP_UDP_DONE` -/

theorem mem_missingFrom {k i : Nat} {l : List Bool} :
    i ∈ missingFrom k l ↔ k ≤ i ∧ l[i - k]? = some false := by
  induction l generalizing k with
  | nil => simp [missingFrom]
  | cons b l ih =>
      have hnext : k < i → i - k = (i - (k + 1)) + 1 := by omega
      unfold missingFrom
      cases b with
      | true =>
          rw [if_pos rfl, ih]
          constructor
          · rintro ⟨hk, hl⟩
            exact ⟨by omega, by rwa [hnext hk, List.getElem?_cons_succ]⟩
          · rintro ⟨hk, hl⟩
            rcases Nat.eq_or_lt_of_le hk with rfl | hk
            · rw [Nat.sub_self] at hl
              cases hl
            · rw [hnext hk, List.getElem?_cons_succ] at hl
              exact ⟨hk, hl⟩
      | false =>
          rw [if_neg Bool.false_ne_true, List.mem_cons, ih]
          constructor
          · rintro (rfl | ⟨hk, hl⟩)
            · exact ⟨Nat.le_refl _, by rw [Nat.sub_self]; rfl⟩
            · exact ⟨by omega, by rwa [hnext hk, List.getElem?_cons_succ]⟩
          · rintro ⟨hk, hl⟩
            rcases Nat.eq_or_lt_of_le hk with rfl | hk
            · exact Or.inl rfl
            · rw [hnext hk, List.getElem?_cons_succ] at hl
              exact Or.inr ⟨hk, hl⟩

theorem missing_lt {l : List Bool} {i : Nat}
    (h : i ∈ ((missingFrom 0 l).take resendMaxChunks).reverse) : i < l.length := by
  rw [List.mem_reverse] at h
  obtain ⟨_, hl⟩ := mem_missingFrom.mp (List.mem_of_mem_take h)
  exact (List.getElem?_eq_some_iff.mp hl).1

theorem all_marked {l : List Bool} (h : (missingFrom 0 l).take resendMaxChunks = []) {i : Nat}
    (hi : i < l.length) : l[i]? = some true := by
  have hnone : missingFrom 0 l = [] := by
    rcases List.take_eq_nil_iff.mp h with h | h
    · cases h
    · exact h
  rw [List.getElem?_eq_getElem hi]
  cases hb : l[i] with
  | true => rfl
  | false =>
      have hmem : i ∈ missingFrom 0 l :=
        mem_missingFrom.mpr ⟨Nat.zero_le _, by rw [Nat.sub_zero, List.getElem?_eq_getElem hi, hb]⟩
      rw [hnone] at hmem
      cases hmem

theorem Receiving.complete {tr : Transmission} {x : Receiver} (hx : Receiving tr x)
    (h : (missingFrom 0 x.xChunkList).take resendMaxChunks = []) : Complete tr x where
  id := hx.id
  type := hx.type
  size := hx.size
  data := by
    refine eq_of_agreesAt tr.chunk_pos hx.length tr.length_le fun i hi => ?_
    exact hx.marked i (all_marked h (hx.flags ▸ hi))

section Handle

variable {history : List Transmission} {tr : Transmission} {x y : Receiver} {r : Int}
  {sent : List Datagram}

/-- The answer to `PDP_UDP_DONE`. -/
theorem handleDone_spec (hids : DistinctIds history) (htr : tr ∈ history)
    (hx : ReceiverOk history x) (hconn : x.xHeader.connectionId = tr.connectionId) :
    SameReception x x.handleDone.2 ∧
      x.handleDone.2.xPacketTransferred = x.xPacketTransferred ∧
      (∀ d ∈ x.handleDone.1, ∃ tr ∈ history, ReplyTo tr d) ∧
      (x.handleDone.2.xReceiveFinished = true → x.xPacketTransferred = true ∨ Complete tr x) := by
  by_cases hid : x.xConnectionId = tr.connectionId
  · have hrec := hx.receiving hids htr hid
    have hdone : x.handleDone = ([datagram x.xConnectionId pdpUdpResend
          (((missingFrom 0 x.xChunkList).take resendMaxChunks).reverse.flatMap le32)],
        if (missingFrom 0 x.xChunkList).take resendMaxChunks = [] then
          { x with xReceiveFinished := true } else x) := by
      unfold handleDone
      rw [if_neg (by rw [hconn]; exact not_not_intro hid)]
    have hreply : ∀ d ∈ x.handleDone.1, ∃ tr ∈ history, ReplyTo tr d := by
      intro d hd
      rw [hdone] at hd
      rw [List.mem_singleton.mp hd, hid]
      refine ⟨tr, htr, .resend (fun i hi => ?_) ?_⟩
      · exact hrec.flags ▸ missing_lt hi
      · rw [List.length_reverse]
        exact List.length_take_le ..
    rw [hdone] at hreply ⊢
    by_cases hm : (missingFrom 0 x.xChunkList).take resendMaxChunks = []
    · simp only [hm, if_true] at hreply ⊢
      exact ⟨⟨rfl, rfl, rfl, rfl, rfl, rfl, rfl⟩, trivial, hreply, fun _ => Or.inr (hrec.complete hm)⟩
    · simp only [hm, if_false] at hreply ⊢
      exact ⟨⟨rfl, rfl, rfl, rfl, rfl, rfl, rfl⟩, trivial, hreply, fun h => Or.inl (hx.finished h)⟩
  · have hdone : x.handleDone = ([], x) := by
      unfold handleDone
      rw [if_pos (by rw [hconn]; exact hid)]
    rw [hdone]
    exact ⟨⟨rfl, rfl, rfl, rfl, rfl, rfl, rfl⟩, rfl, fun d hd => absurd hd List.not_mem_nil,
      fun h => Or.inl (hx.finished h)⟩

theorem received_handle_done (hids : DistinctIds history) (htr : tr ∈ history)
    (hx : ReceiverOk history x) (hconn : x.xHeader.connectionId = tr.connectionId)
    (htype : toInt32 x.xHeader.sequenceNumber = pdpUdpDone)
    (h : x.handle = .ok (r, sent, y)) : Received history r sent y := by
  obtain ⟨hsame, htrans, hreply, hfin⟩ := handleDone_spec hids htr hx hconn
  unfold handle at h
  simp only [htype, show pdpUdpDone < 0 by decide, show ¬ pdpUdpDone = pdpUdpNew by decide,
    if_true, if_false] at h
  split at h
  · next hdone =>
      simp only [Bool.and_eq_true, Bool.not_eq_true', htrans] at hdone
      have hcomplete : Complete tr x := (hfin hdone.1).resolve_left (by simp [hdone.2])
      cases h
      refine ⟨hx.same ⟨hsame.id, hsame.nbChunks, hsame.chunkSize, hsame.chunkList, hsame.type,
        hsame.size, hsame.data⟩ fun _ => rfl, hreply, fun _ => ⟨tr, htr, ?_⟩⟩
      exact ⟨hsame.id.trans hcomplete.id, hsame.type.trans hcomplete.type,
        hsame.size.trans hcomplete.size, hsame.data.trans hcomplete.data⟩
  · next hdone =>
      cases h
      refine ⟨hx.same hsame fun hf => ?_, hreply, fun h => by cases h⟩
      cases ht : x.handleDone.2.xPacketTransferred with
      | true => rfl
      | false => exact absurd (by rw [hf, ht]; rfl) hdone

theorem received_handle_unknown (hx : ReceiverOk history x)
    (hneg : toInt32 x.xHeader.sequenceNumber < 0)
    (hnew : toInt32 x.xHeader.sequenceNumber ≠ pdpUdpNew)
    (hdone : toInt32 x.xHeader.sequenceNumber ≠ pdpUdpDone)
    (h : x.handle = .ok (r, sent, y)) : Received history r sent y := by
  unfold handle at h
  simp only [hneg, hnew, hdone, if_true, if_false] at h
  cases h
  exact ⟨hx, fun d hd => absurd hd List.not_mem_nil, fun h => by cases h⟩

/-! ## Data -/

theorem Receiving.data {i : Nat} (hx : Receiving tr x) (hi : i < tr.nbChunks)
    (hholds : Holds x tr.connectionId i (chunk tr.chunkSize i tr.data))
    (h : x.handleData = .ok y) :
    Receiving tr y ∧ y.xReceiveFinished = x.xReceiveFinished ∧
      y.xPacketTransferred = x.xPacketTransferred := by
  have hlt := tr.lt_nbChunks_iff.mp hi
  have hseq : ofInt32 (i : Int) = i :=
    ofInt32_of_nat_lt (Nat.lt_of_lt_of_le hi (Nat.le_trans tr.nbChunks_le (Nat.le_of_lt tr.data_lt)))
  have hoff : u32 (tr.chunkSize * i) = tr.chunkSize * i :=
    u32_eq_self (Nat.lt_trans hlt tr.data_lt)
  obtain ⟨rest, hbuf⟩ := hholds.buf
  have hbody : x.xBuf.take x.xBufSize = chunk tr.chunkSize i tr.data := by
    rw [hbuf, hholds.size, List.take_left]
  have hfits : tr.chunkSize * i + (chunk tr.chunkSize i tr.data).length ≤ x.xData.length := by
    rw [hx.length]
    exact chunk_fits hlt
  have hnumber : x.xHeader.sequenceNumber = i := by rw [hholds.header, hseq]
  have hconn : x.xHeader.connectionId = tr.connectionId := by rw [hholds.header]
  have hplace : u32 (x.xChunkSize * i) = tr.chunkSize * i := by rw [hx.chunkSize, hoff]
  have heq : x.handleData = .ok { x with
      xData := blit x.xData (tr.chunkSize * i) (chunk tr.chunkSize i tr.data)
      xChunkList := x.xChunkList.set i true } := by
    have hid : ¬ (x.xConnectionId = 0 ∨ x.xConnectionId ≠ tr.connectionId) := by
      simp [hx.id, tr.id_ne_zero]
    have hbound : ¬ i ≥ x.xNbChunks := by
      rw [hx.nbChunks]
      omega
    unfold handleData
    simp only [hnumber, hconn, hplace, hbody]
    rw [if_neg hid, if_neg hbound, if_neg (by rw [hholds.size]; omega)]
  rw [heq] at h
  cases h
  refine ⟨⟨hx.id, hx.nbChunks, hx.chunkSize, hx.type, hx.size, ?_, ?_, hx.small, ?_⟩, rfl, rfl⟩
  · exact (length_blit hfits).trans hx.length
  · exact List.length_set.trans hx.flags
  · intro k hk
    by_cases hki : i = k
    · subst hki
      exact agreesAt_blit_self hx.length hlt
    · rw [List.getElem?_set_ne hki] at hk
      exact agreesAt_blit_other hx.length hlt hki (hx.marked k hk)

/-- Data of a transmission that the receiver does not have is ignored. -/
theorem handleData_other (hid : x.xConnectionId ≠ x.xHeader.connectionId) :
    x.handleData = .ok x := by
  unfold handleData
  rw [if_pos (Or.inr hid)]

theorem received_chunk (hids : DistinctIds history) (htr : tr ∈ history)
    (hx : ReceiverOk history x) {i : Nat} (hi : i < tr.nbChunks)
    (h : x.pdpUdpReceiverReceive (.datagram (tr.chunkDatagram i)) = .ok (r, sent, y)) :
    Received history r sent y := by
  have hbody : (chunk tr.chunkSize i tr.data).length ≤ pdpUdpBufsize := by
    have := tr.chunk_le
    rw [length_chunk]
    omega
  have hi32 : i < 2 ^ 32 - 1 := by
    have := tr.nbChunks_le
    have := tr.data_lt
    omega
  unfold Transmission.chunkDatagram at h
  rw [receive_datagram x tr.id_lt i hbody] at h
  have hholds := holds_fill x tr.id_lt i hbody
  have hsame := same_fill x (datagram tr.connectionId i (chunk tr.chunkSize i tr.data))
  have hf : (x.fill (datagram tr.connectionId i
      (chunk tr.chunkSize i tr.data))).xReceiveFinished = true →
    (x.fill (datagram tr.connectionId i
      (chunk tr.chunkSize i tr.data))).xPacketTransferred = true := hx.finished
  generalize x.fill (datagram tr.connectionId i (chunk tr.chunkSize i tr.data)) = x₁
    at h hholds hsame hf
  have hx₁ := hx.same hsame hf
  have hconn : x₁.xHeader.connectionId = tr.connectionId := by rw [hholds.header]
  have hseq : x₁.xHeader.sequenceNumber = i := by
    rw [hholds.header]
    exact ofInt32_of_nat_lt (by omega)
  rcases Nat.lt_or_ge i (2 ^ 31) with hsmall | hlarge
  · have hpos : ¬ toInt32 x₁.xHeader.sequenceNumber < 0 := by
      rw [hseq, toInt32_of_nat_lt hsmall]
      omega
    unfold handle at h
    simp only [hpos, if_false] at h
    have hnone : ∀ d ∈ ([] : List Datagram), ∃ tr ∈ history, ReplyTo tr d :=
      fun d hd => absurd hd List.not_mem_nil
    by_cases hid : x₁.xConnectionId = tr.connectionId
    · cases hd : x₁.handleData with
      | error e =>
          rw [hd] at h
          cases h
      | ok x₂ =>
          rw [hd] at h
          cases h
          obtain ⟨hrec, hfin, htrans⟩ := (hx₁.receiving hids htr hid).data hi hholds hd
          refine ⟨⟨Or.inr ⟨tr, htr, hrec⟩, fun hf => ?_⟩, hnone, fun h => by cases h⟩
          rw [htrans]
          exact hx₁.finished (hfin ▸ hf)
    · rw [handleData_other (by rwa [hconn])] at h
      cases h
      exact ⟨hx₁, hnone, fun h => by cases h⟩
  · -- the chunk number looks like a control message, but the receiver cannot have
    -- begun to receive anything that large
    have hneg : toInt32 x₁.xHeader.sequenceNumber = (i : Int) - 2 ^ 32 := by
      rw [hseq]
      have := toInt32_ofInt32 (s := (i : Int) - 2 ^ 32) (by omega) (by omega)
      rwa [show ofInt32 ((i : Int) - 2 ^ 32) = i by unfold ofInt32; omega] at this
    have hnew : toInt32 x₁.xHeader.sequenceNumber ≠ pdpUdpNew := by
      rw [hneg]
      unfold pdpUdpNew
      omega
    by_cases hdone : toInt32 x₁.xHeader.sequenceNumber = pdpUdpDone
    · exact received_handle_done hids htr hx₁ hconn hdone h
    · exact received_handle_unknown hx₁ (by omega) hnew hdone h

/-- The answer to `PDP_UDP_DONE`, which is 1 if nothing is missing. -/
theorem received_done (hids : DistinctIds history) (htr : tr ∈ history)
    (hx : ReceiverOk history x)
    (h : x.pdpUdpReceiverReceive (.datagram tr.doneDatagram) = .ok (r, sent, y)) :
    Received history r sent y := by
  unfold Transmission.doneDatagram at h
  rw [receive_datagram x tr.id_lt pdpUdpDone (Nat.zero_le _)] at h
  have hnil : ([] : List UInt8).length ≤ pdpUdpBufsize := Nat.zero_le _
  have hheader := (holds_fill x tr.id_lt pdpUdpDone hnil).header
  have htype : toInt32 (ofInt32 pdpUdpDone) = pdpUdpDone := toInt32_ofInt32 (by decide) (by decide)
  refine received_handle_done hids htr (hx.same (same_fill x _) hx.finished) ?_ ?_ h
  · rw [hheader]
  · rw [hheader]
    exact htype

theorem received_emitted (hids : DistinctIds history) (htr : tr ∈ history)
    (hx : ReceiverOk history x) {d : Datagram} (hd : tr.Emitted d)
    (h : x.pdpUdpReceiverReceive (.datagram d) = .ok (r, sent, y)) : Received history r sent y := by
  cases hd with
  | new hlen => exact received_new htr hx hlen h
  | chunk hi => exact received_chunk hids htr hx hi h
  | done => exact received_done hids htr hx h

end Handle

end PureDataPacket
