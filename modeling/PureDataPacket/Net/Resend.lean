/-
# `PureDataPacket.Net.Resend` — the request for missing chunks

`_handle_PDP_UDP_DONE` counts the chunks that are missing, cuts the number to
what fits into a datagram, and fills its list from the end: each round goes on
to the next chunk that is missing, with a loop that has no bound of its own.
It stays inside the chunk list because no more rounds are made than there are
chunks to find.

The sender takes the list over as it is and sends these chunks.  If all of them
arrive, in any order and however often, they are no longer missing and nothing
else changes.

| | |
| :-- | :-- |
| `LowestMissing` | what the list should have |
| `fillResend_eq` | what the loop fills it with |
| `handleDone_loops` | the loops do what `handleDone` says, and never read past the chunk list |
| `Expecting` | the receiver has made room |
| `Answered` | a request and its round |
-/
import PureDataPacket.Net.Confirmation
import Mathlib.Data.List.Nodup
import Mathlib.Data.List.Perm.Basic

namespace PureDataPacket

namespace Receiver

/-! ## The loops, as they are written -/

/-- The loop that counts what is missing, with `n` rounds to go.  `l` is
`x_chunk_list`. -/
def countMissing (l : List Bool) : Nat → Nat → Nat → Except Fault Nat
  | 0, _, missing => .ok missing
  | n + 1, i, missing =>
      match l[i]? with
      | none => .error .outOfBounds
      | some received => countMissing l n (i + 1) (if received then missing else missing + 1)

/-- `while (x->x_chunk_list[chunk]) chunk++`.  The list is what there is of
`x_chunk_list` from `chunk` on. -/
def nextMissing : List Bool → Nat → Except Fault Nat
  | [], _ => .error .outOfBounds
  | received :: rest, chunk => if received then nextMissing rest (chunk + 1) else .ok chunk

/-- The loop that fills `x_resend_chunks`, with `i` rounds to go. -/
def fillResend (l : List Bool) : Nat → Nat → List Nat → Except Fault (List Nat)
  | 0, _, resend => .ok resend
  | i + 1, chunk, resend => do
      let chunk ← nextMissing (l.drop chunk) chunk
      if i < resend.length then fillResend l i (chunk + 1) (resend.set i chunk)
      else .error .outOfBounds

/-- `_handle_PDP_UDP_DONE`, loop by loop.  `resend` is what `x_resend_chunks` has
from earlier requests. -/
def handleDoneLoops (x : Receiver) (resend : List Nat) :
    Except Fault (List Datagram × Receiver) :=
  if x.xConnectionId ≠ x.xHeader.connectionId then .ok ([], x)
  else do
    let missing ← countMissing x.xChunkList x.xNbChunks 0 0
    let missing := if missing > resendMaxChunks then resendMaxChunks else missing
    let resend ← fillResend x.xChunkList missing 0 resend
    let body := (resend.take missing).flatMap le32
    .ok ([datagram x.xConnectionId pdpUdpResend body],
      if missing = 0 then { x with xReceiveFinished := true } else x)

end Receiver

open Receiver

/-- The chunks `chunks` are missing in `l`, no chunk with a lower number is
missing that is not among them, and they are `max` or all. -/
structure LowestMissing (l : List Bool) (max : Nat) (chunks : List Nat) : Prop where
  missing : ∀ i ∈ chunks, l[i]? = some false
  lowest : ∀ i ∈ chunks, ∀ j, l[j]? = some false → j ∉ chunks → i < j
  nodup : chunks.Nodup
  length : chunks.length = min (l.count false) max

/-! ## What the loops compute -/

section Loops

variable {l : List Bool}

theorem length_missingFrom (k : Nat) (l : List Bool) :
    (missingFrom k l).length = l.count false := by
  induction l generalizing k with
  | nil => rfl
  | cons received l ih =>
      unfold missingFrom
      cases received with
      | true => rw [if_pos rfl, ih, List.count_cons_of_ne (by decide)]
      | false => rw [if_neg Bool.false_ne_true, List.length_cons, ih, List.count_cons_self]

theorem missingFrom_sorted (k : Nat) (l : List Bool) : (missingFrom k l).Pairwise (· < ·) := by
  induction l generalizing k with
  | nil => exact List.Pairwise.nil
  | cons received l ih =>
      unfold missingFrom
      split
      · exact ih (k + 1)
      · refine List.Pairwise.cons (fun i hi => ?_) (ih (k + 1))
        exact (mem_missingFrom.mp hi).1

theorem missingFrom_nodup (k : Nat) (l : List Bool) : (missingFrom k l).Nodup :=
  (missingFrom_sorted k l).imp fun h => Nat.ne_of_lt h

theorem mem_missingFrom_zero {i : Nat} : i ∈ missingFrom 0 l ↔ l[i]? = some false := by
  rw [mem_missingFrom, Nat.sub_zero]
  exact and_iff_right (Nat.zero_le i)

theorem countMissing_eq {n i : Nat} (hn : i + n = l.length) (missing : Nat) :
    countMissing l n i missing = .ok (missing + (l.drop i).count false) := by
  induction n generalizing i missing with
  | zero =>
      rw [List.drop_of_length_le (by omega)]
      rfl
  | succ n ih =>
      have hi : i < l.length := by omega
      unfold countMissing
      rw [List.getElem?_eq_getElem hi, List.drop_eq_getElem_cons hi]
      show countMissing l n (i + 1) _ = _
      rw [ih (by omega)]
      cases l[i] with
      | true => rw [if_pos rfl, List.count_cons_of_ne (by decide)]
      | false =>
          rw [if_neg Bool.false_ne_true, List.count_cons_self]
          congr 1
          omega

/-- As long as a chunk is missing the inner loop stops at it. -/
theorem nextMissing_eq {rest : List Bool} {chunk c : Nat} {m : List Nat}
    (hm : missingFrom chunk rest = c :: m) :
    nextMissing rest chunk = .ok c ∧ chunk ≤ c ∧
      m = missingFrom (c + 1) (rest.drop (c + 1 - chunk)) := by
  induction rest generalizing chunk with
  | nil => cases hm
  | cons received rest ih =>
      unfold missingFrom at hm
      unfold nextMissing
      cases received with
      | true =>
          rw [if_pos rfl] at hm ⊢
          obtain ⟨hnext, hle, hrest⟩ := ih hm
          refine ⟨hnext, by omega, ?_⟩
          rw [hrest, show c + 1 - chunk = (c + 1 - (chunk + 1)) + 1 by omega, List.drop_succ_cons]
      | false =>
          rw [if_neg Bool.false_ne_true] at hm ⊢
          cases hm
          refine ⟨rfl, Nat.le_refl _, ?_⟩
          rw [Nat.add_sub_cancel_left, List.drop_succ_cons, List.drop_zero]

/-- The list is filled from its end with the first chunks that are missing. -/
theorem fillResend_eq {i chunk : Nat} {resend : List Nat}
    (hi : i ≤ (missingFrom chunk (l.drop chunk)).length) (hlen : i ≤ resend.length) :
    fillResend l i chunk resend =
      .ok (((missingFrom chunk (l.drop chunk)).take i).reverse ++ resend.drop i) := by
  induction i generalizing chunk resend with
  | zero => rfl
  | succ i ih =>
      cases hm : missingFrom chunk (l.drop chunk) with
      | nil =>
          rw [hm] at hi
          exact absurd hi (Nat.not_succ_le_zero i)
      | cons c m =>
          obtain ⟨hnext, hle, hrest⟩ := nextMissing_eq hm
          rw [List.drop_drop, show chunk + (c + 1 - chunk) = c + 1 by omega] at hrest
          rw [hm, List.length_cons, hrest] at hi
          have hset : i ≤ (resend.set i c).length := by
            rw [List.length_set]
            omega
          have hdrop : (resend.set i c).drop i = c :: resend.drop (i + 1) := by
            rw [List.drop_eq_getElem_cons (by rw [List.length_set]; omega), List.getElem_set_self,
              List.drop_set_of_lt (Nat.lt_succ_self i)]
          unfold fillResend
          rw [hnext]
          show (if i < resend.length then _ else _) = _
          rw [if_pos (by omega), ih (by omega) hset, hdrop, ← hrest, List.take_succ_cons,
            List.reverse_cons, List.append_assoc]
          rfl

theorem handleDone_loops {x : Receiver} (hl : x.xChunkList.length = x.xNbChunks)
    {resend : List Nat} (hresend : resend.length = resendMaxChunks) :
    x.handleDoneLoops resend = .ok x.handleDone := by
  unfold handleDoneLoops handleDone
  split
  · rfl
  · have hcount := countMissing_eq (l := x.xChunkList) (n := x.xNbChunks) (i := 0) (by omega) 0
    rw [Nat.zero_add, List.drop_zero] at hcount
    have hmin : (if x.xChunkList.count false > resendMaxChunks then resendMaxChunks
        else x.xChunkList.count false) = min (x.xChunkList.count false) resendMaxChunks := by
      rw [Nat.min_def]
      split <;> split <;> omega
    have hlen := length_missingFrom 0 x.xChunkList
    have hrounds : min (x.xChunkList.count false) resendMaxChunks ≤
        (missingFrom 0 (x.xChunkList.drop 0)).length := by
      rw [List.drop_zero]
      omega
    have hroom : min (x.xChunkList.count false) resendMaxChunks ≤ resend.length := by omega
    have hfill := fillResend_eq hrounds hroom
    -- taking the smaller number is taking at most as many
    have htake : (missingFrom 0 x.xChunkList).take
        (min (x.xChunkList.count false) resendMaxChunks) =
        (missingFrom 0 x.xChunkList).take resendMaxChunks := by
      rw [← hlen, Nat.min_comm, ← List.take_take, List.take_length]
    rw [List.drop_zero, htake] at hfill
    have hbody : (((missingFrom 0 x.xChunkList).take resendMaxChunks).reverse ++
        resend.drop (min (x.xChunkList.count false) resendMaxChunks)).take
          (min (x.xChunkList.count false) resendMaxChunks) =
        ((missingFrom 0 x.xChunkList).take resendMaxChunks).reverse := by
      refine List.take_left' ?_
      rw [List.length_reverse, List.length_take, hlen, Nat.min_comm]
    have hnone : (min (x.xChunkList.count false) resendMaxChunks = 0) ↔
        (missingFrom 0 x.xChunkList).take resendMaxChunks = [] := by
      rw [← List.length_eq_zero_iff, List.length_take, hlen, Nat.min_comm]
    rw [hcount]
    show (do
      let r ← fillResend x.xChunkList (if _ then _ else _) 0 resend
      Except.ok _) = _
    rw [hmin, hfill]
    show Except.ok _ = Except.ok _
    rw [hbody]
    simp only [hnone]

theorem lowestMissing (l : List Bool) (max : Nat) :
    LowestMissing l max ((missingFrom 0 l).take max).reverse where
  missing i hi := mem_missingFrom_zero.mp (List.mem_of_mem_take (List.mem_reverse.mp hi))
  lowest i hi j hj hnot := by
    have hsorted := missingFrom_sorted 0 l
    have hmem := mem_missingFrom_zero.mpr hj
    rw [List.mem_reverse] at hi hnot
    rw [← List.take_append_drop max (missingFrom 0 l)] at hsorted hmem
    exact (List.pairwise_append.mp hsorted).2.2 i hi j ((List.mem_append.mp hmem).resolve_left hnot)
  nodup := List.nodup_reverse.mpr ((missingFrom_nodup 0 l).sublist (List.take_sublist _ _))
  length := by rw [List.length_reverse, List.length_take, length_missingFrom, Nat.min_comm]

end Loops

/-! ## One round without loss -/

/-- The receiver has made room for `tr`; any chunks may have come already. -/
structure Expecting (tr : Transmission) (x : Receiver) : Prop where
  id : x.xConnectionId = tr.connectionId
  nbChunks : x.xNbChunks = tr.nbChunks
  chunkSize : x.xChunkSize = tr.chunkSize
  length : x.xData.length = tr.data.length
  flags : x.xChunkList.length = tr.nbChunks
  small : tr.data.length < 2 ^ 31

/-- Datagrams that arrive, one after the other. -/
def receiveAll : Receiver → List Datagram → Except Fault Receiver
  | x, [] => .ok x
  | x, d :: l => do
      let (_, _, x) ← x.pdpUdpReceiverReceive (.datagram d)
      receiveAll x l

section Round

variable {tr : Transmission} {x y : Receiver}

theorem Expecting.same (hx : Expecting tr x) (h : SameReception x y) : Expecting tr y where
  id := h.id.trans hx.id
  nbChunks := h.nbChunks.trans hx.nbChunks
  chunkSize := h.chunkSize.trans hx.chunkSize
  length := h.data ▸ hx.length
  flags := h.chunkList ▸ hx.flags
  small := hx.small

theorem handleDone_same (h : x.xConnectionId = x.xHeader.connectionId) : ∃ y,
    x.handleDone = ([datagram x.xConnectionId pdpUdpResend
      (((missingFrom 0 x.xChunkList).take resendMaxChunks).reverse.flatMap le32)], y) ∧
    SameReception x y := by
  unfold handleDone
  rw [if_neg (not_not_intro h)]
  refine ⟨_, rfl, ?_⟩
  split <;> exact ⟨rfl, rfl, rfl, rfl, rfl, rfl, rfl⟩

/-- The answer to `PDP_UDP_DONE`, which keeps the chunks as they are. -/
theorem Expecting.receive_done (hx : Expecting tr x) : ∃ r y,
    x.pdpUdpReceiverReceive (.datagram tr.doneDatagram) = .ok (r, [datagram tr.connectionId
      pdpUdpResend (((missingFrom 0 x.xChunkList).take resendMaxChunks).reverse.flatMap le32)], y) ∧
    Expecting tr y ∧ y.xChunkList = x.xChunkList := by
  have hnil : ([] : List UInt8).length ≤ pdpUdpBufsize := Nat.zero_le _
  have hheader := (holds_fill x tr.id_lt pdpUdpDone hnil).header
  have hsame := same_fill x (datagram tr.connectionId pdpUdpDone [])
  unfold Transmission.doneDatagram
  rw [receive_datagram x tr.id_lt pdpUdpDone hnil]
  generalize x.fill (datagram tr.connectionId pdpUdpDone []) = x₁ at hheader hsame ⊢
  have hdone : toInt32 (ofInt32 pdpUdpDone) = pdpUdpDone := toInt32_ofInt32 (by decide) (by decide)
  have htype : toInt32 x₁.xHeader.sequenceNumber = pdpUdpDone := by rw [hheader, hdone]
  have hid : x₁.xConnectionId = x₁.xHeader.connectionId := by rw [hheader, hsame.id, hx.id]
  obtain ⟨y, hdone, hy⟩ := handleDone_same hid
  rw [hsame.chunkList, hsame.id, hx.id] at hdone
  have hkeep : Expecting tr y ∧ y.xChunkList = x.xChunkList :=
    ⟨(hx.same hsame).same hy, hy.chunkList.trans hsame.chunkList⟩
  unfold handle
  simp only [htype, show pdpUdpDone < 0 by decide, show ¬ pdpUdpDone = pdpUdpNew by decide,
    if_true, if_false, hdone]
  split
  · refine ⟨1, { y with xPacketTransferred := true }, rfl, ?_, hkeep.2⟩
    exact hkeep.1.same ⟨rfl, rfl, rfl, rfl, rfl, rfl, rfl⟩
  · exact ⟨0, y, rfl, hkeep⟩

theorem Expecting.receive_chunk (hx : Expecting tr x) {i : Nat} (hi : i < tr.nbChunks) :
    ∃ y, x.pdpUdpReceiverReceive (.datagram (tr.chunkDatagram i)) = .ok (0, [], y) ∧
      Expecting tr y ∧ y.xChunkList = x.xChunkList.set i true := by
  have hlt := tr.lt_nbChunks_iff.mp hi
  have hsmall : i < 2 ^ 31 := Nat.lt_trans (Nat.lt_of_lt_of_le hi tr.nbChunks_le) hx.small
  have hbody : (chunk tr.chunkSize i tr.data).length ≤ pdpUdpBufsize := by
    have := tr.chunk_le
    rw [length_chunk]
    omega
  have hholds := holds_fill x tr.id_lt i hbody
  have hsame := same_fill x (datagram tr.connectionId i (chunk tr.chunkSize i tr.data))
  unfold Transmission.chunkDatagram
  rw [receive_datagram x tr.id_lt i hbody]
  generalize x.fill (datagram tr.connectionId i (chunk tr.chunkSize i tr.data)) = x₁
    at hholds hsame ⊢
  have hx₁ := hx.same hsame
  have hconn : x₁.xHeader.connectionId = tr.connectionId := by rw [hholds.header]
  have hseq : x₁.xHeader.sequenceNumber = i := by
    rw [hholds.header]
    exact ofInt32_of_nat_lt (by omega)
  have hplace : u32 (x₁.xChunkSize * i) = tr.chunkSize * i := by
    rw [hx₁.chunkSize]
    exact u32_eq_self (Nat.lt_trans hlt tr.data_lt)
  have hbuf : x₁.xBuf.take x₁.xBufSize = chunk tr.chunkSize i tr.data := by
    obtain ⟨rest, hrest⟩ := hholds.buf
    rw [hrest, hholds.size, List.take_left]
  have hfits : tr.chunkSize * i + (chunk tr.chunkSize i tr.data).length ≤ x₁.xData.length := by
    rw [hx₁.length]
    exact chunk_fits hlt
  have hdata : x₁.handleData = .ok { x₁ with
      xData := blit x₁.xData (tr.chunkSize * i) (chunk tr.chunkSize i tr.data)
      xChunkList := x₁.xChunkList.set i true } := by
    have hid : ¬ (x₁.xConnectionId = 0 ∨ x₁.xConnectionId ≠ tr.connectionId) := by
      simp [hx₁.id, tr.id_ne_zero]
    have hbound : ¬ i ≥ x₁.xNbChunks := by
      rw [hx₁.nbChunks]
      omega
    unfold handleData
    simp only [hseq, hconn, hplace, hbuf]
    rw [if_neg hid, if_neg hbound, if_neg (by rw [hholds.size]; omega)]
  have hpos : ¬ toInt32 x₁.xHeader.sequenceNumber < 0 := by
    rw [hseq, toInt32_of_nat_lt hsmall]
    omega
  refine ⟨{ x₁ with
      xData := blit x₁.xData (tr.chunkSize * i) (chunk tr.chunkSize i tr.data)
      xChunkList := x₁.xChunkList.set i true }, ?_,
    ⟨hx₁.id, hx₁.nbChunks, hx₁.chunkSize, ?_, ?_, hx.small⟩, ?_⟩
  · unfold handle
    rw [if_neg hpos, hdata]
    rfl
  · exact (length_blit hfits).trans hx₁.length
  · exact List.length_set.trans hx₁.flags
  · show x₁.xChunkList.set i true = _
    rw [hsame.chunkList]

theorem Expecting.receiveAll (hx : Expecting tr x) {l : List Nat} (hl : ∀ i ∈ l, i < tr.nbChunks) :
    ∃ y, PureDataPacket.receiveAll x (l.map tr.chunkDatagram) = .ok y ∧ Expecting tr y ∧
      ∀ i, y.xChunkList[i]? = some false ↔ x.xChunkList[i]? = some false ∧ i ∉ l := by
  induction l generalizing x with
  | nil => exact ⟨x, rfl, hx, fun i => (and_iff_left List.not_mem_nil).symm⟩
  | cons j l ih =>
      obtain ⟨x₁, hrun, hx₁, hset⟩ := hx.receive_chunk (hl j List.mem_cons_self)
      obtain ⟨y, hrest, hy, hmissing⟩ := ih hx₁ fun i hi => hl i (List.mem_cons_of_mem _ hi)
      refine ⟨y, ?_, hy, fun i => ?_⟩
      · rw [List.map_cons, PureDataPacket.receiveAll, hrun]
        exact hrest
      · rw [hmissing, hset, List.mem_cons, not_or]
        by_cases hij : i = j
        · subst hij
          have hi : i < x.xChunkList.length := by
            rw [hx.flags]
            exact hl i List.mem_cons_self
          rw [List.getElem?_set_self hi]
          exact iff_of_false (fun h => by cases h.1) fun h => h.2.1 rfl
        · rw [List.getElem?_set_ne (Ne.symm hij)]
          constructor
          · exact fun ⟨h, hl⟩ => ⟨h, hij, hl⟩
          · exact fun ⟨h, _, hl⟩ => ⟨h, hl⟩

/-- The sender reads the list that the receiver has written. -/
theorem receiveFilter_resend {l : List Nat} (hl : ∀ i ∈ l, i < tr.nbChunks)
    (hmax : l.length ≤ resendMaxChunks) :
    receiveFilter tr.connectionId pdpUdpResend
      (datagram tr.connectionId pdpUdpResend (l.flatMap le32)) = some (.got l) := by
  have hbody := length_encode l
  have hsize := length_datagram tr.connectionId pdpUdpResend (l.flatMap le32)
  have htake : (datagram tr.connectionId pdpUdpResend (l.flatMap le32)).take maxUdpPacket =
      datagram tr.connectionId pdpUdpResend (l.flatMap le32) := by
    refine List.take_of_length_le ?_
    rw [hsize, hbody]
    simp only [maxUdpPacket, resendMaxChunks, udpHeaderSize] at hmax ⊢
    omega
  have hheader := readUdpHeader_datagram tr.id_lt pdpUdpResend (l.flatMap le32) []
  have hdrop := drop_datagram tr.connectionId pdpUdpResend (l.flatMap le32) []
  rw [List.append_nil] at hheader hdrop
  rw [List.append_nil] at hdrop
  have his : isUdpHeader ⟨pdpSignature, pdpUdpVersion, tr.connectionId, ofInt32 pdpUdpResend⟩
      (datagram tr.connectionId pdpUdpResend (l.flatMap le32)).length = true :=
    isUdpHeader_datagram (by rw [hsize]; omega)
  have htype : toInt32 (ofInt32 pdpUdpResend) = pdpUdpResend :=
    toInt32_ofInt32 (by decide) (by decide)
  have hwords : words (l.flatMap le32) = l := words_encode fun i hi =>
    Nat.lt_of_lt_of_le (hl i hi) (Nat.le_trans tr.nbChunks_le (Nat.le_of_lt tr.data_lt))
  simp only [receiveFilter, htake, hheader, hdrop, his, htype, hwords, Bool.not_true,
    Bool.false_eq_true, if_false, ne_eq, not_true_eq_false]

/-- `_need_resend` takes a list over that is not longer than the list of all
chunks. -/
theorem run_needResend {l : List Nat} {d : Datagram} {rest : List Incoming} {n : Nat}
    (hl : l.length ≤ tr.nbChunks)
    (hd : receiveFilter tr.connectionId pdpUdpResend d = some (.got l)) :
    (needResend tr (n + 1)).run SendOp.exec (.datagram d :: rest) = .ok (l, rest) := by
  have hreply : receivePacket tr.connectionId pdpUdpResend (.datagram d :: rest) =
      (.got l, rest) := by
    rw [receivePacket, hd]
  have hexec : SendOp.exec (SendOp.receivePacket tr.connectionId pdpUdpResend) (.datagram d :: rest) =
      .ok (Reply.got l, rest) := congrArg Except.ok hreply
  show Prog.run _ (.act (SendOp.receivePacket tr.connectionId pdpUdpResend) _) _ = _
  rw [Prog.run_act_ok hexec]
  show Prog.run _ (if l.length > tr.nbChunks then _ else _) _ = _
  rw [if_neg (Nat.not_lt_of_le hl)]
  rfl

/-- One turn of the loop of `_send_chunks`: the assertion holds. -/
theorem sendChunks_cons (hsmall : tr.data.length < 2 ^ 31) {seq : Nat} (hseq : seq < tr.nbChunks)
    (l : List Nat) : sendChunks tr (seq :: l) =
      .act (.send (tr.chunkDatagram seq)) fun _ => sendChunks tr l := by
  have hlt := tr.lt_nbChunks_iff.mp hseq
  have hle : tr.chunkSize ≤ 0xF000 := tr.chunk_le
  have hoff : u32 (seq * tr.chunkSize) = tr.chunkSize * seq := by
    rw [Nat.mul_comm]
    exact u32_eq_self (by omega)
  have hsize : tr.chunkSize * seq + currentChunkSize tr (tr.chunkSize * seq) ≤ tr.data.length ∧
      currentChunkSize tr (tr.chunkSize * seq) ≤ 0xF000 := by
    unfold currentChunkSize u32
    split <;> omega
  have hinside : ¬ (tr.data.length < u32 (seq * tr.chunkSize) +
      currentChunkSize tr (u32 (seq * tr.chunkSize)) ∨
      pdpUdpBufsize < currentChunkSize tr (u32 (seq * tr.chunkSize))) := by
    rw [hoff]
    exact not_or.mpr ⟨Nat.not_lt_of_le hsize.1, Nat.not_lt_of_le hsize.2⟩
  rw [sendChunks]
  show (if _ then _ else _) = _
  rw [if_neg hinside, sent_chunk hseq]
  rfl

/-- A round of `_send_chunks`. -/
theorem trace_sendChunks (hsmall : tr.data.length < 2 ^ 31) {l : List Nat}
    (hl : ∀ i ∈ l, i < tr.nbChunks) (s : List Incoming) :
    (sendChunks tr l).run SendOp.exec s = .ok ((), s) ∧
      (sendChunks tr l).trace SendOp.exec s =
        l.map fun i => ⟨.send (tr.chunkDatagram i), ()⟩ := by
  induction l with
  | nil => exact ⟨rfl, rfl⟩
  | cons seq l ih =>
      have hprog := sendChunks_cons hsmall (hl seq List.mem_cons_self) l
      obtain ⟨hrun, htrace⟩ := ih fun i hi => hl i (List.mem_cons_of_mem _ hi)
      have hexec : SendOp.exec (.send (tr.chunkDatagram seq)) s = .ok ((), s) := rfl
      rw [hprog, Prog.run_act_ok hexec, Prog.trace_act_ok hexec, htrace, hrun]
      exact ⟨rfl, rfl⟩

/-- As many chunks are no longer missing as were asked for. -/
theorem count_missing {l l' : List Bool} {chunks : List Nat} (hnd : chunks.Nodup)
    (hsub : ∀ i ∈ chunks, l[i]? = some false)
    (h : ∀ i, l'[i]? = some false ↔ l[i]? = some false ∧ i ∉ chunks) :
    l'.count false + chunks.length = l.count false := by
  have hperm : (missingFrom 0 l' ++ chunks).Perm (missingFrom 0 l) := by
    refine (List.perm_ext_iff_of_nodup ?_ (missingFrom_nodup 0 l)).mpr fun i => ?_
    · refine List.nodup_append.mpr ⟨missingFrom_nodup 0 l', hnd, fun i hi j hj he => ?_⟩
      exact ((h i).mp (mem_missingFrom_zero.mp hi)).2 (he ▸ hj)
    · rw [List.mem_append, mem_missingFrom_zero, mem_missingFrom_zero, h]
      by_cases hi : i ∈ chunks
      · exact ⟨fun _ => hsub i hi, fun _ => Or.inr hi⟩
      · exact ⟨fun hor => (hor.resolve_right hi).1, fun hm => Or.inl ⟨hm, hi⟩⟩
  rw [← length_missingFrom 0 l, ← length_missingFrom 0 l', ← List.length_append]
  exact hperm.length_eq

/-- A request and the round that answers it: `chunks` is what is sent in the
request, taken over by the sender, and sent by it. -/
structure Answered (tr : Transmission) (x y : Receiver) (d : Datagram) (chunks : List Nat) :
    Prop where
  request : d = datagram tr.connectionId pdpUdpResend (chunks.flatMap le32)
  adopted : ∀ n rest, (needResend tr (n + 1)).run SendOp.exec (.datagram d :: rest) =
    .ok (chunks, rest)
  sends : ∀ s, (sendChunks tr chunks).run SendOp.exec s = .ok ((), s) ∧
    (sendChunks tr chunks).trace SendOp.exec s =
      chunks.map fun i => ⟨.send (tr.chunkDatagram i), ()⟩
  arrives : ∀ l : List Nat, (∀ i, i ∈ l ↔ i ∈ chunks) →
    ∃ z, receiveAll y (l.map tr.chunkDatagram) = .ok z ∧
      (∀ i, z.xChunkList[i]? = some false ↔ x.xChunkList[i]? = some false ∧ i ∉ chunks) ∧
      z.xChunkList.count false + min (x.xChunkList.count false) resendMaxChunks =
        x.xChunkList.count false

theorem Expecting.answered (hx : Expecting tr x) : ∃ r y d chunks,
    x.pdpUdpReceiverReceive (.datagram tr.doneDatagram) = .ok (r, [d], y) ∧
    LowestMissing x.xChunkList resendMaxChunks chunks ∧ Answered tr x y d chunks := by
  obtain ⟨r, y, hrun, hy, hkeep⟩ := hx.receive_done
  have hlowest := lowestMissing x.xChunkList resendMaxChunks
  generalize ((missingFrom 0 x.xChunkList).take resendMaxChunks).reverse = chunks at hrun hlowest
  have hlt : ∀ i ∈ chunks, i < tr.nbChunks := fun i hi => by
    rw [← hx.flags]
    exact (List.getElem?_eq_some_iff.mp (hlowest.missing i hi)).1
  have hlen := hlowest.length
  have hall : x.xChunkList.count false ≤ x.xChunkList.length := List.count_le_length
  have hflags := hx.flags
  refine ⟨r, y, _, chunks, hrun, hlowest, rfl, fun n rest => ?_, fun s => ?_, fun l hl => ?_⟩
  · exact run_needResend (by omega) (receiveFilter_resend hlt (by omega))
  · exact trace_sendChunks hx.small hlt s
  · obtain ⟨z, hz, _, hmissing⟩ := hy.receiveAll (l := l) fun i hi => hlt i ((hl i).mp hi)
    have hafter : ∀ i, z.xChunkList[i]? = some false ↔
        x.xChunkList[i]? = some false ∧ i ∉ chunks := fun i => by rw [hmissing, hkeep, hl]
    have hcount := count_missing hlowest.nodup hlowest.missing hafter
    rw [hlen] at hcount
    exact ⟨z, hz, hafter, hcount⟩

end Round

/-- Whatever has been received, `_handle_PDP_UDP_DONE` stays inside the chunk list
and asks for the lowest chunks that are missing, as many as fit; and a round that
loses nothing takes exactly these off what is missing. -/
theorem resend_round :
    (∀ (x : Receiver) (resend : List Nat), x.xChunkList.length = x.xNbChunks →
      resend.length = resendMaxChunks → x.xConnectionId = x.xHeader.connectionId →
      ∃ chunks y, x.handleDoneLoops resend =
          .ok ([datagram x.xConnectionId pdpUdpResend (chunks.flatMap le32)], y) ∧
        LowestMissing x.xChunkList resendMaxChunks chunks) ∧
    (∀ (tr : Transmission) (x : Receiver), Expecting tr x → ∃ r y d chunks,
      x.pdpUdpReceiverReceive (.datagram tr.doneDatagram) = .ok (r, [d], y) ∧
      LowestMissing x.xChunkList resendMaxChunks chunks ∧ Answered tr x y d chunks) := by
  refine ⟨fun x resend hl hresend hid => ?_, fun tr x hx => hx.answered⟩
  obtain ⟨y, hdone, _⟩ := handleDone_same hid
  refine ⟨_, y, ?_, lowestMissing x.xChunkList resendMaxChunks⟩
  rw [handleDone_loops hl hresend, hdone]

end PureDataPacket
