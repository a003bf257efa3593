/-
# `PureDataPacket.Net.Reassembly` — where received chunks are written

A `PDP_UDP_NEW` sets the size of the data and of a chunk, a later datagram
brings the chunk number and the bytes, and the place of these bytes is computed
from all four, modulo `2 ^ 32`.  What the code calls its final check is an
assertion: by default it is not compiled at all, and where it is, it only stops
the program when `pdp_debug_sigtrap_on_assert` has been set.

A datagram stays inside the data when the announcement leaves room for its bytes
at the last chunk, or, for one that comes before the last, at the last but one.
The sums are those of unbounded arithmetic.

| | |
| :-- | :-- |
| `Reached` | the receivers that datagrams of any content can lead to |
| `Sized` | the data has the size that was announced |
| `Inside` | the place of a chunk, in unbounded arithmetic, is inside the data |
| `Room` | what an announcement has room for |
| `writtenInside_of_roomFor` | where there is room, the final check has nothing to find |
| `Reached.throughout` | the run lemma |
-/
import PureDataPacket.Net.Transfer

namespace PureDataPacket

/-- What `PDP_ASSERT` is: nothing, `pdp_assert_hook` that goes on after its
message, or `pdp_assert_hook` that sends `SIGTRAP`. -/
inductive AssertHook where
  | compiledOut
  | continuing
  | sigtrap
deriving DecidableEq

/-- Whether the program is still there after `PDP_ASSERT`. -/
def AssertHook.goesOn (hook : AssertHook) (test : Bool) : Bool :=
  match hook with
  | .compiledOut => true
  | .continuing => true
  | .sigtrap => test

/-- What `_handle_UDP_DATA` does with a chunk. -/
inductive DataAction where
  | ignored
  | stopped
  | write (offset size : Nat)
deriving DecidableEq

namespace Receiver

/-- The condition of the `PDP_ASSERT` in `_handle_UDP_DATA`, as it is computed. -/
def finalCheck (x : Receiver) : Bool :=
  decide (u32 (u32 (x.xChunkSize * x.xHeader.sequenceNumber) + x.xBufSize) ≤ x.xDataSize)

/-- `_handle_UDP_DATA` up to its `memcpy`. -/
def dataAction (hook : AssertHook) (x : Receiver) : DataAction :=
  let seq := x.xHeader.sequenceNumber
  let offset := u32 (x.xChunkSize * seq)
  if x.xConnectionId = 0 ∨ x.xConnectionId ≠ x.xHeader.connectionId then .ignored
  else if seq ≥ x.xNbChunks then .ignored
  else if hook.goesOn x.finalCheck then .write offset x.xBufSize
  else .stopped

/-- The receiver does what `dataAction` says, without assertions: a write that
leaves the data is the end of what can be told. -/
theorem handleData_eq (x : Receiver) : x.handleData =
    match x.dataAction .compiledOut with
    | .ignored => .ok x
    | .stopped => .ok x
    | .write offset size =>
        if offset + size > x.xData.length then .error .outOfBounds
        else .ok { x with
          xData := blit x.xData offset (x.xBuf.take size)
          xChunkList := x.xChunkList.set x.xHeader.sequenceNumber true } := by
  unfold handleData dataAction
  simp only [AssertHook.goesOn, if_true]
  split
  · rfl
  · split <;> rfl

/-- The receivers that datagrams of any content can lead to. -/
inductive Reached : Receiver → Prop
  | new : Reached Receiver.new
  | receive {x y : Receiver} {i : Incoming} {r : Int} {sent : List Datagram} (hx : Reached x)
      (h : x.pdpUdpReceiverReceive i = .ok (r, sent, y)) : Reached y
  | reset {x : Receiver} (hx : Reached x) : Reached x.reset

/-! ## The size of the data -/

/-- The data has the size that was announced, and what was announced has been allocated. -/
structure Sized (x : Receiver) : Prop where
  data : x.xData.length = x.xDataSize
  lt : x.xDataSize < 2 ^ 31
  chunks : x.xNbChunks < 2 ^ 29
  id : x.xConnectionId < 2 ^ 32

theorem Sized.of_same {x y : Receiver} (hx : x.Sized) (h : SameReception x y) : y.Sized where
  data := by rw [h.data, h.size, hx.data]
  lt := by rw [h.size]; exact hx.lt
  chunks := by rw [h.nbChunks]; exact hx.chunks
  id := by rw [h.id]; exact hx.id

theorem sized_prepare {x y : Receiver} (h : x.prepare = .ok y) : y.Sized := by
  unfold prepare at h
  cases hdata : allocCleared (word x.xBuf) with
  | error e =>
      simp only [hdata] at h
      cases h
  | ok u =>
      cases hlist : allocCleared (4 * word (x.xBuf.drop 4)) with
      | error e =>
          simp only [hdata, hlist] at h
          cases h
      | ok u' =>
          simp only [hdata, hlist] at h
          cases h
          have hflags := allocCleared_ok hlist
          exact ⟨List.length_replicate, allocCleared_ok hdata,
            show word (x.xBuf.drop 4) < 2 ^ 29 by omega, word_lt _⟩

theorem Sized.handleNew {x y : Receiver} {sent : List Datagram} (hx : x.Sized)
    (h : x.handleNew = .ok (sent, y)) : y.Sized := by
  unfold Receiver.handleNew at h
  split at h
  · cases hp : x.prepare with
    | error e =>
        rw [hp] at h
        cases h
    | ok z =>
        rw [hp] at h
        cases h
        exact sized_prepare hp
  · cases h
    exact hx

theorem Sized.handleDone {x : Receiver} (hx : x.Sized) : x.handleDone.2.Sized := by
  unfold Receiver.handleDone
  split
  · exact hx
  · dsimp only
    split
    · exact ⟨hx.data, hx.lt, hx.chunks, hx.id⟩
    · exact hx

theorem Sized.handleData {x y : Receiver} (hx : x.Sized) (h : x.handleData = .ok y) : y.Sized := by
  rw [handleData_eq] at h
  split at h
  · cases h
    exact hx
  · cases h
    exact hx
  · next offset size _ =>
      split at h
      · cases h
      · next hfits =>
          cases h
          refine ⟨?_, hx.lt, hx.chunks, hx.id⟩
          show (blit x.xData offset (x.xBuf.take size)).length = x.xDataSize
          have hle := List.length_take_le size x.xBuf
          rw [length_blit (by omega)]
          exact hx.data

theorem Sized.handle {x y : Receiver} {r : Int} {sent : List Datagram} (hx : x.Sized)
    (h : x.handle = .ok (r, sent, y)) : y.Sized := by
  unfold Receiver.handle at h
  dsimp only at h
  split at h
  · split at h
    · cases hn : x.handleNew with
      | error e =>
          rw [hn] at h
          cases h
      | ok o =>
          rw [hn] at h
          cases h
          exact hx.handleNew hn
    · split at h
      · have hdone := hx.handleDone
        split at h
        · cases h
          exact ⟨hdone.data, hdone.lt, hdone.chunks, hdone.id⟩
        · cases h
          exact hdone
      · cases h
        exact hx
  · cases hd : x.handleData with
    | error e =>
        rw [hd] at h
        cases h
    | ok z =>
        rw [hd] at h
        cases h
        exact hx.handleData hd

/-- A call of `pdp_udp_receiver_receive` keeps the data at its size. -/
theorem Sized.receive {x y : Receiver} {i : Incoming} {r : Int} {sent : List Datagram}
    (hx : x.Sized) (h : x.pdpUdpReceiverReceive i = .ok (r, sent, y)) : y.Sized := by
  cases i with
  | selectError | timeout | recvError =>
      cases h
      exact hx
  | datagram d =>
      have hfill : (x.fill d).Sized := hx.of_same (same_fill x d)
      unfold pdpUdpReceiverReceive at h
      dsimp only at h
      split at h
      · exact hfill.handle h
      · cases h
        exact hfill

theorem Reached.sized {x : Receiver} (hx : Reached x) : x.Sized := by
  induction hx with
  | new => exact ⟨rfl, by decide, by decide, by decide⟩
  | receive _ h ih => exact ih.receive h
  | reset _ ih => exact ⟨ih.data, ih.lt, ih.chunks, (by decide : 0 < 2 ^ 32)⟩

/-! ## Writes inside the data -/

/-- A datagram that `x` takes for a chunk is written to `size` bytes from
`offset` on. -/
structure Writes (hook : AssertHook) (x : Receiver) (d : Datagram) (offset size : Nat) : Prop where
  header : isUdpHeader (x.fill d).xHeader (d.take (udpHeaderSize + pdpUdpBufsize)).length = true
  chunk : 0 ≤ toInt32 (x.fill d).xHeader.sequenceNumber
  action : (x.fill d).dataAction hook = .write offset size

theorem Writes.offset_eq {hook : AssertHook} {x : Receiver} {d : Datagram} {offset size : Nat}
    (h : x.Writes hook d offset size) :
    offset = u32 (x.xChunkSize * (x.fill d).xHeader.sequenceNumber) := by
  have haction := h.action
  unfold dataAction at haction
  dsimp only at haction
  split at haction
  · cases haction
  · split at haction
    · cases haction
    · split at haction
      · cases haction
        rfl
      · cases haction

/-- The place of a chunk, in unbounded arithmetic, is inside the data. -/
def Inside (x : Receiver) : Prop :=
  x.xChunkSize * x.xHeader.sequenceNumber ≤ x.xDataSize ∧
    x.xChunkSize * x.xHeader.sequenceNumber + x.xBufSize ≤ x.xDataSize

/-- A datagram with a chunk of the current transmission, as `x` finds it. -/
structure Addressed (x : Receiver) (d : Datagram) : Prop where
  header : isUdpHeader (x.fill d).xHeader (d.take (udpHeaderSize + pdpUdpBufsize)).length = true
  chunk : 0 ≤ toInt32 (x.fill d).xHeader.sequenceNumber
  current : x.xConnectionId ≠ 0 ∧ x.xConnectionId = (x.fill d).xHeader.connectionId
  seq_lt : (x.fill d).xHeader.sequenceNumber < x.xNbChunks

theorem writes_iff (hook : AssertHook) {x : Receiver} {d : Datagram} :
    (∃ offset size, x.Writes hook d offset size) ↔
      x.Addressed d ∧ hook.goesOn (x.fill d).finalCheck = true := by
  constructor
  · rintro ⟨offset, size, hheader, hchunk, haction⟩
    unfold dataAction at haction
    dsimp only at haction
    split at haction
    · cases haction
    · next hid =>
        split at haction
        · cases haction
        · next hseq =>
            split at haction
            · next hgo =>
                obtain ⟨hne, heq⟩ := not_or.mp hid
                exact ⟨⟨hheader, hchunk, ⟨hne, not_not.mp heq⟩, Nat.lt_of_not_le hseq⟩, hgo⟩
            · cases haction
  · rintro ⟨h, hgo⟩
    refine ⟨u32 ((x.fill d).xChunkSize * (x.fill d).xHeader.sequenceNumber),
      (x.fill d).xBufSize, h.header, h.chunk, ?_⟩
    have hid : ¬((x.fill d).xConnectionId = 0 ∨
        (x.fill d).xConnectionId ≠ (x.fill d).xHeader.connectionId) :=
      not_or.mpr ⟨h.current.1, not_not.mpr h.current.2⟩
    have hseq : (x.fill d).xHeader.sequenceNumber < (x.fill d).xNbChunks := h.seq_lt
    unfold dataAction
    dsimp only
    rw [if_neg hid, if_neg (Nat.not_le_of_lt hseq), if_pos hgo]

/-- The announcement has room for `size` bytes at every chunk, or at every chunk
but the last and `seq` is not the last. -/
def Room (x : Receiver) (seq size : Nat) : Prop :=
  x.xChunkSize * (x.xNbChunks - 1) + size ≤ x.xDataSize ∨
    seq + 1 < x.xNbChunks ∧ x.xChunkSize * (x.xNbChunks - 2) + size ≤ x.xDataSize

/-- There is room for what comes. -/
def RoomFor (x : Receiver) : Incoming → Prop
  | .datagram d => x.Addressed d → x.Room (x.fill d).xHeader.sequenceNumber (x.fill d).xBufSize
  | .selectError => True
  | .timeout => True
  | .recvError => True

/-- What comes is written inside the data, if it is written. -/
def WrittenInside (hook : AssertHook) (x : Receiver) : Incoming → Prop
  | .datagram d => ∀ offset size, x.Writes hook d offset size →
      (x.fill d).Inside ∧ offset = (x.fill d).xChunkSize * (x.fill d).xHeader.sequenceNumber
  | .selectError => True
  | .timeout => True
  | .recvError => True

/-- `P` holds of every call of `pdp_udp_receiver_receive` in a sequence of calls. -/
def Throughout (P : Receiver → Incoming → Prop) : Receiver → List Call → Prop
  | _, [] => True
  | x, .reset :: calls => Throughout P x.reset calls
  | x, .receive i :: calls =>
      P x i ∧ ∀ r sent y, x.pdpUdpReceiverReceive i = .ok (r, sent, y) → Throughout P y calls

/-- The chunks below `k` that have `size` bytes have their place in the data if the
last of them has. -/
theorem place_le {chunkSize k seq size dataSize : Nat} (hseq : seq < k)
    (h : chunkSize * (k - 1) + size ≤ dataSize) : chunkSize * seq + size ≤ dataSize := by
  have hle : chunkSize * seq ≤ chunkSize * (k - 1) := Nat.mul_le_mul_left _ (by omega)
  omega

theorem Room.inside {x : Receiver} {d : Datagram} (hd : x.Addressed d)
    (h : x.Room (x.fill d).xHeader.sequenceNumber (x.fill d).xBufSize) : (x.fill d).Inside := by
  have hend : x.xChunkSize * (x.fill d).xHeader.sequenceNumber + (x.fill d).xBufSize ≤
      x.xDataSize := by
    rcases h with hlast | ⟨hseq, hother⟩
    · exact place_le hd.seq_lt hlast
    · refine place_le (k := x.xNbChunks - 1) (by omega) ?_
      rwa [Nat.sub_sub]
  exact ⟨Nat.le_trans (Nat.le_add_right _ _) hend, hend⟩

theorem writtenInside_of_roomFor {x : Receiver} (hx : x.Sized) (hook : AssertHook) {i : Incoming}
    (h : x.RoomFor i) : x.WrittenInside hook i := by
  cases i with
  | selectError | timeout | recvError => trivial
  | datagram d =>
      intro offset size hw
      have hinside := (h ((writes_iff hook).mp ⟨offset, size, hw⟩).1).inside
        ((writes_iff hook).mp ⟨offset, size, hw⟩).1
      refine ⟨hinside, ?_⟩
      have hlt : (x.fill d).xDataSize < 2 ^ 31 := hx.lt
      exact hw.offset_eq.trans
        (u32_eq_self (Nat.lt_trans (Nat.lt_of_le_of_lt hinside.1 hlt) (by decide)))

/-- From a receiver that datagrams have led to on: as long as there is room for what
comes, every chunk is written to its place, inside the data. -/
theorem Reached.throughout {x : Receiver} (hx : Reached x) (hook : AssertHook)
    (calls : List Call) (h : Throughout RoomFor x calls) :
    Throughout (WrittenInside hook) x calls := by
  induction calls generalizing x with
  | nil => trivial
  | cons call calls ih =>
      cases call with
      | reset => exact ih hx.reset h
      | receive i =>
          exact ⟨writtenInside_of_roomFor hx.sized hook h.1,
            fun r sent y hrun => ih (hx.receive hrun) (h.2 r sent y hrun)⟩

/-- From a new receiver on, with datagrams of any content: what is written is written
inside the data, as long as there is room for what comes. -/
theorem writes_inside (hook : AssertHook) (calls : List Call)
    (h : Throughout RoomFor Receiver.new calls) :
    Throughout (WrittenInside hook) Receiver.new calls := Reached.new.throughout hook calls h

/-- Without an assertion that stops the program no announcement is safe with less: all
datagrams with `size` bytes for the chunks below `k` are written inside only if the place
of the last of these chunks has room for them. -/
theorem Reached.room_of_inside {x : Receiver} (hx : Reached x) (hid : x.xConnectionId ≠ 0)
    {hook : AssertHook} (hhook : hook ≠ .sigtrap) {k size : Nat} (hpos : 0 < k)
    (hk : k ≤ x.xNbChunks) (hsize : size ≤ pdpUdpBufsize)
    (h : ∀ d, x.Addressed d → (x.fill d).xHeader.sequenceNumber < k →
      (x.fill d).xBufSize = size → x.WrittenInside hook (.datagram d)) :
    x.xChunkSize * (k - 1) + size ≤ x.xDataSize := by
  have hchunks := hx.sized.chunks
  have hbody : (List.replicate size (0 : UInt8)).length ≤ pdpUdpBufsize := by
    rwa [List.length_replicate]
  have hholds := holds_fill x hx.sized.id ((k - 1 : Nat) : Int) hbody
  have hlen := length_datagram x.xConnectionId ((k - 1 : Nat) : Int) (List.replicate size 0)
  have hseq : ofInt32 ((k - 1 : Nat) : Int) = k - 1 := ofInt32_of_nat_lt (by omega)
  generalize hd : datagram x.xConnectionId ((k - 1 : Nat) : Int) (List.replicate size 0) = d
    at hholds hlen
  have hnumber : (x.fill d).xHeader.sequenceNumber = k - 1 := by rw [hholds.header, hseq]
  have hbuf : (x.fill d).xBufSize = size := by rw [hholds.size, List.length_replicate]
  have haddressed : x.Addressed d := by
    refine ⟨?_, ?_, ⟨hid, ?_⟩, ?_⟩
    · rw [hholds.header, List.take_of_length_le (by omega)]
      exact isUdpHeader_datagram (by omega)
    · rw [hnumber, toInt32_of_nat_lt (by omega)]
      exact Int.natCast_nonneg _
    · rw [hholds.header]
    · rw [hnumber]
      omega
  have hgo : hook.goesOn (x.fill d).finalCheck = true := by
    cases hook with
    | compiledOut => rfl
    | continuing => rfl
    | sigtrap => exact absurd rfl hhook
  obtain ⟨offset, written, hw⟩ := (writes_iff hook).mpr ⟨haddressed, hgo⟩
  have hend := (h d haddressed (by omega) hbuf offset written hw).1.2
  rwa [hnumber, hbuf] at hend

/-- An announcement of `dataSize` bytes, in `nbChunks` chunks of `chunkSize`. -/
def announcement (dataSize nbChunks chunkSize : Nat) : Datagram :=
  datagram 7 pdpUdpNew (le32 dataSize ++ le32 nbChunks ++ le32 chunkSize ++ [0])

/-- The receiver that this leads to. -/
def announced (nbChunks chunkSize : Nat) : Receiver :=
  System.afterReceive .new (announcement 1 nbChunks chunkSize)

/-- A chunk that starts behind the one byte. -/
def strayChunk (body : List UInt8) : Datagram := datagram 7 1 body

theorem reached_announced_one : Reached (announced 2 1) := by
  have h : Receiver.new.pdpUdpReceiverReceive (.datagram (announcement 1 2 1)) =
      .ok (0, [datagram 7 pdpUdpAcknew []], announced 2 1) :=
    System.receive_eq (by decide +kernel)
  exact .receive .new h

theorem reached_announced_huge : Reached (announced 2 (2 ^ 32 - 1)) := by
  have h : Receiver.new.pdpUdpReceiverReceive (.datagram (announcement 1 2 (2 ^ 32 - 1))) =
      .ok (0, [datagram 7 pdpUdpAcknew []], announced 2 (2 ^ 32 - 1)) :=
    System.receive_eq (by decide +kernel)
  exact .receive .new h

theorem addressed_one : (announced 2 1).Addressed (strayChunk [42]) where
  header := by decide +kernel
  chunk := by decide +kernel
  current := by decide +kernel
  seq_lt := by decide +kernel

theorem addressed_huge : (announced 2 (2 ^ 32 - 1)).Addressed (strayChunk [42, 43]) where
  header := by decide +kernel
  chunk := by decide +kernel
  current := by decide +kernel
  seq_lt := by decide +kernel

/-- Three bytes in two chunks, with the shorter one at the end. -/
def threeBytes : List Call :=
  [.receive (.datagram (announcement 3 2 2)), .receive (.datagram (datagram 7 0 [42, 43])),
    .receive (.datagram (datagram 7 1 [44]))]

theorem roomFor_threeBytes : Throughout RoomFor Receiver.new threeBytes := by
  have hnew : Receiver.new.pdpUdpReceiverReceive (.datagram (announcement 3 2 2)) =
      .ok (0, [datagram 7 pdpUdpAcknew []], System.afterReceive .new (announcement 3 2 2)) :=
    System.receive_eq (by decide +kernel)
  have hfirst : (System.afterReceive .new (announcement 3 2 2)).pdpUdpReceiverReceive
      (.datagram (datagram 7 0 [42, 43])) = .ok (0, [], System.afterReceive (System.afterReceive
        .new (announcement 3 2 2)) (datagram 7 0 [42, 43])) :=
    System.receive_eq (by decide +kernel)
  refine ⟨fun h => absurd h.current.1 (by decide), fun r sent y hrun => ?_⟩
  rw [hnew] at hrun
  cases hrun
  refine ⟨fun _ => Or.inr (by decide +kernel), fun r sent y hrun => ?_⟩
  rw [hfirst] at hrun
  cases hrun
  exact ⟨fun _ => Or.inl (by decide +kernel), fun _ _ _ _ => trivial⟩

/-- Both chunks are written inside. -/
theorem writes_inside_threeBytes :
    Throughout (WrittenInside .compiledOut) Receiver.new threeBytes :=
  writes_inside .compiledOut threeBytes roomFor_threeBytes

/-- All chunks that are written are written inside the data. -/
def WritesInside (hook : AssertHook) : Prop :=
  ∀ x, Reached x → ∀ d offset size, x.Writes hook d offset size → (x.fill d).Inside

/-- Without the assertion a chunk number behind the end is enough; with it, the
end of the chunk has to wrap. -/
theorem writes_outside : ¬WritesInside .compiledOut ∧ ¬WritesInside .sigtrap := by
  constructor
  · intro h
    obtain ⟨offset, size, hw⟩ := (writes_iff .compiledOut).mpr ⟨addressed_one, rfl⟩
    have hinside := (h _ reached_announced_one _ offset size hw).2
    revert hinside
    decide +kernel
  · intro h
    obtain ⟨offset, size, hw⟩ := (writes_iff .sigtrap).mpr ⟨addressed_huge, by decide +kernel⟩
    have hinside := (h _ reached_announced_huge _ offset size hw).2
    revert hinside
    decide +kernel

end Receiver

end PureDataPacket
