/-
# `PureDataPacket.Net.Chunking` — how the sender cuts its data

The payload of a datagram is set by `pdp_udp_sender_udp_packet_size`, which
takes the header off, in `int` arithmetic, and has an upper bound but no lower
one.  `_prepare_for_new_transmission` and `_send_chunks` go on from there with
`unsigned int`s.  Here both numbers are arbitrary, and the assertions of
`_send_chunks` are made; `Net.Sender` is about transmissions for which all of
this is fine.

Three things go wrong: a payload of zero, a payload that a small or a very
large number has made huge, and sums that wrap when the data comes close to
`2 ^ 32` bytes.  Without data, `_prepare_for_new_transmission` subtracts one
from zero.

| | |
| :-- | :-- |
| `Tiles` | the spans follow on each other from `lo` to `hi` |
| `Partitioned` | the first round sends the data in chunks, in order, each in a datagram |
| `sendChunk_eq_span_iff` | one chunk |
| `Cuttable` | the condition |
| `partitioned_iff_of_pos` | all of them |
-/
import PureDataPacket.Net.Sender
import Mathlib.Data.List.Forall2

namespace PureDataPacket

/-- What `_send_chunks` can fail with: a division by zero before it, and the
assertions, in their order. -/
inductive ChunkFault where
  | divisionByZero
  | seqBound
  | offsetBound
  | bufferBound
  | endBound
deriving DecidableEq

/-- The bytes from `start` up to `stop`. -/
structure Span where
  start : Nat
  stop : Nat
deriving DecidableEq

/-- `pdp_udp_sender_udp_packet_size`: the new `x_udp_payload_size`.  The
subtraction is one of `size_t`s. -/
def udpPayloadSize (udpPacketSize : Nat) : Nat :=
  let i := toInt32 ((toInt32 udpPacketSize - udpHeaderSize) % 2 ^ 64)
  ofInt32 (if i > pdpUdpBufsize then pdpUdpBufsize else i)

/-- The fields that `_prepare_for_new_transmission` sets, as far as they are
about chunks. -/
structure Prepared where
  xDataSize : Nat
  xChunkSize : Nat
  xNbChunks : Nat
  xChunkList : List Nat

/-- The new `x_nb_chunks`. -/
def chunkCount (xChunkSize xDataSize : Nat) : Nat :=
  u32 (u32 (xDataSize + (2 ^ 32 - 1)) / xChunkSize + 1)

/-- `_prepare_for_new_transmission`. -/
def prepareForNewTransmission (xUdpPayloadSize size : Nat) : Except ChunkFault Prepared :=
  if xUdpPayloadSize = 0 then .error .divisionByZero
  else
    .ok {
      xDataSize := size
      xChunkSize := xUdpPayloadSize
      xNbChunks := chunkCount xUdpPayloadSize size
      xChunkList := List.range (chunkCount xUdpPayloadSize size) }

namespace Prepared

/-- The body of the loop of `_send_chunks`: the bytes that are copied and sent. -/
def sendChunk (x : Prepared) (seq : Nat) : Except ChunkFault Span :=
  if ¬seq < x.xNbChunks then .error .seqBound
  else
    let offset := u32 (seq * x.xChunkSize)
    if ¬offset < x.xDataSize then .error .offsetBound
    else
      let currentChunkSize :=
        if u32 (offset + x.xChunkSize) > x.xDataSize then u32 (x.xDataSize + 2 ^ 32 - offset)
        else x.xChunkSize
      if ¬currentChunkSize ≤ pdpUdpBufsize then .error .bufferBound
      else if ¬u32 (offset + currentChunkSize) ≤ x.xDataSize then .error .endBound
      else .ok ⟨offset, offset + currentChunkSize⟩

/-- `_send_chunks`. -/
def sendChunks (x : Prepared) : List Nat → Except ChunkFault (List Span)
  | [] => .ok []
  | seq :: l => do
      let span ← x.sendChunk seq
      let spans ← x.sendChunks l
      .ok (span :: spans)

end Prepared

/-- Preparation and the first round of a transmission of `size` bytes, after
`pdp_udp_sender_udp_packet_size`. -/
def firstRound (udpPacketSize size : Nat) : Except ChunkFault (List Span) := do
  let x ← prepareForNewTransmission (udpPayloadSize udpPacketSize) size
  x.sendChunks x.xChunkList

/-- The spans follow on each other from `lo` to `hi`. -/
inductive Tiles (hi : Nat) : Nat → List Span → Prop
  | done : Tiles hi hi []
  | cons {s : Span} {l : List Span} (h : s.start < s.stop) (ht : Tiles hi s.stop l) :
      Tiles hi s.start (s :: l)

/-- The bytes of chunk `k`. -/
def chunkSpan (chunkSize size k : Nat) : Span := ⟨k * chunkSize, min ((k + 1) * chunkSize) size⟩

/-- The first round sends the data in chunks, in order, each in a datagram. -/
def Partitioned (udpPacketSize size : Nat) : Prop :=
  ∃ spans, firstRound udpPacketSize size = .ok spans ∧
    spans = (List.range spans.length).map (chunkSpan (udpPayloadSize udpPacketSize) size) ∧
    (∀ s ∈ spans, s.stop - s.start ≤ pdpUdpBufsize) ∧ Tiles size 0 spans

/-! ## The payload -/

/-- Both conversions to `int` and the one to `size_t` come to one. -/
theorem payload_int (n : Nat) :
    toInt32 ((toInt32 n - udpHeaderSize) % 2 ^ 64) = toInt32 ((n : Int) - 16) := by
  have hcast : ((udpHeaderSize : Nat) : Int) = 16 := rfl
  rw [hcast, toInt32_eq, toInt32_eq, toInt32_eq]
  split <;> split <;> split <;> omega

/-- From the header size on the payload is what is left, up to the size of the
buffer. -/
theorem udpPayloadSize_of_le {n : Nat} (hlo : 16 ≤ n) (hhi : n < 2 ^ 31 + 16) :
    udpPayloadSize n = min (n - 16) 0xF000 := by
  have hint : toInt32 ((n : Int) - 16) = n - 16 := toInt32_of_isInt ⟨by omega, by omega⟩
  have hbuf : ((pdpUdpBufsize : Nat) : Int) = 0xF000 := rfl
  simp only [udpPayloadSize, payload_int, hint, hbuf]
  unfold ofInt32
  split <;> omega

theorem udpPayloadSize_of_not {n : Nat} (hn : n < 2 ^ 32) (h : n < 16 ∨ 2 ^ 31 + 16 ≤ n) :
    2 ^ 31 ≤ udpPayloadSize n := by
  have hint : toInt32 ((n : Int) - 16) < 0 := by
    rw [toInt32_eq]
    split <;> omega
  have hlo : -2 ^ 31 ≤ toInt32 ((n : Int) - 16) := (isInt_toInt32 _).1
  have hbuf : ((pdpUdpBufsize : Nat) : Int) = 0xF000 := rfl
  simp only [udpPayloadSize, payload_int, hbuf]
  unfold ofInt32
  split <;> omega

theorem udpPayloadSize_lt (n : Nat) : udpPayloadSize n < 2 ^ 32 := ofInt32_lt _

/-! ## The chunks -/

section Chunks

variable {c size : Nat}

/-- A chunk is there if it has a first byte. -/
theorem lt_chunks_iff (hc : 0 < c) (hsize : 0 < size) {k : Nat} :
    k < (size - 1) / c + 1 ↔ k * c < size := by
  rw [Nat.lt_succ_iff, Nat.le_div_iff_mul_le hc]
  omega

theorem chunkCount_eq (hsize : 0 < size) (hlt : size < 2 ^ 32) :
    chunkCount c size = (size - 1) / c + 1 := by
  have hpred : u32 (size + (2 ^ 32 - 1)) = size - 1 := by
    unfold u32
    omega
  have hle : (size - 1) / c ≤ size - 1 := Nat.div_le_self _ _
  unfold chunkCount
  rw [hpred]
  exact u32_eq_self (by omega)

theorem chunkCount_zero_iff (hc : 0 < c) : chunkCount c 0 = 0 ↔ c = 1 := by
  have hpred : u32 (0 + (2 ^ 32 - 1)) = 2 ^ 32 - 1 := rfl
  unfold chunkCount
  rw [hpred]
  constructor
  · intro h
    by_contra hone
    have hle : (2 ^ 32 - 1) / c ≤ (2 ^ 32 - 1) / 2 := Nat.div_le_div_left (by omega) (by decide)
    have hlt : (2 ^ 32 - 1) / c + 1 < 2 ^ 32 :=
      Nat.lt_of_le_of_lt (Nat.succ_le_succ hle) (by decide)
    rw [u32_eq_self hlt] at h
    cases h
  · rintro rfl
    rfl

/-- The chunks from `k` on, if the first `k` are followed by `n` more. -/
theorem tiles_chunks (hc : 0 < c) (hsize : 0 < size) :
    ∀ n k, k + n = (size - 1) / c + 1 →
      Tiles size (min (k * c) size) ((List.range' k n).map (chunkSpan c size))
  | 0, k, hk => by
      have hend : size ≤ k * c := Nat.le_of_not_lt fun h => by
        have := (lt_chunks_iff hc hsize).mpr h
        omega
      rw [Nat.min_eq_right hend]
      exact .done
  | n + 1, k, hk => by
      have hstart : k * c < size := (lt_chunks_iff hc hsize).mp (by omega)
      have hnext : k * c < (k + 1) * c := Nat.mul_lt_mul_of_pos_right (Nat.lt_succ_self k) hc
      have hrest := tiles_chunks hc hsize n (k + 1) (by omega)
      rw [Nat.min_eq_left (Nat.le_of_lt hstart)]
      exact .cons (s := chunkSpan c size k) (Nat.lt_min.mpr ⟨hnext, hstart⟩) hrest

variable {x : Prepared}

namespace Prepared

/-- The code and the claim agree on a chunk unless its end wraps; and it has to
fit into the buffer. -/
theorem sendChunk_eq_span_iff (hc : x.xChunkSize < 2 ^ 32) (hsize : x.xDataSize < 2 ^ 32)
    {k : Nat} (hk : k < x.xNbChunks) (hstart : k * x.xChunkSize < x.xDataSize) :
    x.sendChunk k = .ok (chunkSpan x.xChunkSize x.xDataSize k) ↔
      (k + 1) * x.xChunkSize < 2 ^ 32 ∧
        min ((k + 1) * x.xChunkSize) x.xDataSize - k * x.xChunkSize ≤ pdpUdpBufsize := by
  have hnext : (k + 1) * x.xChunkSize = k * x.xChunkSize + x.xChunkSize := Nat.succ_mul ..
  have hoff : u32 (k * x.xChunkSize) = k * x.xChunkSize := u32_eq_self (by omega)
  unfold sendChunk chunkSpan
  dsimp only
  rw [if_neg (not_not.mpr hk), hoff, if_neg (not_not.mpr hstart), hnext]
  generalize k * x.xChunkSize = offset at hstart
  generalize x.xChunkSize = c at hc
  generalize x.xDataSize = size at hsize hstart
  by_cases hwrap : offset + c < 2 ^ 32
  · have hsum : u32 (offset + c) = offset + c := u32_eq_self hwrap
    have hcut : (if u32 (offset + c) > size then u32 (size + 2 ^ 32 - offset) else c) =
        min (offset + c) size - offset := by
      rw [hsum]
      unfold u32
      split <;> omega
    have hend : u32 (offset + (min (offset + c) size - offset)) ≤ size :=
      Nat.le_trans (Nat.mod_le _ _) (by omega)
    rw [hcut, if_neg (not_not.mpr hend)]
    split
    · next hbuf => exact iff_of_false (fun h => by cases h) fun h => hbuf h.2
    · next hbuf =>
        refine iff_of_true ?_ ⟨hwrap, not_not.mp hbuf⟩
        rw [show offset + (min (offset + c) size - offset) = min (offset + c) size by omega]
  · -- the end has wrapped to a place before the chunk, which goes on behind the data
    have hsum : u32 (offset + c) = offset + c - 2 ^ 32 := by
      unfold u32
      omega
    have hcut : (if u32 (offset + c) > size then u32 (size + 2 ^ 32 - offset) else c) = c := by
      rw [hsum]
      exact if_neg (by omega)
    refine iff_of_false (fun h => ?_) fun h => hwrap h.1
    rw [hcut] at h
    split at h
    · cases h
    · split at h
      · cases h
      · simp only [Except.ok.injEq, Span.mk.injEq] at h
        omega

/-- `_send_chunks` sends what its body sends for each number. -/
theorem sendChunks_eq_ok_iff {l : List Nat} {spans : List Span} :
    x.sendChunks l = .ok spans ↔ List.Forall₂ (fun k s => x.sendChunk k = .ok s) l spans := by
  induction l generalizing spans with
  | nil =>
      rw [List.forall₂_nil_left_iff]
      constructor
      · intro h
        cases h
        rfl
      · rintro rfl
        rfl
  | cons k l ih =>
      rw [List.forall₂_cons_left_iff]
      cases hk : x.sendChunk k with
      | error e =>
          refine iff_of_false (fun h => ?_) fun ⟨s, _, h, _⟩ => by cases h
          simp only [sendChunks, hk] at h
          cases h
      | ok s =>
          cases hl : x.sendChunks l with
          | error e =>
              refine iff_of_false (fun h => ?_) fun ⟨_, spans', _, h, _⟩ => ?_
              · simp only [sendChunks, hk, hl] at h
                cases h
              · rw [ih.mpr h] at hl
                cases hl
          | ok spans' =>
              constructor
              · intro h
                simp only [sendChunks, hk, hl] at h
                cases h
                exact ⟨s, spans', rfl, ih.mp hl, rfl⟩
              · rintro ⟨s', spans'', hs, h, rfl⟩
                cases hs
                rw [ih.mpr h] at hl
                cases hl
                simp only [sendChunks, hk, ih.mpr h]
                rfl

end Prepared

end Chunks

/-! ## The first round -/

section FirstRound

variable {udp size : Nat}

/-- The sizes for which the first round is what it should be.  The chunk size
is the packet size without the header, and the data, filled up to whole chunks,
may not reach `2 ^ 32` bytes. -/
inductive Cuttable (udp size : Nat) : Prop
  | usual (hlo : 16 < udp) (hhi : udp < 2 ^ 31 + 16) (hpos : 0 < size)
      (hfits : ((size - 1) / min (udp - 16) 0xF000 + 1) * min (udp - 16) 0xF000 < 2 ^ 32)
  | huge (hudp : udp < 16 ∨ 2 ^ 31 + 16 ≤ udp) (hpos : 0 < size) (hle : size ≤ 0xF000)
  | empty (hudp : udp = 17) (hsize : size = 0)

theorem partitioned_iff_chunks (hc : udpPayloadSize udp ≠ 0) {n : Nat}
    (hn : chunkCount (udpPayloadSize udp) size = n) :
    Partitioned udp size ↔
      (∀ k < n, Prepared.sendChunk ⟨size, udpPayloadSize udp, n, List.range n⟩ k =
          .ok (chunkSpan (udpPayloadSize udp) size k)) ∧
        (∀ k < n, min ((k + 1) * udpPayloadSize udp) size - k * udpPayloadSize udp ≤
          pdpUdpBufsize) ∧
        Tiles size 0 ((List.range n).map (chunkSpan (udpPayloadSize udp) size)) := by
  have hround : ∀ spans, firstRound udp size = .ok spans ↔
      List.Forall₂ (fun k s => Prepared.sendChunk ⟨size, udpPayloadSize udp, n, List.range n⟩ k =
        .ok s) (List.range n) spans := by
    intro spans
    rw [← Prepared.sendChunks_eq_ok_iff]
    unfold firstRound prepareForNewTransmission
    rw [if_neg hc, hn]
    rfl
  unfold Partitioned
  constructor
  · rintro ⟨spans, hok, hspans, hbuf, htiles⟩
    have hall := (hround spans).mp hok
    have hlen : n = spans.length := by
      have := hall.length_eq
      rwa [List.length_range] at this
    rw [← hlen] at hspans
    rw [hspans, List.forall₂_map_right_iff, List.forall₂_same] at hall
    refine ⟨fun k hk => hall k (List.mem_range.mpr hk), fun k hk => ?_, hspans ▸ htiles⟩
    exact hbuf (chunkSpan _ _ k) (hspans ▸ List.mem_map_of_mem (List.mem_range.mpr hk))
  · rintro ⟨hchunks, hbuf, htiles⟩
    refine ⟨_, (hround _).mpr ?_, ?_, fun s hs => ?_, htiles⟩
    · rw [List.forall₂_map_right_iff, List.forall₂_same]
      exact fun k hk => hchunks k (List.mem_range.mp hk)
    · rw [List.length_map, List.length_range]
    · obtain ⟨k, hk, rfl⟩ := List.mem_map.mp hs
      exact hbuf k (List.mem_range.mp hk)

/-- With data, the chunks are right if the last one does not wrap and the first
one fits into the buffer. -/
theorem partitioned_iff_of_pos (hc : udpPayloadSize udp ≠ 0) (hpos : 0 < size)
    (hsize : size < 2 ^ 32) :
    Partitioned udp size ↔
      ((size - 1) / udpPayloadSize udp + 1) * udpPayloadSize udp < 2 ^ 32 ∧
        min (udpPayloadSize udp) size ≤ pdpUdpBufsize := by
  have hclt := udpPayloadSize_lt udp
  rw [partitioned_iff_chunks hc (chunkCount_eq hpos hsize)]
  generalize udpPayloadSize udp = c at hc hclt
  have hcpos : 0 < c := Nat.pos_of_ne_zero hc
  have hstart : ∀ {k}, k < (size - 1) / c + 1 → k * c < size := fun hk =>
    (lt_chunks_iff hcpos hpos).mp hk
  have htiles := tiles_chunks hcpos hpos ((size - 1) / c + 1) 0 (Nat.zero_add _)
  rw [Nat.zero_mul, Nat.zero_min, ← List.range_eq_range'] at htiles
  generalize hn : (size - 1) / c + 1 = n at hstart htiles
  have hnpos : 0 < n := hn ▸ Nat.succ_pos _
  have hspan : ∀ {k}, k < n →
      (Prepared.sendChunk ⟨size, c, n, List.range n⟩ k = .ok (chunkSpan c size k) ↔
        (k + 1) * c < 2 ^ 32 ∧ min ((k + 1) * c) size - k * c ≤ pdpUdpBufsize) := fun hk =>
    Prepared.sendChunk_eq_span_iff (x := ⟨size, c, n, List.range n⟩) hclt hsize hk (hstart hk)
  constructor
  · rintro ⟨hchunks, hbuf, _⟩
    obtain ⟨hwrap, _⟩ := (hspan (by omega)).mp (hchunks (n - 1) (by omega))
    have hfirst := hbuf 0 (by omega)
    rw [Nat.sub_add_cancel (by omega)] at hwrap
    rw [Nat.zero_add, Nat.one_mul, Nat.zero_mul, Nat.sub_zero] at hfirst
    exact ⟨hwrap, hfirst⟩
  · rintro ⟨hwrap, hfirst⟩
    have hnext : ∀ k, (k + 1) * c = k * c + c := fun k => Nat.succ_mul ..
    have hbuf : ∀ k < n, min ((k + 1) * c) size - k * c ≤ pdpUdpBufsize := by
      intro k _
      have := hnext k
      omega
    refine ⟨fun k hk => (hspan hk).mpr ⟨?_, hbuf k hk⟩, hbuf, htiles⟩
    exact Nat.lt_of_le_of_lt (Nat.mul_le_mul_right c hk) hwrap

/-- Without data, the only fitting number of chunks is none, which takes a
payload of one. -/
theorem partitioned_zero_iff (hc : udpPayloadSize udp ≠ 0) :
    Partitioned udp 0 ↔ udpPayloadSize udp = 1 := by
  rw [← chunkCount_zero_iff (Nat.pos_of_ne_zero hc)]
  generalize hn : chunkCount (udpPayloadSize udp) 0 = n
  rw [partitioned_iff_chunks hc hn]
  constructor
  · rintro ⟨hchunks, _⟩
    by_contra hne
    have hpos : 0 < n := Nat.pos_of_ne_zero hne
    have hfirst := hchunks 0 hpos
    unfold Prepared.sendChunk at hfirst
    dsimp only at hfirst
    rw [if_neg (not_not.mpr hpos), if_pos (Nat.not_lt_zero _)] at hfirst
    cases hfirst
  · rintro rfl
    exact ⟨fun k hk => absurd hk (Nat.not_lt_zero k),
      fun k hk => absurd hk (Nat.not_lt_zero k), .done⟩

theorem not_partitioned_of_zero (hc : udpPayloadSize udp = 0) : ¬Partitioned udp size := by
  rintro ⟨spans, hok, _⟩
  unfold firstRound prepareForNewTransmission at hok
  rw [if_pos hc] at hok
  cases hok

/-- For any two numbers, the first round partitions the data exactly if they
are cuttable. -/
theorem partitioned_iff (hudp : udp < 2 ^ 32) (hsize : size < 2 ^ 32) :
    Partitioned udp size ↔ Cuttable udp size := by
  have hcases : udp = 16 ∨ (16 < udp ∧ udp < 2 ^ 31 + 16) ∨ (udp < 16 ∨ 2 ^ 31 + 16 ≤ udp) := by
    omega
  rcases hcases with rfl | ⟨hlo, hhi⟩ | hhuge
  · refine iff_of_false (not_partitioned_of_zero rfl) fun h => ?_
    cases h with
    | usual hlo _ _ _ => omega
    | huge hudp _ _ => omega
    | empty hudp _ => omega
  · have hc : udpPayloadSize udp = min (udp - 16) 0xF000 := udpPayloadSize_of_le (by omega) hhi
    have hne : udpPayloadSize udp ≠ 0 := by omega
    rcases Nat.eq_zero_or_pos size with rfl | hpos
    · rw [partitioned_zero_iff hne, hc]
      constructor
      · intro hone
        exact .empty (by omega) rfl
      · intro h
        cases h with
        | usual _ _ hpos _ => omega
        | huge _ hpos _ => omega
        | empty hudp _ => omega
    · rw [partitioned_iff_of_pos hne hpos hsize, hc]
      constructor
      · rintro ⟨hfits, _⟩
        exact .usual hlo hhi hpos hfits
      · intro h
        cases h with
        | usual _ _ _ hfits => exact ⟨hfits, by unfold pdpUdpBufsize; omega⟩
        | huge hudp _ _ => omega
        | empty _ hz => omega
  · have hc : 2 ^ 31 ≤ udpPayloadSize udp := udpPayloadSize_of_not hudp hhuge
    have hclt := udpPayloadSize_lt udp
    have hne : udpPayloadSize udp ≠ 0 := by omega
    rcases Nat.eq_zero_or_pos size with rfl | hpos
    · rw [partitioned_zero_iff hne]
      refine iff_of_false (by omega) fun h => ?_
      cases h with
      | usual _ _ hpos _ => omega
      | huge _ hpos _ => omega
      | empty hudp _ => omega
    · rw [partitioned_iff_of_pos hne hpos hsize]
      constructor
      · rintro ⟨_, hbuf⟩
        exact .huge hhuge hpos (by unfold pdpUdpBufsize at hbuf; omega)
      · intro h
        cases h with
        | usual _ _ _ _ => omega
        | huge _ _ hle =>
            have hone : (size - 1) / udpPayloadSize udp = 0 := Nat.div_eq_of_lt (by omega)
            rw [hone]
            exact ⟨by omega, by unfold pdpUdpBufsize; omega⟩
        | empty _ hz => omega

end FirstRound

/-- 3000 bytes in packets of the usual size. -/
theorem partitioned_usual : Partitioned 1472 3000 ∧ Cuttable 1472 3000 :=
  have hcut : Cuttable 1472 3000 :=
    .usual (by decide) (by decide) (by decide) (by decide)
  ⟨(partitioned_iff (by decide) (by decide)).mpr hcut, hcut⟩

/-- A packet size of 16 divides by zero, and one of 15 asks for a datagram of
any size.  At the usual size there is a chunk too many without data, and a last
chunk that goes on behind the end of almost `2 ^ 32` bytes. -/
theorem not_partitioned_limits :
    firstRound 16 100 = .error .divisionByZero ∧ ¬Partitioned 16 100 ∧
      firstRound 15 100000 = .error .bufferBound ∧ ¬Partitioned 15 100000 ∧
      ¬Partitioned 1472 0 ∧ ¬Partitioned 1472 (2 ^ 32 - 1) := by
  have hzero : firstRound 16 100 = .error .divisionByZero := by decide
  have hhuge : firstRound 15 100000 = .error .bufferBound := by decide +kernel
  refine ⟨hzero, not_partitioned_of_zero rfl, hhuge, ?_, ?_, ?_⟩
  · rintro ⟨spans, hok, _⟩
    rw [hhuge] at hok
    cases hok
  · rw [partitioned_zero_iff (by decide)]
    decide
  · rw [partitioned_iff_of_pos (by decide) (by decide) (by decide)]
    decide

end PureDataPacket
