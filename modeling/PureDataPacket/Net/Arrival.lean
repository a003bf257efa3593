/-
# `PureDataPacket.Net.Arrival` — what has arrived when the receiver says so

`pdp_udp_receiver_receive` returns 1 when a `PDP_UDP_DONE` finds no chunk
missing.  The `PDP_UDP_DONE` has to have the id of the current connection, but 0,
which stands for no connection, is compared like any other id.  The chunk list
of a new receiver is empty, and the one before a `pdp_udp_receiver_reset` is
still there after it: with such a list a `PDP_UDP_DONE` with the id 0 makes the
receiver say that data has arrived.  This is the only way in which it can be
wrong.

| | |
| :-- | :-- |
| `StrayDone` | a `PDP_UDP_DONE` with the id 0 |
| `FullyArrived` | all the chunks have come |
| `Receives` | the four things that a call of `pdp_udp_receiver_receive` can do |
| `Told` | what holds in every state that calls can lead to |
| `Told.truth` | the run lemma |
-/
import PureDataPacket.Net.Delivery

namespace PureDataPacket

open Receiver

/-- What a call of the receiver means to the data it waits for. -/
inductive Arrival where
  | reset
  /-- a `PDP_UDP_NEW` has allocated the buffers -/
  | allocated (id nbChunks : Nat)
  /-- a chunk has been written -/
  | chunk (id seq : Nat)
  | nothing
deriving DecidableEq

namespace Receiver

/-- What a call of `pdp_udp_receiver_receive` that does not stop the program
means. -/
def arrival (x : Receiver) : Incoming → Arrival
  | .datagram d =>
      let size := (d.take (udpHeaderSize + pdpUdpBufsize)).length
      let x := x.fill d
      let type := toInt32 x.xHeader.sequenceNumber
      if isUdpHeader x.xHeader size then
        if type < 0 then
          if type = pdpUdpNew ∧ x.xConnectionId ≠ x.xHeader.connectionId then
            .allocated x.xHeader.connectionId (word (x.xBuf.drop 4))
          else .nothing
        else if x.xConnectionId = 0 ∨ x.xConnectionId ≠ x.xHeader.connectionId ∨
            x.xHeader.sequenceNumber ≥ x.xNbChunks then .nothing
        else .chunk x.xConnectionId x.xHeader.sequenceNumber
      else .nothing
  | .selectError => .nothing
  | .timeout => .nothing
  | .recvError => .nothing

/-- A datagram that is handled as the `PDP_UDP_DONE` of the current connection. -/
structure TakesDone (x : Receiver) (d : Datagram) : Prop where
  header : isUdpHeader (x.fill d).xHeader (d.take (udpHeaderSize + pdpUdpBufsize)).length = true
  type : toInt32 (x.fill d).xHeader.sequenceNumber = pdpUdpDone
  id : x.xConnectionId = (x.fill d).xHeader.connectionId

/-- A `PDP_UDP_DONE` with the id 0, when there is no connection, nothing is
missing in the chunk list and nothing has been handed over since it was made. -/
def StrayDone (x : Receiver) : Incoming → Prop
  | .datagram d => x.TakesDone d ∧ x.xConnectionId = 0 ∧ x.xPacketTransferred = false ∧
      ∀ received ∈ x.xChunkList, received = true
  | .selectError => False
  | .timeout => False
  | .recvError => False

end Receiver

/-- Since the last reset a `PDP_UDP_NEW` with the current id, which is not zero,
has allocated the buffers, and all its chunks have come since.  The list has the
last arrival first. -/
def FullyArrived (x : Receiver) (l : List Arrival) : Prop :=
  x.xConnectionId ≠ 0 ∧ ∃ nbChunks since before,
    l = since ++ .allocated x.xConnectionId nbChunks :: before ∧
    .reset ∉ since ∧ (∀ id n, .allocated id n ∉ since) ∧
    ∀ i < nbChunks, .chunk x.xConnectionId i ∈ since

/-- Whenever `pdp_udp_receiver_receive` returns 1 in a sequence of calls, the
data has arrived. -/
def SaysTrue : Receiver → List Arrival → List Call → Prop
  | _, _, [] => True
  | x, l, .reset :: calls => SaysTrue x.reset (.reset :: l) calls
  | x, l, .receive i :: calls =>
      match x.pdpUdpReceiverReceive i with
      | .error _ => True
      | .ok (r, _, y) =>
          (r = 1 → FullyArrived y (x.arrival i :: l)) ∧ SaysTrue y (x.arrival i :: l) calls

/-- No stray `PDP_UDP_DONE` comes in a sequence of calls. -/
def NoStray : Receiver → List Call → Prop
  | _, [] => True
  | x, .reset :: calls => NoStray x.reset calls
  | x, .receive i :: calls =>
      ¬ x.StrayDone i ∧
        match x.pdpUdpReceiverReceive i with
        | .error _ => True
        | .ok (_, _, y) => NoStray y calls

/-! ## What one call does -/

/-- The four things that a call of `pdp_udp_receiver_receive` can do. -/
inductive Receives (x : Receiver) (i : Incoming) (r : Int) (y : Receiver) : Prop
  | nothing (harrival : x.arrival i = .nothing) (hr : r ≠ 1) (hsame : SameReception x y)
      (hfin : y.xReceiveFinished = x.xReceiveFinished)
      (htrans : y.xPacketTransferred = x.xPacketTransferred)
  | allocates (harrival : x.arrival i = .allocated y.xConnectionId y.xNbChunks) (hr : r ≠ 1)
      (hlist : y.xChunkList = List.replicate y.xNbChunks false)
      (hfin : y.xReceiveFinished = false)
  | writes (seq : Nat) (harrival : x.arrival i = .chunk x.xConnectionId seq) (hr : r ≠ 1)
      (hid : y.xConnectionId = x.xConnectionId) (hnb : y.xNbChunks = x.xNbChunks)
      (hlist : y.xChunkList = x.xChunkList.set seq true)
      (hfin : y.xReceiveFinished = x.xReceiveFinished)
      (htrans : y.xPacketTransferred = x.xPacketTransferred)
  | done (d : Datagram) (hi : i = .datagram d) (hd : x.TakesDone d)
      (harrival : x.arrival i = .nothing) (hsame : SameReception x y)
      (hfin : y.xReceiveFinished = true ↔
        x.xReceiveFinished = true ∨ ∀ received ∈ x.xChunkList, received = true)
      (htrans : y.xPacketTransferred = true ↔
        x.xPacketTransferred = true ∨ y.xReceiveFinished = true)
      (hr : r = 1 ↔ y.xReceiveFinished = true ∧ x.xPacketTransferred = false)

section Calls

variable {x y : Receiver} {r : Int} {sent : List Datagram}

theorem prepare_spec (h : x.prepare = .ok y) :
    y.xConnectionId = x.xHeader.connectionId ∧ y.xNbChunks = word (x.xBuf.drop 4) ∧
      y.xChunkList = List.replicate y.xNbChunks false ∧ y.xReceiveFinished = false := by
  unfold prepare at h
  simp only at h
  cases hsize : allocCleared (word x.xBuf) with
  | error e =>
      rw [hsize] at h
      cases h
  | ok _ =>
      cases hchunks : allocCleared (4 * word (x.xBuf.drop 4)) with
      | error e =>
          rw [hsize, hchunks] at h
          cases h
      | ok _ =>
          rw [hsize, hchunks] at h
          cases h
          exact ⟨rfl, rfl, rfl, rfl⟩

theorem nothing_missing {l : List Bool} :
    (missingFrom 0 l).take resendMaxChunks = [] ↔ ∀ received ∈ l, received = true := by
  constructor
  · intro h received hmem
    obtain ⟨i, hi⟩ := List.mem_iff_getElem?.mp hmem
    have hlt := (List.getElem?_eq_some_iff.mp hi).1
    rw [all_marked h hlt] at hi
    exact (Option.some.inj hi).symm
  · intro h
    have hnone : missingFrom 0 l = [] := by
      refine List.eq_nil_iff_forall_not_mem.mpr fun i hi => ?_
      have hmem := List.mem_of_getElem? (mem_missingFrom.mp hi).2
      exact Bool.false_ne_true (h false hmem)
    rw [hnone, List.take_nil]

/-- `_handle_PDP_UDP_DONE`. -/
theorem handleDone_finished (x : Receiver) (h : x.xConnectionId = x.xHeader.connectionId) :
    SameReception x x.handleDone.2 ∧
      x.handleDone.2.xPacketTransferred = x.xPacketTransferred ∧
      (x.handleDone.2.xReceiveFinished = true ↔
        x.xReceiveFinished = true ∨ ∀ received ∈ x.xChunkList, received = true) := by
  unfold handleDone
  rw [if_neg (not_not_intro h)]
  dsimp only
  split
  · next hnone =>
      exact ⟨⟨rfl, rfl, rfl, rfl, rfl, rfl, rfl⟩, rfl,
        fun _ => Or.inr (nothing_missing.mp hnone), fun _ => rfl⟩
  · next hsome =>
      refine ⟨⟨rfl, rfl, rfl, rfl, rfl, rfl, rfl⟩, rfl, Or.inl, fun hor => ?_⟩
      exact hor.resolve_right (nothing_missing.not.mp hsome)

section Header

variable {d : Datagram}
  (hheader : isUdpHeader (x.fill d).xHeader
    (d.take (udpHeaderSize + pdpUdpBufsize)).length = true)

include hheader

theorem receives_handleNew (htype : toInt32 (x.fill d).xHeader.sequenceNumber = pdpUdpNew)
    (h : (x.fill d).handleNew = .ok (sent, y)) : Receives x (.datagram d) 0 y := by
  unfold handleNew at h
  split at h
  · next hother =>
      cases hp : (x.fill d).prepare with
      | error e =>
          rw [hp] at h
          cases h
      | ok x₁ =>
          rw [hp] at h
          cases h
          obtain ⟨hid, hnb, hlist, hfin⟩ := prepare_spec hp
          refine .allocates ?_ (by decide) hlist hfin
          unfold arrival
          simp only [hheader, htype, show pdpUdpNew < 0 by decide, hother, if_true, ne_eq,
            not_false_eq_true, and_self, hid, hnb]
  · next hknown =>
      cases h
      refine .nothing ?_ (by decide) (same_fill x d) rfl rfl
      unfold arrival
      simp only [hheader, htype, show pdpUdpNew < 0 by decide, hknown, if_true, if_false,
        and_false]

/-- A datagram that is about no chunk and announces nothing. -/
theorem arrival_of_neg (hneg : toInt32 (x.fill d).xHeader.sequenceNumber < 0)
    (hnew : toInt32 (x.fill d).xHeader.sequenceNumber ≠ pdpUdpNew) :
    x.arrival (.datagram d) = .nothing := by
  unfold arrival
  simp only [hheader, hneg, hnew, if_true, if_false, false_and]

section Done

variable (htype : toInt32 (x.fill d).xHeader.sequenceNumber = pdpUdpDone)
  (hid : (x.fill d).xConnectionId = (x.fill d).xHeader.connectionId)

include htype hid

/-- The first `DONE` after the last chunk. -/
theorem receives_ready (hready : (x.fill d).handleDone.2.xReceiveFinished = true)
    (hnot : x.xPacketTransferred = false) :
    Receives x (.datagram d) 1 { (x.fill d).handleDone.2 with xPacketTransferred := true } := by
  obtain ⟨hkeep, htrans, hfin⟩ := handleDone_finished (x.fill d) hid
  have harrival := arrival_of_neg hheader (by rw [htype]; decide) (by rw [htype]; decide)
  refine .done d rfl ⟨hheader, htype, hid⟩ harrival ⟨hkeep.id, hkeep.nbChunks, hkeep.chunkSize,
    hkeep.chunkList, hkeep.type, hkeep.size, hkeep.data⟩ hfin ?_ ?_
  · exact ⟨fun _ => Or.inr hready, fun _ => rfl⟩
  · exact ⟨fun _ => ⟨hready, hnot⟩, fun _ => rfl⟩

/-- Every other `DONE`. -/
theorem receives_notReady (hready : ¬((x.fill d).handleDone.2.xReceiveFinished = true ∧
      x.xPacketTransferred = false)) :
    Receives x (.datagram d) 0 (x.fill d).handleDone.2 := by
  obtain ⟨hkeep, htrans, hfin⟩ := handleDone_finished (x.fill d) hid
  have harrival := arrival_of_neg hheader (by rw [htype]; decide) (by rw [htype]; decide)
  refine .done d rfl ⟨hheader, htype, hid⟩ harrival ⟨hkeep.id, hkeep.nbChunks, hkeep.chunkSize,
    hkeep.chunkList, hkeep.type, hkeep.size, hkeep.data⟩ hfin ?_ ?_
  · rw [htrans]
    refine ⟨Or.inl, fun hor => hor.elim id fun hf => ?_⟩
    by_contra hnot
    exact hready ⟨hf, Bool.eq_false_iff.mpr hnot⟩
  · exact ⟨fun hr => absurd hr (by decide), fun hr => absurd hr hready⟩

end Done

theorem receives_handleData (hpos : ¬toInt32 (x.fill d).xHeader.sequenceNumber < 0)
    (h : (x.fill d).handleData = .ok y) : Receives x (.datagram d) 0 y := by
  have hsame := same_fill x d
  unfold handleData at h
  simp only at h
  split at h
  · next hother =>
      cases h
      refine .nothing ?_ (by decide) hsame rfl rfl
      unfold arrival
      simp only [hheader, hpos, if_true, if_false]
      rw [if_pos (hother.imp_right Or.inl)]
  · next hknown =>
      split at h
      · next hbound =>
          cases h
          refine .nothing ?_ (by decide) hsame rfl rfl
          unfold arrival
          simp only [hheader, hpos, if_true, if_false]
          rw [if_pos (Or.inr (Or.inr hbound))]
      · next hbound =>
          split at h
          · cases h
          · cases h
            refine .writes _ ?_ (by decide) rfl rfl rfl rfl rfl
            unfold arrival
            simp only [hheader, hpos, if_true, if_false]
            exact if_neg fun hor => (or_assoc.mpr hor).elim hknown hbound

theorem receives_handle (hover : x.xReceiveFinished = true → x.xPacketTransferred = true)
    (h : (x.fill d).handle = .ok (r, sent, y)) : Receives x (.datagram d) r y := by
  have hsame := same_fill x d
  unfold handle at h
  simp only at h
  split at h
  · next hneg =>
      split at h
      · next htype =>
          cases hn : (x.fill d).handleNew with
          | error e =>
              rw [hn] at h
              cases h
          | ok answer =>
              obtain ⟨sent, x₁⟩ := answer
              rw [hn] at h
              cases h
              exact receives_handleNew hheader htype hn
      · next hnew =>
          have harrival := arrival_of_neg hheader hneg hnew
          split at h
          · next htype =>
              by_cases hid : (x.fill d).xConnectionId = (x.fill d).xHeader.connectionId
              · obtain ⟨-, htrans, -⟩ := handleDone_finished (x.fill d) hid
                split at h
                · next hready =>
                    cases h
                    simp only [Bool.and_eq_true, Bool.not_eq_true', htrans] at hready
                    exact receives_ready hheader htype hid hready.1 hready.2
                · next hready =>
                    cases h
                    simp only [Bool.and_eq_true, Bool.not_eq_true', htrans] at hready
                    exact receives_notReady hheader htype hid hready
              · have hdone : (x.fill d).handleDone = ([], x.fill d) := by
                  unfold handleDone
                  rw [if_pos hid]
                rw [hdone] at h
                split at h
                · next hready =>
                    simp only [Bool.and_eq_true, Bool.not_eq_true'] at hready
                    exact absurd (hover hready.1) (Bool.eq_false_iff.mp hready.2)
                · cases h
                  exact .nothing harrival (by decide) hsame rfl rfl
          · cases h
            exact .nothing harrival (by decide) hsame rfl rfl
  · next hpos =>
      cases hd : (x.fill d).handleData with
      | error e =>
          rw [hd] at h
          cases h
      | ok x₁ =>
          rw [hd] at h
          cases h
          exact receives_handleData hheader hpos hd

end Header

theorem receives_spec {i : Incoming}
    (hover : x.xReceiveFinished = true → x.xPacketTransferred = true)
    (h : x.pdpUdpReceiverReceive i = .ok (r, sent, y)) :
    Receives x i r y := by
  have hself : SameReception x x := ⟨rfl, rfl, rfl, rfl, rfl, rfl, rfl⟩
  cases i with
  | selectError | timeout | recvError =>
      cases h
      exact .nothing rfl (by decide) hself rfl rfl
  | datagram d =>
      unfold pdpUdpReceiverReceive at h
      simp only at h
      split at h
      · next hheader => exact receives_handle hheader hover h
      · next hheader =>
          cases h
          refine .nothing ?_ (by decide) (same_fill x d) rfl rfl
          unfold arrival
          simp only [hheader, if_false, Bool.false_eq_true]

/-- A stray `PDP_UDP_DONE` is answered, and makes the receiver return 1. -/
theorem receive_stray {i : Incoming} (hi : x.StrayDone i) :
    ∃ sent y, x.pdpUdpReceiverReceive i = .ok (1, sent, y) ∧ y.xConnectionId = 0 := by
  cases i with
  | selectError | timeout | recvError => exact hi.elim
  | datagram d =>
      obtain ⟨hd, hzero, htrans, hall⟩ := hi
      obtain ⟨hkeep, hsame, hfin⟩ := handleDone_finished (x.fill d) hd.id
      have hready : (x.fill d).handleDone.2.xReceiveFinished = true := hfin.mpr (Or.inr hall)
      have hnot : (x.fill d).handleDone.2.xPacketTransferred = false := hsame.trans htrans
      refine ⟨(x.fill d).handleDone.1, { (x.fill d).handleDone.2 with xPacketTransferred := true },
        ?_, hkeep.id.trans hzero⟩
      unfold pdpUdpReceiverReceive handle
      simp only [hd.header, hd.type, show pdpUdpDone < 0 by decide,
        show ¬ pdpUdpDone = pdpUdpNew by decide, if_true, if_false, hready, hnot, Bool.not_false,
        Bool.and_self]

end Calls

/-! ## The invariant -/

/-- What holds in every state that calls can lead to. -/
structure Told (x : Receiver) (l : List Arrival) : Prop where
  flags : x.xChunkList.length = x.xNbChunks
  finished : x.xReceiveFinished = true → x.xPacketTransferred = true
  current : x.xConnectionId ≠ 0 → ∃ since before,
    l = since ++ .allocated x.xConnectionId x.xNbChunks :: before ∧
    .reset ∉ since ∧ (∀ id n, .allocated id n ∉ since) ∧
    ∀ i, x.xChunkList[i]? = some true → .chunk x.xConnectionId i ∈ since

section Told

variable {x y : Receiver} {l : List Arrival} {i : Incoming} {r : Int}

theorem told_new : Told Receiver.new [] :=
  ⟨rfl, (fun h => by cases h), fun h => absurd rfl h⟩

theorem Told.reset (h : Told x l) : Told x.reset (.reset :: l) :=
  ⟨h.flags, h.finished, fun hid => absurd rfl hid⟩

/-- An arrival that means nothing, with the reception as it was. -/
theorem Told.same (h : Told x l) (hs : SameReception x y)
    (hfin : y.xReceiveFinished = true → y.xPacketTransferred = true) :
    Told y (.nothing :: l) where
  flags := by rw [hs.chunkList, hs.nbChunks, h.flags]
  finished := hfin
  current hid := by
    rw [hs.id] at hid
    obtain ⟨since, before, rfl, hreset, hnew, hmarked⟩ := h.current hid
    refine ⟨.nothing :: since, before, by rw [hs.id, hs.nbChunks]; rfl, ?_, fun id n => ?_,
      fun j hj => ?_⟩
    · exact List.not_mem_cons_of_ne_of_not_mem (by decide) hreset
    · exact List.not_mem_cons_of_ne_of_not_mem (fun he => by cases he) (hnew id n)
    · rw [hs.chunkList] at hj
      rw [hs.id]
      exact List.mem_cons_of_mem _ (hmarked j hj)

theorem Told.step (h : Told x l) (hr : Receives x i r y) : Told y (x.arrival i :: l) := by
  cases hr with
  | nothing harrival _ hsame hfin htrans =>
      rw [harrival]
      refine h.same hsame ?_
      rw [hfin, htrans]
      exact h.finished
  | allocates harrival _ hlist hfin =>
      rw [harrival]
      refine ⟨by rw [hlist, List.length_replicate], fun hf => ?_, fun _ => ?_⟩
      · rw [hfin] at hf
        cases hf
      · refine ⟨[], l, rfl, List.not_mem_nil, fun _ _ => List.not_mem_nil, fun j hj => ?_⟩
        rw [hlist] at hj
        cases List.eq_of_mem_replicate (List.mem_of_getElem? hj)
  | writes seq harrival _ hid hnb hlist hfin htrans =>
      rw [harrival]
      refine ⟨by rw [hlist, List.length_set, hnb, h.flags], ?_, fun hne => ?_⟩
      · rw [hfin, htrans]
        exact h.finished
      · rw [hid] at hne
        obtain ⟨since, before, rfl, hreset, hnew, hmarked⟩ := h.current hne
        refine ⟨.chunk x.xConnectionId seq :: since, before, by rw [hid, hnb]; rfl, ?_,
          fun id n => ?_, fun j hj => ?_⟩
        · exact List.not_mem_cons_of_ne_of_not_mem (fun he => by cases he) hreset
        · exact List.not_mem_cons_of_ne_of_not_mem (fun he => by cases he) (hnew id n)
        · rw [hid]
          by_cases hj' : seq = j
          · rw [hj']
            exact List.mem_cons_self
          · rw [hlist, List.getElem?_set_ne hj'] at hj
            exact List.mem_cons_of_mem _ (hmarked j hj)
  | done d _ _ harrival hsame hfin htrans _ =>
      rw [harrival]
      exact h.same hsame fun hf => htrans.mpr (Or.inr hf)

theorem Told.justified (h : Told x l) (hr : Receives x i r y) (hstray : ¬ x.StrayDone i)
    (hone : r = 1) :
    FullyArrived y (x.arrival i :: l) := by
  cases hr with
  | nothing _ hr | allocates _ hr | writes _ _ hr => exact absurd hone hr
  | done d hi hd harrival hsame hfin htrans hr =>
      obtain ⟨hready, hnot⟩ := hr.mp hone
      have hall : ∀ received ∈ x.xChunkList, received = true :=
        (hfin.mp hready).resolve_left fun hf => Bool.eq_false_iff.mp hnot (h.finished hf)
      have hid : x.xConnectionId ≠ 0 := fun hzero => hstray (hi ▸ ⟨hd, hzero, hnot, hall⟩)
      obtain ⟨since, before, rfl, hreset, hnew, hmarked⟩ := h.current hid
      refine ⟨by rwa [hsame.id], x.xNbChunks, .nothing :: since, before, ?_, ?_, fun id n => ?_,
        fun j hj => ?_⟩
      · rw [harrival, hsame.id]
        rfl
      · exact List.not_mem_cons_of_ne_of_not_mem (by decide) hreset
      · exact List.not_mem_cons_of_ne_of_not_mem (fun he => by cases he) (hnew id n)
      · rw [hsame.id]
        rw [← h.flags] at hj
        refine List.mem_cons_of_mem _ (hmarked j ?_)
        rw [List.getElem?_eq_getElem hj, hall _ (List.getElem_mem hj)]

/-- In any sequence of calls, what the receiver says is true exactly as long as
no stray `PDP_UDP_DONE` comes. -/
theorem Told.truth (h : Told x l) (calls : List Call) :
    SaysTrue x l calls ↔ NoStray x calls := by
  induction calls generalizing x l with
  | nil => exact Iff.rfl
  | cons call calls ih =>
      cases call with
      | reset => exact ih h.reset
      | receive i =>
          unfold SaysTrue NoStray
          cases hrun : x.pdpUdpReceiverReceive i with
          | error e =>
              refine iff_of_true trivial ⟨fun hstray => ?_, trivial⟩
              obtain ⟨_, _, hok, _⟩ := receive_stray hstray
              rw [hrun] at hok
              cases hok
          | ok result =>
              obtain ⟨r, sent, y⟩ := result
              have hr := receives_spec h.finished hrun
              refine and_congr ⟨fun htrue hstray => ?_, fun hstray => h.justified hr hstray⟩
                (ih (h.step hr))
              obtain ⟨_, z, hok, hzero⟩ := receive_stray hstray
              rw [hrun] at hok
              cases hok
              exact (htrue rfl).1 hzero

end Told

/-- From a new receiver on, with any datagrams and resets: whenever 1 is returned
the data has arrived, if and only if no stray `PDP_UDP_DONE` comes. -/
theorem saysTrue_iff (calls : List Call) :
    SaysTrue Receiver.new [] calls ↔ NoStray Receiver.new calls := told_new.truth calls

/-- The first datagram that a new receiver gets is a `PDP_UDP_DONE` with the id 0. -/
theorem done_of_nothing : ¬ SaysTrue Receiver.new []
    [.receive (.datagram (datagram 0 pdpUdpDone []))] := by
  intro htrue
  have hnil : ([] : List UInt8).length ≤ pdpUdpBufsize := Nat.zero_le _
  have hheader := (holds_fill Receiver.new (by decide : 0 < 2 ^ 32) pdpUdpDone hnil).header
  have hlen := length_datagram 0 pdpUdpDone []
  have htake : (datagram 0 pdpUdpDone []).take (udpHeaderSize + pdpUdpBufsize) =
      datagram 0 pdpUdpDone [] := List.take_of_length_le (by rw [hlen]; exact Nat.le_add_right _ _)
  have hdone : toInt32 (ofInt32 pdpUdpDone) = pdpUdpDone := toInt32_ofInt32 (by decide) (by decide)
  have htakes : Receiver.new.TakesDone (datagram 0 pdpUdpDone []) := by
    refine ⟨?_, ?_, ?_⟩
    · rw [hheader, htake]
      exact isUdpHeader_datagram (by rw [hlen]; exact Nat.le_add_right _ _)
    · rw [hheader, hdone]
    · rw [hheader]
      rfl
  have hstray : Receiver.new.StrayDone (.datagram (datagram 0 pdpUdpDone [])) :=
    ⟨htakes, rfl, rfl, fun _ hmem => absurd hmem List.not_mem_nil⟩
  exact ((told_new.truth _).mp htrue).1 hstray

end PureDataPacket
