/-
# `PureDataPacket.Net.Delivery` — how often a transmission is delivered

The receiver knows one connection id, and whether that transmission has been
handed on.  A `PDP_UDP_NEW` with another id makes it forget both.  So a
`PDP_UDP_NEW` that comes again when its transmission is done and another one
has begun starts that transmission over, and duplicates of its data may then
deliver it a second time.  If no such datagram comes, nothing is delivered twice.

| | |
| :-- | :-- |
| `Remembers` | the receiver's id and its flag |
| `Execution` | the system, and what has been delivered so far |
| `NoStaleNew` | the start of a transmission that is done does not come in the middle of another |
| `DeliveredOnce` | the invariant |
-/
import PureDataPacket.Net.Transfer

namespace PureDataPacket

open Receiver

/-! ## The two things the receiver remembers -/

section Memory

variable {x y : Receiver} {r : Int} {sent : List Datagram}

/-- What a call of `pdp_udp_receiver_receive` does to the current id and to the
flag that it has been handed on. -/
inductive Remembers (x : Receiver) (i : Incoming) (r : Int) (y : Receiver) : Prop
  | delivers (hr : r = 1) (hid : y.xConnectionId = x.xConnectionId)
      (hbefore : x.xPacketTransferred = false) (hafter : y.xPacketTransferred = true)
  | keeps (hr : r ≠ 1) (hid : y.xConnectionId = x.xConnectionId)
      (hflag : y.xPacketTransferred = x.xPacketTransferred)
  | begins (d : Datagram) (hi : i = .datagram d) (hr : r ≠ 1)
      (hother : x.xConnectionId ≠ y.xConnectionId)
      (hid : (x.fill d).xHeader.connectionId = y.xConnectionId)
      (htype : toInt32 (x.fill d).xHeader.sequenceNumber = pdpUdpNew)

theorem id_prepare (h : x.prepare = .ok y) : y.xConnectionId = x.xHeader.connectionId := by
  unfold prepare at h
  simp only at h
  cases hsize : allocCleared (word x.xBuf) with
  | error e =>
      rw [hsize] at h
      cases h
  | ok _ =>
      cases hchunks : allocCleared (4 * word (x.xBuf.drop 4)) with
      | error e =>
          rw [hsize, hchunks] at h
          cases h
      | ok _ =>
          rw [hsize, hchunks] at h
          cases h
          rfl

theorem handleDone_keeps (x : Receiver) :
    x.handleDone.2.xConnectionId = x.xConnectionId ∧
      x.handleDone.2.xPacketTransferred = x.xPacketTransferred := by
  unfold handleDone
  split
  · exact ⟨rfl, rfl⟩
  · simp only
    split
    · exact ⟨rfl, rfl⟩
    · exact ⟨rfl, rfl⟩

theorem handleData_keeps (h : x.handleData = .ok y) :
    y.xConnectionId = x.xConnectionId ∧ y.xPacketTransferred = x.xPacketTransferred := by
  unfold handleData at h
  simp only at h
  split at h
  · cases h
    exact ⟨rfl, rfl⟩
  · split at h
    · cases h
      exact ⟨rfl, rfl⟩
    · split at h
      · cases h
      · cases h
        exact ⟨rfl, rfl⟩

theorem remembers_handle {x₀ : Receiver} {d : Datagram}
    (h : (x₀.fill d).handle = .ok (r, sent, y)) : Remembers x₀ (.datagram d) r y := by
  have hid : (x₀.fill d).xConnectionId = x₀.xConnectionId := rfl
  have hflag : (x₀.fill d).xPacketTransferred = x₀.xPacketTransferred := rfl
  unfold handle at h
  simp only at h
  split at h
  · split at h
    · next htype =>
        unfold handleNew at h
        split at h
        · next hother =>
            cases hp : (x₀.fill d).prepare with
            | error e =>
                rw [hp] at h
                cases h
            | ok x₁ =>
                rw [hp] at h
                cases h
                have hnew := id_prepare hp
                exact .begins d rfl (by decide) (fun he => hother (he.trans hnew)) hnew.symm htype
        · cases h
          exact .keeps (by decide) rfl rfl
    · split at h
      · obtain ⟨hkeep, hsame⟩ := handleDone_keeps (x₀.fill d)
        split at h
        · next hdone =>
            cases h
            simp only [Bool.and_eq_true, Bool.not_eq_true'] at hdone
            exact .delivers rfl hkeep (hsame.symm.trans hdone.2) rfl
        · cases h
          exact .keeps (by decide) hkeep hsame
      · cases h
        exact .keeps (by decide) rfl rfl
  · cases hd : (x₀.fill d).handleData with
    | error e =>
        rw [hd] at h
        cases h
    | ok x₁ =>
        rw [hd] at h
        cases h
        obtain ⟨hkeep, hsame⟩ := handleData_keeps hd
        exact .keeps (by decide) hkeep hsame

theorem remembers_receive {i : Incoming} (h : x.pdpUdpReceiverReceive i = .ok (r, sent, y)) :
    Remembers x i r y := by
  cases i with
  | selectError =>
      cases h
      exact .keeps (by decide) rfl rfl
  | timeout =>
      cases h
      exact .keeps (by decide) rfl rfl
  | recvError =>
      cases h
      exact .keeps (by decide) rfl rfl
  | datagram d =>
      unfold pdpUdpReceiverReceive at h
      simp only at h
      split at h
      · exact remembers_handle h
      · cases h
        exact .keeps (by decide) rfl rfl

end Memory

/-! ## Executions

An execution is a run of the system, with the ids that have been delivered, the
last one first. -/

namespace System

/-- A step that is not a call of `pdp_udp_receiver_receive` with anything to
show for it. -/
def Elsewhere (s s' : System) : Prop :=
  Step s s' ∧ (s'.receiver = s.receiver ∨ s'.receiver = s.receiver.reset)

/-- The system, and what has been delivered so far.  `C` may restrict what the
receiver finds on its socket. -/
inductive Execution (C : List Nat → System → Incoming → Prop) : List Nat → System → Prop
  | start : Execution C [] start
  | elsewhere {l : List Nat} {s s' : System} (hs : Execution C l s) (h : Elsewhere s s') :
      Execution C l s'
  | receive {l : List Nat} {s : System} {i : Incoming} {r : Int} {sent : List Datagram}
      {x : Receiver} (hs : Execution C l s) (hi : s.MayArrive i) (hc : C l s i)
      (h : s.receiver.pdpUdpReceiverReceive i = .ok (r, sent, x)) :
      Execution C (if r = 1 then x.xConnectionId :: l else l)
        { s with receiver := x, toSender := sent ++ s.toSender }

section Execution

variable {C : List Nat → System → Incoming → Prop} {l : List Nat} {s : System}

theorem Execution.reachable (h : Execution C l s) : Reachable s := by
  induction h with
  | start => exact .start
  | elsewhere _ h ih => exact ih.step h.1
  | receive _ hi _ h ih => exact ih.step (.receive hi h)

theorem Execution.quiet (hs : Execution C l s) {i : Incoming} {sent : List Datagram} {x : Receiver}
    (hi : s.MayArrive i) (hc : C l s i) (h : s.receiver.pdpUdpReceiverReceive i = .ok (0, sent, x)) :
    Execution C l { s with receiver := x, toSender := sent ++ s.toSender } := hs.receive hi hc h

theorem Execution.delivers (hs : Execution C l s) {i : Incoming} {sent : List Datagram}
    {x : Receiver} {id : Nat} (hi : s.MayArrive i) (hc : C l s i)
    (h : s.receiver.pdpUdpReceiverReceive i = .ok (1, sent, x)) (hid : x.xConnectionId = id) :
    Execution C (id :: l) { s with receiver := x, toSender := sent ++ s.toSender } :=
  hid ▸ hs.receive hi hc h

theorem Reachable.execution (h : Reachable s) : ∃ l, Execution (fun _ _ _ => True) l s := by
  induction h with
  | start => exact ⟨[], .start⟩
  | step _ hstep ih =>
      obtain ⟨l, hl⟩ := ih
      cases hstep with
      | call tr xSocket hidle hnew => exact ⟨l, hl.elsewhere ⟨.call tr xSocket hidle hnew, Or.inl rfl⟩⟩
      | send h => exact ⟨l, hl.elsewhere ⟨.send h, Or.inl rfl⟩⟩
      | receivePacket h hd hreply => exact ⟨l, hl.elsewhere ⟨.receivePacket h hd hreply, Or.inl rfl⟩⟩
      | timeout h => exact ⟨l, hl.elsewhere ⟨.timeout h, Or.inl rfl⟩⟩
      | error h => exact ⟨l, hl.elsewhere ⟨.error h, Or.inl rfl⟩⟩
      | ret h => exact ⟨l, hl.elsewhere ⟨.ret h, Or.inl rfl⟩⟩
      | receive hi h => exact ⟨_, hl.receive hi trivial h⟩
      | reset => exact ⟨l, hl.elsewhere ⟨.reset, Or.inr rfl⟩⟩

end Execution

/-- The start of a transmission that has been delivered does not arrive while
the receiver has another one. -/
def NoStaleNew (l : List Nat) (s : System) (i : Incoming) : Prop :=
  ∀ tr ∈ s.history, tr.connectionId ∈ l → i = .datagram tr.newDatagram →
    s.receiver.xConnectionId = tr.connectionId

/-- What has been delivered is either not the current transmission, or is known
to have been handed on. -/
structure DeliveredOnce (l : List Nat) (x : Receiver) : Prop where
  nodup : l.Nodup
  zero : 0 ∉ l
  current : x.xConnectionId ∈ l → x.xPacketTransferred = true

/-- A datagram that begins a transmission is its `PDP_UDP_NEW`. -/
theorem newDatagram_of_header {tr : Transmission} {d : Datagram} (hd : tr.Emitted d) {x : Receiver}
    (htype : toInt32 (x.fill d).xHeader.sequenceNumber = pdpUdpNew) :
    d = tr.newDatagram ∧ (x.fill d).xHeader.connectionId = tr.connectionId := by
  cases hd with
  | new hfits =>
      have hbody : tr.newBody.length ≤ pdpUdpBufsize := by
        simpa [Transmission.newBody, le32, newpacketSize, Nat.add_comm, Nat.add_left_comm]
          using hfits
      refine ⟨rfl, ?_⟩
      unfold Transmission.newDatagram
      rw [(holds_fill x tr.id_lt pdpUdpNew hbody).header]
  | @chunk i hi =>
      have hbody : (chunk tr.chunkSize i tr.data).length ≤ pdpUdpBufsize := by
        have := tr.chunk_le
        rw [length_chunk]
        omega
      have hsmall : i < 2 ^ 32 - 1 := by
        have := tr.nbChunks_le
        have := tr.data_lt
        omega
      unfold Transmission.chunkDatagram at htype
      rw [(holds_fill x tr.id_lt i hbody).header] at htype
      simp only [ofInt32_of_nat_lt (show i < 2 ^ 32 by omega), toInt32, pdpUdpNew,
        Int.bmod_def] at htype
      split at htype
      · omega
      · omega
  | done =>
      have hnil : ([] : List UInt8).length ≤ pdpUdpBufsize := Nat.zero_le _
      unfold Transmission.doneDatagram at htype
      rw [(holds_fill x tr.id_lt pdpUdpDone hnil).header] at htype
      simp only [toInt32_ofInt32 (s := pdpUdpDone) (by decide) (by decide)] at htype
      cases htype

theorem DeliveredOnce.receive {l : List Nat} {s : System} (hs : Reachable s)
    (ho : DeliveredOnce l s.receiver) {i : Incoming} {r : Int} {sent : List Datagram} {x : Receiver}
    (hi : s.MayArrive i) (hc : NoStaleNew l s i)
    (h : s.receiver.pdpUdpReceiverReceive i = .ok (r, sent, x)) :
    DeliveredOnce (if r = 1 then x.xConnectionId :: l else l) x := by
  cases remembers_receive h with
  | delivers hr hid hbefore hafter =>
      subst hr
      obtain ⟨tr, _, hcomplete⟩ := (hs.inv.received hi h).complete rfl
      rw [if_pos rfl]
      refine ⟨List.nodup_cons.mpr ⟨fun hmem => ?_, ho.nodup⟩, fun h0 => ?_, fun _ => hafter⟩
      · have := ho.current (hid ▸ hmem)
        rw [hbefore] at this
        cases this
      · rcases List.mem_cons.mp h0 with h0 | h0
        · exact tr.id_ne_zero (hcomplete.id.symm.trans h0.symm)
        · exact ho.zero h0
  | keeps hr hid hflag =>
      rw [if_neg hr]
      refine ⟨ho.nodup, ho.zero, fun hmem => ?_⟩
      rw [hflag]
      exact ho.current (hid ▸ hmem)
  | begins d hd hr hother hid htype =>
      rw [if_neg hr]
      refine ⟨ho.nodup, ho.zero, fun hmem => ?_⟩
      -- a delivered transmission cannot begin again
      subst hd
      obtain ⟨tr, htr, hem⟩ := hs.inv.toReceiver d hi
      obtain ⟨rfl, hconn⟩ := newDatagram_of_header hem htype
      have hx : x.xConnectionId = tr.connectionId := hid.symm.trans hconn
      exact absurd ((hc tr htr (hx ▸ hmem) rfl).trans hx.symm) hother

theorem DeliveredOnce.elsewhere {l : List Nat} {s s' : System} (ho : DeliveredOnce l s.receiver)
    (h : Elsewhere s s') : DeliveredOnce l s'.receiver := by
  rcases h.2 with h | h
  · rw [h]
    exact ho
  · rw [h]
    exact ⟨ho.nodup, ho.zero, fun h0 => absurd h0 ho.zero⟩

def anotherByte : Transmission := { oneByte with connectionId := 9, id_ne_zero := by decide, id_lt := by decide }

def afterAll (x : Receiver) (l : List Datagram) : Receiver := l.foldl afterReceive x

/-- The receiver that has delivered the one byte. -/
def afterOneByte : Receiver :=
  afterAll .new [oneByte.newDatagram, oneByte.chunkDatagram 0, oneByte.doneDatagram]

theorem execution_oneByte {C : List Nat → System → Incoming → Prop} (hC : ∀ s i, C [] s i) :
    ∃ s, Execution C [7] s ∧ s.sender = none ∧ s.receiver = afterOneByte ∧
      s.history = [oneByte] ∧
      s.toReceiver = [oneByte.doneDatagram, oneByte.chunkDatagram 0, oneByte.newDatagram] := by
  have hnew : Receiver.new.pdpUdpReceiverReceive (.datagram oneByte.newDatagram) =
      .ok (0, [datagram 7 pdpUdpAcknew []], afterAll .new [oneByte.newDatagram]) :=
    receive_eq (by decide +kernel)
  have hdata : (afterAll .new [oneByte.newDatagram]).pdpUdpReceiverReceive
        (.datagram (oneByte.chunkDatagram 0)) =
      .ok (0, [], afterAll .new [oneByte.newDatagram, oneByte.chunkDatagram 0]) :=
    receive_eq (by decide +kernel)
  have hdone : (afterAll .new [oneByte.newDatagram, oneByte.chunkDatagram 0]).pdpUdpReceiverReceive
        (.datagram oneByte.doneDatagram) =
      .ok (1, [datagram 7 pdpUdpResend []], afterOneByte) :=
    receive_eq (by decide +kernel)
  have hid : afterOneByte.xConnectionId = 7 := by decide +kernel
  have hack : receiveFilter 7 pdpUdpAcknew (datagram 7 pdpUdpAcknew []) = some (.got []) := by
    decide +kernel
  have hresend : receiveFilter 7 pdpUdpResend (datagram 7 pdpUdpResend []) = some (.got []) := by
    decide +kernel
  have h₁ := (Execution.start (C := C)).elsewhere
    ⟨.call oneByte 3 rfl fun t ht => absurd ht List.not_mem_nil, Or.inl rfl⟩
  have h₂ := h₁.elsewhere ⟨.send (k := fun _ => _) rfl, Or.inl rfl⟩
  have h₃ := h₂.quiet (i := .datagram oneByte.newDatagram) List.mem_cons_self (hC _ _) hnew
  have h₄ := h₃.elsewhere ⟨.receivePacket (k := fun _ => _) rfl List.mem_cons_self hack, Or.inl rfl⟩
  have h₅ := h₄.elsewhere ⟨.send (k := fun _ => _) rfl, Or.inl rfl⟩
  have h₆ := h₅.quiet (i := .datagram (oneByte.chunkDatagram 0))
    (List.mem_cons.mpr (Or.inl (by decide +kernel))) (hC _ _) hdata
  have h₇ := h₆.elsewhere ⟨.send (k := fun _ => _) rfl, Or.inl rfl⟩
  have h₈ := h₇.delivers (i := .datagram oneByte.doneDatagram) List.mem_cons_self (hC _ _) hdone hid
  have h₉ := h₈.elsewhere
    ⟨.receivePacket (k := fun _ => _) rfl List.mem_cons_self hresend, Or.inl rfl⟩
  have h₁₀ := h₉.elsewhere ⟨.ret rfl, Or.inl rfl⟩
  refine ⟨_, h₁₀, rfl, rfl, rfl, ?_⟩
  show [_, _, _] = [_, _, _]
  decide +kernel

/-- The first transmission comes again, datagram by datagram, after the start of
the second. -/
theorem delivered_twice : ∃ s, Execution (fun _ _ _ => True) [7, 7] s := by
  obtain ⟨⟨sender, receiver, history, toReceiver, toSender⟩, h, hsender, hreceiver, hhistory,
    hto⟩ := execution_oneByte (C := fun _ _ _ => True) fun _ _ => trivial
  obtain rfl : sender = none := hsender
  obtain rfl : receiver = afterOneByte := hreceiver
  obtain rfl : history = [oneByte] := hhistory
  obtain rfl : toReceiver = [oneByte.doneDatagram, oneByte.chunkDatagram 0, oneByte.newDatagram] :=
    hto
  have hother : afterOneByte.pdpUdpReceiverReceive (.datagram anotherByte.newDatagram) =
      .ok (0, [datagram 9 pdpUdpAcknew []], afterAll afterOneByte [anotherByte.newDatagram]) :=
    receive_eq (by decide +kernel)
  have hnew : (afterAll afterOneByte [anotherByte.newDatagram]).pdpUdpReceiverReceive
        (.datagram oneByte.newDatagram) =
      .ok (0, [datagram 7 pdpUdpAcknew []],
        afterAll afterOneByte [anotherByte.newDatagram, oneByte.newDatagram]) :=
    receive_eq (by decide +kernel)
  have hdata : (afterAll afterOneByte
        [anotherByte.newDatagram, oneByte.newDatagram]).pdpUdpReceiverReceive
        (.datagram (oneByte.chunkDatagram 0)) =
      .ok (0, [], afterAll afterOneByte
        [anotherByte.newDatagram, oneByte.newDatagram, oneByte.chunkDatagram 0]) :=
    receive_eq (by decide +kernel)
  have hdone : (afterAll afterOneByte [anotherByte.newDatagram, oneByte.newDatagram,
        oneByte.chunkDatagram 0]).pdpUdpReceiverReceive (.datagram oneByte.doneDatagram) =
      .ok (1, [datagram 7 pdpUdpResend []], afterAll afterOneByte [anotherByte.newDatagram,
        oneByte.newDatagram, oneByte.chunkDatagram 0, oneByte.doneDatagram]) :=
    receive_eq (by decide +kernel)
  have hid : (afterAll afterOneByte [anotherByte.newDatagram, oneByte.newDatagram,
      oneByte.chunkDatagram 0, oneByte.doneDatagram]).xConnectionId = 7 := by
    decide +kernel
  have hdistinct : ∀ t ∈ [oneByte], t.connectionId ≠ anotherByte.connectionId := by decide
  have h₁ := h.elsewhere ⟨.call anotherByte 3 rfl hdistinct, Or.inl rfl⟩
  have h₂ := h₁.elsewhere ⟨.send (k := fun _ => _) rfl, Or.inl rfl⟩
  have h₃ := h₂.quiet (i := .datagram anotherByte.newDatagram) List.mem_cons_self trivial hother
  have h₄ := h₃.quiet (i := .datagram oneByte.newDatagram)
    (by simp only [MayArrive, List.mem_cons, true_or, or_true]) trivial hnew
  have h₅ := h₄.quiet (i := .datagram (oneByte.chunkDatagram 0))
    (by simp only [MayArrive, List.mem_cons, true_or, or_true]) trivial hdata
  have h₆ := h₅.delivers (i := .datagram oneByte.doneDatagram)
    (by simp only [MayArrive, List.mem_cons, true_or, or_true]) trivial hdone hid
  exact ⟨_, h₆⟩

/-- As long as no transmission that is done is announced again in the middle of
another one, none is delivered twice. -/
theorem execution_deliveredOnce {l : List Nat} {s : System} (h : Execution NoStaleNew l s) :
    l.Nodup := by
  suffices ho : DeliveredOnce l s.receiver from ho.nodup
  induction h with
  | start => exact ⟨List.nodup_nil, List.not_mem_nil, fun h => absurd h List.not_mem_nil⟩
  | elsewhere _ h ih => exact ih.elsewhere h
  | receive hs hi hc h ih => exact ih.receive hs.reachable hi hc h

/-- Two transmissions; in between the start of the first one arrives once more, while the receiver
still has this one. -/
theorem execution_deliveredOnce_twoBytes :
    ∃ s, Execution NoStaleNew [9, 7] s ∧ [9, 7].Nodup := by
  obtain ⟨⟨sender, receiver, history, toReceiver, toSender⟩, h, hsender, hreceiver, hhistory,
    hto⟩ := execution_oneByte (C := NoStaleNew) fun s i tr _ hmem => absurd hmem List.not_mem_nil
  obtain rfl : sender = none := hsender
  obtain rfl : receiver = afterOneByte := hreceiver
  obtain rfl : history = [oneByte] := hhistory
  obtain rfl : toReceiver = [oneByte.doneDatagram, oneByte.chunkDatagram 0, oneByte.newDatagram] :=
    hto
  have hagain : afterOneByte.pdpUdpReceiverReceive (.datagram oneByte.newDatagram) =
      .ok (0, [datagram 7 pdpUdpAcknew []], afterAll afterOneByte [oneByte.newDatagram]) :=
    receive_eq (by decide +kernel)
  have hnew : (afterAll afterOneByte [oneByte.newDatagram]).pdpUdpReceiverReceive
        (.datagram anotherByte.newDatagram) =
      .ok (0, [datagram 9 pdpUdpAcknew []],
        afterAll afterOneByte [oneByte.newDatagram, anotherByte.newDatagram]) :=
    receive_eq (by decide +kernel)
  have hdata : (afterAll afterOneByte
        [oneByte.newDatagram, anotherByte.newDatagram]).pdpUdpReceiverReceive
        (.datagram (anotherByte.chunkDatagram 0)) =
      .ok (0, [], afterAll afterOneByte
        [oneByte.newDatagram, anotherByte.newDatagram, anotherByte.chunkDatagram 0]) :=
    receive_eq (by decide +kernel)
  have hdone : (afterAll afterOneByte [oneByte.newDatagram, anotherByte.newDatagram,
        anotherByte.chunkDatagram 0]).pdpUdpReceiverReceive (.datagram anotherByte.doneDatagram) =
      .ok (1, [datagram 9 pdpUdpResend []], afterAll afterOneByte [oneByte.newDatagram,
        anotherByte.newDatagram, anotherByte.chunkDatagram 0, anotherByte.doneDatagram]) :=
    receive_eq (by decide +kernel)
  have hid : (afterAll afterOneByte [oneByte.newDatagram, anotherByte.newDatagram,
      anotherByte.chunkDatagram 0, anotherByte.doneDatagram]).xConnectionId = 9 := by
    decide +kernel
  have hack : receiveFilter 9 pdpUdpAcknew (datagram 9 pdpUdpAcknew []) = some (.got []) := by
    decide +kernel
  have hdistinct : ∀ t ∈ [oneByte], t.connectionId ≠ anotherByte.connectionId := by decide
  have hfresh : ∀ {s : System} {d : Datagram}, s.history = [anotherByte, oneByte] →
      oneByte.newDatagram ≠ d → NoStaleNew [7] s (.datagram d) := by
    intro s d hs hd tr htr hmem heq
    rw [hs] at htr
    rcases List.mem_cons.mp htr with rfl | htr
    · exact absurd (List.mem_singleton.mp hmem) (by decide)
    · obtain rfl := List.mem_singleton.mp htr
      cases heq
      exact absurd rfl hd
  have h₁ := h.quiet (i := .datagram oneByte.newDatagram)
    (by simp only [MayArrive, List.mem_cons, true_or, or_true])
    (fun tr htr _ _ => by
      obtain rfl := List.mem_singleton.mp htr
      show afterOneByte.xConnectionId = 7
      decide +kernel) hagain
  have h₂ := h₁.elsewhere ⟨.call anotherByte 3 rfl hdistinct, Or.inl rfl⟩
  have h₃ := h₂.elsewhere ⟨.send (k := fun _ => _) rfl, Or.inl rfl⟩
  have h₄ := h₃.quiet (i := .datagram anotherByte.newDatagram) List.mem_cons_self
    (hfresh rfl (by decide +kernel)) hnew
  have h₅ := h₄.elsewhere ⟨.receivePacket (k := fun _ => _) rfl List.mem_cons_self hack, Or.inl rfl⟩
  have h₆ := h₅.elsewhere ⟨.send (k := fun _ => _) rfl, Or.inl rfl⟩
  have h₇ := h₆.quiet (i := .datagram (anotherByte.chunkDatagram 0))
    (List.mem_cons.mpr (Or.inl (by decide +kernel))) (hfresh rfl (by decide +kernel)) hdata
  have h₈ := h₇.elsewhere ⟨.send (k := fun _ => _) rfl, Or.inl rfl⟩
  have h₉ := h₈.delivers (i := .datagram anotherByte.doneDatagram) List.mem_cons_self
    (hfresh rfl (by decide +kernel)) hdone hid
  exact ⟨_, h₉, execution_deliveredOnce h₉⟩

end System

end PureDataPacket
