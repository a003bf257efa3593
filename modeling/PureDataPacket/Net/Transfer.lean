/-
# `PureDataPacket.Net.Transfer` — sender, receiver and the channel between them

The channel may lose, duplicate, delay and reorder datagrams, but not change
them: a datagram that was sent may arrive at any time, never, or again.  So the
channel is the list of all that was ever sent in one direction, and a datagram
that arrives is any member of it.

The sender runs any number of transmissions, one after the other, each with an
id of its own.  Both sides take their steps in any order.
-/
import PureDataPacket.Net.Reception
import PureDataPacket.Net.Sender

namespace PureDataPacket

open Receiver

/-- Both sides and the channel.  `sender` is what is left to do of the current
call of `pdp_udp_sender_send`; `history` has all transmissions so far. -/
structure System where
  sender : Option (Transmission × SendProg Int)
  receiver : Receiver
  history : List Transmission
  toReceiver : List Datagram
  toSender : List Datagram

namespace System

def start : System where
  sender := none
  receiver := Receiver.new
  history := []
  toReceiver := []
  toSender := []

/-- What the receiver may find on its socket. -/
def MayArrive (s : System) : Incoming → Prop
  | .datagram d => d ∈ s.toReceiver
  | _ => True

/-- One step of one side. -/
inductive Step : System → System → Prop
  | call {s : System} (tr : Transmission) (xSocket : Int) (hidle : s.sender = none)
      (hnew : ∀ t ∈ s.history, t.connectionId ≠ tr.connectionId) :
      Step s { s with sender := some (tr, pdpUdpSenderSend tr xSocket), history := tr :: s.history }
  | send {s : System} {tr : Transmission} {d : Datagram} {k : Unit → SendProg Int}
      (h : s.sender = some (tr, .act (.send d) k)) :
      Step s { s with sender := some (tr, k ()), toReceiver := d :: s.toReceiver }
  | receivePacket {s : System} {tr : Transmission} {id : Nat} {t : Int} {k : Reply → SendProg Int}
      {d : Datagram} {reply : Reply} (h : s.sender = some (tr, .act (.receivePacket id t) k))
      (hd : d ∈ s.toSender) (hreply : receiveFilter id t d = some reply) :
      Step s { s with sender := some (tr, k reply) }
  | timeout {s : System} {tr : Transmission} {id : Nat} {t : Int} {k : Reply → SendProg Int}
      (h : s.sender = some (tr, .act (.receivePacket id t) k)) :
      Step s { s with sender := some (tr, k .timeout) }
  | error {s : System} {tr : Transmission} {id : Nat} {t : Int} {k : Reply → SendProg Int}
      (h : s.sender = some (tr, .act (.receivePacket id t) k)) :
      Step s { s with sender := some (tr, k .error) }
  | ret {s : System} {tr : Transmission} {r : Int} (h : s.sender = some (tr, .done r)) :
      Step s { s with sender := none }
  | receive {s : System} {i : Incoming} {r : Int} {sent : List Datagram} {x : Receiver}
      (hi : s.MayArrive i) (h : s.receiver.pdpUdpReceiverReceive i = .ok (r, sent, x)) :
      Step s { s with receiver := x, toSender := sent ++ s.toSender }
  | reset {s : System} : Step s { s with receiver := s.receiver.reset }

/-- The states that can be reached. -/
inductive Reachable : System → Prop
  | start : Reachable start
  | step {s s' : System} (hs : Reachable s) (h : Step s s') : Reachable s'

/-! ## The invariant -/

/-- Both directions carry datagrams of known transmissions only, and each side
keeps to what it has to. -/
structure Inv (s : System) : Prop where
  ids : DistinctIds s.history
  receiver : ReceiverOk s.history s.receiver
  toReceiver : ∀ d ∈ s.toReceiver, ∃ tr ∈ s.history, tr.Emitted d
  toSender : ∀ d ∈ s.toSender, ∃ tr ∈ s.history, ReplyTo tr d
  sender : ∀ tr p, s.sender = some (tr, p) →
    tr ∈ s.history ∧ p.Obeys (Sends tr) (Sound tr) fun _ => True

theorem inv_start : Inv start where
  ids := fun _ ha => absurd ha List.not_mem_nil
  receiver := ⟨Or.inl rfl, fun h => by cases h⟩
  toReceiver := fun _ hd => absurd hd List.not_mem_nil
  toSender := fun _ hd => absurd hd List.not_mem_nil
  sender := fun _ _ h => by cases h

/-- An answer that passes the filter is about the current transmission. -/
theorem sound_of_receiveFilter {history : List Transmission} (hids : DistinctIds history)
    {tr : Transmission} (htr : tr ∈ history) {d : Datagram}
    (hd : ∃ t ∈ history, ReplyTo t d) {t : Int} {reply : Reply}
    (h : receiveFilter tr.connectionId t d = some reply) :
    Sound tr (.receivePacket tr.connectionId t) reply := by
  obtain ⟨tr', htr', hd⟩ := hd
  have hread : ∀ (seq : Int) (body : List UInt8), body.length ≤ maxUdpPacket - udpHeaderSize →
      -2 ^ 31 ≤ seq → seq < 2 ^ 31 → d = datagram tr'.connectionId seq body →
      tr.connectionId = tr'.connectionId ∧ seq = t ∧ reply = .got (words body) := by
    rintro seq body hbody hlo hhi rfl
    have htake : (datagram tr'.connectionId seq body).take maxUdpPacket =
        datagram tr'.connectionId seq body := by
      refine List.take_of_length_le ?_
      rw [length_datagram]
      simp only [maxUdpPacket, udpHeaderSize] at hbody ⊢
      omega
    have hheader := readUdpHeader_datagram tr'.id_lt seq body []
    rw [List.append_nil] at hheader
    have hdrop := drop_datagram tr'.connectionId seq body []
    rw [List.append_nil, List.append_nil] at hdrop
    have his : isUdpHeader ⟨pdpSignature, pdpUdpVersion, tr'.connectionId, ofInt32 seq⟩
        (datagram tr'.connectionId seq body).length = true :=
      isUdpHeader_datagram (by rw [length_datagram]; omega)
    simp only [receiveFilter, htake, hheader, hdrop, his, toInt32_ofInt32 hlo hhi, Bool.not_true,
      Bool.false_eq_true, if_false] at h
    split at h
    · cases h
    · next hid =>
        split at h
        · cases h
        · next hseq =>
            cases h
            exact ⟨not_not.mp hid, not_not.mp hseq, rfl⟩
  cases hd with
  | ack =>
      obtain ⟨_, hseq, rfl⟩ := hread pdpUdpAcknew [] (Nat.zero_le _) (by decide) (by decide) rfl
      intro hresend
      rw [hresend] at hseq
      cases hseq
  | @resend l hl hmax =>
      have hbody : (l.flatMap le32).length ≤ maxUdpPacket - udpHeaderSize := by
        rw [length_encode]
        simp only [resendMaxChunks, maxUdpPacket, udpHeaderSize] at hmax ⊢
        omega
      obtain ⟨hid, _, rfl⟩ := hread pdpUdpResend _ hbody (by decide) (by decide) rfl
      obtain rfl := hids tr htr tr' htr' hid
      intro _
      rw [words_encode]
      · exact hl
      · intro n hn
        exact Nat.lt_of_lt_of_le (hl n hn) (Nat.le_trans tr.nbChunks_le (Nat.le_of_lt tr.data_lt))

/-- What one call of `pdp_udp_receiver_receive` does, in any state that meets
the invariant. -/
theorem Inv.received {s : System} (hs : Inv s) {i : Incoming} (hi : s.MayArrive i) {r : Int}
    {sent : List Datagram} {x : Receiver}
    (h : s.receiver.pdpUdpReceiverReceive i = .ok (r, sent, x)) :
    Received s.history r sent x := by
  have hquiet : ∀ r', r' ≠ 1 → Received s.history r' [] s.receiver := fun r' hr =>
    ⟨hs.receiver, fun d hd => absurd hd List.not_mem_nil, fun h => absurd h hr⟩
  cases i with
  | selectError =>
      cases h
      exact hquiet _ (by decide)
  | timeout =>
      cases h
      exact hquiet _ (by decide)
  | recvError =>
      cases h
      exact hquiet _ (by decide)
  | datagram d =>
      obtain ⟨tr, htr, hd⟩ := hs.toReceiver d hi
      exact received_emitted hs.ids htr hs.receiver hd h

theorem ReceiverOk.mono {history history' : List Transmission} {x : Receiver}
    (h : ReceiverOk history x) (hsub : ∀ tr ∈ history, tr ∈ history') : ReceiverOk history' x where
  current := h.current.imp_right fun ⟨tr, htr, hrec⟩ => ⟨tr, hsub tr htr, hrec⟩
  finished := h.finished

theorem Inv.sender_step {s : System} (hs : Inv s) {tr : Transmission} {o : SendOp}
    {k : o.Answer → SendProg Int} (h : s.sender = some (tr, .act o k)) {r : o.Answer}
    (hr : Sound tr o r) : Inv { s with sender := some (tr, k r) } := by
  obtain ⟨htr, hp⟩ := hs.sender tr _ h
  refine ⟨hs.ids, hs.receiver, hs.toReceiver, hs.toSender, fun tr' p h' => ?_⟩
  cases h'
  exact ⟨htr, hp.2 r hr⟩

theorem Inv.step {s s' : System} (hs : Inv s) (h : Step s s') : Inv s' := by
  cases h with
  | call tr xSocket hidle hnew =>
      have hsub : ∀ t ∈ s.history, t ∈ tr :: s.history := fun t ht => List.mem_cons_of_mem _ ht
      refine ⟨?_, ReceiverOk.mono hs.receiver hsub,
        fun d hd => (hs.toReceiver d hd).imp fun t ht => ⟨hsub t ht.1, ht.2⟩,
        fun d hd => (hs.toSender d hd).imp fun t ht => ⟨hsub t ht.1, ht.2⟩, fun tr' p h => ?_⟩
      · intro a ha b hb hab
        rcases List.mem_cons.mp ha with rfl | ha' <;> rcases List.mem_cons.mp hb with rfl | hb'
        · rfl
        · exact absurd hab.symm (hnew b hb')
        · exact absurd hab (hnew a ha')
        · exact hs.ids a ha' b hb' hab
      · cases h
        exact ⟨List.mem_cons_self, obeys_pdpUdpSenderSend tr xSocket⟩
  | @send tr d k h =>
      obtain ⟨htr, hp⟩ := hs.sender tr _ h
      have hnext := hs.sender_step h (r := ()) trivial
      refine ⟨hnext.ids, hnext.receiver, fun d' hd' => ?_, hnext.toSender, hnext.sender⟩
      rcases List.mem_cons.mp hd' with rfl | hd'
      · exact ⟨tr, htr, hp.1⟩
      · exact hs.toReceiver d' hd'
  | @receivePacket tr id t k d reply h hd hreply =>
      obtain ⟨htr, hp⟩ := hs.sender tr _ h
      have hid : id = tr.connectionId := hp.1
      subst hid
      exact hs.sender_step h (sound_of_receiveFilter hs.ids htr (hs.toSender d hd) hreply)
  | timeout h => exact hs.sender_step h (r := Reply.timeout) trivial
  | error h => exact hs.sender_step h (r := Reply.error) trivial
  | ret h =>
      exact ⟨hs.ids, hs.receiver, hs.toReceiver, hs.toSender, fun tr p h => by cases h⟩
  | receive hi h =>
      have hr := hs.received hi h
      refine ⟨hs.ids, hr.ok, hs.toReceiver, fun d hd => ?_, hs.sender⟩
      rcases List.mem_append.mp hd with hd | hd
      · exact hr.replies d hd
      · exact hs.toSender d hd
  | reset =>
      exact ⟨hs.ids, ⟨Or.inl rfl, hs.receiver.finished⟩, hs.toReceiver, hs.toSender, hs.sender⟩

theorem Reachable.inv {s : System} (hs : Reachable s) : Inv s := by
  induction hs with
  | start => exact inv_start
  | step _ h ih => exact ih.step h

/-- When the receiver says that it has everything, it has exactly what was
sent. -/
theorem receive_complete {s : System} (hs : Reachable s) {i : Incoming} (hi : s.MayArrive i)
    {sent : List Datagram} {x : Receiver}
    (h : s.receiver.pdpUdpReceiverReceive i = .ok (1, sent, x)) :
    ∃ tr ∈ s.history, Complete tr x ∧
      ∀ tr' ∈ s.history, tr'.connectionId = x.xConnectionId → tr' = tr := by
  obtain ⟨tr, htr, hcomplete⟩ := (hs.inv.received hi h).complete rfl
  refine ⟨tr, htr, hcomplete, fun tr' htr' hid => ?_⟩
  exact hs.inv.ids tr' htr' tr htr (hid.trans hcomplete.id)

/-- One byte, described `i`. -/
def oneByte : Transmission where
  connectionId := 7
  type := [105]
  data := [42]
  chunkSize := 1
  id_ne_zero := by decide
  id_lt := by decide
  type_ne_zero := by
    intro b hb
    rw [List.mem_singleton.mp hb]
    decide
  data_pos := by decide
  data_lt := by decide
  chunk_pos := by decide
  chunk_le := by decide

def afterReceive (x : Receiver) (d : Datagram) : Receiver :=
  match x.pdpUdpReceiverReceive (.datagram d) with
  | .ok (_, _, y) => y
  | .error _ => x

theorem receive_eq {x : Receiver} {d : Datagram} {r : Int} {sent : List Datagram}
    (h : (x.pdpUdpReceiverReceive (.datagram d)).toOption.map (fun o => (o.1, o.2.1)) =
      some (r, sent)) :
    x.pdpUdpReceiverReceive (.datagram d) = .ok (r, sent, afterReceive x d) := by
  unfold afterReceive
  cases he : x.pdpUdpReceiverReceive (.datagram d) with
  | error e =>
      rw [he] at h
      cases h
  | ok o =>
      obtain ⟨r', sent', y⟩ := o
      rw [he] at h
      cases h
      rfl

theorem receive_complete_oneByte : ∃ s i sent x, Reachable s ∧ s.MayArrive i ∧
    s.receiver.pdpUdpReceiverReceive i = .ok (1, sent, x) ∧
    ∃ tr ∈ s.history, Complete tr x ∧
      ∀ tr' ∈ s.history, tr'.connectionId = x.xConnectionId → tr' = tr := by
  have hnew : Receiver.new.pdpUdpReceiverReceive (.datagram oneByte.newDatagram) =
      .ok (0, [datagram 7 pdpUdpAcknew []], afterReceive .new oneByte.newDatagram) :=
    receive_eq (by decide +kernel)
  have hdata : (afterReceive .new oneByte.newDatagram).pdpUdpReceiverReceive
        (.datagram (oneByte.chunkDatagram 0)) =
      .ok (0, [], afterReceive (afterReceive .new oneByte.newDatagram) (oneByte.chunkDatagram 0)) :=
    receive_eq (by decide +kernel)
  have hdone : (afterReceive (afterReceive .new oneByte.newDatagram)
        (oneByte.chunkDatagram 0)).pdpUdpReceiverReceive (.datagram oneByte.doneDatagram) =
      .ok (1, [datagram 7 pdpUdpResend []], afterReceive (afterReceive (afterReceive .new
        oneByte.newDatagram) (oneByte.chunkDatagram 0)) oneByte.doneDatagram) :=
    receive_eq (by decide +kernel)
  have hack : receiveFilter 7 pdpUdpAcknew (datagram 7 pdpUdpAcknew []) = some (.got []) := by
    decide +kernel
  have h₁ := Reachable.start.step (.call oneByte 3 rfl fun t ht => absurd ht List.not_mem_nil)
  have h₂ := h₁.step (.send (k := fun _ => _) rfl)
  have h₃ := h₂.step (.receive (i := .datagram oneByte.newDatagram) List.mem_cons_self hnew)
  have h₄ := h₃.step (.receivePacket (k := fun _ => _) rfl List.mem_cons_self hack)
  have h₅ := h₄.step (.send (k := fun _ => _) rfl)
  have h₆ := h₅.step (.receive (i := .datagram (oneByte.chunkDatagram 0))
    (List.mem_cons.mpr (Or.inl (by decide +kernel))) hdata)
  have h₇ := h₆.step (.send (k := fun _ => _) rfl)
  exact ⟨_, .datagram oneByte.doneDatagram, _, _, h₇, List.mem_cons_self, hdone,
    receive_complete h₇ (i := .datagram oneByte.doneDatagram) List.mem_cons_self hdone⟩

end System

end PureDataPacket
