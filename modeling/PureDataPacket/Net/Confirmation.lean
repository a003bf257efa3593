/-
# `PureDataPacket.Net.Confirmation` — what success of the sender means

`pdp_udp_sender_send` returns 1 when `_need_resend` has nothing to send again.
That is so when the receiver has asked for no chunk, and also when
`_need_resend` gave up: after an error, or after three answers that did not
come or were too long.  Here is exactly when the two can be told apart.

| | |
| :-- | :-- |
| `RoundsAnswered` | the receiver says which chunks it lacks |
| `NeverGivesUp` | the sender does not get to ask the receiver, or it is answered in every round |
| `Confirmed` | the receiver has said that it lacks nothing |
| `logs_handshake` | the handshake takes no confirmation, and leaves off where it was answered |
| `logs_transmit` | a round that has no answer is the last one, and counts as success |
-/
import PureDataPacket.Net.Transfer

namespace PureDataPacket

open Receiver (Incoming)

/-! ## A socket with a script

What `_receive_packet` finds is a list, first thing first.  After it, silence:
every `select` times out. -/

/-- `_receive_packet`, with the loop that skips what is not for it. -/
def receivePacket (connectionId : Nat) (desiredType : Int) :
    List Incoming → Reply × List Incoming
  | [] => (.timeout, [])
  | .selectError :: l => (.error, l)
  | .timeout :: l => (.timeout, l)
  | .recvError :: l => (.error, l)
  | .datagram d :: l =>
      match receiveFilter connectionId desiredType d with
      | none => receivePacket connectionId desiredType l
      | some reply => (reply, l)

/-- The actions of the sender on such a socket. -/
def SendOp.exec : ∀ o : SendOp, List Incoming → Except Fault (o.Answer × List Incoming)
  | .send _, l => .ok ((), l)
  | .receivePacket id t, l => .ok (PureDataPacket.receivePacket id t l)

/-! ## The condition, on the script alone -/

section Script

variable (tr : Transmission)

/-- The first answer to the handshake, or error, that `n` attempts meet: what
comes after it. -/
def afterHandshake : Nat → List Incoming → Option (List Incoming)
  | 0, _ => none
  | n + 1, l =>
      match receivePacket tr.connectionId pdpUdpAcknew l with
      | (.timeout, l') => afterHandshake n l'
      | (_, l') => some l'

/-- The list of chunks that ends a round of `n` attempts, if there is one, and
what comes after it. -/
def roundAnswer : Nat → List Incoming → Option (List Nat) × List Incoming
  | 0, l => (none, l)
  | n + 1, l =>
      match receivePacket tr.connectionId pdpUdpResend l with
      | (.timeout, l') => roundAnswer n l'
      | (.error, l') => (none, l')
      | (.got chunks, l') =>
          if chunks.length > tr.nbChunks then roundAnswer n l' else (some chunks, l')

/-- Every round, as long as `n` of them go on, has an answer: the receiver
says which chunks it lacks. -/
def RoundsAnswered : Nat → List Incoming → Prop
  | 0, _ => True
  | n + 1, l =>
      match roundAnswer tr 3 l with
      | (none, _) => False
      | (some [], _) => True
      | (some (_ :: _), l') => RoundsAnswered n l'

/-- The sender does not get to ask the receiver, or it is answered in every
round. -/
def NeverGivesUp (xSocket : Int) (l : List Incoming) : Prop :=
  xSocket ≠ -1 → ∀ l', afterHandshake tr 5 l = some l' → RoundsAnswered tr 5 l'

/-- The receiver has confirmed that it has everything: an empty `PDP_UDP_RESEND`
with the connection id of the transmission has been received. -/
def Confirmed (events : List ((o : SendOp) × o.Answer)) : Prop :=
  ⟨.receivePacket tr.connectionId pdpUdpResend, Reply.got []⟩ ∈ events

end Script

/-! ## What the sender makes of its answers -/

section Logs

variable {tr : Transmission}

theorem confirmed_nil : ¬ Confirmed tr [] := List.not_mem_nil

theorem confirmed_send {d : Datagram} {events : List ((o : SendOp) × o.Answer)} :
    Confirmed tr (⟨.send d, ()⟩ :: events) ↔ Confirmed tr events := by
  constructor
  · intro h
    cases h with
    | tail _ h => exact h
  · exact List.mem_cons_of_mem _

theorem confirmed_resend {reply : Reply} {events : List ((o : SendOp) × o.Answer)} :
    Confirmed tr (⟨.receivePacket tr.connectionId pdpUdpResend, reply⟩ :: events) ↔
      reply = .got [] ∨ Confirmed tr events := by
  constructor
  · intro h
    cases h with
    | head => exact Or.inl rfl
    | tail _ h => exact Or.inr h
  · rintro (rfl | h)
    · exact List.mem_cons_self
    · exact List.mem_cons_of_mem _ h

theorem confirmed_acknew {reply : Reply} {events : List ((o : SendOp) × o.Answer)} :
    Confirmed tr (⟨.receivePacket tr.connectionId pdpUdpAcknew, reply⟩ :: events) ↔
      Confirmed tr events := by
  constructor
  · intro h
    cases h with
    | tail _ h => exact h
  · exact List.mem_cons_of_mem _

theorem confirmed_append {events events' : List ((o : SendOp) × o.Answer)} :
    Confirmed tr (events ++ events') ↔ Confirmed tr events ∨ Confirmed tr events' :=
  List.mem_append

theorem logs_sendChunks (chunks : List Nat) (l : List Incoming) :
    (sendChunks tr chunks).Logs SendOp.exec
      (fun _ events l' => ¬ Confirmed tr events ∧ l' = l) l := by
  induction chunks with
  | nil => exact ⟨confirmed_nil, rfl⟩
  | cons seq chunks ih =>
      show Prog.Logs _ (if _ then _ else _) _ _
      split
      · trivial
      · intro r s' he
        cases he
        exact Prog.logs_mono (fun _ _ _ h => ⟨confirmed_send.not.mpr h.1, h.2⟩) ih

/-- `_need_resend` has an empty list both for an empty answer and for none. -/
theorem logs_needResend (n : Nat) (l : List Incoming) :
    (needResend tr n).Logs SendOp.exec
      (fun chunks events l' => chunks = (roundAnswer tr n l).1.getD [] ∧
        l' = (roundAnswer tr n l).2 ∧
        (Confirmed tr events ↔ (roundAnswer tr n l).1 = some [])) l := by
  induction n generalizing l with
  | zero => exact ⟨rfl, rfl, confirmed_nil.elim, fun h => by cases h⟩
  | succ n ih =>
      intro _ s' he
      cases he
      intro reply rest he
      have hrest : receivePacket tr.connectionId pdpUdpResend l = (reply, rest) := by
        injection he
      have hevents : ∀ {events : List ((o : SendOp) × o.Answer)},
          Confirmed tr (⟨.send tr.doneDatagram, ()⟩ ::
            ⟨.receivePacket tr.connectionId pdpUdpResend, reply⟩ :: events) ↔
          reply = .got [] ∨ Confirmed tr events := confirmed_send.trans confirmed_resend
      cases reply with
      | timeout =>
          refine Prog.logs_mono (fun chunks events l' h => ?_) (ih rest)
          show _ ∧ _ ∧ (Confirmed tr (_ :: _ :: _) ↔ _)
          rw [hevents]
          simpa only [roundAnswer, hrest, reduceCtorEq, false_or] using h
      | error =>
          show _ ∧ _ ∧ _
          rw [hevents]
          simp only [roundAnswer, hrest, Option.getD_none, reduceCtorEq, confirmed_nil, or_self,
            and_self]
      | got chunks =>
          show Prog.Logs _ (if _ then _ else _) _ _
          split
          · next hlong =>
              have hne : chunks ≠ [] := by
                rintro rfl
                exact Nat.not_lt_zero _ hlong
              refine Prog.logs_mono (fun chunks events l' h => ?_) (ih rest)
              show _ ∧ _ ∧ (Confirmed tr (_ :: _ :: _) ↔ _)
              rw [hevents]
              simpa only [roundAnswer, hrest, hlong, if_true, Reply.got.injEq, hne, false_or]
                using h
          · next hshort =>
              show _ ∧ _ ∧ _
              rw [hevents]
              simp only [roundAnswer, hrest, hshort, if_false, Option.getD_some, confirmed_nil,
                or_false, Reply.got.injEq, Option.some.injEq, and_self]

theorem logs_transmit (n : Nat) (chunks : List Nat) (l : List Incoming) :
    (transmit tr n chunks).Logs SendOp.exec
      (fun r events _ => (r = 1 → Confirmed tr events) ↔ RoundsAnswered tr n l) l := by
  induction n generalizing chunks l with
  | zero => exact ⟨fun _ => trivial, fun _ h => by cases h⟩
  | succ n ih =>
      refine Prog.logs_bind (Prog.logs_mono ?_ (logs_sendChunks chunks l))
      rintro _ sent l' ⟨hsent, rfl⟩
      refine Prog.logs_bind (Prog.logs_mono ?_ (logs_needResend 3 l'))
      rintro chunks' events l'' ⟨hchunks, hl'', hevents⟩
      rw [RoundsAnswered]
      cases hround : roundAnswer tr 3 l' with
      | mk answer after =>
          rw [hround] at hchunks hl'' hevents
          obtain rfl : l'' = after := hl''
          cases answer with
          | none =>
              obtain rfl : chunks' = [] := hchunks
              have hnot : ¬ Confirmed tr (sent ++ (events ++ [])) := by
                rw [confirmed_append, confirmed_append, hevents]
                simp only [hsent, confirmed_nil, reduceCtorEq, or_self, not_false_iff]
              exact ⟨fun h => hnot (h rfl), False.elim⟩
          | some answer =>
              obtain rfl : chunks' = answer := hchunks
              cases chunks' with
              | nil =>
                  have hconf : Confirmed tr (sent ++ (events ++ [])) := by
                    rw [confirmed_append, confirmed_append]
                    exact Or.inr (Or.inl (hevents.mpr rfl))
                  exact ⟨fun _ => trivial, fun _ _ => hconf⟩
              | cons seq chunks' =>
                  refine Prog.logs_mono (fun r later _ h => ?_) (ih (seq :: chunks') l'')
                  rw [confirmed_append, confirmed_append, hevents]
                  simpa only [hsent, false_or, Option.some.injEq, reduceCtorEq] using h

theorem logs_handshake (n : Nat) (l : List Incoming) :
    (handshake tr n).Logs SendOp.exec
      (fun accepted events l' => ¬ Confirmed tr events ∧
        (afterHandshake tr n l = if accepted then some l' else none)) l := by
  induction n generalizing l with
  | zero => exact ⟨confirmed_nil, rfl⟩
  | succ n ih =>
      refine Prog.logs_bind ?_
      unfold sendHeaderPacket
      split
      · intro _ s' he
        cases he
        intro reply rest he
        have hrest : receivePacket tr.connectionId pdpUdpAcknew l = (reply, rest) := by
          injection he
        cases reply with
        | timeout =>
            refine Prog.logs_mono (fun accepted events l' h => ?_) (ih rest)
            refine ⟨(confirmed_send.trans confirmed_acknew).not.mpr h.1, ?_⟩
            rw [afterHandshake, hrest]
            exact h.2
        | error =>
            refine ⟨(confirmed_send.trans confirmed_acknew).not.mpr confirmed_nil, ?_⟩
            rw [afterHandshake, hrest]
            rfl
        | got chunks =>
            refine ⟨(confirmed_send.trans confirmed_acknew).not.mpr confirmed_nil, ?_⟩
            rw [afterHandshake, hrest]
            rfl
      · trivial

theorem logs_pdpUdpSenderSend (tr : Transmission) (xSocket : Int) (l : List Incoming) :
    (pdpUdpSenderSend tr xSocket).Logs SendOp.exec
      (fun r events _ => (r = 1 → Confirmed tr events) ↔ NeverGivesUp tr xSocket l) l := by
  unfold pdpUdpSenderSend
  split
  · next hclosed => exact ⟨fun _ hopen => absurd hclosed hopen, fun _ h => by cases h⟩
  · next hopen =>
      refine Prog.logs_bind (Prog.logs_mono ?_ (logs_handshake 5 l))
      rintro accepted hello l' ⟨hhello, hafter⟩
      cases accepted with
      | false =>
          refine ⟨fun _ _ l'' h => ?_, fun _ h => by cases h⟩
          rw [hafter] at h
          cases h
      | true =>
          refine Prog.logs_mono (fun r events _ h => ?_) (logs_transmit 5 _ l')
          rw [confirmed_append]
          simp only [hhello, false_or, h, NeverGivesUp, hafter, if_true, Option.some.injEq,
            forall_eq', hopen, ne_eq, not_false_iff, forall_const]

end Logs

/-- The receiver accepts one byte, and is not heard of again. -/
def silence : List Incoming := [.datagram (datagram 7 pdpUdpAcknew [])]

theorem receivePacket_silence :
    receivePacket 7 pdpUdpAcknew silence = (.got [], []) := by
  have hack : receiveFilter 7 pdpUdpAcknew (datagram 7 pdpUdpAcknew []) = some (.got []) := by
    decide +kernel
  rw [silence, receivePacket, hack]

theorem run_silence : (pdpUdpSenderSend System.oneByte 3).run SendOp.exec silence = .ok (1, []) := by
  have hhandshake : (handshake System.oneByte 5).run SendOp.exec silence = .ok (true, []) := by
    rw [handshake]
    show Prog.run _ (.act _ fun _ => .act _ _) _ = _
    rw [Prog.run_act_ok (show _ = Except.ok ((), silence) from rfl),
      Prog.run_act_ok (congrArg Except.ok receivePacket_silence)]
    rfl
  unfold pdpUdpSenderSend
  rw [if_neg (by decide)]
  refine (Prog.run_bind_ok hhandshake).trans ?_
  rfl

theorem silence_not_confirmed : ∃ tr xSocket l l',
    (pdpUdpSenderSend tr xSocket).run SendOp.exec l = .ok (1, l') ∧
      ¬ Confirmed tr ((pdpUdpSenderSend tr xSocket).trace SendOp.exec l) := by
  refine ⟨System.oneByte, 3, silence, [], run_silence, fun h => ?_⟩
  have hnever := (Prog.trace_of_logs (logs_pdpUdpSenderSend _ _ _) run_silence).mp fun _ => h
  have hafter : afterHandshake System.oneByte 5 silence = some [] := by
    have hreply : receivePacket System.oneByte.connectionId pdpUdpAcknew silence = (.got [], []) :=
      receivePacket_silence
    rw [afterHandshake, hreply]
  exact hnever (by decide) [] hafter

/-- Success means that the receiver has confirmed reception exactly when the
sender does not give up waiting for the list of missing chunks. -/
theorem success_iff_confirmed (tr : Transmission) (xSocket : Int) (l l' : List Incoming) (r : Int)
    (h : (pdpUdpSenderSend tr xSocket).run SendOp.exec l = .ok (r, l')) :
    (r = 1 → Confirmed tr ((pdpUdpSenderSend tr xSocket).trace SendOp.exec l)) ↔
      NeverGivesUp tr xSocket l :=
  Prog.trace_of_logs (logs_pdpUdpSenderSend tr xSocket l) h

theorem success_iff_confirmed_silence :
    ((1 : Int) = 1 → Confirmed System.oneByte
      ((pdpUdpSenderSend System.oneByte 3).trace SendOp.exec silence)) ↔
      NeverGivesUp System.oneByte 3 silence :=
  success_iff_confirmed System.oneByte 3 silence [] 1 run_silence

end PureDataPacket
