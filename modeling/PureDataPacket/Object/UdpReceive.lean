/-
# `PureDataPacket.Object.UdpReceive` — packets from a thread, two slots

The thread of `pdp_netreceive` puts every packet that it has received into one of two slots, and
a clock in the main thread passes packets on from the other one.  `x_index` says which is which;
only the thread changes it.

A packet is kept as its number among the packets that the thread has created.  A step is one
round of the thread or one tick of the clock.

| | |
| :-- | :-- |
| `Delivers` | what is owed |
| `Ordered` | which slot is the newer one |
| `Quiet` | no packet is received between a tick and the one before |
-/
import Mathlib.Data.List.Nodup
import Mathlib.Data.List.Perm.Basic
import Mathlib.Logic.Function.Basic

namespace PureDataPacket

/-- What a round of the thread finds. -/
inductive ReceiveAnswer where
  /-- -1: the thread ends -/
  | failed
  | timeout
  /-- the data of a packet; the factory makes no packet, or one of `dataSize` bytes -/
  | data (dataSize : Option Nat) (size : Nat)
  deriving DecidableEq

inductive UdpStep where
  | round (answer : ReceiveAnswer)
  | tick
  deriving DecidableEq

/-- `t_pdp_udp_receive`. -/
structure UdpReceive where
  index : Bool
  packet : Bool → Option Nat
  /-- the thread has not ended -/
  listening : Bool
  /-- how many packets were created -/
  created : Nat
  /-- what has left the outlet -/
  passed : List Nat
  /-- what was marked unused without having left the outlet -/
  released : List Nat
  /-- the packet that was received last, until the next tick -/
  recent : Option Nat

namespace UdpReceive

/-- `pdp_udp_receive_new`. -/
def new : UdpReceive := ⟨false, fun _ => none, true, 0, [], [], none⟩

/-- `clock_tick`. -/
def tick (x : UdpReceive) : UdpReceive :=
  match x.packet (!x.index) with
  | none => { x with recent := none }
  | some p =>
      { x with
        packet := Function.update x.packet (!x.index) none
        passed := x.passed ++ [p]
        recent := none }

/-- The end of a round, with a packet in which there are the data. -/
def enqueue (p : Nat) (x : UdpReceive) : UdpReceive :=
  let index := !x.index
  { x with
    index := index
    released := x.released ++ (x.packet index).toList
    packet := Function.update x.packet index (some p)
    recent := some p }

/-- A round of `receive_thread`. -/
def round (x : UdpReceive) : ReceiveAnswer → UdpReceive
  | .failed => { x with listening := false }
  | .timeout => x
  | .data none _ => x
  | .data (some dataSize) size =>
      let tmpPacket := x.created
      let x := { x with created := x.created + 1 }
      if dataSize ≠ size then { x with released := x.released ++ [tmpPacket] }
      else x.enqueue tmpPacket

def step (x : UdpReceive) : UdpStep → UdpReceive
  | .round answer => if x.listening then x.round answer else x
  | .tick => x.tick

def run (l : List UdpStep) (x : UdpReceive) : UdpReceive := l.foldl step x

def held (x : UdpReceive) : List Nat := (x.packet false).toList ++ (x.packet true).toList

/-- `pdp_udp_receive_free`, when the thread has ended. -/
def free (x : UdpReceive) : UdpReceive :=
  { x with
    packet := fun _ => none
    released := x.released ++ x.held }

/-! ## What a run is meant to do -/

/-- Packets leave in order, and each of them once or not at all; a tick passes on what was
received last; and all packets are accounted for. -/
structure Delivers (l : List UdpStep) : Prop where
  inOrder : (run l new).passed.Pairwise (· < ·)
  newest : ∀ a b p, l = a ++ .tick :: b → (run a new).recent = some p →
    (run (a ++ [.tick]) new).passed = (run a new).passed ++ [p]
  accounted : ((run l new).free.passed ++ (run l new).free.released).Perm
    (List.range (run l new).created)

/-! ## The slots -/

/-- What is in the slot of the thread is newer than what is in the other one, and that is newer
than what has been passed on. -/
structure Ordered (x : UdpReceive) : Prop where
  passed : x.passed.Pairwise (· < ·)
  older : ∀ q, x.packet (!x.index) = some q → ∃ p, x.packet x.index = some p ∧ q < p
  ahead : ∀ i, ∀ p, x.packet i = some p → ∀ r ∈ x.passed, r < p
  created : (∀ i, ∀ p, x.packet i = some p → p < x.created) ∧ ∀ r ∈ x.passed, r < x.created
  recent : ∀ p, x.recent = some p → x.packet x.index = some p
  accounted : (x.passed ++ x.released ++ x.held).Perm (List.range x.created)

section Step

variable {x : UdpReceive} {answer : ReceiveAnswer} {st : UdpStep} {l : List UdpStep} {p : Nat}

theorem held_perm (x : UdpReceive) (i : Bool) :
    x.held.Perm ((x.packet i).toList ++ (x.packet (!i)).toList) := by
  cases i with
  | false => exact .refl _
  | true => exact List.perm_append_comm

theorem ordered_new : Ordered new where
  passed := .nil
  older q h := by cases h
  ahead i p h := by cases h
  created := ⟨(fun i p h => by cases h), fun r hr => by cases hr⟩
  recent p h := by cases h
  accounted := .refl _

theorem Ordered.tick (h : Ordered x) : Ordered x.tick := by
  unfold UdpReceive.tick
  cases hq : x.packet (!x.index) with
  | none =>
      exact ⟨h.passed, h.older, h.ahead, h.created, (fun p hp => by cases hp), h.accounted⟩
  | some q =>
      obtain ⟨p, hp, hlt⟩ := h.older q hq
      have hself : Function.update x.packet (!x.index) none (!x.index) = none :=
        Function.update_self _ _ _
      have hother : Function.update x.packet (!x.index) none x.index = some p := by
        rw [Function.update_of_ne (by cases x.index <;> decide), hp]
      have hupdate : ∀ i r, Function.update x.packet (!x.index) none i = some r → r = p := by
        intro i r hr
        by_cases hi : i = !x.index
        · rw [hi, hself] at hr
          cases hr
        · have : i = x.index := by cases i <;> cases hx : x.index <;> simp_all
          rw [this, hother] at hr
          exact (Option.some.inj hr).symm
      have hlast := h.created.1 (!x.index) q hq
      have hcurrent := h.created.1 x.index p hp
      refine ⟨?_, ?_, ?_, ⟨?_, ?_⟩, (fun r hr => by cases hr), ?_⟩
      · refine List.pairwise_append.mpr ⟨h.passed, List.pairwise_singleton _ _, ?_⟩
        intro r hr s hs
        obtain rfl := List.mem_singleton.mp hs
        exact h.ahead _ s hq r hr
      · intro r hr
        cases hself.symm.trans hr
      · intro i r hr s hs
        obtain rfl := hupdate i r hr
        rcases List.mem_append.mp hs with hs | hs
        · exact h.ahead _ r hp s hs
        · obtain rfl := List.mem_singleton.mp hs
          exact hlt
      · intro i r hr
        obtain rfl := hupdate i r hr
        exact hcurrent
      · intro r hr
        rcases List.mem_append.mp hr with hr | hr
        · exact h.created.2 r hr
        · obtain rfl := List.mem_singleton.mp hr
          exact hlast
      · -- The packet leaves its slot, and is the last one that was passed on.
        refine List.Perm.trans ?_ h.accounted
        refine (List.Perm.append_left _ (held_perm _ x.index)).trans ?_
        refine .trans ?_ (List.Perm.append_left _ (held_perm x x.index)).symm
        show (x.passed ++ [q] ++ x.released ++
          ((Function.update x.packet (!x.index) none x.index).toList ++
            (Function.update x.packet (!x.index) none (!x.index)).toList)).Perm _
        rw [hother, hself, hp, hq]
        show (x.passed ++ [q] ++ x.released ++ [p]).Perm (x.passed ++ x.released ++ [p, q])
        rw [List.append_assoc x.passed, List.append_assoc x.passed, List.append_assoc x.passed]
        refine List.Perm.append_left _ ?_
        show (q :: (x.released ++ [p])).Perm (x.released ++ [p, q])
        refine (List.perm_append_singleton q (x.released ++ [p])).symm.trans ?_
        rw [List.append_assoc]
        exact .refl _

/-- A packet that is thrown away as soon as it was made. -/
theorem Ordered.discard (h : Ordered x) : Ordered
    { x with created := x.created + 1, released := x.released ++ [x.created] } where
  passed := h.passed
  older := h.older
  ahead := h.ahead
  created := ⟨fun i p hp => Nat.lt_succ_of_lt (h.created.1 i p hp),
    fun r hr => Nat.lt_succ_of_lt (h.created.2 r hr)⟩
  recent := h.recent
  accounted := by
    rw [List.range_succ]
    refine .trans ?_ (h.accounted.append_right [x.created])
    show (x.passed ++ (x.released ++ [x.created]) ++ x.held).Perm
      (x.passed ++ x.released ++ x.held ++ [x.created])
    rw [← List.append_assoc x.passed, List.append_assoc _ _ x.held, List.append_assoc _ x.held]
    exact List.Perm.append_left _ List.perm_append_comm

/-- A packet for the slot that the clock has been looking at. -/
theorem Ordered.enqueue (h : Ordered x) :
    Ordered ({ x with created := x.created + 1 }.enqueue x.created) := by
  have hne : x.index ≠ !x.index := by cases x.index <;> decide
  have hself : Function.update x.packet (!x.index) (some x.created) (!x.index) =
      some x.created := Function.update_self _ _ _
  have hother : Function.update x.packet (!x.index) (some x.created) x.index =
      x.packet x.index := Function.update_of_ne hne _ _
  have hupdate : ∀ i r, Function.update x.packet (!x.index) (some x.created) i = some r →
      r = x.created ∨ x.packet x.index = some r := by
    intro i r hr
    by_cases hi : i = !x.index
    · rw [hi, hself] at hr
      exact .inl (Option.some.inj hr).symm
    · have : i = x.index := by cases i <;> cases hx : x.index <;> simp_all
      rw [this, hother] at hr
      exact .inr hr
  refine ⟨h.passed, ?_, ?_, ⟨?_, ?_⟩, ?_, ?_⟩
  · intro q hq
    refine ⟨x.created, hself, ?_⟩
    have hq' : Function.update x.packet (!x.index) (some x.created) (!!x.index) = some q := hq
    rw [Bool.not_not, hother] at hq'
    exact h.created.1 _ q hq'
  · intro i r hr s hs
    rcases hupdate i r hr with rfl | hr
    · exact h.created.2 s hs
    · exact h.ahead _ r hr s hs
  · intro i r hr
    rcases hupdate i r hr with rfl | hr
    · exact Nat.lt_succ_self _
    · exact Nat.lt_succ_of_lt (h.created.1 _ r hr)
  · exact fun r hr => Nat.lt_succ_of_lt (h.created.2 r hr)
  · intro r hr
    obtain rfl := Option.some.inj hr
    exact hself
  · -- What was in the slot is released.
    show (x.passed ++ (x.released ++ (x.packet (!x.index)).toList) ++ _).Perm
      (List.range (x.created + 1))
    rw [List.range_succ]
    refine .trans ?_ (h.accounted.append_right [x.created])
    refine (List.Perm.append_left _ (held_perm _ x.index)).trans ?_
    refine .trans ?_
      (List.Perm.append_right _ (List.Perm.append_left _ (held_perm x (!x.index)))).symm
    show (x.passed ++ (x.released ++ (x.packet (!x.index)).toList) ++
      ((Function.update x.packet (!x.index) (some x.created) x.index).toList ++
        (Function.update x.packet (!x.index) (some x.created) (!x.index)).toList)).Perm _
    rw [hself, hother, Bool.not_not]
    simp only [Option.toList_some, List.append_assoc]
    exact .refl _

theorem Ordered.step (h : Ordered x) : Ordered (x.step st) := by
  cases st with
  | tick => exact h.tick
  | round answer =>
      show Ordered (if x.listening then x.round answer else x)
      split
      · cases answer with
        | failed => exact ⟨h.passed, h.older, h.ahead, h.created, h.recent, h.accounted⟩
        | timeout => exact h
        | data dataSize size =>
            cases dataSize with
            | none => exact h
            | some dataSize =>
                show Ordered (if dataSize ≠ size then _ else _)
                split
                · exact h.discard
                · exact h.enqueue
      · exact h

theorem Ordered.run (h : Ordered x) : Ordered (UdpReceive.run l x) := by
  induction l generalizing x with
  | nil => exact h
  | cons st l ih => exact ih h.step

theorem Ordered.passed_tick_ne (h : Ordered x) (hrecent : x.recent = some p) :
    x.tick.passed ≠ x.passed ++ [p] := by
  unfold UdpReceive.tick
  cases hq : x.packet (!x.index) with
  | none =>
      intro heq
      have hlen := congrArg List.length heq
      rw [List.length_append] at hlen
      exact absurd hlen (by simp)
  | some q =>
      obtain ⟨p', hp', hlt⟩ := h.older q hq
      obtain rfl := Option.some.inj ((h.recent p hrecent).symm.trans hp')
      intro heq
      obtain rfl := List.singleton_inj.mp (List.append_cancel_left heq)
      exact Nat.lt_irrefl _ hlt

end Step

/-- No packet is received between a tick and the one before. -/
def Quiet (l : List UdpStep) : Prop := ∀ a b, l = a ++ .tick :: b → (run a new).recent = none

/-- The order and the accounts are right in every run; a tick after a reception is what fails. -/
theorem delivers_iff (l : List UdpStep) : Delivers l ↔ Quiet l := by
  have h : Ordered (run l new) := ordered_new.run
  constructor
  · intro hright a b hl
    cases hrecent : (run a new).recent with
    | none => rfl
    | some p =>
        have hnewest := hright.newest a b p hl hrecent
        rw [run, List.foldl_append] at hnewest
        exact absurd hnewest ((ordered_new.run (l := a)).passed_tick_ne hrecent)
  · intro hquiet
    refine ⟨h.passed, fun a b p hl hrecent => ?_, ?_⟩
    · rw [hquiet a b hl] at hrecent
      cases hrecent
    · show ((run l new).passed ++ ((run l new).released ++ (run l new).held)).Perm _
      rw [← List.append_assoc]
      exact h.accounted

/-- One packet is received, and the next tick passes nothing on. -/
theorem not_delivers : ¬Delivers [.round (.data (some 4) 4), .tick] := by
  intro h
  have hnewest := h.newest [.round (.data (some 4) 4)] [] 0 rfl rfl
  have hpassed : (run [.round (.data (some 4) 4), .tick] new).passed = [] := rfl
  rw [show [UdpStep.round (.data (some 4) 4)] ++ [.tick] =
    [.round (.data (some 4) 4), .tick] from rfl, hpassed] at hnewest
  cases hnewest

end UdpReceive

end PureDataPacket
