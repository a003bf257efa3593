/-
# `PureDataPacket.Dpd.FanOut` — objects that pass rendering messages on

`outlet_dpd` sends two messages, `inspect` and `accumulate`, and the two are one traversal.
`pdp_route`, `pdp_trigger` and `3dp_for` pass traversals on with `outlet_dpd`.

In a chain an object gets what the one before it sends through one of its outlets.  Nothing flows
back, so the messages of an event can go through the chain object by object.

| | |
| :-- | :-- |
| `Passes` | traversals that get to this object go on through an outlet |
| `DpdChain.Transparent` | every object sends what it is meant to |
| `DpdChain.RouteFree` | no `pdp_route` is reached |
-/
import Mathlib.Data.List.Basic

namespace PureDataPacket

inductive DpdSelector where
  | inspect
  | accumulate
  deriving DecidableEq

/-- A `dpd` message: its selector, and the number of the context packet. -/
structure DpdMessage where
  selector : DpdSelector
  packet : Int
  deriving DecidableEq

/-- What an object sends through an outlet. -/
inductive Sent where
  | dpd (outlet : Nat) (message : DpdMessage)
  | bang (outlet : Nat)
  | float (outlet : Nat) (f : Int)
  deriving DecidableEq

def traversal (packet : Int) : List DpdMessage := [⟨.inspect, packet⟩, ⟨.accumulate, packet⟩]

/-- `outlet_dpd`. -/
def sendDpd (outlet : Nat) (packet : Int) : List Sent := (traversal packet).map (.dpd outlet)

/-- The messages that leave through one outlet. -/
def dpdThrough (outlet : Nat) (sent : List Sent) : List DpdMessage :=
  sent.filterMap fun
    | .dpd o message => if o = outlet then some message else none
    | _ => none

/-! ## The objects -/

/-- `t_pdp_route`. -/
structure PdpRoute where
  nbOutlets : Nat
  route : Nat
  routeNext : Nat
  deriving DecidableEq

/-- `pdp_route_input_0_dpd`. -/
def PdpRoute.input0Dpd (m : DpdMessage) (x : PdpRoute) : List Sent × PdpRoute :=
  let x := if m.selector = .accumulate then { x with route := x.routeNext } else x
  (sendDpd x.route m.packet, x)

/-- `pdp_route_route`. -/
def PdpRoute.setRoute (f : Int) (x : PdpRoute) : PdpRoute :=
  let route := if f < 0 then 0 else f
  let route := if x.nbOutlets ≤ route then (x.nbOutlets : Int) - 1 else route
  { x with routeNext := route.toNat }

/-- The types of the outlets of a trigger. -/
inductive TriggerType where
  | bang
  | pdp
  deriving DecidableEq

/-- The body of the loop of `pdp_trigger_input_dpd`. -/
def triggerSend (m : DpdMessage) (i : Nat) (type : TriggerType) : List Sent :=
  if m.selector = .accumulate then
    match type with
    | .bang => [.bang i]
    | .pdp => sendDpd i m.packet
  else []

/-- `pdp_trigger_input_dpd`: the outlets from the last one to the first. -/
def pdpTriggerInputDpd (vec : List TriggerType) (m : DpdMessage) : List Sent :=
  vec.zipIdx.reverse.flatMap fun u => triggerSend m u.2 u.1

/-- `pdp_3d_for_input_0`. -/
def pdp3dForInput0 (count : Int) (m : DpdMessage) : List Sent :=
  if m.selector = .accumulate then
    (List.range count.toNat).flatMap fun (i : Nat) => .float 1 (i : Int) :: sendDpd 0 m.packet
  else []

inductive FanOut where
  | route (x : PdpRoute)
  | trigger (vec : List TriggerType)
  | for3dp (count : Int)
  deriving DecidableEq

namespace FanOut

def respond : FanOut → DpdMessage → List Sent × FanOut
  | .route x, m => ((x.input0Dpd m).1, .route (x.input0Dpd m).2)
  | .trigger vec, m => (pdpTriggerInputDpd vec m, .trigger vec)
  | .for3dp count, m => (pdp3dForInput0 count m, .for3dp count)

def respondAll : FanOut → List DpdMessage → List Sent × FanOut
  | x, [] => ([], x)
  | x, m :: l =>
      let r := x.respond m
      let rest := r.2.respondAll l
      (r.1 ++ rest.1, rest.2)

/-- A message at the other inlet: `pdp_route_route`, `pdp_3d_for_count`. -/
def set (f : Int) : FanOut → FanOut
  | .route x => .route (x.setRoute f)
  | .trigger vec => .trigger vec
  | .for3dp count => .for3dp (if 0 ≤ f then f else count)

/-- What a traversal is meant to make an object send: one traversal through the selected outlet;
one through each outlet for packets, from the right to the left; as many as the count says. -/
def intended (p : Int) : FanOut → List Sent
  | .route x => sendDpd x.routeNext p
  | .trigger vec => vec.zipIdx.reverse.flatMap fun u =>
      match u.1 with
      | .bang => [.bang u.2]
      | .pdp => sendDpd u.2 p
  | .for3dp count =>
      (List.range count.toNat).flatMap fun (i : Nat) => .float 1 (i : Int) :: sendDpd 0 p

/-- Traversals that get to this object go on through an outlet. -/
def Passes (outlet : Nat) : FanOut → Prop
  | .route x => outlet = x.routeNext
  | .trigger vec => vec[outlet]? = some .pdp
  | .for3dp count => outlet = 0 ∧ 0 < count

def IsRoute : FanOut → Prop
  | .route _ => True
  | _ => False

end FanOut

/-! ## Chains -/

/-- Objects, each with the outlet that the next one is connected to. -/
abbrev DpdChain := List (FanOut × Nat)

def DpdChain.deliver : List DpdMessage → DpdChain → DpdChain
  | _, [] => []
  | l, (x, outlet) :: rest =>
      let r := x.respondAll l
      (r.2, outlet) :: deliver (dpdThrough outlet r.1) rest

inductive ChainEvent where
  /-- a traversal at the first object -/
  | traversal (packet : Int)
  /-- a message at the other inlet of an object -/
  | set (place : Nat) (f : Int)
  deriving DecidableEq

def DpdChain.handle (c : DpdChain) : ChainEvent → DpdChain
  | .traversal p => c.deliver (PureDataPacket.traversal p)
  | .set place f => c.modify place fun u => (u.1.set f, u.2)

def DpdChain.run (l : List ChainEvent) (c : DpdChain) : DpdChain := l.foldl DpdChain.handle c

/-- What gets to an object is a number of complete traversals, and for each of them it sends what
it is meant to. -/
def DpdChain.Transparent : List DpdMessage → DpdChain → Prop
  | _, [] => True
  | l, (x, outlet) :: rest =>
      (∃ ps : List Int, l = ps.flatMap traversal ∧
        (x.respondAll l).1 = ps.flatMap fun p => x.intended p) ∧
      Transparent (dpdThrough outlet (x.respondAll l).1) rest

/-- No `pdp_route` is reached. -/
def DpdChain.RouteFree : DpdChain → Prop
  | [] => True
  | (x, outlet) :: rest => ¬x.IsRoute ∧ (x.Passes outlet → RouteFree rest)

/-! ## One object -/

section Object

variable {x : FanOut} {outlet : Nat} {p : Int} {ps : List Int} {l : List DpdMessage}

theorem dpdThrough_append (outlet : Nat) (a b : List Sent) :
    dpdThrough outlet (a ++ b) = dpdThrough outlet a ++ dpdThrough outlet b :=
  List.filterMap_append

theorem dpdThrough_sendDpd (o outlet : Nat) (p : Int) :
    dpdThrough outlet (sendDpd o p) = if o = outlet then traversal p else [] := by
  unfold dpdThrough sendDpd traversal
  by_cases h : o = outlet
  · simp [h]
  · simp [h]

theorem dpdThrough_flatMap {α : Type} (outlet : Nat) (f : α → List Sent) (l : List α) :
    dpdThrough outlet (l.flatMap f) = l.flatMap fun a => dpdThrough outlet (f a) := by
  induction l with
  | nil => rfl
  | cons a l ih => rw [List.flatMap_cons, List.flatMap_cons, dpdThrough_append, ih]

theorem respondAll_append (x : FanOut) (a b : List DpdMessage) :
    (x.respondAll (a ++ b)).1 = (x.respondAll a).1 ++ ((x.respondAll a).2.respondAll b).1 := by
  induction a generalizing x with
  | nil => rfl
  | cons m a ih =>
      show (x.respond m).1 ++ ((x.respond m).2.respondAll (a ++ b)).1 = _
      rw [ih, ← List.append_assoc]
      rfl

/-- An object without a state sends for each traversal what it is meant to. -/
theorem respondAll_eq (hx : ¬x.IsRoute) (ps : List Int) :
    (x.respondAll (ps.flatMap traversal)).1 = ps.flatMap (fun p => x.intended p) ∧
      (x.respondAll (ps.flatMap traversal)).2 = x := by
  induction ps with
  | nil => exact ⟨rfl, rfl⟩
  | cons p ps ih =>
      have hone : x.respond ⟨.inspect, p⟩ = ([], x) ∧ x.respond ⟨.accumulate, p⟩ =
          (x.intended p, x) := by
        cases x with
        | route x => exact absurd trivial hx
        | trigger vec =>
            refine ⟨?_, rfl⟩
            show (vec.zipIdx.reverse.flatMap (fun _ => ([] : List Sent)), _) = _
            rw [List.flatMap_eq_nil_iff.mpr fun _ _ => rfl]
        | for3dp count => exact ⟨rfl, rfl⟩
      have hsplit : (p :: ps).flatMap traversal =
          ⟨.inspect, p⟩ :: ⟨.accumulate, p⟩ :: ps.flatMap traversal := rfl
      rw [hsplit]
      simp only [FanOut.respondAll, hone.1, hone.2, ih.1, ih.2, List.nil_append,
        List.flatMap_cons, and_self]

/-- A `pdp_route` sends four messages for a traversal. -/
theorem length_respondAll_route (x : PdpRoute) (ps : List Int) :
    ((FanOut.route x).respondAll (ps.flatMap traversal)).1.length = 4 * ps.length := by
  induction ps generalizing x with
  | nil => rfl
  | cons p ps ih =>
      have hsplit : (p :: ps).flatMap traversal = traversal p ++ ps.flatMap traversal := rfl
      have hstate : ∃ x', ((FanOut.route x).respondAll (traversal p)).2 = .route x' := ⟨_, rfl⟩
      obtain ⟨x', hx'⟩ := hstate
      rw [hsplit, respondAll_append, hx', List.length_append, ih]
      show 4 + 4 * ps.length = 4 * (ps.length + 1)
      omega

theorem length_intended_route (x : PdpRoute) (ps : List Int) :
    (ps.flatMap fun p => (FanOut.route x).intended p).length = 2 * ps.length := by
  induction ps with
  | nil => rfl
  | cons p ps ih =>
      rw [List.flatMap_cons, List.length_append, ih]
      show 2 + 2 * ps.length = 2 * (ps.length + 1)
      omega

/-- Something goes on through an outlet, and then it is some complete traversals. -/
theorem dpdThrough_intended (hx : ¬x.IsRoute) (outlet : Nat) (p : Int) :
    ∃ n, dpdThrough outlet (x.intended p) = (List.replicate n p).flatMap traversal ∧
      (x.Passes outlet ↔ n ≠ 0) := by
  cases x with
  | route x => exact absurd trivial hx
  | trigger vec =>
      show ∃ n, dpdThrough outlet (vec.zipIdx.reverse.flatMap fun u => match u.1 with
        | .bang => [.bang u.2]
        | .pdp => sendDpd u.2 p) = _ ∧ (vec[outlet]? = some .pdp ↔ _)
      refine ⟨(vec.zipIdx.reverse.filter fun u => u = (.pdp, outlet)).length, ?_, ?_⟩
      · rw [dpdThrough_flatMap]
        induction vec.zipIdx.reverse with
        | nil => rfl
        | cons u l ih =>
            rw [List.flatMap_cons, ih]
            obtain ⟨type, i⟩ := u
            cases type with
            | bang =>
                rw [List.filter_cons_of_neg (by simp)]
                rfl
            | pdp =>
                show dpdThrough outlet (sendDpd i p) ++ _ = _
                rw [dpdThrough_sendDpd]
                by_cases hi : i = outlet
                · rw [if_pos hi, List.filter_cons_of_pos (by simp [hi]), List.length_cons,
                    List.replicate_succ, List.flatMap_cons]
                · rw [if_neg hi, List.filter_cons_of_neg (by simp [hi]), List.nil_append]
      · rw [ne_eq, List.length_eq_zero_iff, List.filter_eq_nil_iff]
        constructor
        · intro hget hnone
          refine hnone (.pdp, outlet) ?_ (by simp)
          rw [List.mem_reverse, List.mem_zipIdx_iff_getElem?]
          exact hget
        · intro hsome
          by_contra hget
          refine hsome fun u hu hu' => hget ?_
          rw [of_decide_eq_true hu', List.mem_reverse, List.mem_zipIdx_iff_getElem?] at hu
          exact hu
  | for3dp count =>
      show ∃ n, dpdThrough outlet ((List.range count.toNat).flatMap fun (i : Nat) =>
        .float 1 (i : Int) :: sendDpd 0 p) = _ ∧ (outlet = 0 ∧ 0 < count ↔ _)
      have hone : ∀ i : Nat, dpdThrough outlet (.float 1 (i : Int) :: sendDpd 0 p) =
          if 0 = outlet then traversal p else [] := fun i => dpdThrough_sendDpd 0 outlet p
      rw [dpdThrough_flatMap, List.flatMap_congr fun i _ => hone i]
      by_cases h0 : 0 = outlet
      · refine ⟨count.toNat, ?_, by omega⟩
        rw [if_pos h0]
        generalize count.toNat = n
        induction n with
        | zero => rfl
        | succ n ih =>
            rw [List.range_succ, List.flatMap_append, ih, List.replicate_succ']
            rw [List.flatMap_append]
            rfl
      · refine ⟨0, ?_, by omega⟩
        rw [if_neg h0]
        exact List.flatMap_eq_nil_iff.mpr fun _ _ => rfl

theorem dpdThrough_intendeds (hx : ¬x.IsRoute) (outlet : Nat) (ps : List Int) :
    ∃ qs, dpdThrough outlet (ps.flatMap fun p => x.intended p) = qs.flatMap traversal ∧
      (qs = [] ↔ ps = [] ∨ ¬x.Passes outlet) := by
  induction ps with
  | nil => exact ⟨[], rfl, by simp⟩
  | cons p ps ih =>
      obtain ⟨qs, hqs, hnil⟩ := ih
      obtain ⟨n, hn, hpasses⟩ := dpdThrough_intended hx outlet p
      refine ⟨List.replicate n p ++ qs, ?_, ?_⟩
      · rw [List.flatMap_cons, dpdThrough_append, hn, hqs, List.flatMap_append]
      · rw [List.append_eq_nil_iff, List.replicate_eq_nil_iff, hnil]
        constructor
        · rintro ⟨h0, _⟩
          exact .inr fun h => hpasses.mp h h0
        · rintro (h | h)
          · cases h
          · exact ⟨by_contra fun hne => h (hpasses.mpr hne), .inr h⟩

theorem traversals_inj {qs : List Int} (h : ps.flatMap traversal = qs.flatMap traversal) :
    ps.length = qs.length := by
  have hlen : ∀ l : List Int, (l.flatMap traversal).length = 2 * l.length := by
    intro l
    induction l with
    | nil => rfl
    | cons p l ih =>
        rw [List.flatMap_cons, List.length_append, ih]
        show 2 + 2 * l.length = 2 * (l.length + 1)
        omega
  have heq := congrArg List.length h
  rw [hlen, hlen] at heq
  omega

end Object

/-! ## A chain of them -/

section DpdChain

variable {c : DpdChain} {ps : List Int}

theorem transparent_nil (c : DpdChain) : c.Transparent [] := by
  induction c with
  | nil => exact trivial
  | cons u rest ih =>
      obtain ⟨x, outlet⟩ := u
      exact ⟨⟨[], rfl, rfl⟩, ih⟩

theorem transparent_iff (hps : ps ≠ []) :
    c.Transparent (ps.flatMap traversal) ↔ c.RouteFree := by
  induction c generalizing ps with
  | nil => exact iff_of_true trivial trivial
  | cons u rest ih =>
      obtain ⟨x, outlet⟩ := u
      by_cases hx : x.IsRoute
      · -- The route doubles what it gets.
        refine iff_of_false ?_ fun h => h.1 hx
        rintro ⟨⟨qs, hqs, hsent⟩, _⟩
        cases x with
        | route x =>
            have hlen := congrArg List.length hsent
            rw [length_respondAll_route, length_intended_route, traversals_inj hqs] at hlen
            have hpos : 0 < qs.length := by
              rw [← traversals_inj hqs]
              exact List.length_pos_iff.mpr hps
            omega
        | trigger vec => exact hx
        | for3dp count => exact hx
      · obtain ⟨qs, hqs, hnil⟩ := dpdThrough_intendeds hx outlet ps
        obtain ⟨hsent, _⟩ := respondAll_eq hx ps
        show (_ ∧ DpdChain.Transparent (dpdThrough outlet (x.respondAll _).1) rest) ↔ _
        rw [hsent, hqs]
        by_cases hpasses : x.Passes outlet
        · have hne : qs ≠ [] := fun h => (hnil.mp h).elim hps fun hno => hno hpasses
          rw [ih hne]
          exact ⟨fun h => ⟨hx, fun _ => h.2⟩, fun h => ⟨⟨ps, rfl, rfl⟩, h.2 hpasses⟩⟩
        · rw [hnil.mpr (.inr hpasses)]
          exact iff_of_true ⟨⟨ps, rfl, rfl⟩, transparent_nil rest⟩
            ⟨hx, fun h => absurd h hpasses⟩

/-- Traversals go through as intended if none of them gets to a `pdp_route`, and only then. -/
theorem chain_transparent_iff (c : DpdChain) (l : List ChainEvent) :
    (∀ a p b, l = a ++ .traversal p :: b → (c.run a).Transparent (traversal p)) ↔
      ∀ a p b, l = a ++ .traversal p :: b → (c.run a).RouteFree := by
  have hone : ∀ p, traversal p = [p].flatMap traversal := fun p => by
    rw [List.flatMap_singleton]
  constructor
  · intro h a p b hl
    have htransparent := h a p b hl
    rw [hone] at htransparent
    exact (transparent_iff (List.cons_ne_nil _ _)).mp htransparent
  · intro h a p b hl
    rw [hone]
    exact (transparent_iff (List.cons_ne_nil _ _)).mpr (h a p b hl)

/-- A route to the first of two outlets: two traversals come out of it. -/
theorem not_chain_transparent :
    ¬∀ a p b, [ChainEvent.traversal 5] = a ++ .traversal p :: b →
      (DpdChain.run a [(.route ⟨2, 0, 0⟩, 0)]).Transparent (traversal p) := by
  intro h
  obtain ⟨⟨ps, hps, hsent⟩, _⟩ := h [] 5 [] rfl
  have hlen := congrArg List.length hsent
  rw [length_intended_route] at hlen
  have hcount : 1 = ps.length := @traversals_inj [5] _ hps
  have hfour : ((FanOut.route ⟨2, 0, 0⟩).respondAll (traversal 5)).1.length = 4 := rfl
  rw [hfour] at hlen
  omega

end DpdChain

end PureDataPacket
