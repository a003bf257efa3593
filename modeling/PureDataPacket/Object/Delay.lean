/-
# `PureDataPacket.Object.Delay` — a delay line of packets

`pdp_del` stores a packet at the head of its line, which moves backwards, and sends the one that
is `x_delay` cells ahead.  A message comes with the pool as it is at that time, and keeps the
packets that the object owns a reference to.

What it is for needs no line: `History` remembers every packet since the last reset.
-/
import PureDataPacket.Lib.Alloc
import PureDataPacket.Object.PacketLine

namespace PureDataPacket

/-- `t_pdp_del`, and which packets were sent. -/
structure PdpDel where
  line : PacketLine
  order : Int
  head : Int
  delay : Int
  /-- the outputs, -1 where there was none -/
  sent : List Int
  deriving DecidableEq

inductive DelMessage where
  | registerRo (packet : Int) (pool : Pool)
  | process (pool : Pool)
  /-- `delay`, after the conversion to an `int` -/
  | delay (del : Int)
  | reset

/-- `pdp_packet_pass_if_valid`: the packet is sent and released. -/
def pdpPacketPassIfValid (p : Int) (o : Holdings) : Holdings :=
  if p ≠ -1 then (o.read p).markUnused p else o

/-! ## The methods -/

/-- `pdp_del_new`; `forder` has been converted. -/
def pdpDelNew (forder : Int) : Option PdpDel := do
  let order ← addInt forder 1
  let del := if forder < 0 then 0 else forder
  let order := if order ≤ 2 then 2 else order
  pdpAlloc (4 * order.toNat)
  return ⟨.new order.toNat, order, 0, del, []⟩

namespace PdpDel

/-- `register_ro`. -/
def register (x : PdpDel) (packet : Int) (pool : Pool) : Option PdpDel := do
  let line ← x.line.replace (x.head.tmod x.order) packet pool
  return { x with line := line }

/-- `process`. -/
def process (x : PdpDel) (pool : Pool) : Option PdpDel := do
  let sum ← addInt x.head x.delay
  let packet ← x.line.fetch (sum.tmod x.order)
  let p := copiedRo packet pool
  let owned := pdpPacketPassIfValid p (x.line.owned.receive p)
  let sum ← addInt x.head x.order
  return { x with
    line := ⟨x.line.cells, owned⟩
    head := (sum - 1).tmod x.order
    sent := x.sent ++ [p] }

/-- `pdp_del_delay`. -/
def setDelay (x : PdpDel) (del : Int) : PdpDel :=
  let del := if del < 0 then 0 else del
  { x with delay := if x.order ≤ del then x.order - 1 else del }

/-- `pdp_del_reset`. -/
def reset (x : PdpDel) : PdpDel := { x with line := x.line.reset, head := 0 }

/-- `pdp_del_input_0` and the other methods. -/
def handle (x : PdpDel) : DelMessage → Option PdpDel
  | .registerRo packet pool => x.register packet pool
  | .process pool => x.process pool
  | .delay del => some (x.setDelay del)
  | .reset => some x.reset

def run : PdpDel → List DelMessage → Option PdpDel
  | x, [] => some x
  | x, m :: l => (x.handle m).bind fun x => run x l

/-- The pool of a message keeps what the object owns. -/
def Holds (x : PdpDel) : DelMessage → Prop
  | .registerRo _ pool => pool.Holds x.line.owned
  | .process pool => pool.Holds x.line.owned
  | _ => True

/-- So does the pool of each message. -/
def AllHold : PdpDel → List DelMessage → Prop
  | _, [] => True
  | x, m :: l => x.Holds m ∧ ∀ x', x.handle m = some x' → AllHold x' l

end PdpDel

/-- Each `register_ro` is followed by a *process*, and nothing but a new delay comes between them.
`registered` says that the *process* is due. -/
def Pairs : (registered : Bool) → List DelMessage → Prop
  | _, [] => True
  | r, .delay _ :: l => Pairs r l
  | false, .registerRo _ _ :: l => Pairs true l
  | true, .process _ :: l => Pairs false l
  | false, .reset :: l => Pairs false l
  | _, _ => False

/-! ## What it is for -/

/-- Every packet that was registered since the last reset, the newest one first, and the delay. -/
structure History where
  order : Int
  past : List Int
  delay : Nat
  sent : List Int

namespace History

/-- A delay stays inside of the line. -/
def clamp (order del : Int) : Nat := (max 0 (min del (order - 1))).toNat

/-- A line for as many packets as its longest delay needs, which is the first one. -/
def new (forder : Int) : History := ⟨max 2 (forder + 1), [], clamp (max 2 (forder + 1)) forder, []⟩

def handle (h : History) : DelMessage → History
  | .registerRo packet pool => { h with past := copiedRo packet pool :: h.past }
  | .process _ => { h with sent := h.sent ++ [h.past.getD h.delay (-1)] }
  | .delay del => { h with delay := clamp h.order del }
  | .reset => { h with past := [] }

end History

/-- Where the object has stored what the history has. -/
structure Follows (registered : Bool) (x : PdpDel) (h : History) : Prop where
  order : x.order = h.order
  two_le : 2 ≤ x.order
  order_le : x.order ≤ 2 ^ 30
  length : (x.line.cells.length : Int) = x.order
  head_nonneg : 0 ≤ x.head
  head_lt : x.head < x.order
  delay : x.delay = h.delay
  delay_lt : x.delay < x.order
  sent : x.sent = h.sent
  kept : x.line.Kept
  /-- the newest packet is at the head, or after it when the head has moved on -/
  cells : ∀ j : Nat, (j : Int) < x.order →
    x.line.fetch ((x.head + (if registered then 0 else 1) + j) % x.order) =
      some (h.past.getD j (-1))

theorem pdpDelNew_eq {forder : Int} (hint : IsInt (forder + 1)) : pdpDelNew forder =
    (pdpAlloc (4 * (max 2 (forder + 1)).toNat)).bind fun _ =>
      some ⟨.new (max 2 (forder + 1)).toNat, max 2 (forder + 1), 0,
        if forder < 0 then 0 else forder, []⟩ := by
  have horder : (if forder + 1 ≤ 2 then (2 : Int) else forder + 1) = max 2 (forder + 1) := by
    split_ifs <;> omega
  rw [← horder]
  unfold pdpDelNew
  rw [addInt_eq hint, Option.bind_eq_bind, Option.bind_some]
  rfl

/-- A line of `2 ^ 29` packets has no array. -/
theorem pdpDelNew_eq_none {forder : Int} (hint : IsInt forder) (hlt : 2 ^ 29 - 2 < forder) :
    pdpDelNew forder = none := by
  obtain ⟨-, hhi⟩ := hint
  by_cases hsum : IsInt (forder + 1)
  · rw [pdpDelNew_eq hsum, pdpAlloc_eq_none.mpr (by omega)]
    rfl
  · rw [pdpDelNew, addInt, if_neg hsum]
    rfl

section Follows

variable {x : PdpDel} {h : History} {packet del : Int} {pool : Pool} {registered : Bool}
  {m : DelMessage}

theorem kept_passIfValid {line : PacketLine} (hkept : line.Kept) (p : Int) :
    PacketLine.Kept ⟨line.cells, pdpPacketPassIfValid p (line.owned.receive p)⟩ := by
  have htaken := Holdings.Balanced.take hkept p
  unfold PacketLine.Kept pdpPacketPassIfValid
  split
  · next hne => exact (htaken.look List.mem_cons_self hne).release
  · next he =>
      rw [not_not.mp he] at htaken ⊢
      exact htaken.drop

theorem ahead_ne {head order k : Int} (h0 : 0 ≤ head) (hlt : head < order) (hk : 0 < k)
    (hk' : k < order) : (head + k) % order ≠ head := by
  by_cases hwrap : head + k < order
  · rw [Int.emod_eq_of_lt (by omega) hwrap]
    omega
  · rw [show head + k = head + k - order + order by omega, Int.add_emod_right,
      Int.emod_eq_of_lt (by omega) (by omega)]
    omega

namespace Follows

theorem register (hf : Follows false x h) (packet : Int) (pool : Pool) :
    ∃ x', x.register packet pool = some x' ∧
      Follows true x' (h.handle (.registerRo packet pool)) := by
  obtain ⟨head, hhead⟩ := Int.eq_ofNat_of_zero_le hf.head_nonneg
  have hlt := hf.head_lt
  have hlength := hf.length
  have hin : head < x.line.cells.length := by omega
  have hreplace := x.line.replace_eq hin packet pool
  rw [← hhead] at hreplace
  have hmod : x.head.tmod x.order = x.head := Int.tmod_eq_of_lt hf.head_nonneg hf.head_lt
  have hregister : x.register packet pool = some { x with
      line := ⟨x.line.cells.set head (copiedRo packet pool),
        (x.line.owned.markUnused x.line.cells[head]).receive (copiedRo packet pool)⟩ } := by
    rw [PdpDel.register, hmod, hreplace]
    rfl
  refine ⟨_, hregister, hf.order, hf.two_le, hf.order_le, ?_, hf.head_nonneg, hf.head_lt, hf.delay,
    hf.delay_lt, hf.sent, hf.kept.replace hin _, ?_⟩
  · show ((x.line.cells.set head _).length : Int) = x.order
    rw [List.length_set, hlength]
  · intro j hj
    show PacketLine.fetch ⟨x.line.cells.set head _, _⟩ ((x.head + 0 + j) % x.order) =
      some ((copiedRo packet pool :: h.past).getD j (-1))
    rw [PacketLine.fetch_set hin, ← hhead]
    cases j with
    | zero =>
        rw [Int.natCast_zero, add_zero, add_zero, Int.emod_eq_of_lt hf.head_nonneg hf.head_lt,
          if_pos rfl]
        rfl
    | succ j =>
        have hj' : ((j + 1 : Nat) : Int) < x.order := hj
        have hold := hf.cells j (by omega)
        rw [if_neg Bool.false_ne_true, add_assoc,
          show (1 : Int) + j = ((j + 1 : Nat) : Int) by omega] at hold
        rw [add_zero, if_neg (ahead_ne hf.head_nonneg hf.head_lt (by omega) hj'),
          List.getD_cons_succ, hold]

theorem process (hf : Follows true x h) (hholds : pool.Holds x.line.owned) :
    ∃ x', x.process pool = some x' ∧ Follows false x' (h.handle (.process pool)) := by
  have hlt := hf.head_lt
  have hnonneg := hf.head_nonneg
  have hle := hf.order_le
  have hdelay := hf.delay
  have hdelayLt := hf.delay_lt
  have htwo := hf.two_le
  have hcell := hf.cells h.delay (by omega)
  rw [if_pos rfl, add_zero, ← hdelay] at hcell
  have hcopied := hf.kept.copiedRo hholds (PacketLine.mem_of_fetch hcell)
  have hsum : (x.head + x.delay).tmod x.order = (x.head + x.delay) % x.order :=
    Int.tmod_eq_emod_of_nonneg (by omega)
  have hnext : (x.head + x.order - 1).tmod x.order = (x.head + x.order - 1) % x.order :=
    Int.tmod_eq_emod_of_nonneg (by omega)
  have hprocess : x.process pool = some { x with
      line := ⟨x.line.cells, pdpPacketPassIfValid (h.past.getD h.delay (-1))
        (x.line.owned.receive (h.past.getD h.delay (-1)))⟩
      head := (x.head + x.order - 1) % x.order
      sent := x.sent ++ [h.past.getD h.delay (-1)] } := by
    rw [PdpDel.process, addInt_eq ⟨by omega, by omega⟩, addInt_eq ⟨by omega, by omega⟩]
    simp only [Option.bind_eq_bind, Option.bind_some]
    rw [hsum, hcell, Option.bind_some, hcopied, hnext]
    rfl
  refine ⟨_, hprocess, hf.order, hf.two_le, hf.order_le, hf.length, ?_, ?_, hf.delay, hf.delay_lt,
    ?_, kept_passIfValid hf.kept _, ?_⟩
  · exact Int.emod_nonneg _ (by omega)
  · exact Int.emod_lt_of_pos _ (by omega)
  · show x.sent ++ _ = h.sent ++ _
    rw [hf.sent]
  · intro j hj
    have hold := hf.cells j hj
    show x.line.fetch (((x.head + x.order - 1) % x.order + 1 + j) % x.order) = _
    rw [if_pos rfl, add_zero] at hold
    refine Eq.trans ?_ hold
    rw [add_assoc, Int.emod_add_emod,
      show x.head + x.order - 1 + (1 + (j : Int)) = x.head + j + x.order by omega,
      Int.add_emod_right]

theorem setDelay (hf : Follows registered x h) (del : Int) :
    Follows registered (x.setDelay del) (h.handle (.delay del)) := by
  have htwo := hf.two_le
  have horder := hf.order
  refine ⟨hf.order, hf.two_le, hf.order_le, hf.length, hf.head_nonneg, hf.head_lt, ?_, ?_, hf.sent,
    hf.kept, hf.cells⟩
  · show (if x.order ≤ _ then _ else _) = ((History.clamp h.order del : Nat) : Int)
    unfold History.clamp
    split_ifs <;> omega
  · show (if x.order ≤ _ then _ else _) < x.order
    split_ifs <;> omega

theorem reset (hf : Follows false x h) : Follows false x.reset (h.handle .reset) := by
  have htwo := hf.two_le
  have hlength := hf.length
  refine ⟨hf.order, hf.two_le, hf.order_le, ?_, Int.le_refl _, ?_, hf.delay, hf.delay_lt, hf.sent,
    hf.kept.reset, ?_⟩
  · show ((x.line.cells.map fun _ => -1).length : Int) = x.order
    rw [List.length_map, hlength]
  · show 0 < x.order
    omega
  · intro j hj
    have hpos : 0 < x.order := by omega
    refine PacketLine.fetch_reset (Int.emod_nonneg _ (Int.ne_of_gt hpos)) ?_
    rw [hlength]
    exact Int.emod_lt_of_pos _ hpos

theorem new {forder : Int} (hint : IsInt forder) (hle : forder ≤ 2 ^ 29 - 2) :
    ∃ x, pdpDelNew forder = some x ∧ Follows false x (History.new forder) := by
  obtain ⟨hlo, -⟩ := hint
  have hnew : pdpDelNew forder = some ⟨.new (max 2 (forder + 1)).toNat, max 2 (forder + 1), 0,
      if forder < 0 then 0 else forder, []⟩ := by
    rw [pdpDelNew_eq ⟨by omega, by omega⟩, pdpAlloc_eq_some.mpr (by omega)]
    rfl
  have hcells : ∀ {n : Nat} {k : Int}, 0 ≤ k → k < n → (PacketLine.new n).fetch k = some (-1) := by
    intro n k h0 hk
    rw [PacketLine.fetch, if_pos h0]
    exact List.getElem?_replicate_of_lt (by omega)
  have hle : max 2 (forder + 1) ≤ 2 ^ 30 := by omega
  refine ⟨_, hnew, rfl, Int.le_max_left _ _, hle, ?_, Int.le_refl _, ?_, ?_, ?_, rfl,
    PacketLine.kept_new _, ?_⟩
  · show ((List.replicate _ _).length : Int) = max 2 (forder + 1)
    rw [List.length_replicate]
    omega
  · show 0 < max 2 (forder + 1)
    omega
  · show (if forder < 0 then 0 else forder) = ((History.clamp _ forder : Nat) : Int)
    unfold History.clamp
    split_ifs <;> omega
  · show (if forder < 0 then 0 else forder) < max 2 (forder + 1)
    split_ifs <;> omega
  · intro j hj
    have hpos : (0 : Int) < max 2 (forder + 1) := by omega
    refine hcells (Int.emod_nonneg _ (Int.ne_of_gt hpos)) ?_
    rw [Int.toNat_of_nonneg (Int.le_of_lt hpos)]
    exact Int.emod_lt_of_pos _ hpos

theorem run {l : List DelMessage} (hf : Follows registered x h) (hpairs : Pairs registered l)
    (hholds : x.AllHold l) :
    ∃ registered' x', x.run l = some x' ∧ Follows registered' x' (l.foldl History.handle h) := by
  induction l generalizing registered x h with
  | nil => exact ⟨registered, x, rfl, hf⟩
  | cons m l ih =>
      have hnext : ∀ {r' x₁}, x.handle m = some x₁ → Follows r' x₁ (h.handle m) → Pairs r' l →
          ∃ registered' x', x.run (m :: l) = some x' ∧
            Follows registered' x' ((m :: l).foldl History.handle h) := by
        intro r' x₁ hhandle hf₁ hpairs₁
        obtain ⟨r, x', hrun, hf'⟩ := ih hf₁ hpairs₁ (hholds.2 x₁ hhandle)
        exact ⟨r, x', by rw [PdpDel.run, hhandle, Option.bind_some, hrun], hf'⟩
      cases m with
      | registerRo packet pool =>
          cases registered with
          | true => exact hpairs.elim
          | false =>
              obtain ⟨x₁, hregister, hf₁⟩ := hf.register packet pool
              exact hnext hregister hf₁ hpairs
      | process pool =>
          cases registered with
          | false => exact hpairs.elim
          | true =>
              obtain ⟨x₁, hprocess, hf₁⟩ := hf.process hholds.1
              exact hnext hprocess hf₁ hpairs
      | delay del =>
          refine hnext rfl (hf.setDelay del) ?_
          cases registered <;> exact hpairs
      | reset =>
          cases registered with
          | true => exact hpairs.elim
          | false => exact hnext rfl hf.reset hpairs

end Follows

end Follows

/-- What is sent is what was registered as many pairs before as the delay says, since the last
reset, and the object owns a reference for each packet of its line: if its array can be made, and
only then. -/
theorem pdpDel_sent_iff {forder : Int} (hint : IsInt forder) :
    (∀ l, Pairs false l → (∀ x, pdpDelNew forder = some x → x.AllHold l) →
      ∃ x, (pdpDelNew forder).bind (·.run l) = some x ∧
        x.sent = (l.foldl History.handle (.new forder)).sent ∧ x.line.Kept) ↔
      forder ≤ 2 ^ 29 - 2 := by
  constructor
  · intro h
    by_contra hlt
    have hnone := pdpDelNew_eq_none hint (Int.not_le.mp hlt)
    obtain ⟨x, hrun, -⟩ := h [] trivial fun _ _ => trivial
    rw [hnone] at hrun
    cases hrun
  · intro hle l hpairs hholds
    obtain ⟨x, hnew, hf⟩ := Follows.new hint hle
    obtain ⟨_, x', hrun, hf'⟩ := hf.run hpairs (hholds x hnew)
    exact ⟨x', by rw [hnew, Option.bind_some, hrun], hf'.sent, hf'.kept⟩

/-- The second packet comes out after the first delay. -/
def packetTwice : List DelMessage :=
  [.registerRo 0 packetZero, .process packetZero, .registerRo 0 packetZero, .process packetZero]

theorem holds_packetTwice : ∀ x, pdpDelNew 1 = some x → x.AllHold packetTwice := by
  intro x hnew
  have hheld : (packetZero.pdpPacketHeader 0).isSome = true := rfl
  have hzero : ∀ refs : List Int, (∀ p ∈ refs, p = 0) →
      ∀ p ∈ refs, (packetZero.pdpPacketHeader p).isSome = true :=
    fun _ hrefs p hp => hrefs p hp ▸ hheld
  cases hnew
  refine ⟨hzero _ (by decide), fun x₁ h₁ => ?_⟩
  cases h₁
  refine ⟨hzero _ (by decide), fun x₂ h₂ => ?_⟩
  cases h₂
  refine ⟨hzero _ (by decide), fun x₃ h₃ => ?_⟩
  cases h₃
  exact ⟨hzero _ (by decide), fun _ _ => trivial⟩

/-- The packet comes out one pair late. -/
theorem pdpDel_sent_iff_packetTwice :
    ∃ x, (pdpDelNew 1).bind (·.run packetTwice) = some x ∧
      x.sent = (packetTwice.foldl History.handle (.new 1)).sent ∧ x.line.Kept :=
  (pdpDel_sent_iff (by decide)).mpr (by decide) packetTwice trivial holds_packetTwice

/-- A line of `2 ^ 29` packets is no array, so that not even the first packet is stored. -/
theorem not_pdpDel_sent :
    IsInt (2 ^ 29 - 1) ∧ Pairs false packetTwice ∧
      (∀ x, pdpDelNew (2 ^ 29 - 1) = some x → x.AllHold packetTwice) ∧
      (pdpDelNew (2 ^ 29 - 1)).bind (·.run packetTwice) = none := by
  have hnone : pdpDelNew (2 ^ 29 - 1) = none := pdpDelNew_eq_none (by decide) (by decide)
  refine ⟨by decide, trivial, fun x hx => ?_, ?_⟩
  · rw [hnone] at hx
    cases hx
  · rw [hnone, Option.bind_none]

end PureDataPacket
