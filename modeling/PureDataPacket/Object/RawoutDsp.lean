/-
# `PureDataPacket.Object.RawoutDsp` — blocks of samples make packets

`pdp_rawout~` interleaves its channels and fills one packet after the other.  A packet has room
for 2048 samples of each channel; where the next block goes is kept in a pointer, and how much
room there is in a countdown that is compared with zero only.

A step without a result writes outside of the packet.  Samples are of any type, and how one is
converted is a parameter.

| | |
| :-- | :-- |
| `Whole` | what has been handed over |
| `Fits` | a block finds room |
| `Filling` | a packet that is being filled |
| `Filling.perform` | one block |
-/
import PureDataPacket.Type.Constructors

namespace PureDataPacket

/-- `t_rawout`, as far as the dsp method uses it; a packet is its samples. -/
structure RawoutDsp (β : Type) where
  chans : Nat
  maxQueuesize : Int
  /-- none: -1 -/
  packet : Option (List β)
  /-- the place of `x_needle` in the packet -/
  needle : Nat
  countdown : Int
  queue : List (List β)
  /-- everything that was ever put into the queue -/
  handed : List (List β)
  /-- the samples of all blocks that were not dropped -/
  stream : List β

inductive RawoutDspEvent (α β : Type) where
  /-- a block of `n` samples for each channel; what the factory makes if it is asked -/
  | perform (n : Nat) (input : Nat → Nat → α) (created : Option (List β))
  /-- the writer takes a packet -/
  | pop
  /-- `clear_queue` -/
  | clear
  | queuesize (n : Int)

namespace RawoutDsp

variable {α β : Type}

/-- `rawout_dsp_new`, with the float as the int that it is cast to. -/
def new (fchans : Int) : Option (RawoutDsp β) :=
  let chans := if fchans < 1 then 1 else fchans
  if 64 < chans then none else some ⟨chans.toNat, 100, none, 0, 0, [], [], []⟩

/-- How many samples a packet of the type `image/grey/256x(8 * chans)` has. -/
def packetSize (chans : Nat) : Nat := PacketKind.imageGrey.dataSize 256 (8 * chans) 0 / 2

/-- The samples of a block in the order of the loops. -/
def interleaved (n chans : Nat) (input : Nat → Nat → α) : List α :=
  (List.range n).flatMap fun i => (List.range chans).map fun c => input c i

/-- `out[k] = v`, for one value after the other. -/
def storeAll : (values : List β) → (k : Nat) → List β → Option (List β)
  | [], _, packet => some packet
  | v :: l, k, packet => if k < packet.length then storeAll l (k + 1) (packet.set k v) else none

/-- The pointers before the loops: those of the packet that is being filled, or of a new one. -/
def start (created : Option (List β)) (x : RawoutDsp β) : RawoutDsp β :=
  if x.countdown ≠ 0 then x
  else
    { x with
      packet := created
      needle := 0
      countdown := (created.map List.length).getD 0 }

/-- What is done after the loops: the packet is handed over when the countdown is 0. -/
def advance (values packet : List β) (x : RawoutDsp β) : RawoutDsp β :=
  let x := { x with
    packet := some packet
    needle := x.needle + values.length
    countdown := x.countdown - values.length
    stream := x.stream ++ values }
  if x.countdown = 0 then
    { x with
      packet := none
      queue := x.queue ++ [packet]
      handed := x.handed ++ [packet] }
  else x

/-- Nothing is done as long as the queue is full. -/
def Drops (x : RawoutDsp β) : Prop := x.maxQueuesize ≤ x.queue.length

instance (x : RawoutDsp β) : Decidable x.Drops := inferInstanceAs (Decidable (_ ≤ _))

/-- `rawout_perform`.  Without a packet the null pointer is written to, since a block has
samples. -/
def perform (convert : α → β) (n : Nat) (input : Nat → Nat → α) (created : Option (List β))
    (x : RawoutDsp β) : Option (RawoutDsp β) :=
  if x.Drops then some x
  else
    let x := x.start created
    let values := (interleaved n x.chans input).map convert
    match x.packet with
    | none => none
    | some packet => (storeAll values x.needle packet).map fun packet => x.advance values packet

def step (convert : α → β) (x : RawoutDsp β) : RawoutDspEvent α β → Option (RawoutDsp β)
  | .perform n input created => x.perform convert n input created
  | .pop => some { x with queue := x.queue.tail }
  | .clear => some { x with queue := [] }
  | .queuesize n => some { x with maxQueuesize := n }

def run (convert : α → β) : List (RawoutDspEvent α β) → RawoutDsp β → Option (RawoutDsp β)
  | [], x => some x
  | e :: l, x => (x.step convert e).bind (run convert l)

end RawoutDsp

/-- Blocks have a power of two of samples, and the packets that the factory makes have the size
that their type says. -/
def RawoutDspEvent.Real {α β : Type} (chans : Nat) : RawoutDspEvent α β → Prop
  | .perform n _ created => (∃ j, n = 2 ^ j) ∧
      ∀ packet, created = some packet → packet.length = RawoutDsp.packetSize chans
  | _ => True

namespace RawoutDsp

variable {α β : Type}

/-- Only whole packets have been handed over, and they hold the samples in order. -/
structure Whole (x : RawoutDsp β) : Prop where
  size : ∀ packet ∈ x.handed, packet.length = packetSize x.chans
  inOrder : x.handed.flatten <+: x.stream

/-- A run that writes nothing outside of its packets, and hands over what it should. -/
def Right (convert : α → β) (l : List (RawoutDspEvent α β)) (x : RawoutDsp β) : Prop :=
  ∃ x', x.run convert l = some x' ∧ x'.Whole

/-- There is room for the block: in the packet that is being filled, or in a new one if there is
none. -/
def Fits (x : RawoutDsp β) : RawoutDspEvent α β → Prop
  | .perform n _ created => x.Drops ∨
      (if x.countdown ≠ 0 then (n * x.chans : Int) ≤ x.countdown
        else created ≠ none ∧ n * x.chans ≤ packetSize x.chans)
  | _ => True

/-- There is room for each of the blocks. -/
def AllFit (convert : α → β) : List (RawoutDspEvent α β) → RawoutDsp β → Prop
  | [], _ => True
  | e :: l, x => x.Fits e ∧ ∀ x', x.step convert e = some x' → AllFit convert l x'

/-! ## A block -/

section Block

variable {convert : α → β} {x x' : RawoutDsp β} {e : RawoutDspEvent α β} {n chans k : Nat}
  {input : Nat → Nat → α} {created : Option (List β)} {values packet : List β}

theorem length_interleaved (n chans : Nat) (input : Nat → Nat → α) :
    (interleaved n chans input).length = n * chans := by
  unfold interleaved
  induction n with
  | zero => rw [Nat.zero_mul]; rfl
  | succ n ih =>
      rw [List.range_succ, List.flatMap_append, List.length_append, ih, Nat.succ_mul,
        List.flatMap_singleton, List.length_map, List.length_range]

theorem storeAll_eq (h : k + values.length ≤ packet.length) :
    storeAll values k packet =
      some (packet.take k ++ values ++ packet.drop (k + values.length)) := by
  induction values generalizing k packet with
  | nil => simp [storeAll]
  | cons v l ih =>
      rw [List.length_cons] at h
      have hk : k < packet.length := by omega
      have htake : (packet.set k v).take (k + 1) = packet.take k ++ [v] := by
        rw [List.take_succ_eq_append_getElem (by rw [List.length_set]; exact hk),
          List.getElem_set_self, List.take_set_of_le (Nat.le_refl k)]
      have hdrop : (packet.set k v).drop (k + 1 + l.length) =
          packet.drop (k + (l.length + 1)) := by
        rw [List.drop_set_of_lt (by omega)]
        congr 1
        omega
      rw [storeAll, if_pos hk, ih (by rw [List.length_set]; omega), htake, hdrop,
        List.length_cons, List.append_assoc (packet.take k)]
      rfl

theorem storeAll_eq_none (h : packet.length < k + values.length) (hk : k ≤ packet.length) :
    storeAll values k packet = none := by
  induction values generalizing k packet with
  | nil => exact absurd h (by rw [List.length_nil]; omega)
  | cons v l ih =>
      rw [List.length_cons] at h
      unfold storeAll
      split
      · next hlt =>
          exact ih (by rw [List.length_set]; omega) (by rw [List.length_set]; omega)
      · rfl

/-- The packet is filled up to the needle with the newest samples, and is not full. -/
structure Filling (x : RawoutDsp β) : Prop where
  chans : 0 < x.chans
  size : ∀ packet ∈ x.handed, packet.length = packetSize x.chans
  idle : x.packet = none → x.countdown = 0 ∧ x.stream = x.handed.flatten
  busy : ∀ packet, x.packet = some packet → packet.length = packetSize x.chans ∧
    x.countdown = (packet.length - x.needle : Int) ∧ 0 < x.countdown ∧
    x.stream = x.handed.flatten ++ packet.take x.needle

theorem Filling.whole (h : Filling x) : Whole x := by
  refine ⟨h.size, ?_⟩
  cases hp : x.packet with
  | none => exact (h.idle hp).2 ▸ List.prefix_rfl
  | some packet => exact (h.busy packet hp).2.2.2 ▸ List.prefix_append _ _

/-- Before the loops there is a packet, or there is none and the factory has made none. -/
theorem Filling.start (h : Filling x) (hsize : ∀ packet, created = some packet →
    packet.length = packetSize x.chans) :
    ((x.start created).packet = none ∧ x.countdown = 0 ∧ created = none) ∨
      ∃ packet, (x.start created).packet = some packet ∧
        packet.length = packetSize x.chans ∧
        (x.start created).countdown = (packet.length - (x.start created).needle : Int) ∧
        0 ≤ (x.start created).countdown ∧
        x.stream = x.handed.flatten ++ packet.take (x.start created).needle ∧
        (x.countdown ≠ 0 → (x.start created).countdown = x.countdown) ∧
        (x.countdown = 0 → created = some packet ∧
          (x.start created).countdown = packet.length) := by
  unfold RawoutDsp.start
  by_cases h0 : x.countdown = 0
  · have hnone : x.packet = none := by
      cases hp : x.packet with
      | none => rfl
      | some packet =>
          obtain ⟨_, _, hpos, _⟩ := h.busy packet hp
          omega
    rw [if_neg (not_not.mpr h0)]
    cases created with
    | none => exact .inl ⟨rfl, h0, rfl⟩
    | some packet =>
        refine .inr ⟨packet, rfl, hsize packet rfl, ?_, ?_, ?_, fun hne => absurd h0 hne,
          fun _ => ⟨rfl, rfl⟩⟩
        · show (packet.length : Int) = packet.length - ((0 : Nat) : Int)
          omega
        · exact Int.natCast_nonneg _
        · rw [(h.idle hnone).2, List.take_zero, List.append_nil]
  · rw [if_pos h0]
    cases hp : x.packet with
    | none => exact absurd (h.idle hp).1 h0
    | some packet =>
        obtain ⟨hlen, hcount, hpos, hstream⟩ := h.busy packet hp
        exact .inr ⟨packet, rfl, hlen, hcount, Int.le_of_lt hpos, hstream, fun _ => rfl,
          fun he => absurd he h0⟩

theorem chans_start (created : Option (List β)) (x : RawoutDsp β) :
    (x.start created).chans = x.chans ∧ (x.start created).handed = x.handed ∧
      (x.start created).stream = x.stream := by
  unfold RawoutDsp.start
  split
  · exact ⟨rfl, rfl, rfl⟩
  · exact ⟨rfl, rfl, rfl⟩

theorem filling_advance (hchans : 0 < x.chans)
    (hsize : ∀ packet ∈ x.handed, packet.length = packetSize x.chans)
    (hlen : packet.length = packetSize x.chans)
    (hcount : x.countdown = (packet.length - x.needle : Int))
    (hfits : (values.length : Int) ≤ x.countdown)
    (hstream : x.stream = x.handed.flatten ++ packet.take x.needle) :
    Filling (x.advance values
      (packet.take x.needle ++ values ++ packet.drop (x.needle + values.length))) := by
  have hneedle : (packet.take x.needle).length = x.needle := by
    rw [List.length_take]
    omega
  have hnew : (packet.take x.needle ++ values ++
      packet.drop (x.needle + values.length)).length = packet.length := by
    rw [List.length_append, List.length_append, hneedle, List.length_drop]
    omega
  have htake : (packet.take x.needle ++ values ++
      packet.drop (x.needle + values.length)).take (x.needle + values.length) =
        packet.take x.needle ++ values :=
    List.take_left' (by rw [List.length_append, hneedle])
  have hsent : x.stream ++ values = x.handed.flatten ++ (packet.take x.needle ++ values) := by
    rw [hstream, List.append_assoc]
  unfold RawoutDsp.advance
  by_cases hzero : x.countdown - (values.length : Int) = 0
  · rw [if_pos hzero]
    refine ⟨hchans, ?_, fun _ => ⟨hzero, ?_⟩, fun _ he => by cases he⟩
    · intro p hp
      rcases List.mem_append.mp hp with hp | hp
      · exact hsize p hp
      · obtain rfl := List.mem_singleton.mp hp
        exact hnew.trans hlen
    · show x.stream ++ values = (x.handed ++ [_]).flatten
      have hempty : packet.drop (x.needle + values.length) = [] :=
        List.drop_eq_nil_of_le (by omega)
      rw [List.flatten_append, List.flatten_singleton, hempty, List.append_nil, hsent]
  · rw [if_neg hzero]
    refine ⟨hchans, hsize, (fun he => by cases he), fun p hp => ?_⟩
    obtain rfl := Option.some.inj hp
    refine ⟨hnew.trans hlen, ?_, ?_, ?_⟩
    · show x.countdown - (values.length : Int) = _ - ((x.needle + values.length : Nat) : Int)
      rw [hnew]
      omega
    · show 0 < x.countdown - (values.length : Int)
      omega
    · show x.stream ++ values = x.handed.flatten ++ List.take (x.needle + values.length) _
      rw [htake, hsent]

/-- A block that fits is stored, and one that does not is written outside. -/
theorem Filling.perform (h : Filling x) (hn : 0 < n) (hsize : ∀ packet, created = some packet →
    packet.length = packetSize x.chans) :
    (x.Fits (.perform n input created) ∧ ∃ x', x.perform convert n input created = some x' ∧
        Filling x' ∧ x'.chans = x.chans) ∨
      (¬x.Fits (.perform n input created) ∧ x.perform convert n input created = none) := by
  by_cases hdrops : x.Drops
  · refine .inl ⟨.inl hdrops, x, if_pos hdrops, h, rfl⟩
  · have hpos : 0 < n * x.chans := Nat.mul_pos hn h.chans
    have hperform : x.perform convert n input created =
        match (x.start created).packet with
        | none => none
        | some packet => (storeAll ((interleaved n x.chans input).map convert)
            (x.start created).needle packet).map fun packet =>
              (x.start created).advance ((interleaved n x.chans input).map convert) packet := by
      unfold RawoutDsp.perform
      rw [if_neg hdrops]
      simp only [(chans_start created x).1]
    have hvalues : ((interleaved n x.chans input).map convert).length = n * x.chans := by
      rw [List.length_map, length_interleaved]
    rw [hperform]
    rcases h.start hsize with ⟨hnone, h0, hcreated⟩ | ⟨packet, hp, hlen, hcount, hle, hstream,
      hold, hfresh⟩
    · rw [hnone]
      refine .inr ⟨?_, rfl⟩
      rintro (hd | hfits)
      · exact hdrops hd
      · rw [if_neg (not_not.mpr h0)] at hfits
        exact hfits.1 hcreated
    · rw [hp]
      dsimp only
      have hiff : x.Fits (.perform n input created) ↔
          (n * x.chans : Int) ≤ (x.start created).countdown := by
        constructor
        · rintro (hd | hfits)
          · exact absurd hd hdrops
          · by_cases h0 : x.countdown = 0
            · rw [if_neg (not_not.mpr h0)] at hfits
              rw [(hfresh h0).2, hlen]
              exact_mod_cast hfits.2
            · rw [if_pos h0] at hfits
              rwa [hold h0]
        · intro hle'
          refine .inr ?_
          by_cases h0 : x.countdown = 0
          · rw [if_neg (not_not.mpr h0)]
            rw [(hfresh h0).2, hlen] at hle'
            exact ⟨fun he => (by cases (hfresh h0).1.symm.trans he), by exact_mod_cast hle'⟩
          · rw [if_pos h0]
            rwa [hold h0] at hle'
      by_cases hfits : x.Fits (.perform n input created)
      · have hroom : (((interleaved n x.chans input).map convert).length : Int) ≤
            (x.start created).countdown := by
          rw [hvalues]
          exact_mod_cast hiff.mp hfits
        have hstore : storeAll ((interleaved n x.chans input).map convert)
            (x.start created).needle packet = some _ := storeAll_eq (by omega)
        obtain ⟨hchans, hhanded, hstreamed⟩ := chans_start created x
        refine .inl ⟨hfits, _, by rw [hstore]; rfl, filling_advance (hchans ▸ h.chans) ?_ ?_ hcount
          hroom ?_, ?_⟩
        · rw [hhanded, hchans]
          exact h.size
        · rw [hchans]
          exact hlen
        · rw [hhanded, hstreamed]
          exact hstream
        · unfold RawoutDsp.advance
          dsimp only
          split
          · exact hchans
          · exact hchans
      · refine .inr ⟨hfits, ?_⟩
        have hlong : (x.start created).countdown < (n * x.chans : Int) := by
          by_contra hle'
          exact hfits (hiff.mpr (by omega))
        have hcast : ((n * x.chans : Nat) : Int) = (n : Int) * x.chans := Int.natCast_mul _ _
        have hnone : storeAll ((interleaved n x.chans input).map convert)
            (x.start created).needle packet = none := storeAll_eq_none (by omega) (by omega)
        rw [hnone]
        rfl

end Block

/-! ## Runs -/

section Runs

variable {convert : α → β} {x : RawoutDsp β} {l : List (RawoutDspEvent α β)}

theorem Filling.other (h : Filling x) (queue : List (List β)) (maxQueuesize : Int) :
    Filling { x with queue := queue, maxQueuesize := maxQueuesize } :=
  ⟨h.chans, h.size, h.idle, h.busy⟩

theorem Filling.step (h : Filling x) {e : RawoutDspEvent α β} (he : e.Real x.chans) :
    (x.Fits e ∧ ∃ x', x.step convert e = some x' ∧ Filling x' ∧ x'.chans = x.chans) ∨
      (¬x.Fits e ∧ x.step convert e = none) := by
  cases e with
  | perform n input created =>
      obtain ⟨⟨j, rfl⟩, hsize⟩ := he
      exact h.perform (Nat.two_pow_pos j) hsize
  | pop => exact .inl ⟨trivial, _, rfl, h.other _ _, rfl⟩
  | clear => exact .inl ⟨trivial, _, rfl, h.other _ _, rfl⟩
  | queuesize n => exact .inl ⟨trivial, _, rfl, h.other _ _, rfl⟩

theorem Filling.run (h : Filling x) (hl : ∀ e ∈ l, RawoutDspEvent.Real x.chans e) :
    Right convert l x ↔ AllFit convert l x := by
  induction l generalizing x with
  | nil => exact iff_of_true ⟨x, rfl, h.whole⟩ trivial
  | cons e l ih =>
      rcases @Filling.step _ _ convert _ h _ (hl e List.mem_cons_self) with
        ⟨hfits, x₁, hstep, h₁, hchans⟩ | ⟨hfits, hstep⟩
      · have hrest := ih h₁ fun e he => hchans ▸ hl e (List.mem_cons_of_mem _ he)
        have hright : Right convert (e :: l) x ↔ Right convert l x₁ := by
          unfold Right
          rw [RawoutDsp.run, hstep, Option.bind_some]
        rw [hright, hrest]
        constructor
        · intro hall
          refine ⟨hfits, fun x' hx' => ?_⟩
          obtain rfl := Option.some.inj (hstep.symm.trans hx')
          exact hall
        · exact fun hall => hall.2 x₁ hstep
      · refine iff_of_false ?_ fun hall => hfits hall.1
        rintro ⟨x', hrun, _⟩
        rw [RawoutDsp.run, hstep] at hrun
        cases hrun

theorem filling_new {fchans : Int} (hnew : new fchans = some x) :
    Filling x ∧ x.countdown = 0 ∧ x.chans ≤ 64 := by
  obtain ⟨hle, hx⟩ := Option.ite_none_left_eq_some.mp hnew
  obtain rfl := Option.some.inj hx
  refine ⟨⟨?_, (fun p hp => by cases hp), fun _ => ⟨rfl, rfl⟩, fun _ he => by cases he⟩, rfl, ?_⟩
  · show 0 < (if fchans < 1 then 1 else fchans).toNat
    split <;> omega
  · show (if fchans < 1 then 1 else fchans).toNat ≤ 64
    omega

/-- Everything is right as long as each block finds room, and only then. -/
theorem rawoutDsp_right_iff (convert : α → β) {fchans : Int} (hnew : new fchans = some x)
    (hl : ∀ e ∈ l, RawoutDspEvent.Real x.chans e) :
    Right convert l x ↔ AllFit convert l x :=
  (filling_new hnew).1.run hl

/-- Two channels, a block of four samples, and a queue that is then taken to be full. -/
theorem rawoutDsp_right_iff_two :
    Right (fun a : Nat => a)
        [.perform 4 (fun c i => c + i) (some (List.replicate (packetSize 2) 0)), .queuesize 0,
          .perform 4 (fun _ _ => 0) none] ⟨2, 100, none, 0, 0, [], [], []⟩ ↔
      AllFit (fun a : Nat => a)
        [.perform 4 (fun c i => c + i) (some (List.replicate (packetSize 2) 0)), .queuesize 0,
          .perform 4 (fun _ _ => 0) none] ⟨2, 100, none, 0, 0, [], [], []⟩ := by
  refine @rawoutDsp_right_iff _ _ _ _ (fun a : Nat => a) 2 rfl fun e he => ?_
  simp only [List.mem_cons, List.not_mem_nil, or_false] at he
  rcases he with rfl | rfl | rfl
  · refine ⟨⟨2, rfl⟩, fun packet hp => ?_⟩
    obtain rfl := Option.some.inj hp
    exact List.length_replicate
  · exact trivial
  · exact ⟨⟨2, rfl⟩, fun packet hp => by cases hp⟩

/-- No packet can be made, and the samples go to the null pointer. -/
theorem not_rawoutDsp_right : ∃ x : RawoutDsp Nat, new 1 = some x ∧
    ¬Right (fun a : Nat => a) [.perform 1 (fun _ _ => 0) none] x := by
  refine ⟨_, rfl, ?_⟩
  rintro ⟨x', hrun, _⟩
  cases hrun

/-! ## Blocks of one length -/

/-- A block of `n` samples for which there is a packet if one is needed. -/
def Steady (n chans : Nat) : RawoutDspEvent α β → Prop
  | .perform m _ created => m = n ∧ ∃ packet, created = some packet ∧
      packet.length = packetSize chans
  | _ => True

end Runs

end RawoutDsp

end PureDataPacket
