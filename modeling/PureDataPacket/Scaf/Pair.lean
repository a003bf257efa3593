/-
# `PureDataPacket.Scaf.Pair` — the two packets of a `pdp_ca`

The object keeps two automata of one size and swaps them at every step.  A new
packet may take the place of one of them at any time, also while a step is waiting
in the queue; whenever that succeeds there are two automata of one size again.

| | |
| :-- | :-- |
| `Paired` | the object has two automata of one size |
| `CaGood` | the object in its pool |
| `Granted` | what is granted to the object |
| `KeepsCa` | what others do |
-/
import PureDataPacket.Scaf.Clones

namespace PureDataPacket

open Pool PoolProg

/-! ## The object -/

/-- What is in the queue for the object; `x_queue_id` is -1 if nothing is. -/
inductive CaTask where
  | idle
  /-- `pdp_ca_bang_thread` is to be called -/
  | queued
  /-- `pdp_ca_sendpacket` is to be called -/
  | processed
deriving DecidableEq

/-- The packets of a `t_pdp_ca`, and what it waits for. -/
structure CaObject where
  packet0 : Int
  packet1 : Int
  task : CaTask

/-- What a loaded rule makes of the data of two packets. -/
abbrev CaRule : Type := List UInt8 → List UInt8 → List UInt8

/-- What other messages have set.  `check_stack` may disable the rule after any
step, so `caRoutine` has one for each number of steps to go. -/
structure CaSettings where
  iterations : Nat
  mode2D : Bool
  fullscreen1d : Bool
  caRoutine : Nat → Option CaRule

namespace CaObject

section Object

variable (x : CaObject)

/-- `pdp_ca_process_ca_2D`: the header of packet 0 is read before anything is asked. -/
def processCa2D (caRoutine : Option CaRule) : PoolProg Unit := do
  match ← call (.header x.packet0) with
  | none => .crash .nullHeader
  | some header0 =>
      if header0.info.width = 0 then .crash .undefined
      else match caRoutine with
      | none => pure ()
      | some rule => do
          match ← call (.header x.packet1) with
          | none => pure ()
          | some header1 =>
              if header0.info.height = 0 then .crash .undefined else do
              let offset := shiftOffset (toInt32 header0.info.width) (toInt32 header0.info.height)
                (toInt32 header0.info.depth)
              call (.writeHeader x.packet1
                { header1.toMeta with info := { header1.info with depth := ofInt32 offset } })
              call (.memcpyData x.packet1
                ((rule header0.data.bytes header1.data.bytes).take header1.data.size))

/-- `pdp_ca_process_ca_1D`. -/
def processCa1D (caRoutine : Option CaRule) : PoolProg Unit := do
  match ← call (.header x.packet0) with
  | none => .crash .nullHeader
  | some header =>
      if header.info.height = 0 then .crash .undefined
      else match caRoutine with
      | none => pure ()
      | some rule => do
          call (.memcpyData x.packet0
            ((rule header.data.bytes header.data.bytes).take header.data.size))
          let currow := (toInt32 header.info.chanmask + 1).tmod (toInt32 header.info.height)
          call (.writeHeader x.packet0
            { header.toMeta with info := { header.info with chanmask := ofInt32 currow } })

/-- `pdp_ca_swappackets`. -/
def swappackets : CaObject := { x with packet0 := x.packet1, packet1 := x.packet0 }

/-- The loop of `pdp_ca_bang_thread` in two dimensions. -/
def steps2D (caRoutine : Nat → Option CaRule) : Nat → CaObject → PoolProg CaObject
  | 0, x => pure x
  | n + 1, x => do
      x.processCa2D (caRoutine n)
      steps2D caRoutine n x.swappackets

def steps1D (caRoutine : Nat → Option CaRule) : Nat → CaObject → PoolProg CaObject
  | 0, x => pure x
  | n + 1, x => do
      x.processCa1D (caRoutine n)
      steps1D caRoutine n x

/-- `pdp_ca_bang_thread`. -/
def bangThread (settings : CaSettings) : PoolProg CaObject :=
  if settings.mode2D then steps2D settings.caRoutine settings.iterations x
  else if settings.fullscreen1d then do
    match ← call (.header x.packet0) with
    | none => .crash .nullHeader
    | some header0 => do
        call (.writeHeader x.packet0
          { header0.toMeta with info := { header0.info with depth := 0, chanmask := 0 } })
        steps1D settings.caRoutine (toInt32 header0.info.height).toNat x
  else steps1D settings.caRoutine settings.iterations x

/-- `pdp_ca_sendpacket`, up to the outlet. -/
def sendpacket (horshift vershift : Int) : PoolProg CaObject := do
  match ← call (.header x.packet0) with
  | none => pure x
  | some header0 =>
      if header0.info.width = 0 ∨ header0.info.height = 0 then .crash .undefined else do
      let width := toInt32 header0.info.width
      let height := toInt32 header0.info.height
      let offset := toInt32 header0.info.depth
      let hor := if horshift.tmod width < 0 then horshift.tmod width + width
        else horshift.tmod width
      let ver := if vershift.tmod height < 0 then vershift.tmod height + height
        else vershift.tmod height
      let xoffset := (offset.tmod width + hor).tmod width
      let yoffset := (offset.tdiv width + ver).tmod height
      call (.writeHeader x.packet0
        { header0.toMeta with
          info := { header0.info with depth := ofInt32 (yoffset * width + xoffset) } })
      pure x

/-- The end of `pdp_ca_copy_rw_if_valid`, after `packet0` has been made.  The header of
packet 1 is looked up before that, but what it says is read here. -/
def keepCompatible (packet0 : Int) : PoolProg CaObject := do
  let header1 ← call (.header x.packet1)
  let header ← call (.header packet0)
  match header1, header with
  | some header1, some header =>
      if header1.info.width ≠ header.info.width ∨ header1.info.height ≠ header.info.height
      then do
        call (.markUnused x.packet1)
        let packet1 ← pdpPacketCloneRw packet0
        pure { x with packet0 := packet0, packet1 := packet1 }
      else pure { x with packet0 := packet0 }
  | _, _ => .crash .nullHeader

/-- `pdp_ca_copy_rw_if_valid`. -/
def copyRwIfValid (packet : Int) : PoolProg CaObject := do
  match ← call (.header packet) with
  | none => pure x
  | some header =>
      if header.type ≠ pdpCa then pure x
      else if header.info.encoding ≠ pdpCaStandard then pure x
      else do
        call (.markUnused x.packet0)
        let packet0 ← pdpPacketCopyRw packet
        x.keepCompatible packet0

/-- `pdp_ca_newca`, for what the `float`s are without their fractions. -/
def newca (width height : Int) : PoolProg CaObject := do
  call (.markUnused x.packet0)
  call (.markUnused x.packet1)
  let packet0 ← (if IsInt width ∧ IsInt height then pdpPacketNewCa width height
    else .crash .undefined)
  let packet1 ← pdpPacketCloneRw packet0
  pure { x with packet0 := packet0, packet1 := packet1 }

/-- `pdp_ca_rand`, for what `random` returns. -/
def rand (random : List UInt8) : PoolProg CaObject := do
  match ← call (.header x.packet0) with
  | none => .crash .nullHeader
  | some header => do
      let nbshortints := toInt32 (u32 (header.info.width / 16 * header.info.height))
      call (.memcpyData x.packet0 (random.take (2 * nbshortints.toNat)))
      pure x

end Object

end CaObject

/-- A message to the object, or a call from the queue. -/
inductive CaAction where
  /-- `register_rw`, on either inlet -/
  | registerRw (packet : Int)
  | bang
  | dim (width height : Int)
  | random (values : List UInt8)
  /-- the worker calls `pdp_ca_bang_thread` -/
  | thread (settings : CaSettings)
  /-- the queue was full, so nobody calls it -/
  | skipped
  /-- `pdp_ca_sendpacket` is called -/
  | send (horshift vershift : Int)

def CaAction.prog : CaAction → CaObject → PoolProg CaObject
  | .registerRw packet, x => x.copyRwIfValid packet
  | .bang, x => pure (if x.task = .idle then { x with task := .queued } else x)
  | .dim width height, x => x.newca width height
  | .random values, x => x.rand values
  | .thread settings, x =>
      if x.task = .queued then do
        let x ← x.bangThread settings
        pure { x with task := .processed }
      else pure x
  | .skipped, x => pure (if x.task = .queued then { x with task := .processed } else x)
  | .send horshift vershift, x =>
      if x.task = .processed then { x with task := .idle }.sendpacket horshift vershift else pure x

/-- `pdp_ca_new`. -/
def pdpCaNew : PoolProg CaObject := CaObject.newca ⟨-1, -1, .idle⟩ 64 64

/-! ## The pair -/

section Pair

/-- A packet in use that is an automaton. -/
structure InUse (s : Pool) (r : Int) (w h : Nat) : Prop where
  header : ∃ q, s.pdpPacketHeader r = some q ∧ 0 < q.users ∧ IsAutomaton q.toMeta w h

/-- The object has two automata of one size. -/
structure Paired (s : Pool) (x : CaObject) : Prop where
  ne : x.packet0 ≠ x.packet1
  automata : ∃ w h, InUse s x.packet0 w h ∧ InUse s x.packet1 w h

/-- The object in its pool. -/
structure CaGood (s : Pool) (x : CaObject) : Prop where
  paired : Paired s x
  sound : SoundPool s

variable {s s' : Pool} {x : CaObject} {w h : Nat} {r : Int}

theorem InUse.others (hr : InUse s r w h) (hh : s'.pdpPacketHeader r = s.pdpPacketHeader r) :
    InUse s' r w h := by
  obtain ⟨q, hq, hrest⟩ := hr.header
  exact ⟨q, hh.trans hq, hrest⟩

/-- What a step writes to a packet leaves an automaton of its size. -/
theorem CaGood.puts (hx : CaGood s x) {q q' : Packet} (hq : s.pdpPacketHeader r = some q)
    (hputs : Puts s r (some q') s') (hu : q'.users = q.users)
    (ha : ∀ w h, IsAutomaton q.toMeta w h → IsAutomaton q'.toMeta w h)
    (hauto : ∃ w h, IsAutomaton q.toMeta w h) : CaGood s' x := by
  have hinuse : ∀ {r' : Int} {w h : Nat}, InUse s r' w h → InUse s' r' w h := by
    intro r' w h hr
    by_cases he : r' = r
    · subst he
      obtain ⟨p, hp, hpu, hpa⟩ := hr.header
      obtain rfl : q = p := Option.some.inj (hq.symm.trans hp)
      exact ⟨q', hputs.self, hu ▸ hpu, ha w h hpa⟩
    · exact hr.others (hputs.other he)
  obtain ⟨hne, w, h, h0, h1⟩ := hx.paired
  obtain ⟨w', h', hauto⟩ := hauto
  exact ⟨⟨hne, w, h, hinuse h0, hinuse h1⟩, hx.sound.puts hputs (ha w' h' hauto).honest⟩

theorem ends_writeHeader {α : Type} {Q : α → Pool → Prop} {q : Packet} {m : Meta}
    {k : Unit → PoolProg α} (hq : s.pdpPacketHeader r = some q)
    (hk : ∀ s', Puts s r (some { q with toMeta := m }) s' →
      (k ()).Ends PoolOp.exec NotNullHeader Q s') :
    Prog.Ends PoolOp.exec NotNullHeader (call (.writeHeader r m) >>= k) Q s := by
  refine Prog.ends_act (fun e he => ?_) fun _ s' he => ?_
  · simp only [PoolOp.exec, writeHeader, hq] at he
    cases he
  · obtain ⟨p, hp, hputs⟩ := writeHeader_spec (PoolOp.effect_eq_ok he)
    obtain rfl : q = p := Option.some.inj (hq.symm.trans hp)
    exact hk s' hputs

theorem ends_memcpyData {α : Type} {Q : α → Pool → Prop} {q : Packet} {l : List UInt8}
    {k : Unit → PoolProg α} (hq : s.pdpPacketHeader r = some q)
    (hk : ∀ data s', Puts s r (some { q with data := data }) s' →
      (k ()).Ends PoolOp.exec NotNullHeader Q s') :
    Prog.Ends PoolOp.exec NotNullHeader (call (.memcpyData r l) >>= k) Q s := by
  refine Prog.ends_act (fun e he => ?_) fun _ s' he => ?_
  · simp only [PoolOp.exec, memcpyData, hq] at he
    split at he
    · cases he
    · cases he
      exact fun h => by cases h
  · obtain ⟨p, _, hp, hputs⟩ := memcpyData_spec (PoolOp.effect_eq_ok he)
    obtain rfl : q = p := Option.some.inj (hq.symm.trans hp)
    exact hk _ s' hputs

theorem ends_release {α : Type} {Q : α → Pool → Prop} {k : Unit → PoolProg α}
    (hk : (k ()).Ends PoolOp.exec NotNullHeader Q (pdpPacketMarkUnused r s)) :
    Prog.Ends PoolOp.exec NotNullHeader (call (.markUnused r) >>= k) Q s :=
  Prog.ends_act (fun _ he => by cases he) fun _ _ he => by
    cases he
    exact hk

theorem CaGood.data (hx : CaGood s x) {q : Packet} (hq : s.pdpPacketHeader r = some q)
    (ha : IsAutomaton q.toMeta w h) {data : DataArea}
    (hputs : Puts s r (some { q with data := data }) s') : CaGood s' x :=
  hx.puts hq hputs rfl (fun _ _ h => h) ⟨w, h, ha⟩

theorem CaGood.numbers (hx : CaGood s x) {q : Packet} (hq : s.pdpPacketHeader r = some q)
    (ha : IsAutomaton q.toMeta w h) {depth chanmask : Nat}
    (hputs : Puts s r (some { q with toMeta := { q.toMeta with
      info := { q.info with depth := depth, chanmask := chanmask } } }) s') : CaGood s' x :=
  hx.puts hq hputs rfl (fun _ _ h => h.step _ _) ⟨w, h, ha⟩

/-- The object is as it was, and its packets are automata of the size that they had. -/
theorem ends_processCa2D (hx : CaGood s x) (caRoutine : Option CaRule) :
    (x.processCa2D caRoutine).Ends PoolOp.exec NotNullHeader (fun _ s' => CaGood s' x) s := by
  obtain ⟨-, w, h, ⟨q₀, hq₀, -, ha₀⟩, ⟨q₁, hq₁, -, ha₁⟩⟩ := hx.paired
  refine ends_header ?_
  rw [hq₀]
  show Prog.Ends _ _ (if _ then _ else _) _ _
  split
  · exact Prog.ends_crash fun h => by cases h
  · cases caRoutine with
    | none => exact Prog.ends_done hx
    | some rule =>
        refine ends_header ?_
        rw [hq₁]
        show Prog.Ends _ _ (if _ then _ else _) _ _
        split
        · exact Prog.ends_crash fun h => by cases h
        · refine ends_writeHeader hq₁ fun s₁ hputs => ?_
          refine ends_memcpyData hputs.self fun data s₂ hputs' => Prog.ends_done ?_
          exact (hx.numbers hq₁ ha₁ hputs).data hputs.self (ha₁.step _ _) hputs'

theorem ends_processCa1D (hx : CaGood s x) (caRoutine : Option CaRule) :
    (x.processCa1D caRoutine).Ends PoolOp.exec NotNullHeader (fun _ s' => CaGood s' x) s := by
  obtain ⟨-, w, h, ⟨q₀, hq₀, -, ha₀⟩, -⟩ := hx.paired
  refine ends_header ?_
  rw [hq₀]
  show Prog.Ends _ _ (if _ then _ else _) _ _
  split
  · exact Prog.ends_crash fun h => by cases h
  · cases caRoutine with
    | none => exact Prog.ends_done hx
    | some rule =>
        refine ends_memcpyData hq₀ fun data s₁ hputs => ?_
        refine ends_writeHeader hputs.self fun s₂ hputs' => Prog.ends_done ?_
        exact (hx.data hq₀ ha₀ hputs).numbers hputs.self ha₀ hputs'

theorem CaGood.swappackets (hx : CaGood s x) : CaGood s x.swappackets := by
  obtain ⟨hne, w, h, h0, h1⟩ := hx.paired
  exact ⟨⟨Ne.symm hne, w, h, h1, h0⟩, hx.sound⟩

theorem ends_steps2D (caRoutine : Nat → Option CaRule) (n : Nat) (hx : CaGood s x) :
    (CaObject.steps2D caRoutine n x).Ends PoolOp.exec NotNullHeader (fun x' s' => CaGood s' x')
      s := by
  induction n generalizing s x with
  | zero => exact Prog.ends_done hx
  | succ n ih =>
      exact Prog.ends_bind (ends_processCa2D hx _) fun _ s₁ hx₁ => ih hx₁.swappackets

theorem ends_steps1D (caRoutine : Nat → Option CaRule) (n : Nat) (hx : CaGood s x) :
    (CaObject.steps1D caRoutine n x).Ends PoolOp.exec NotNullHeader (fun x' s' => CaGood s' x')
      s := by
  induction n generalizing s x with
  | zero => exact Prog.ends_done hx
  | succ n ih => exact Prog.ends_bind (ends_processCa1D hx _) fun _ s₁ hx₁ => ih hx₁

theorem ends_bangThread (hx : CaGood s x) (settings : CaSettings) :
    (x.bangThread settings).Ends PoolOp.exec NotNullHeader (fun x' s' => CaGood s' x') s := by
  have hsteps : ∀ n {s}, CaGood s x → (CaObject.steps1D settings.caRoutine n x).Ends PoolOp.exec
      NotNullHeader (fun x' s' => CaGood s' x') s := fun n _ hx => ends_steps1D _ n hx
  unfold CaObject.bangThread
  -- how many steps a full screen takes is not computed
  generalize CaObject.steps1D settings.caRoutine = steps at hsteps ⊢
  split
  · exact ends_steps2D _ _ hx
  · split
    · obtain ⟨-, w, h, ⟨q₀, hq₀, -, ha₀⟩, -⟩ := hx.paired
      refine ends_header ?_
      rw [hq₀]
      exact ends_writeHeader hq₀ fun s₁ hputs => hsteps _ (hx.numbers hq₀ ha₀ hputs)
    · exact hsteps _ hx

theorem ends_sendpacket (hx : CaGood s x) (horshift vershift : Int) :
    (x.sendpacket horshift vershift).Ends PoolOp.exec NotNullHeader (fun x' s' => CaGood s' x')
      s := by
  obtain ⟨-, w, h, ⟨q₀, hq₀, -, ha₀⟩, -⟩ := hx.paired
  refine ends_header ?_
  rw [hq₀]
  show Prog.Ends _ _ (if _ then _ else _) _ _
  split
  · exact Prog.ends_crash fun h => by cases h
  · exact ends_writeHeader hq₀ fun s₁ hputs => Prog.ends_done (hx.numbers hq₀ ha₀ hputs)

theorem ends_rand (hx : CaGood s x) (values : List UInt8) :
    (x.rand values).Ends PoolOp.exec NotNullHeader (fun x' s' => CaGood s' x') s := by
  obtain ⟨-, w, h, ⟨q₀, hq₀, -, ha₀⟩, -⟩ := hx.paired
  refine ends_header ?_
  rw [hq₀]
  exact ends_memcpyData hq₀ fun data s₁ hputs => Prog.ends_done (hx.data hq₀ ha₀ hputs)


theorem NewCa.inUse (hn : NewCa s w h r s') : InUse s' r w h := ⟨hn.header⟩

/-- What is granted to the object: that the registered automaton may be copied, and is in
use or waits to be reused; that the size of a new automaton is an `int` and fits a packet; that
there is room for what it needs, which is four calls of `malloc` at most. -/
def Granted (s : Pool) : CaAction → Prop
  | .registerRw packet => ∀ q, s.pdpPacketHeader packet = some q → q.type = pdpCa →
      q.info.encoding = pdpCaStandard → q.flags &&& pdpFlagDonotcopy = 0 ∧
        (q.users = 0 → ∀ d, q.desc = some d → packet ∈ s.reusefifo d) ∧ MallocWorks s 4
  | .dim width height => (IsInt width ∧ IsInt height) ∧
      IsInt (caWidth width / 8 * caHeight height) ∧ Fitting (caBytes width height) ∧
        MallocWorks s 4
  | _ => True

/-- What is in use stays so if something else is released. -/
theorem InUse.released {y : Int} {w' h' : Nat} (hr : InUse s r w h) (hy : InUse s y w' h')
    (hne : r ≠ y) : InUse (pdpPacketMarkUnused y s) r w h := by
  obtain ⟨q, hq, -⟩ := hy.header
  exact hr.others ((header_markUnused hq r).trans (if_neg hne))

/-- An automaton that has been released, or not, is in use or waits in its fifo. -/
theorem header_released {y packet : Int} {w' h' : Nat} {p : Packet} (hy : InUse s y w' h')
    (hp : s.pdpPacketHeader packet = some p) (ha : IsAutomaton p.toMeta w h)
    (hfifo : p.users = 0 → packet ∈ s.reusefifo (caDescription w h)) :
    ∃ p₁, (pdpPacketMarkUnused y s).pdpPacketHeader packet = some p₁ ∧ p₁.toMeta = p.toMeta ∧
      (p₁.users = 0 → packet ∈ (pdpPacketMarkUnused y s).reusefifo (caDescription w h)) := by
  obtain ⟨q, hq, hu, -⟩ := hy.header
  by_cases he : packet = y
  · subst he
    obtain rfl : p = q := Option.some.inj (hp.symm.trans hq)
    refine ⟨_, (header_markUnused hp packet).trans (if_pos rfl), rfl, fun h0 => ?_⟩
    have h1 : p.users - 1 = 0 := h0
    rcases pdpPacketMarkUnused_eq hp with ⟨-, hmany | hnone⟩ | ⟨d, hd, -, hrun⟩
    · omega
    · cases hnone.symm.trans ha.desc
    · obtain rfl : d = caDescription w h := Option.some.inj (hd.symm.trans ha.desc)
      rw [hrun]
      exact mem_reusefifo_save.mpr (Or.inr ⟨rfl, rfl⟩)
  · refine ⟨p, (header_markUnused hq packet).trans ((if_neg he).trans hp), rfl, fun h0 => ?_⟩
    rcases pdpPacketMarkUnused_eq hq with ⟨hrun, -⟩ | ⟨d, -, -, hrun⟩
    · rw [hrun]
      exact hfifo h0
    · rw [hrun]
      exact mem_reusefifo_save.mpr (Or.inl (hfifo h0))

/-- The end of `pdp_ca_copy_rw_if_valid`: the other packet is kept if it has the size
of the copy, and becomes a clone of it if not. -/
theorem ends_keepCompatible {s₁ s₂ : Pool} {w' h' : Nat} (hn : NewCa s₁ w' h' r s₂)
    (hm : MallocWorks s₂ 2) (h1 : InUse s₁ x.packet1 w h) :
    Prog.Ends PoolOp.exec NotNullHeader (x.keepCompatible r) (fun x' s' => CaGood s' x') s₂ := by
  obtain ⟨q₁, hq₁, hu₁, ha₁⟩ := h1.header
  have hne := hn.ne hq₁ hu₁
  have hothers := hn.others _ hne
  obtain ⟨q, hq, hu, ha⟩ := hn.header
  refine ends_header (ends_header ?_)
  rw [hothers, hq₁, hq]
  show Prog.Ends _ _ (if _ then _ else _) _ _
  split
  · refine ends_release ?_
    have hr := hn.inUse.released (h1.others hothers) (Ne.symm hne)
    obtain ⟨q', hq', hu', ha'⟩ := hr.header
    have hm' : MallocWorks (pdpPacketMarkUnused x.packet1 s₂) 2 :=
      (spends_markUnused s₂ x.packet1).works (by simpa using hm)
    refine Prog.ends_bind (ends_cloneRw_ca (hn.sound.markUnused _) hm' hq' ha' (by omega))
      fun r' s₄ hn' => Prog.ends_done ?_
    have hne' := hn'.ne hq' hu'
    exact ⟨⟨hne', _, _, hr.others (hn'.others r hne'), hn'.inUse⟩, hn'.sound⟩
  · next hdims =>
      obtain ⟨hwidth, hheight⟩ := not_or.mp hdims
      have hsame : w = w' ∧ h = h' :=
        ⟨ha₁.width.symm.trans ((not_not.mp hwidth).trans ha.width),
          ha₁.height.symm.trans ((not_not.mp hheight).trans ha.height)⟩
      obtain ⟨rfl, rfl⟩ := hsame
      exact Prog.ends_done ⟨⟨Ne.symm hne, w, h, hn.inUse, h1.others hothers⟩, hn.sound⟩

/-- A copy of an automaton is left by `pdp_ca_copy_rw_if_valid`, and another automaton of
its size. -/
theorem ends_copyRwIfValid (hx : CaGood s x) {packet : Int} (hg : Granted s (.registerRw packet)) :
    (x.copyRwIfValid packet).Ends PoolOp.exec NotNullHeader (fun x' s' => CaGood s' x') s := by
  obtain ⟨hne, w, h, h0, h1⟩ := hx.paired
  refine ends_header ?_
  cases hp : s.pdpPacketHeader packet with
  | none => exact Prog.ends_done hx
  | some p =>
      show Prog.Ends _ _ (if _ then _ else _) _ _
      split
      · exact Prog.ends_done hx
      · next htype =>
          show Prog.Ends _ _ (if _ then _ else _) _ _
          split
          · exact Prog.ends_done hx
          · next hencoding =>
              have ha := (hx.sound.honest packet p hp).typed (not_not.mp htype)
                (not_not.mp hencoding)
              obtain ⟨hflags, hfifo, hm⟩ := hg p hp (not_not.mp htype) (not_not.mp hencoding)
              refine ends_release ?_
              have hs₁ := hx.sound.markUnused x.packet0
              have hm₁ : MallocWorks (pdpPacketMarkUnused x.packet0 s) 4 :=
                (spends_markUnused s x.packet0).works (by simpa using hm)
              obtain ⟨p₁, hp₁, hmeta, hfifo₁⟩ := header_released h0 hp ha fun h => hfifo h _ ha.desc
              have ha₁ : IsAutomaton p₁.toMeta p.info.width p.info.height := hmeta ▸ ha
              have hflags₁ : p₁.flags &&& pdpFlagDonotcopy = 0 := hmeta ▸ hflags
              have h1₁ := h1.released h0 (Ne.symm hne)
              refine Prog.ends_bind (ends_copyRw_ca hs₁ (hm₁.mono (by decide)) hp₁ ha₁ hfifo₁
                hflags₁) fun r s₂ hn => ?_
              exact ends_keepCompatible hn (hn.spends.works hm₁) h1₁

theorem ends_newca (hs : SoundPool s) {width height : Int} (hg : Granted s (.dim width height)) :
    (x.newca width height).Ends PoolOp.exec NotNullHeader (fun x' s' => CaGood s' x') s := by
  obtain ⟨hint, -, hfit, hm⟩ := hg
  refine ends_release (ends_release ?_)
  have hs₂ := (hs.markUnused x.packet0).markUnused x.packet1
  have hm₂ : MallocWorks (pdpPacketMarkUnused x.packet1 (pdpPacketMarkUnused x.packet0 s)) 4 :=
    (spends_markUnused _ x.packet1).works (m := 0) (by
      simpa using (spends_markUnused s x.packet0).works (by simpa using hm))
  rw [if_pos hint]
  refine Prog.ends_bind (ends_newCa hint.1 hint.2 hs₂ (hm₂.mono (by decide)) fun _ => hfit)
    fun r s₃ hn => ?_
  obtain ⟨q, hq, hu, ha⟩ := hn.header
  have hm₃ : MallocWorks s₃ 2 := hn.spends.works hm₂
  refine Prog.ends_bind (ends_cloneRw_ca hn.sound hm₃ hq ha (by omega)) fun r' s₄ hn' =>
    Prog.ends_done ?_
  have hne := hn'.ne hq hu
  exact ⟨⟨hne, _, _, hn.inUse.others (hn'.others r hne), hn'.inUse⟩, hn'.sound⟩

end Pair

/-! ## Runs -/

section Run

/-- Others keep the pool sound, and do not release the packets of the object. -/
structure KeepsCa (x : CaObject) (s s' : Pool) : Prop where
  sound : SoundPool s → SoundPool s'
  packets : ∀ r, r = x.packet0 ∨ r = x.packet1 → ∀ w h, InUse s r w h → InUse s' r w h

/-- The runs of the object, in which every step meets `C`. -/
inductive CaRun (C : Pool → CaAction → Prop) : Pool → CaObject → Prop
  | new {s s' : Pool} {x : CaObject} (hs : SoundPool s) (hC : C s (.dim 64 64))
      (hrun : pdpCaNew.run s = .ok (x, s')) : CaRun C s' x
  | step {s s' : Pool} {x x' : CaObject} {a : CaAction} (h : CaRun C s x) (hC : C s a)
      (hrun : (a.prog x).run s = .ok (x', s')) : CaRun C s' x'
  | outside {s s' : Pool} {x : CaObject} (h : CaRun C s x) (hkeeps : KeepsCa x s s') :
      CaRun C s' x

variable {s s' : Pool} {x x' : CaObject}

theorem CaGood.task (hx : CaGood s x) (task : CaTask) : CaGood s { x with task := task } :=
  ⟨⟨hx.paired.ne, hx.paired.automata⟩, hx.sound⟩

theorem ends_prog (hx : CaGood s x) {a : CaAction} (ha : Granted s a) :
    (a.prog x).Ends PoolOp.exec NotNullHeader (fun x' s' => CaGood s' x') s := by
  cases a with
  | registerRw packet => exact ends_copyRwIfValid hx ha
  | bang =>
      refine Prog.ends_done ?_
      split
      · exact hx.task _
      · exact hx
  | dim width height => exact ends_newca hx.sound ha
  | random values => exact ends_rand hx values
  | thread settings =>
      show Prog.Ends _ _ (if _ then _ else _) _ _
      split
      · exact Prog.ends_bind (ends_bangThread hx settings) fun x' s' hx' =>
          Prog.ends_done (hx'.task _)
      · exact Prog.ends_done hx
  | skipped =>
      refine Prog.ends_done ?_
      split
      · exact hx.task _
      · exact hx
  | send horshift vershift =>
      show Prog.Ends _ _ (if _ then _ else _) _ _
      split
      · exact ends_sendpacket (hx.task _) horshift vershift
      · exact Prog.ends_done hx

theorem KeepsCa.good (h : KeepsCa x s s') (hx : CaGood s x) : CaGood s' x := by
  obtain ⟨⟨hne, w, l, h0, h1⟩, hs⟩ := hx
  exact ⟨⟨hne, w, l, h.packets _ (Or.inl rfl) w l h0, h.packets _ (Or.inr rfl) w l h1⟩, h.sound hs⟩

theorem CaRun.good (h : CaRun Granted s x) : CaGood s x := by
  induction h with
  | new hs hC hrun => exact (ends_newca hs hC).ok hrun
  | step _ hC hrun ih => exact (ends_prog ih hC).ok hrun
  | outside _ hkeeps ih => exact hkeeps.good ih

/-- In every run in which the object is granted what it needs, it has two automata of one
size, and no step reads a null header. -/
theorem caRun_paired (h : CaRun Granted s x) :
    Paired s x ∧ ∀ a, Granted s a → (a.prog x).run s ≠ .error .nullHeader :=
  ⟨h.good.paired, fun _ ha hrun => (ends_prog h.good ha).error hrun rfl⟩

/-! ## Memory that lasts, and memory that does not -/

/-- Nothing is in the pool; the first `n` calls of `malloc` succeed. -/
def caPool (n : Nat) : Pool := pdpPacketSetup [] fun k => if k < n then some fun _ => 0 else none

theorem soundPool_caPool (n : Nat) : SoundPool (caPool n) where
  fifo d x hx := by cases hx
  honest x q hq := by
    have hmem := mem_of_header hq
    simp [caPool, pdpPacketSetup] at hmem
  classes c hc := by cases hc

theorem caRun_paired_bang : ∃ s x, CaRun Granted s x ∧ Paired s x ∧
    (CaAction.bang.prog x).run s ≠ .error .nullHeader := by
  have hnew : (pdpCaNew.run (caPool 4)).toOption.isSome = true := by decide +kernel
  cases hrun : pdpCaNew.run (caPool 4) with
  | error e =>
      rw [hrun] at hnew
      cases hnew
  | ok r =>
      have hgranted : Granted (caPool 4) (.dim 64 64) := by
        refine ⟨⟨by decide, by decide⟩, by decide +kernel, by decide +kernel, fun k _ hk => ?_⟩
        have hlt : k < 4 := Nat.lt_of_lt_of_eq hk (Nat.zero_add 4)
        show (if k < 4 then some _ else none) ≠ none
        rw [if_pos hlt]
        exact Option.some_ne_none _
      have h : CaRun Granted r.2 r.1 := .new (soundPool_caPool 4) hgranted hrun
      obtain ⟨hpaired, hnull⟩ := caRun_paired h
      exact ⟨r.2, r.1, h, hpaired, hnull .bang trivial⟩

/-- The object is made, `dim 128 128` finds no memory, and `random` comes. -/
def lost (s : Pool) : Bool :=
  match pdpCaNew.run s with
  | .error _ => false
  | .ok (x, s) =>
      match ((CaAction.dim 128 128).prog x).run s with
      | .error _ => false
      | .ok (x, s) =>
          match ((CaAction.random []).prog x).run s with
          | .error .nullHeader => x.packet0 = x.packet1
          | _ => false

/-- Where `malloc` may fail, the pair may be lost, and the next message reads a null
header. -/
theorem not_caRun_paired : ∃ s x, CaRun (fun _ _ => True) s x ∧ ¬ Paired s x ∧
    ∃ a : CaAction, (a.prog x).run s = .error .nullHeader := by
  have hlost : lost (caPool 2) = true := by decide +kernel
  unfold lost at hlost
  split at hlost
  · cases hlost
  · next x s hnew =>
      split at hlost
      · cases hlost
      · next x' s' hdim =>
          split at hlost
          · next hrandom =>
              have hrun := CaRun.new (C := fun _ _ => True) (soundPool_caPool 2) trivial hnew
              refine ⟨s', x', hrun.step trivial hdim, fun hp => ?_, _, hrandom⟩
              exact hp.ne (of_decide_eq_true hlost)
          · cases hlost

end Run

end PureDataPacket
