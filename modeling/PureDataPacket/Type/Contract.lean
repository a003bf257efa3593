/-
# `PureDataPacket.Type.Contract` — what a conversion owes

Two properties of code that is called on a packet and returns another, both
over every pool in which that packet is in use:

| | |
| :-- | :-- |
| `InBounds` | no access outside of the two packets, no undefined step |
| `StaleFree` | the bytes returned do not depend on anything but the packet |

For code that makes a packet and fills it by a list of steps the two come down
to the list: it has to fit, and it has to cover.
-/
import PureDataPacket.Type.Constructors
import PureDataPacket.Type.Conversions

namespace PureDataPacket

open Pool

/-- `p` is in use under the handle `h`. -/
structure Held (s : Pool) (h : Int) (p : Packet) : Prop where
  header : s.pdpPacketHeader h = some p
  users : 0 < p.users

/-- The only fault is that of a pool which cannot grow. -/
def InBounds (code : Int → PoolProg Int) (p : Packet) : Prop :=
  ∀ s h, Held s h p → ∀ e, (code h).run s = .error e → e = .nullPointer

/-- A run from `s` returns a packet with these bytes. -/
def Returns (code : PoolProg Int) (s : Pool) (bytes : List UInt8) : Prop :=
  ∃ r t q, code.run s = .ok (r, t) ∧ t.pdpPacketHeader r = some q ∧ q.data.bytes = bytes

/-- Any two runs return the same bytes, whatever is in the rest of the pool and
in the memory that `malloc` returns. -/
structure StaleFree (code : Int → PoolProg Int) (p : Packet) : Prop where
  inBounds : InBounds code p
  same : ∀ s s' h h' bytes bytes', Held s h p → Held s' h' p →
    Returns (code h) s bytes → Returns (code h') s' bytes' → bytes = bytes'

/-! ## Filling a packet -/

/-- A new packet of `n` bytes beside the source. -/
structure Made (h : Int) (p : Packet) (n : Nat) (r : Int) (data : DataArea) (s : Pool) : Prop where
  source : Held s h p
  header : ∃ m, s.pdpPacketHeader r = some ⟨m, 1, data⟩
  size : data.size = n

theorem Made.ne_neg_one {h r : Int} {p : Packet} {n : Nat} {data : DataArea} {s : Pool}
    (hm : Made h p n r data s) : r ≠ -1 := by
  rintro rfl
  obtain ⟨m, hr⟩ := hm.header
  rw [header_neg_one] at hr
  cases hr

section Fill

variable {h r : Int} {p : Packet} {n : Nat} {data : DataArea} {s : Pool}

theorem run_fill_none : (fill h r none).run s = .error .undefined := rfl

theorem run_fill_error (hm : Made h p n r data s) {l : List Step}
    (hl : ¬ Fits l p.data.size n) : (fill h r (some l)).run s = .error .outOfBounds := by
  obtain ⟨m, hr⟩ := hm.header
  have hrun : runSteps p.data.bytes l data.bytes = none :=
    runSteps_eq_none_iff.mpr (by rw [show data.bytes.length = n from hm.size]; exact hl)
  have hsrc : PoolOp.exec (.header h) s = .ok (some p, s) := by
    rw [PoolOp.exec, hm.source.header]
  have hdst : PoolOp.exec (.header r) s = .ok (some ⟨m, 1, data⟩, s) := by
    rw [PoolOp.exec, hr]
  refine (Prog.run_act_ok hsrc).trans ((Prog.run_act_ok hdst).trans ?_)
  show Prog.run PoolOp.exec (writeFilled r (runSteps p.data.bytes l data.bytes)) s = _
  rw [hrun]
  rfl

theorem run_writeFilled {m : Meta} {bytes : List UInt8}
    (hr : s.pdpPacketHeader r = some ⟨m, 1, data⟩) (hlength : bytes.length = data.size) :
    ∃ t data', (writeFilled r (some bytes)).run s = .ok (r, t) ∧
      t.pdpPacketHeader r = some ⟨m, 1, data'⟩ ∧ data'.bytes = bytes := by
  have hfits : bytes.length ≤ data.size := Nat.le_of_eq hlength
  have hcopy : PoolOp.exec (.memcpyData r bytes) s =
      .ok ((), s.put r (some ⟨m, 1, data.overwrite bytes hfits⟩)) := by
    simp only [PoolOp.exec, memcpyData, hr, dif_pos hfits, PoolOp.effect]
  refine ⟨_, data.overwrite bytes hfits, Prog.run_act_ok hcopy, (puts_of_header hr _).self, ?_⟩
  show bytes ++ data.bytes.drop bytes.length = bytes
  rw [hlength, DataArea.size, List.drop_length, List.append_nil]

theorem run_fill_header {m : Meta} (hp : s.pdpPacketHeader h = some p)
    (hr : s.pdpPacketHeader r = some ⟨m, 1, data⟩) {l : List Step} {bytes : List UInt8}
    (hl : runSteps p.data.bytes l data.bytes = some bytes) :
    ∃ t data', (fill h r (some l)).run s = .ok (r, t) ∧
      t.pdpPacketHeader r = some ⟨m, 1, data'⟩ ∧ data'.bytes = bytes := by
  have hlength : bytes.length = data.size := length_runSteps hl
  have hsrc : PoolOp.exec (.header h) s = .ok (some p, s) := by
    rw [PoolOp.exec, hp]
  have hdst : PoolOp.exec (.header r) s = .ok (some ⟨m, 1, data⟩, s) := by
    rw [PoolOp.exec, hr]
  obtain ⟨t, data', hwrite, hr', hbytes⟩ := run_writeFilled hr hlength
  refine ⟨t, data', ?_, hr', hbytes⟩
  refine (Prog.run_act_ok hsrc).trans ((Prog.run_act_ok hdst).trans ?_)
  show Prog.run PoolOp.exec (writeFilled r (runSteps p.data.bytes l data.bytes)) s = _
  rw [hl]
  exact hwrite

theorem run_fill_ok (hm : Made h p n r data s) {l : List Step} {bytes : List UInt8}
    (hl : runSteps p.data.bytes l data.bytes = some bytes) :
    ∃ t q, (fill h r (some l)).run s = .ok (r, t) ∧ t.pdpPacketHeader r = some q ∧
      q.data.bytes = bytes := by
  obtain ⟨m, hr⟩ := hm.header
  obtain ⟨t, data', hrun, hr', hbytes⟩ := run_fill_header hm.source.header hr hl
  exact ⟨t, _, hrun, hr', hbytes⟩

end Fill

/-! ## Making a packet and filling it -/

/-- The constructor finds that there is no memory for `n` bytes. -/
def Refused (n : Nat) : Prop := 2 ^ 31 ≤ n + pdpHeaderSize ∧ n + pdpHeaderSize < 2 ^ 32

def Fitting (n : Nat) : Prop := n + pdpHeaderSize < 2 ^ 31

instance (n : Nat) : Decidable (Refused n) := inferInstanceAs (Decidable (_ ∧ _))

instance (n : Nat) : Decidable (Fitting n) := inferInstanceAs (Decidable (_ < _))

theorem fitting_of_not_refused {n : Nat} (hn : n < 2 ^ 31) (h : ¬ Refused n) : Fitting n := by
  have hheader : pdpHeaderSize < 2 ^ 31 := by decide
  unfold Refused at h
  unfold Fitting
  omega

theorem not_fitting_of_refused {n : Nat} (h : Refused n) : ¬ Fitting n := by
  unfold Fitting
  unfold Refused at h
  omega

theorem overruns_iff {n : Nat} (hn : n < 2 ^ 32) : Overruns n ↔ ¬ (Refused n ∨ Fitting n) := by
  unfold Overruns Refused Fitting u32 pdpHeaderSize
  omega

theorem u32_of_refused {n : Nat} (h : Refused n) :
    2 ^ 31 ≤ u32 (n + pdpHeaderSize) := by
  rw [u32_eq_self h.2]
  exact h.1

section Make

variable {make : PoolProg Int} {t n : Nat} {m : Meta} {p : Packet}

/-- The ways in which a constructor ends; packets in use stay. -/
theorem Constructs.run_cases (hc : Constructs make t n m) (hn : n < 2 ^ 32) (s : Pool) :
    (∃ e, make.run s = .error e ∧ (e = .nullPointer ∨ Overruns n)) ∨
      (∃ s₁, make.run s = .ok (-1, s₁)) ∨
      Fitting n ∧ ∃ r s₁ data, make.run s = .ok (r, s₁) ∧
        s₁.pdpPacketHeader r = some ⟨m, 1, data⟩ ∧ data.size = n ∧
        ∀ h p, Held s h p → Held s₁ h p := by
  cases hnew : pdpPacketNew t n s with
  | error e =>
      refine Or.inl ⟨e, hc.error hnew, ?_⟩
      rcases pdpPacketNew_error hnew with he | ⟨_, ho⟩
      · exact Or.inl he
      · exact Or.inr ho
  | ok x =>
      obtain ⟨r, s₁⟩ := x
      right
      rcases pdpPacketNew_spec hnew with ⟨rfl, _⟩ | hout
      · exact Or.inl ⟨s₁, hc.fail hnew⟩
      · obtain ⟨hfit, data, hsize, hputs⟩ := size_of_handsOut hn hout
        obtain ⟨s₂, hrun, hputs'⟩ := hc.ok hnew hputs.self
        refine Or.inr ⟨hfit, r, s₂, data, hrun, hputs'.self, hsize, fun h p hp => ?_⟩
        have hne : h ≠ r := by
          rintro rfl
          have := hout.unused p hp.header
          have := hp.users
          omega
        exact ⟨by rw [hputs'.other hne, hputs.other hne, hp.header], hp.users⟩

/-- The ways in which a run gets past the constructor. -/
theorem run_make (hc : Constructs make t n m) (hn : n < 2 ^ 32) {s : Pool} {h : Int}
    (hp : Held s h p) :
    (∃ e, make.run s = .error e ∧ (e = .nullPointer ∨ Overruns n)) ∨
      (∃ s₁, make.run s = .ok (-1, s₁)) ∨
      Fitting n ∧ ∃ r s₁ data, make.run s = .ok (r, s₁) ∧ Made h p n r data s₁ := by
  refine (hc.run_cases hn s).imp_right (Or.imp_right ?_)
  rintro ⟨hfit, r, s₁, data, hrun, hr, hsize, hheld⟩
  exact ⟨hfit, r, s₁, data, hrun, hheld h p hp, ⟨m, hr⟩, hsize⟩

variable (hc : Constructs make t n m) (hu : 0 < p.users)

theorem held_recycling {p : Packet} (hu : 0 < p.users) (old : DataArea) :
    Held (recycling p old) 0 p := ⟨header_recycling p old, hu⟩

include hc hu

/-- With a packet to recycle, the constructor returns it with its header. -/
theorem run_recycled (hn : Fitting n) {old : DataArea} (hold : old.size = n) :
    ∃ s₁, make.run (recycling p old) = .ok (1, s₁) ∧
      s₁.pdpPacketHeader 1 = some ⟨m, 1, old⟩ ∧ s₁.pdpPacketHeader 0 = some p := by
  have hnew := pdpPacketNew_recycling (t := t) hu hn hold
  have hputs : Puts (recycling p old) 1 (some (.fresh t old)) _ :=
    puts_put (by decide) (by show (1 : Int) < 3; decide) _
  obtain ⟨s₂, hrun, hputs'⟩ := hc.ok hnew hputs.self
  refine ⟨s₂, hrun, hputs'.self, ?_⟩
  rw [hputs'.other (by decide), hputs.other (by decide), header_recycling]

theorem make_recycling (hn : Fitting n) {old : DataArea} (hold : old.size = n) :
    ∃ s₁, make.run (recycling p old) = .ok (1, s₁) ∧ Made 0 p n 1 old s₁ := by
  obtain ⟨s₁, hrun, hr, hp⟩ := run_recycled hc hu hn hold
  exact ⟨s₁, hrun, ⟨hp, hu⟩, ⟨m, hr⟩, hold⟩

theorem make_refused (hn : Refused n) (old : DataArea) :
    ∃ s₁, make.run (recycling p old) = .ok (-1, s₁) :=
  ⟨_, hc.fail (pdpPacketNew_refused hu (u32_of_refused hn))⟩

theorem make_overruns (hn : Overruns n) (old : DataArea) :
    make.run (recycling p old) = .error .outOfBounds :=
  hc.error (pdpPacketNew_overruns hu hn)

end Make

/-! ## The two properties of such code -/

section Convert

variable {make : PoolProg Int} {t n : Nat} {m : Meta} {p : Packet} {α : Type} {x : Option α}
  {work : α → Option (List Step)}

/-- Make a packet, compute, fill the packet: what most conversions do. -/
def makeAndFill (make : PoolProg Int) (x : Option α) (work : α → Option (List Step)) (h : Int) :
    PoolProg Int :=
  make.bind fun r => checked x fun a => fillNew h r (work a)

theorem convertInto_eq (packet : Int) (make : PoolProg Int) (work : Option (List Step)) :
    convertInto packet make work = makeAndFill make (some ()) (fun _ => work) packet := rfl

theorem run_makeAndFill_error {h : Int} {s : Pool} {e : Fault} (hmake : make.run s = .error e) :
    (makeAndFill make x work h).run s = .error e := by
  show Prog.run PoolOp.exec (make.bind _) s = _
  rw [Prog.run_bind, show Prog.run PoolOp.exec make s = .error e from hmake]

theorem run_makeAndFill {h r : Int} {s s₁ : Pool} (hmake : make.run s = .ok (r, s₁)) :
    (makeAndFill make x work h).run s = (checked x fun a => fillNew h r (work a)).run s₁ :=
  Prog.run_bind_ok hmake

theorem run_fillNew_failed {h : Int} {s : Pool} {w : Option (List Step)} :
    (fillNew h (-1) w).run s = .ok (-1, s) := rfl

theorem run_fillNew_made {h r : Int} {s : Pool} {data : DataArea} (hm : Made h p n r data s)
    (w : Option (List Step)) : (fillNew h r w).run s = (fill h r w).run s := by
  unfold fillNew
  rw [if_neg hm.ne_neg_one]

/-- The ways in which a run ends, once the computation is defined. -/
theorem makeAndFill_cases (hc : Constructs make t n m) (hn : n < 2 ^ 32) {s : Pool} {h : Int}
    (hp : Held s h p) {a : α} (hx : x = some a) (work : α → Option (List Step)) :
    (∃ e, (makeAndFill make x work h).run s = .error e ∧ (e = .nullPointer ∨ Overruns n)) ∨
      (∃ s₁, (makeAndFill make x work h).run s = .ok (-1, s₁)) ∨
      Fitting n ∧ ∃ r s₁ data, Made h p n r data s₁ ∧
        (makeAndFill make x work h).run s = (fill h r (work a)).run s₁ := by
  subst hx
  rcases run_make hc hn hp with ⟨e, hrun, he⟩ | ⟨s₁, hrun⟩ | ⟨hfit, r, s₁, data, hrun, hmade⟩
  · exact Or.inl ⟨e, run_makeAndFill_error hrun, he⟩
  · exact Or.inr (Or.inl ⟨s₁, run_makeAndFill hrun⟩)
  · refine Or.inr (Or.inr ⟨hfit, r, s₁, data, hmade, ?_⟩)
    rw [run_makeAndFill hrun, checked, run_fillNew_made hmade]

theorem exists_dataArea (hfit : Fitting n) : ∃ old : DataArea, old.size = n :=
  ⟨.ofFill n hfit fun _ => 0, DataArea.size_ofFill n hfit _⟩

/-- With an old packet at hand, a run gets to the steps. -/
theorem run_recycling (hc : Constructs make t n m) (hu : 0 < p.users) {a : α} (hx : x = some a)
    (hfit : Fitting n) {old : DataArea} (hold : old.size = n) (work : α → Option (List Step)) :
    ∃ s₁, Made 0 p n 1 old s₁ ∧
      (makeAndFill make x work 0).run (recycling p old) = (fill 0 1 (work a)).run s₁ := by
  obtain ⟨s₁, hrun, hmade⟩ := make_recycling hc hu hfit hold
  refine ⟨s₁, hmade, ?_⟩
  rw [run_makeAndFill hrun, hx, checked, run_fillNew_made hmade]

theorem fits_of_inBounds (hc : Constructs make t n m) (hu : 0 < p.users)
    (h : InBounds (makeAndFill make x work) p) {a : α} (hx : x = some a) (hfit : Fitting n) :
    ∃ l, work a = some l ∧ Fits l p.data.size n := by
  obtain ⟨old, hold⟩ := exists_dataArea hfit
  obtain ⟨s₁, hmade, hrun⟩ := run_recycling hc hu hx hfit hold work
  cases hw : work a with
  | none =>
      rw [hw, run_fill_none] at hrun
      cases h _ _ (held_recycling hu old) _ hrun
  | some l =>
      refine ⟨l, rfl, ?_⟩
      by_contra hl
      rw [hw, run_fill_error hmade hl] at hrun
      cases h _ _ (held_recycling hu old) _ hrun

section

variable (hc : Constructs make t n m) (hn : n < 2 ^ 32) (hu : 0 < p.users)

include hc hn hu

theorem not_overruns_of_inBounds (h : InBounds (makeAndFill make x work) p) :
    Refused n ∨ Fitting n := by
  by_contra hno
  have ho : Overruns n := (overruns_iff hn).mpr hno
  have hrun := make_overruns hc hu ho ⟨[], by decide⟩
  cases h _ _ (held_recycling hu _) _ (run_makeAndFill_error hrun)

/-- The computation is defined, for a run that gets there can be found. -/
theorem defined_of_inBounds (h : InBounds (makeAndFill make x work) p) : ∃ a, x = some a := by
  cases hx : x with
  | some a => exact ⟨a, rfl⟩
  | none =>
      rcases not_overruns_of_inBounds hc hn hu h with hr | hfit
      · obtain ⟨s₁, hrun⟩ := make_refused hc hu hr ⟨[], by decide⟩
        cases h _ _ (held_recycling hu _) .undefined (by rw [run_makeAndFill hrun, hx]; rfl)
      · obtain ⟨old, hold⟩ := exists_dataArea hfit
        obtain ⟨s₁, hrun, _⟩ := make_recycling hc hu hfit hold
        cases h _ _ (held_recycling hu _) .undefined (by rw [run_makeAndFill hrun, hx]; rfl)

/-- Code that makes a packet and fills it stays in bounds exactly if the
constructor refuses or the steps fit. -/
theorem inBounds_makeAndFill_iff : InBounds (makeAndFill make x work) p ↔
    ∃ a, x = some a ∧
      (Refused n ∨ Fitting n ∧ ∃ l, work a = some l ∧ Fits l p.data.size n) := by
  constructor
  · intro h
    obtain ⟨a, hx⟩ := defined_of_inBounds hc hn hu h
    refine ⟨a, hx, (not_overruns_of_inBounds hc hn hu h).imp_right fun hfit => ⟨hfit, ?_⟩⟩
    exact fits_of_inBounds hc hu h hx hfit
  · rintro ⟨a, hx, hl⟩ s h hp e hrun
    have hno : ¬ Overruns n := by
      rw [overruns_iff hn, not_not]
      exact hl.imp_right And.left
    rcases makeAndFill_cases hc hn hp hx work with
      ⟨e', hrun', he⟩ | ⟨s₁, hrun'⟩ | ⟨hfit, r, s₁, data, hmade, hrun'⟩
    · cases hrun.symm.trans hrun'
      exact he.resolve_right hno
    · cases hrun.symm.trans hrun'
    · obtain ⟨_, l, hw, hfits⟩ := hl.resolve_left fun hr => not_fitting_of_refused hr hfit
      obtain ⟨bytes, hsteps⟩ := runSteps_isSome_iff.mpr (hmade.size.symm ▸ hfits)
      obtain ⟨t, q, hfill, _⟩ := run_fill_ok hmade hsteps
      rw [hw, hfill] at hrun'
      cases hrun.symm.trans hrun'

end

end Convert

/-! ## Code around it -/

theorem exists_held {p : Packet} (hu : 0 < p.users) : ∃ s h, Held s h p :=
  ⟨recycling p ⟨[], by decide⟩, 0, held_recycling hu _⟩

theorem inBounds_congr {code code' : Int → PoolProg Int} {p : Packet}
    (h : ∀ s h, Held s h p → (code h).run s = (code' h).run s) :
    InBounds code p ↔ InBounds code' p := by
  unfold InBounds
  refine forall_congr' fun s => forall_congr' fun x => forall_congr' fun hp => ?_
  rw [h s x hp]

theorem run_withHeader {s : Pool} {h : Int} {p : Packet} (hp : Held s h p)
    (body : Packet → PoolProg Int) : (withHeader h body).run s = (body p).run s := by
  have hheader : PoolOp.exec (.header h) s = .ok (some p, s) := by
    rw [PoolOp.exec, hp.header]
  exact Prog.run_act_ok hheader

section Checked

variable {α : Type} {x : Option α} {code : α → Int → PoolProg Int} {p : Packet}

theorem inBounds_checked_iff (hu : 0 < p.users) :
    InBounds (fun h => checked x fun a => code a h) p ↔ ∃ a, x = some a ∧ InBounds (code a) p := by
  cases hx : x with
  | none =>
      refine iff_of_false (fun h => ?_) (by rintro ⟨a, ha, _⟩; cases ha)
      obtain ⟨s, i, hp⟩ := exists_held hu
      cases h s i hp .undefined rfl
  | some a =>
      constructor
      · intro h
        exact ⟨a, rfl, h⟩
      · rintro ⟨b, hb, h⟩
        cases hb
        exact h

end Checked

end PureDataPacket
