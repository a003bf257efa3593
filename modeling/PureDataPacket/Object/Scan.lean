/-
# `PureDataPacket.Object.Scan` — two packets of a scanner

`pdp_scan~` and `pdp_scanxy~` read the pixels of an image as a signal.  When they interpolate,
the image before the last one waits in a second cell for one run of the DSP routine.  The two
objects differ only in which pixels they read.

A message comes with the pool as it is at that time.  `interpolate 0` releases the packet that
waits and leaves its handle in the cell, and `free` does not look at that cell.
-/
import PureDataPacket.Object.Holdings
import PureDataPacket.Type.Dispatch

namespace PureDataPacket

/-- `t_pdp_scan`, `t_pdp_scanxy`, and what the object owns. -/
structure Scan where
  packet0 : Int
  packet1 : Int
  interpolate : Bool
  owned : Holdings
  freed : Bool
  deriving DecidableEq

inductive ScanMessage where
  /-- `register_ro`; the pool is the one at that moment -/
  | registerRo (packet : Int) (pool : Pool)
  /-- `interpolate`, with 0 or 1 -/
  | interpolate (on : Bool)
  /-- the DSP routine -/
  | perform
  | free

namespace Scan

/-! ## The methods -/

/-- The pointer to the pixels of `packet1` is computed in any case, and used only for
interpolation. -/
def perform (x : Scan) : Scan :=
  if x.packet0 = -1 then x
  else
    let x := { x with owned := x.owned.read x.packet0 }
    if x.interpolate && x.packet1 ≠ -1 then
      { x with
        owned := (x.owned.read x.packet1).markUnused x.packet1
        packet1 := -1 }
    else x

/-- `register_ro`: the other message, *process*, does nothing. -/
def input0 (x : Scan) (packet : Int) (pool : Pool) : Scan :=
  match pool.pdpPacketHeader packet with
  | none => x
  | some header =>
      if header.type ≠ pdpImage then x
      else if header.info.encoding ≠ pdpImageYV12 ∧ header.info.encoding ≠ pdpImageGREY then x
      else if !x.interpolate || !pdpPacketImageCompat x.packet0 packet pool then
        let copy := (pdpPacketCopyRo packet (pdpPacketMarkUnused x.packet0 pool)).1
        { x with
          owned := (x.owned.markUnused x.packet0).receive copy
          packet0 := copy }
      else
        let copy := (pdpPacketCopyRo packet (pdpPacketMarkUnused x.packet1 pool)).1
        { x with
          owned := (x.owned.markUnused x.packet1).receive copy
          packet1 := x.packet0
          packet0 := copy }

def setInterpolate (x : Scan) (on : Bool) : Scan :=
  if on then { x with interpolate := true }
  else { x with interpolate := false, owned := x.owned.markUnused x.packet1 }

def release (x : Scan) : Scan :=
  { x with owned := x.owned.markUnused x.packet0, freed := true }

/-- The cells of the object; in the end there are none. -/
def cells (x : Scan) : List Int := if x.freed then [] else [x.packet0, x.packet1]

end Scan

/-! ## The two objects -/

/-- `pdp_scan_perform`. -/
def pdpScanPerform : Scan → Scan := Scan.perform

/-- `pdp_scanxy_perform`. -/
def pdpScanxyPerform : Scan → Scan := Scan.perform

/-- `pdp_scan_input_0`. -/
def pdpScanInput0 : Scan → Int → Pool → Scan := Scan.input0

/-- `pdp_scanxy_input_0`. -/
def pdpScanxyInput0 : Scan → Int → Pool → Scan := Scan.input0

/-- `pdp_scan_interpolate`. -/
def pdpScanInterpolate : Scan → Bool → Scan := Scan.setInterpolate

/-- `pdp_scanxy_interpolate`. -/
def pdpScanxyInterpolate : Scan → Bool → Scan := Scan.setInterpolate

/-- `pdp_scan_free`. -/
def pdpScanFree : Scan → Scan := Scan.release

/-- `pdp_scanxy_free`. -/
def pdpScanxyFree : Scan → Scan := Scan.release

inductive ScanClass where
  | pdpScan
  | pdpScanxy
  deriving DecidableEq

namespace ScanClass

/-- `pdp_scan_new`, `pdp_scanxy_new`. -/
def new : ScanClass → Scan
  | pdpScan => pdpScanInterpolate ⟨-1, -1, false, .empty, false⟩ false
  | pdpScanxy => pdpScanxyInterpolate ⟨-1, -1, false, .empty, false⟩ false

def handle : ScanClass → ScanMessage → Scan → Scan
  | pdpScan, .registerRo packet pool, x => pdpScanInput0 x packet pool
  | pdpScan, .interpolate on, x => pdpScanInterpolate x on
  | pdpScan, .perform, x => pdpScanPerform x
  | pdpScan, .free, x => pdpScanFree x
  | pdpScanxy, .registerRo packet pool, x => pdpScanxyInput0 x packet pool
  | pdpScanxy, .interpolate on, x => pdpScanxyInterpolate x on
  | pdpScanxy, .perform, x => pdpScanxyPerform x
  | pdpScanxy, .free, x => pdpScanxyFree x

end ScanClass

namespace ScanClass

/-- The object after some more messages. -/
def run (c : ScanClass) : Scan → List ScanMessage → Scan
  | x, [] => x
  | x, m :: l => c.run (c.handle m x) l

/-- Each message meets what is asked, and comes before the object is freed. -/
def Meets (c : ScanClass) (meets : Scan → ScanMessage → Prop) : Scan → List ScanMessage → Prop
  | _, [] => True
  | x, m :: l => x.freed = false ∧ meets x m ∧ c.Meets meets (c.handle m x) l

end ScanClass

/-! ## One reference for each cell -/

/-- No packet waits when interpolation is switched off, or the object freed. -/
def NoneWaits (x : Scan) : ScanMessage → Prop
  | .interpolate false => x.packet1 = -1
  | .free => x.packet1 = -1
  | _ => True

/-- The object owns a reference for each of its cells, in the end none, and never released or read
a packet that it did not own. -/
def Scan.Kept (x : Scan) : Prop := x.owned.Balanced x.cells

namespace Scan.Kept

variable {x : Scan}

theorem live_iff (hlive : x.freed = false) :
    x.Kept ↔ x.owned.Balanced [x.packet0, x.packet1] := by
  unfold Kept cells
  rw [hlive]
  rfl

theorem perform (h : x.Kept) (hlive : x.freed = false) : x.perform.Kept := by
  have hcells := (live_iff hlive).mp h
  unfold Scan.perform
  split
  · exact h
  · next h0 =>
      have hlook := hcells.look List.mem_cons_self h0
      dsimp only
      split
      · next h1 =>
          have hne : x.packet1 ≠ -1 := by simpa using (Bool.and_eq_true_iff.mp h1).2
          have hlook' := hlook.look (List.mem_cons_of_mem _ List.mem_cons_self) hne
          refine (live_iff (by exact hlive)).mpr ?_
          exact ((hlook'.perm (List.Perm.swap _ _ _)).release.cons).perm (List.Perm.swap _ _ _)
      · exact (live_iff (by exact hlive)).mpr hlook

theorem input0 (h : x.Kept) (hlive : x.freed = false) (packet : Int) (pool : Pool) :
    (x.input0 packet pool).Kept := by
  have hcells := (live_iff hlive).mp h
  unfold Scan.input0
  split
  · exact h
  · split_ifs
    · exact h
    · exact h
    · exact (live_iff (by exact hlive)).mpr (hcells.release.take _)
    · exact (live_iff (by exact hlive)).mpr ((hcells.perm (List.Perm.swap _ _ _)).release.take _)

theorem setInterpolate (h : x.Kept) (hlive : x.freed = false) {on : Bool}
    (hmeets : NoneWaits x (.interpolate on)) : (x.setInterpolate on).Kept := by
  cases on with
  | true => exact h
  | false =>
      have hcells := (live_iff hlive).mp h
      have hwaits : x.packet1 = -1 := hmeets
      refine (live_iff (by exact hlive)).mpr ?_
      show (x.owned.markUnused x.packet1).Balanced [x.packet0, x.packet1]
      rw [hwaits] at hcells ⊢
      exact ((hcells.perm (List.Perm.swap _ _ _)).release.cons).perm (List.Perm.swap _ _ _)

theorem release (h : x.Kept) (hlive : x.freed = false) (hwaits : x.packet1 = -1) :
    x.release.Kept := by
  have hcells := (live_iff hlive).mp h
  rw [hwaits] at hcells
  exact hcells.release.drop

end Scan.Kept

theorem Scan.Kept.handle {c : ScanClass} {x : Scan} {m : ScanMessage} (h : x.Kept)
    (hlive : x.freed = false) (hmeets : NoneWaits x m) : (c.handle m x).Kept := by
  cases c <;> cases m with
  | registerRo packet pool => exact h.input0 hlive packet pool
  | interpolate on => exact h.setInterpolate hlive hmeets
  | perform => exact h.perform hlive
  | free => exact h.release hlive hmeets

theorem Scan.Kept.run {c : ScanClass} {l : List ScanMessage} {x : Scan} (h : x.Kept)
    (hmeets : c.Meets NoneWaits x l) : (c.run x l).Kept := by
  induction l generalizing x with
  | nil => exact h
  | cons m l ih => exact ih (h.handle hmeets.1 hmeets.2.1) hmeets.2.2

/-- As long as no packet waits when `interpolate 0` or the end comes, every reference is released
once, and no packet after that. -/
theorem scan_kept {c : ScanClass} {l : List ScanMessage} (hmeets : c.Meets NoneWaits c.new l) :
    (c.run c.new l).Kept ∧
      ((c.run c.new l).freed = true → (c.run c.new l).owned.refs = []) := by
  have hnew : c.new.Kept := by cases c <;> exact Holdings.balanced_empty (by decide)
  have hkept := hnew.run hmeets
  refine ⟨hkept, fun hfreed => ?_⟩
  unfold Scan.Kept Scan.cells at hkept
  rw [if_pos hfreed] at hkept
  exact hkept.refs_eq_nil

/-- Two images that fit together come one after the other. -/
def twoImages : List ScanMessage :=
  [.interpolate true, .registerRo 0 (pair greyPixel greyPixel),
    .registerRo 1 (pair greyPixel greyPixel)]

/-- Interpolation is switched off twice while an image waits. -/
def offTwice : List ScanMessage := twoImages ++ [.interpolate false, .interpolate false]

/-- None waits when the DSP routine has run. -/
theorem scan_kept_twoImages : (ScanClass.pdpScan.run ScanClass.pdpScan.new
    (twoImages ++ [.perform, .interpolate false, .free])).owned.refs = [] :=
  have hmeets : ScanClass.pdpScan.Meets NoneWaits ScanClass.pdpScan.new
      (twoImages ++ [.perform, .interpolate false, .free]) :=
    ⟨rfl, trivial, rfl, trivial, rfl, trivial, rfl, trivial, rfl, rfl, rfl, rfl, trivial⟩
  (scan_kept hmeets).2 rfl

/-- Switched off twice, the first image is released twice; freed before the DSP routine has run, it
is never released. -/
theorem not_scan_kept :
    (ScanClass.pdpScan.run ScanClass.pdpScan.new offTwice).owned.stray = true ∧
    (ScanClass.pdpScanxy.run ScanClass.pdpScanxy.new (twoImages ++ [.free])).owned.refs ≠ [] ∧
    ¬ ∀ (c : ScanClass) (l : List ScanMessage), c.Meets (fun _ _ => True) c.new l →
      (c.run c.new l).Kept := by
  have hstray : (ScanClass.pdpScan.run ScanClass.pdpScan.new offTwice).owned.stray = true := by
    decide
  refine ⟨hstray, by decide, fun hall => ?_⟩
  have hmeets : ScanClass.pdpScan.Meets (fun _ _ => True) ScanClass.pdpScan.new offTwice :=
    ⟨rfl, trivial, rfl, trivial, rfl, trivial, rfl, trivial, rfl, trivial, trivial⟩
  exact Bool.false_ne_true ((hall _ _ hmeets).stray.symm.trans hstray)

end PureDataPacket
