/-
# `PureDataPacket.Scaf.Torus` — a step is a generation of a toroidal automaton

In the packet a step moves everything one row up and 16 columns to the left: the new
offset undoes that, so the picture of the new packet is the next generation of the picture
of the old one, with rows and columns taken modulo the dimensions.  Swapping the packets
makes it so for any number of steps.
-/
import Mathlib.Logic.Function.Iterate
import PureDataPacket.Scaf.Picture

namespace PureDataPacket

/-! ## Generations -/

/-- The next generation on a torus: `f` sees row 0 above and column 0 to the left. -/
def generation (f : (Fin 3 → Fin 3 → Bool) → Bool) (w h : Int) (cells : Int → Int → Bool)
    (row column : Int) : Bool :=
  f fun r c => cells ((row + r - 1) % h) ((column + c - 1) % w)

/-- The same cells, on the torus. -/
def Agree (w h : Int) (cells cells' : Int → Int → Bool) : Prop :=
  ∀ row column, 0 ≤ row → row < h → 0 ≤ column → column < w →
    cells row column = cells' row column

theorem Agree.refl (w h : Int) (cells : Int → Int → Bool) : Agree w h cells cells :=
  fun _ _ _ _ _ _ => rfl

theorem Agree.trans {w h : Int} {a b c : Int → Int → Bool} (hab : Agree w h a b)
    (hbc : Agree w h b c) : Agree w h a c :=
  fun row column h0 h1 h2 h3 => (hab row column h0 h1 h2 h3).trans (hbc row column h0 h1 h2 h3)

theorem Agree.generation {w h : Int} (hw : 0 < w) (hh : 0 < h) {a b : Int → Int → Bool}
    (hab : Agree w h a b) (f : (Fin 3 → Fin 3 → Bool) → Bool) :
    Agree w h (generation f w h a) (generation f w h b) := by
  intro row column _ _ _ _
  refine congrArg f (funext fun r => funext fun c => ?_)
  exact hab _ _ (Int.emod_nonneg _ (by omega)) (Int.emod_lt_of_pos _ hh)
    (Int.emod_nonneg _ (by omega)) (Int.emod_lt_of_pos _ hw)

theorem Agree.generations {w h : Int} (hw : 0 < w) (hh : 0 < h) {a b : Int → Int → Bool}
    (hab : Agree w h a b) (f : (Fin 3 → Fin 3 → Bool) → Bool) (n : Nat) :
    Agree w h ((PureDataPacket.generation f w h)^[n] a)
      ((PureDataPacket.generation f w h)^[n] b) := by
  induction n generalizing a b with
  | zero => exact hab
  | succ n ih => exact ih (hab.generation hw hh f)

/-! ## The offset -/

/-- To move the origin back by `s` and to read `s - 1` further on is to read one back. -/
theorem emod_shift (m y offset r s : Int) :
    ((y + (offset + m - s) % m) % m + (s - 1 + r)) % m = ((y + r - 1) % m + offset) % m := by
  calc ((y + (offset + m - s) % m) % m + (s - 1 + r)) % m
      = (y + (s - 1 + r) + (offset + m - s)) % m := by
        rw [Int.emod_add_emod, Int.add_right_comm, Int.add_emod_emod]
    _ = (y + r - 1 + offset + m) % m := by
        congr 1
        omega
    _ = ((y + r - 1) % m + offset) % m := by
        rw [Int.add_emod_right, Int.emod_add_emod]

namespace CaPacket.WellFormed

variable {p : CaPacket}

/-- Up one row and 16 columns to the left, around the torus. -/
theorem shiftOffset_eq (hp : p.WellFormed) : ∃ row column : Int,
    row = (p.offset / p.width + p.height - 1) % p.height ∧
    column = (p.offset % p.width + p.width - 16) % p.width ∧
    0 ≤ row ∧ row < p.height ∧ 0 ≤ column ∧ column < p.width ∧ column % 16 = 0 ∧
    shiftOffset p.width p.height p.offset = row * p.width + column := by
  have hw : (0 : Int) < p.width := by
    have := hp.width_pos
    omega
  have hh : (0 : Int) < p.height := by
    have := hp.height_le
    omega
  have hw16 : (p.width : Int) % 16 = 0 := by
    have := hp.width_dvd
    omega
  have hxoffset : (p.offset : Int) % p.width % 16 = 0 := by
    have := hp.offset_dvd
    exact_mod_cast Nat.mod_eq_zero_of_dvd this
  have hx : 0 ≤ (p.offset : Int) % p.width := Int.emod_nonneg _ (by omega)
  have hy : 0 ≤ (p.offset : Int) / p.width := by positivity
  refine ⟨_, _, rfl, rfl, Int.emod_nonneg _ (by omega), Int.emod_lt_of_pos _ hh,
    Int.emod_nonneg _ (by omega), Int.emod_lt_of_pos _ hw, ?_, ?_⟩
  · rw [Int.emod_emod_of_dvd _ (Int.dvd_of_emod_eq_zero hw16)]
    omega
  · unfold shiftOffset
    rw [Int.tmod_eq_emod_of_nonneg (Int.natCast_nonneg p.offset),
      Int.tdiv_eq_ediv_of_nonneg (Int.natCast_nonneg p.offset),
      Int.tmod_eq_emod_of_nonneg (by omega), Int.tmod_eq_emod_of_nonneg (by omega)]

end CaPacket.WellFormed

namespace Ca

section OneStep

variable {f : (Fin 3 → Fin 3 → Bool) → Bool} {x s : Ca}

/-- The new packet is as well formed as the old one. -/
theorem Stepped.wellFormed (h : Stepped f x s) (hp : (x.packets x.packet0).WellFormed)
    (hwidth : x.header1.width = (x.packets x.packet0).width)
    (hheight : x.header1.height = (x.packets x.packet0).height) : s.header1.WellFormed := by
  obtain ⟨row, column, _, _, hrow, hrowh, hcolumn, hcolumnw, h16, hoffset⟩ := hp.shiftOffset_eq
  have hw : s.header1.width = (x.packets x.packet0).width := h.width.trans hwidth
  have hh : s.header1.height = (x.packets x.packet0).height := h.height.trans hheight
  have harea : (((x.packets x.packet0).width : Int) * (x.packets x.packet0).height) < 2 ^ 31 := by
    exact_mod_cast hp.area_lt
  have hlt := row_lt hrowh hcolumnw (by omega)
  have hnonneg : 0 ≤ row * ((x.packets x.packet0).width : Int) := Int.mul_nonneg hrow (by omega)
  have hcast : (s.header1.offset : Int) = row * (x.packets x.packet0).width + column := by
    rw [h.offset, hoffset, ofInt32_eq]
    exact Int.emod_eq_of_lt (by omega) (by omega)
  refine ⟨?_, ?_, ?_, ?_, ?_, ?_, ?_⟩
  · exact hw ▸ hp.width_pos
  · exact hw ▸ hp.width_dvd
  · exact hh ▸ hp.height_le
  · exact hh ▸ hp.height_dvd
  · rw [hw, hh]
    exact hp.area_lt
  · rw [hw, hh]
    exact_mod_cast hcast ▸ hlt
  · have hmod : ((s.header1.offset % s.header1.width : Nat) : Int) = column := by
      rw [Int.natCast_emod, hcast, hw]
      exact emod_row hcolumn hcolumnw
    omega

/-- The new picture is the next generation of the old one. -/
theorem Stepped.view (h : Stepped f x s) (hp : (x.packets x.packet0).WellFormed)
    (hwidth : x.header1.width = (x.packets x.packet0).width)
    (hheight : x.header1.height = (x.packets x.packet0).height) :
    Agree (x.packets x.packet0).width (x.packets x.packet0).height s.header1.view
      (generation f (x.packets x.packet0).width (x.packets x.packet0).height
        (x.packets x.packet0).view) := by
  obtain ⟨row, column, hrow_eq, hcolumn_eq, hrow, hrowh, hcolumn, hcolumnw, h16, hoffset⟩ :=
    hp.shiftOffset_eq
  have hw : s.header1.width = (x.packets x.packet0).width := h.width.trans hwidth
  have hh : s.header1.height = (x.packets x.packet0).height := h.height.trans hheight
  have harea : (((x.packets x.packet0).width : Int) * (x.packets x.packet0).height) < 2 ^ 31 := by
    exact_mod_cast hp.area_lt
  have hlt := row_lt hrowh hcolumnw (by omega)
  have hnonneg : 0 ≤ row * ((x.packets x.packet0).width : Int) := Int.mul_nonneg hrow (by omega)
  have hcast : (s.header1.offset : Int) = row * (x.packets x.packet0).width + column := by
    rw [h.offset, hoffset, ofInt32_eq]
    exact Int.emod_eq_of_lt (by omega) (by omega)
  intro y z _ _ _ _
  have hcell := h.cells ((y + row) % (x.packets x.packet0).height)
    ((z + column) % (x.packets x.packet0).width) (Int.emod_nonneg _ (by omega))
    (Int.emod_lt_of_pos _ (by omega)) (Int.emod_nonneg _ (by omega))
    (Int.emod_lt_of_pos _ (by omega))
  have hview : s.header1.view y z = s.header1.cell
      ((y + row) % (x.packets x.packet0).height * (x.packets x.packet0).width +
        (z + column) % (x.packets x.packet0).width) := by
    unfold CaPacket.view
    rw [hcast, hw, hh, ediv_row hcolumn hcolumnw, emod_row hcolumn hcolumnw]
  rw [hview, hcell]
  refine congrArg f (funext fun r => funext fun c => ?_)
  unfold CaPacket.view
  -- One row up and 16 columns to the left, and 15 columns back to the right.
  have hrows : ((y + row) % (x.packets x.packet0).height + (r : Nat)) %
      (x.packets x.packet0).height = ((y + (r : Nat) - 1) % (x.packets x.packet0).height +
        (x.packets x.packet0).offset / (x.packets x.packet0).width) %
          ((x.packets x.packet0).height : Int) := by
    have := emod_shift (x.packets x.packet0).height y ((x.packets x.packet0).offset /
      (x.packets x.packet0).width) r 1
    rw [hrow_eq, ← this, Int.sub_self, Int.zero_add]
  have hcolumns : ((z + column) % (x.packets x.packet0).width + (15 + (c : Nat))) %
      (x.packets x.packet0).width = ((z + (c : Nat) - 1) % (x.packets x.packet0).width +
        (x.packets x.packet0).offset % (x.packets x.packet0).width) %
          ((x.packets x.packet0).width : Int) := by
    rw [hcolumn_eq]
    exact emod_shift _ z _ c 16
  rw [hrows, hcolumns]

end OneStep

/-! ## Any number of steps -/

/-- Two distinct packets of equal dimensions, and a rule. -/
structure Ready (rule : Mmx → Mmx) (x : Ca) : Prop where
  caRoutine : x.caRoutine = some rule
  distinct : x.packet0 ≠ x.packet1
  wellFormed : (x.packets x.packet0).WellFormed
  width : x.header1.width = (x.packets x.packet0).width
  height : x.header1.height = (x.packets x.packet0).height

/-- A step, after which `packet0` is the new packet. -/
def step (x : Ca) : Ca := x.processCa2D.swapPackets

section Run

variable {rule : Mmx → Mmx} {f : (Fin 3 → Fin 3 → Bool) → Bool} {x : Ca}

theorem Ready.step (hx : x.Ready rule) (hrule : ComputesRule rule f) :
    x.step.Ready rule ∧
      (x.step.packets x.step.packet0).width = (x.packets x.packet0).width ∧
      (x.step.packets x.step.packet0).height = (x.packets x.packet0).height ∧
      Agree (x.packets x.packet0).width (x.packets x.packet0).height
        (x.step.packets x.step.packet0).view
        (generation f (x.packets x.packet0).width (x.packets x.packet0).height
          (x.packets x.packet0).view) := by
  have h := stepped_processCa2D hx.caRoutine hrule hx.distinct hx.wellFormed
  have hnew : x.step.packets x.step.packet0 = x.processCa2D.header1 := rfl
  have hold : x.step.header1 = x.packets x.packet0 := by
    show x.processCa2D.packets x.processCa2D.packet0 = _
    rw [h.packet0, h.kept]
  have hwidth := h.width.trans hx.width
  have hheight := h.height.trans hx.height
  refine ⟨⟨?_, ?_, ?_, ?_, ?_⟩, hnew ▸ hwidth, hnew ▸ hheight,
    hnew ▸ h.view hx.wellFormed hx.width hx.height⟩
  · exact h.caRoutine.trans hx.caRoutine
  · show x.processCa2D.packet1 ≠ x.processCa2D.packet0
    rw [h.packet0, h.packet1]
    exact hx.distinct.symm
  · exact hnew ▸ h.wellFormed hx.wellFormed hx.width hx.height
  · rw [hold, hnew, hwidth]
  · rw [hold, hnew, hheight]

theorem Ready.iterate (hx : x.Ready rule) (hrule : ComputesRule rule f) (n : Nat) :
    (Ca.step^[n] x).Ready rule ∧
      ((Ca.step^[n] x).packets (Ca.step^[n] x).packet0).width = (x.packets x.packet0).width ∧
      ((Ca.step^[n] x).packets (Ca.step^[n] x).packet0).height = (x.packets x.packet0).height ∧
      Agree (x.packets x.packet0).width (x.packets x.packet0).height
        ((Ca.step^[n] x).packets (Ca.step^[n] x).packet0).view
        ((generation f (x.packets x.packet0).width (x.packets x.packet0).height)^[n]
          (x.packets x.packet0).view) := by
  have hw : (0 : Int) < (x.packets x.packet0).width := by
    have := hx.wellFormed.width_pos
    omega
  have hh : (0 : Int) < (x.packets x.packet0).height := by
    have := hx.wellFormed.height_le
    omega
  induction n with
  | zero => exact ⟨hx, rfl, rfl, Agree.refl _ _ _⟩
  | succ n ih =>
      obtain ⟨hready, hwidth, hheight, hview⟩ := ih
      obtain ⟨hready', hwidth', hheight', hview'⟩ := hready.step hrule
      rw [Function.iterate_succ_apply', Function.iterate_succ_apply']
      rw [hwidth, hheight] at hview'
      exact ⟨hready', hwidth'.trans hwidth, hheight'.trans hheight,
        hview'.trans (hview.generation hw hh f)⟩

end Run

/-! ## Pictures -/

/-- The picture shows these cells, white or black. -/
def Shows (w h : Int) (image : Int → BitVec 16) (cells : Int → Int → Bool) : Prop :=
  ∀ row column, 0 ≤ row → row < h → 0 ≤ column → column < w →
    image (row * w + column) = greyOf (cells row column)

def cellsOf (w : Int) (image : Int → BitVec 16) (row column : Int) : Bool :=
  decide (image (row * w + column) ≠ 0#16)

theorem Shows.agree {w h : Int} {image : Int → BitVec 16} {cells : Int → Int → Bool}
    (hi : Shows w h image cells) : Agree w h cells (cellsOf w image) := by
  intro row column h0 h1 h2 h3
  unfold cellsOf
  rw [hi row column h0 h1 h2 h3]
  cases cells row column
  · rfl
  · rfl

theorem Shows.congr {w h : Int} {image : Int → BitVec 16} {a b : Int → Int → Bool}
    (hi : Shows w h image a) (hab : Agree w h a b) : Shows w h image b := by
  intro row column h0 h1 h2 h3
  rw [hi row column h0 h1 h2 h3, hab row column h0 h1 h2 h3]

/-- The pictures of a well-formed packet: one step makes the next generation in the other
packet, and `n` steps with swapped packets make `n` generations. -/
theorem torus_automaton {rule : Mmx → Mmx} {f : (Fin 3 → Fin 3 → Bool) → Bool} {x : Ca}
    (hx : x.Ready rule) (hrule : ComputesRule rule f)
    (hpicture : 2 * ((x.packets x.packet0).width * (x.packets x.packet0).height) +
      pdpHeaderSize < 2 ^ 31)
    (fresh₀ : Int → BitVec 16) :
    let w : Int := (x.packets x.packet0).width
    let h : Int := (x.packets x.packet0).height
    ∃ image₀, (x.packets x.packet0).ca2grey fresh₀ = some image₀ ∧ ∀ fresh : Int → BitVec 16,
      (∃ image₁, x.processCa2D.header1.ca2grey fresh = some image₁ ∧
        Shows w h image₁ (generation f w h (cellsOf w image₀))) ∧
      ∀ n, ∃ image, ((Ca.step^[n] x).packets (Ca.step^[n] x).packet0).ca2grey fresh = some image ∧
        Shows w h image ((generation f w h)^[n] (cellsOf w image₀)) := by
  intro w h
  have hw : 0 < w := by
    have := hx.wellFormed.width_pos
    omega
  have hh : 0 < h := by
    have := hx.wellFormed.height_le
    omega
  obtain ⟨image₀, himage₀, hshows₀⟩ := CaPacket.ca2grey_spec (hx.wellFormed.shown hpicture) fresh₀
  have hagree : Agree w h (x.packets x.packet0).view (cellsOf w image₀) := Shows.agree hshows₀
  have hrun : ∀ (fresh : Int → BitVec 16) (n : Nat), ∃ image,
      ((Ca.step^[n] x).packets (Ca.step^[n] x).packet0).ca2grey fresh = some image ∧
        Shows w h image ((generation f w h)^[n] (cellsOf w image₀)) := by
    intro fresh n
    obtain ⟨hready, hwidth, hheight, hview⟩ := hx.iterate hrule n
    rw [← hwidth, ← hheight] at hpicture
    obtain ⟨image, himage, hshows⟩ :=
      CaPacket.ca2grey_spec (hready.wellFormed.shown hpicture) fresh
    rw [hwidth, hheight] at hshows
    have hshows' : Shows w h image _ := hshows
    exact ⟨image, himage, hshows'.congr (hview.trans (hagree.generations hw hh f n))⟩
  exact ⟨image₀, himage₀, fun fresh => ⟨hrun fresh 1, hrun fresh⟩⟩

/-! ## Two packets -/

/-- Two packets of these dimensions with one cell in every word, and a rule. -/
def ofDimensions (width height offset : Nat) : Ca where
  packets := fun _ => ⟨width, height, offset, fun _ => 1⟩
  packet0 := 0
  packet1 := 1
  caRoutine := some Mmx.leftRightRule
  tos := 0
  saved := 0
  mmx := ⟨fun _ => 0, 0, fun _ => 0, fun _ => 0⟩

theorem torus_automaton_cells :
    ∃ image₀, ((ofDimensions 64 4 0).packets 0).ca2grey (fun _ => 0) = some image₀ ∧
      ∀ n, ∃ image, ((Ca.step^[n] (ofDimensions 64 4 0)).packets
        (Ca.step^[n] (ofDimensions 64 4 0)).packet0).ca2grey (fun _ => 0) = some image ∧
          Shows 64 4 image ((generation (fun cells => xor (cells 1 0) (cells 1 2)) 64 4)^[n]
            (cellsOf 64 image₀)) := by
  have hready : (ofDimensions 64 4 0).Ready Mmx.leftRightRule :=
    ⟨rfl, by decide, ⟨by decide, by decide, by decide, by decide, by decide, by decide, by decide⟩,
      rfl, rfl⟩
  obtain ⟨image₀, himage₀, hrun⟩ :=
    torus_automaton hready Mmx.leftRightRule_computes (by decide) fun _ => 0
  exact ⟨image₀, himage₀, (hrun fun _ => 0).2⟩

/-- The dimensions are those of an automaton, but its packet has no picture. -/
def NoPicture (width height offset : Nat) : Prop :=
  0 < width ∧ 64 ∣ width ∧ 4 ≤ height ∧ 2 ∣ height ∧ 16 ∣ offset % width ∧
    (ofDimensions width height offset).packet0 ≠ (ofDimensions width height offset).packet1 ∧
    ∀ fresh, ((ofDimensions width height offset).packets 0).ca2grey fresh = none

/-- A packet of more cells than a grey image has pixels, and one whose offset is not inside it,
have no picture. -/
theorem torus_limits : NoPicture 65536 16384 0 ∧ NoPicture 64 4 320 := by
  constructor
  · refine ⟨by decide, by decide, by decide, by decide, by decide, by decide, ?_⟩
    exact CaPacket.ca2grey_tooLarge (p := (ofDimensions 65536 16384 0).packets 0) (by decide)
  · refine ⟨by decide, by decide, by decide, by decide, by decide, by decide, ?_⟩
    -- The first row of the lower half is row -1.
    have harea : intMul (toInt32 (64 : Nat)) (toInt32 (4 : Nat)) = some 256 := by decide
    have hwidth : toInt32 ((ofDimensions 64 4 320).packets 0).width = 64 := by decide
    have hheight : toInt32 ((ofDimensions 64 4 320).packets 0).height = 4 := by decide
    have hoffset : (((ofDimensions 64 4 320).packets 0).offset : Int) = 320 := rfl
    have hfirst : (chunks 64 4 (Int.tmod 320 64) (Int.tdiv 320 64 * 64)).head? =
        some ⟨-64, 0⟩ := by decide
    have hout : (⟨-64, 0⟩ : Chunk).dst < 0 := by decide
    refine CaPacket.ca2grey_outside (p := (ofDimensions 64 4 320).packets 0) harea ?_ hout
    rw [hwidth, hheight, hoffset]
    exact hfirst

end Ca

end PureDataPacket
