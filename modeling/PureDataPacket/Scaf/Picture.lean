/-
# `PureDataPacket.Scaf.Picture` — what the picture of a packet shows

The offset says where the upper left corner of the picture is in the packet.  The four
quadrants are one when rows and columns are taken modulo the dimensions (`torusChunk`), so
a pixel is a cell, counted from the offset.

| | |
| :-- | :-- |
| `CaPacket.Shown` | the packets that have a picture |
| `torusChunk_eq` | a chunk is in a row and a column before or after the wrap |
| `convertChunk_torus` | a chunk makes its pixels show their cells and leaves the others |
| `ca2grey_spec` | the picture is defined |
| `ca2grey_tooLarge` | there is none of more pixels than fit a packet |
-/
import PureDataPacket.Scaf.Generation

namespace PureDataPacket

/-! ## Words of pixels -/

theorem pixel_eq (source : BitVec 16) :
    ((source &&& 0x8000#16).sshiftRight 14) >>> 1 = greyOf (source.getLsbD 15) := by
  have hbit : (0x8000#16) = BitVec.twoPow 16 15 := by decide
  rw [hbit, BitVec.and_twoPow]
  cases source.getLsbD 15
  · decide
  · decide

theorem convertWord_apply (start a : Int) : ∀ (n : Nat), n ≤ 16 → ∀ (source : BitVec 16)
    (image : Int → BitVec 16), convertWord n source start image a =
      if start ≤ a ∧ a < start + n then greyOf (source.getLsbD (16 - n + (a - start).toNat))
      else image a := by
  intro n
  induction n with
  | zero =>
      intro _ source image
      rw [if_neg (by omega)]
      rfl
  | succ n ih =>
      intro hn source image
      unfold convertWord
      rw [ih (by omega), pixel_eq]
      by_cases hlow : start ≤ a ∧ a < start + n
      · have hsource : (source <<< 1).getLsbD (16 - n + (a - start).toNat) =
            source.getLsbD (16 - (n + 1) + (a - start).toNat) := by
          have hindex : 16 - n + (a - start).toNat - 1 = 16 - (n + 1) + (a - start).toNat := by omega
          have hlt : decide (16 - n + (a - start).toNat < 16) = true := decide_eq_true (by omega)
          have hge : decide (16 - n + (a - start).toNat < 1) = false := decide_eq_false (by omega)
          rw [BitVec.getLsbD_shiftLeft, hindex, hlt, hge]
          rfl
        rw [if_pos hlow, if_pos (by omega), hsource]
      · rw [if_neg hlow]
        by_cases htop : a = start + n
        · have hindex : 16 - (n + 1) + (a - start).toNat = 15 := by omega
          rw [if_pos (by omega), hindex, htop, Function.update_self]
        · rw [if_neg (by omega), Function.update_of_ne htop]

namespace CaPacket

theorem getLsbD_halfword (p : CaPacket) (i : Int) {k : Nat} (hk : k < 16) :
    (p.halfword i).getLsbD k = p.cell (16 * i + k) := by
  have hcell : 16 * i + (k : Int) = 32 * (i / 2) + ((16 * (i % 2)).toNat + k : Nat) := by omega
  have hlt : decide (k < 16) = true := decide_eq_true hk
  rw [hcell, cell_word _ (by omega)]
  unfold halfword
  rw [BitVec.getLsbD_setWidth, BitVec.getLsbD_ushiftRight, hlt]
  rfl

/-- The cell that is shown in a row and a column. -/
def view (p : CaPacket) (row column : Int) : Bool :=
  p.cell ((row + p.offset / p.width) % p.height * p.width + (column + p.offset % p.width) % p.width)

end CaPacket

/-! ## The chunks of a torus -/

/-- The chunk of row `q` that starts in column `x`. -/
def torusChunk (w h xoffset yoffset q x : Int) : Chunk where
  dst := x + q * w
  src := ((q + yoffset) % h * w + (x + xoffset) % w) / 16

section Quadrants

variable {w h xoffset yoffset : Int}

theorem torusChunk_eq {q x a b : Int} (ha : (q + yoffset) % h = q + yoffset - a)
    (hb : (x + xoffset) % w = x + xoffset - b) :
    (⟨x + q * w, (x + xoffset - b + q * w + yoffset * w - a * w) / 16⟩ : Chunk) =
      torusChunk w h xoffset yoffset q x := by
  unfold torusChunk
  rw [ha, hb]
  congr 2
  ring

theorem mem_rows (hw : 0 < w) {a b : Int} (y : Int) :
    y ∈ counter (a * w) (b * w) w ↔ ∃ q, a ≤ q ∧ q < b ∧ y = q * w := by
  rw [mem_counter hw]
  constructor
  · rintro ⟨k, rfl, hk⟩
    have hq : a * w + w * k = (a + k) * w := by ring
    rw [hq] at hk ⊢
    exact ⟨a + k, by omega, Int.lt_of_mul_lt_mul_right hk (by omega), rfl⟩
  · rintro ⟨q, hq, hqb, rfl⟩
    refine ⟨(q - a).toNat, ?_, Int.mul_lt_mul_of_pos_right hqb hw⟩
    rw [Int.toNat_of_nonneg (by omega)]
    ring

theorem mem_columns {a b : Int} (ha : a % 16 = 0) (x : Int) :
    x ∈ counter a b 16 ↔ a ≤ x ∧ x < b ∧ x % 16 = 0 := by
  rw [mem_counter (by omega)]
  constructor
  · rintro ⟨k, rfl, hk⟩
    omega
  · rintro ⟨hx, hxb, hmod⟩
    exact ⟨((x - a) / 16).toNat, by omega, hxb⟩

theorem mem_chunks (hw : 0 < w) (hw16 : w % 16 = 0) (hx : 0 ≤ xoffset) (hxw : xoffset < w)
    (hx16 : xoffset % 16 = 0) (hy : 0 ≤ yoffset) (hyh : yoffset < h) (c : Chunk) :
    c ∈ chunks w h xoffset (yoffset * w) ↔ ∃ q x, 0 ≤ q ∧ q < h ∧ 0 ≤ x ∧ x < w ∧ x % 16 = 0 ∧
      c = torusChunk w h xoffset yoffset q x := by
  have htop : ∀ y, y ∈ counter 0 (h * w - yoffset * w) w ↔
      ∃ q, 0 ≤ q ∧ q < h - yoffset ∧ y = q * w := by
    intro y
    rw [← Int.sub_mul, ← mem_rows hw, Int.zero_mul]
  have hbottom : ∀ y, y ∈ counter (h * w - yoffset * w) (h * w) w ↔
      ∃ q, h - yoffset ≤ q ∧ q < h ∧ y = q * w := by
    intro y
    rw [← Int.sub_mul, ← mem_rows hw]
  have hleft := fun x => mem_columns (a := 0) (b := w - xoffset) rfl x
  have hright := fun x => mem_columns (a := w - xoffset) (b := w) (by omega) x
  have hrow₀ : ∀ q, 0 ≤ q → q < h - yoffset → (q + yoffset) % h = q + yoffset - 0 := by
    intro q hq hqh
    rw [Int.sub_zero]
    exact Int.emod_eq_of_lt (by omega) (by omega)
  have hrow₁ : ∀ q, h - yoffset ≤ q → q < h → (q + yoffset) % h = q + yoffset - h := by
    intro q hq hqh
    rw [← Int.sub_emod_right]
    exact Int.emod_eq_of_lt (by omega) (by omega)
  have hcolumn₀ : ∀ x, 0 ≤ x → x < w - xoffset → (x + xoffset) % w = x + xoffset - 0 := by
    intro x hx hxw
    rw [Int.sub_zero]
    exact Int.emod_eq_of_lt (by omega) (by omega)
  have hcolumn₁ : ∀ x, w - xoffset ≤ x → x < w → (x + xoffset) % w = x + xoffset - w := by
    intro x hx hxw
    rw [← Int.sub_emod_right]
    exact Int.emod_eq_of_lt (by omega) (by omega)
  simp only [chunks, List.mem_append, List.mem_flatMap, List.mem_map, htop, hbottom, hleft, hright]
  constructor
  · rintro (((⟨_, ⟨q, hq, hqh, rfl⟩, x, ⟨hx, hxw, hmod⟩, rfl⟩ |
        ⟨_, ⟨q, hq, hqh, rfl⟩, x, ⟨hx, hxw, hmod⟩, rfl⟩) |
        ⟨_, ⟨q, hq, hqh, rfl⟩, x, ⟨hx, hxw, hmod⟩, rfl⟩) |
        ⟨_, ⟨q, hq, hqh, rfl⟩, x, ⟨hx, hxw, hmod⟩, rfl⟩)
    · refine ⟨q, x, hq, by omega, hx, by omega, hmod, ?_⟩
      rw [← torusChunk_eq (hrow₀ q hq hqh) (hcolumn₀ x hx hxw), Int.zero_mul]
    · refine ⟨q, x, hq, by omega, by omega, hxw, hmod, ?_⟩
      rw [← torusChunk_eq (hrow₀ q hq hqh) (hcolumn₁ x hx hxw), Int.zero_mul]
    · refine ⟨q, x, by omega, hqh, hx, by omega, hmod, ?_⟩
      rw [← torusChunk_eq (hrow₁ q hq hqh) (hcolumn₀ x hx hxw), Int.mul_comm w h]
    · refine ⟨q, x, by omega, hqh, by omega, hxw, hmod, ?_⟩
      rw [← torusChunk_eq (hrow₁ q hq hqh) (hcolumn₁ x hx hxw), Int.mul_comm w h]
  · rintro ⟨q, x, hq, hqh, hx, hxw, hmod, rfl⟩
    by_cases hrow : q < h - yoffset
    · by_cases hcolumn : x < w - xoffset
      · refine Or.inl (Or.inl (Or.inl ⟨_, ⟨q, hq, hrow, rfl⟩, x, ⟨hx, hcolumn, hmod⟩, ?_⟩))
        rw [← torusChunk_eq (hrow₀ q hq hrow) (hcolumn₀ x hx hcolumn), Int.zero_mul]
      · refine Or.inl (Or.inl (Or.inr ⟨_, ⟨q, hq, hrow, rfl⟩, x, ⟨by omega, hxw, hmod⟩, ?_⟩))
        rw [← torusChunk_eq (hrow₀ q hq hrow) (hcolumn₁ x (by omega) hxw), Int.zero_mul]
    · by_cases hcolumn : x < w - xoffset
      · refine Or.inl (Or.inr ⟨_, ⟨q, by omega, hqh, rfl⟩, x, ⟨hx, hcolumn, hmod⟩, ?_⟩)
        rw [← torusChunk_eq (hrow₁ q (by omega) hqh) (hcolumn₀ x hx hcolumn), Int.mul_comm w h]
      · refine Or.inr ⟨_, ⟨q, by omega, hqh, rfl⟩, x, ⟨by omega, hxw, hmod⟩, ?_⟩
        rw [← torusChunk_eq (hrow₁ q (by omega) hqh) (hcolumn₁ x (by omega) hxw), Int.mul_comm w h]

end Quadrants

/-! ## The picture -/

/-- The packets that have a picture: 64 columns or a multiple, an offset inside the packet and
at a multiple of 16 columns, and no more cells than a grey image has pixels. -/
structure CaPacket.Shown (p : CaPacket) : Prop where
  width_pos : 0 < p.width
  width_dvd : 64 ∣ p.width
  height_pos : 0 < p.height
  picture_lt : 2 * (p.width * p.height) + pdpHeaderSize < 2 ^ 31
  offset_lt : p.offset < p.width * p.height
  offset_dvd : 16 ∣ p.offset % p.width

theorem CaPacket.WellFormed.shown {p : CaPacket} (h : p.WellFormed)
    (hpicture : 2 * (p.width * p.height) + pdpHeaderSize < 2 ^ 31) : p.Shown where
  width_pos := h.width_pos
  width_dvd := h.width_dvd
  height_pos := Nat.lt_of_lt_of_le (by decide) h.height_le
  picture_lt := hpicture
  offset_lt := h.offset_lt
  offset_dvd := h.offset_dvd

namespace CaPacket.Shown

variable {p : CaPacket}

theorem area_lt (h : p.Shown) : p.width * p.height < 2 ^ 31 := by
  have := h.picture_lt
  omega

theorem pictureSize_eq (h : p.Shown) :
    p.pictureSize = 2 * (p.width * p.height) + pdpHeaderSize := by
  have := h.picture_lt
  unfold pictureSize imageSizeGrey u32
  omega

theorem toInt32_width (h : p.Shown) : toInt32 p.width = p.width := by
  have hle : p.width * 1 ≤ p.width * p.height := Nat.mul_le_mul_left _ h.height_pos
  have := h.area_lt
  exact toInt32_of_nat_lt (by omega)

theorem toInt32_height (h : p.Shown) : toInt32 p.height = p.height := by
  have hle : 1 * p.height ≤ p.width * p.height := Nat.mul_le_mul_right _ h.width_pos
  have := h.area_lt
  exact toInt32_of_nat_lt (by omega)

theorem toInt32_offset (h : p.Shown) : toInt32 p.offset = p.offset := by
  have := h.offset_lt
  have := h.area_lt
  exact toInt32_of_nat_lt (by omega)

end CaPacket.Shown

namespace CaPacket

def PixelDone (p : CaPacket) (image : Int → BitVec 16) (a : Int) : Prop :=
  image a = greyOf (p.view (a / p.width) (a % p.width))

theorem convertChunk_torus {p : CaPacket} (hp : p.Shown) {q x : Int} (hq : 0 ≤ q)
    (hqh : q < p.height) (hx : 0 ≤ x) (hxw : x < p.width) (hx16 : x % 16 = 0)
    (image : Int → BitVec 16) : ∃ image',
      p.convertChunk (p.width * p.height) image (torusChunk p.width p.height (p.offset % p.width)
        (p.offset / p.width) q x) = some image' ∧
      ∀ a, p.PixelDone image a ∨ (x + q * p.width ≤ a ∧ a < x + q * p.width + 16) →
        p.PixelDone image' a := by
  have hw : (0 : Int) < p.width := by
    have := hp.width_pos
    omega
  have hh : (0 : Int) < p.height := by
    have := hp.height_pos
    omega
  have hw16 : (p.width : Int) % 16 = 0 := by
    have := hp.width_dvd
    omega
  have hxoffset : (p.offset : Int) % p.width % 16 = 0 := by
    have := hp.offset_dvd
    exact_mod_cast Nat.mod_eq_zero_of_dvd this
  obtain ⟨row, hrow⟩ : ∃ row, row = (q + p.offset / p.width) % (p.height : Int) := ⟨_, rfl⟩
  obtain ⟨column, hcolumn⟩ : ∃ column, column = (x + p.offset % p.width) % (p.width : Int) :=
    ⟨_, rfl⟩
  have hrow0 : 0 ≤ row := hrow ▸ Int.emod_nonneg _ (by omega)
  have hrowh : row < p.height := hrow ▸ Int.emod_lt_of_pos _ hh
  have hcolumn0 : 0 ≤ column := hcolumn ▸ Int.emod_nonneg _ (by omega)
  have hcolumnw : column < p.width := hcolumn ▸ Int.emod_lt_of_pos _ hw
  have hcolumn16 : column % 16 = 0 := by
    rw [hcolumn, Int.emod_emod_of_dvd _ (Int.dvd_of_emod_eq_zero hw16)]
    omega
  have hproduct : row * (p.width : Int) % 16 = 0 := by
    rw [Int.mul_emod, hw16, Int.mul_zero, Int.zero_emod]
  have harea : (p.width : Int) * p.height % 16 = 0 := by
    rw [Int.mul_emod, hw16, Int.zero_mul, Int.zero_emod]
  have hsrc : (torusChunk p.width p.height (p.offset % p.width) (p.offset / p.width) q x).src =
      (row * p.width + column) / 16 := by
    rw [hrow, hcolumn]
    rfl
  have hdst : (torusChunk p.width p.height (p.offset % p.width) (p.offset / p.width) q x).dst =
      x + q * p.width := rfl
  have hinside := row_lt hrowh hcolumnw hw
  have hlast := row_lt (w := p.width) (x := x + 15) hqh (by omega) hw
  have hstart : 0 ≤ row * (p.width : Int) := Int.mul_nonneg hrow0 (by omega)
  have hfirst : 0 ≤ q * (p.width : Int) := Int.mul_nonneg hq (by omega)
  refine ⟨_, if_pos ?_, ?_⟩
  · rw [hsrc, hdst]
    omega
  · intro a ha
    unfold PixelDone
    rw [convertWord_apply _ _ 16 (by omega), hdst]
    split
    · next hin =>
        -- The pixel is `k` columns to the right of the start of the chunk.
        obtain ⟨k, hk⟩ : ∃ k : Nat, a = x + q * p.width + k :=
          ⟨(a - (x + q * p.width)).toNat, by omega⟩
        have hk16 : k < 16 := by omega
        have ha' : a = q * p.width + (x + k) := by omega
        have hwrap : (x + k + p.offset % p.width) % (p.width : Int) = column + k := by
          have hsplit : x + k + p.offset % p.width = k + (x + p.offset % p.width) := by omega
          have hk' : (k : Int) % p.width = k := Int.emod_eq_of_lt (by omega) (by omega)
          rw [hsplit, Int.add_emod, ← hcolumn, hk', Int.add_comm]
          exact Int.emod_eq_of_lt (by omega) (by omega)
        have hoff : 16 - 16 + (a - (x + q * p.width)).toNat = k := by omega
        have hcell : 16 * ((row * p.width + column) / 16) + (k : Int) =
            row * p.width + (column + k) := by omega
        unfold view
        rw [hoff, getLsbD_halfword _ _ hk16, hsrc, hcell, ha', ediv_row (by omega) (by omega),
          emod_row (by omega) (by omega), hwrap, ← hrow]
    · next hout => exact ha.resolve_right hout

/-- The picture of a packet is defined, whatever the memory for it contains, and shows the
cells from the offset on. -/
theorem ca2grey_spec {p : CaPacket} (hp : p.Shown) (fresh : Int → BitVec 16) :
    ∃ image, p.ca2grey fresh = some image ∧ ∀ row column : Int, 0 ≤ row → row < p.height →
      0 ≤ column → column < p.width →
        image (row * p.width + column) = greyOf (p.view row column) := by
  have hw : (0 : Int) < p.width := by
    have := hp.width_pos
    omega
  have hw16 : (p.width : Int) % 16 = 0 := by
    have := hp.width_dvd
    omega
  have hxoffset : (p.offset : Int) % p.width % 16 = 0 := by
    have := hp.offset_dvd
    exact_mod_cast Nat.mod_eq_zero_of_dvd this
  have hyoffset : (p.offset : Int) / p.width < p.height := by
    apply Int.ediv_lt_of_lt_mul hw
    rw [Int.mul_comm]
    exact_mod_cast hp.offset_lt
  have hyoffset0 : 0 ≤ (p.offset : Int) / p.width := by positivity
  have harea : intMul p.width p.height = some (p.width * p.height : Int) := by
    have := hp.area_lt
    have hnonneg : (0 : Int) ≤ p.width * p.height := by positivity
    refine intMul_eq_some.mpr ⟨⟨by omega, ?_⟩, rfl⟩
    exact_mod_cast this
  have hmem := mem_chunks hw hw16 (Int.emod_nonneg p.offset (by omega))
    (Int.emod_lt_of_pos p.offset hw) hxoffset hyoffset0 hyoffset
  obtain ⟨⟨image, himage⟩, hgoals⟩ := sweep
    (fun image c => image.bind fun image => p.convertChunk (p.width * p.height) image c)
    (fun image : Option (Int → BitVec 16) => ∃ i, image = some i)
    (fun c image => ∀ i, image = some i → ∀ a, c.dst ≤ a → a < c.dst + 16 → p.PixelDone i a)
    (chunks p.width p.height (p.offset % p.width) (p.offset / p.width * p.width))
    (by
      rintro _ ⟨i, rfl⟩ c hc
      obtain ⟨q, x, hq, hqh, hx, hxw, hx16, rfl⟩ := (hmem c).mp hc
      obtain ⟨i', hi', _⟩ := convertChunk_torus hp hq hqh hx hxw hx16 i
      exact ⟨i', hi'⟩)
    (by
      rintro _ ⟨i, rfl⟩ c hc i₁ hi₁ a ha ha16
      obtain ⟨q, x, hq, hqh, hx, hxw, hx16, rfl⟩ := (hmem c).mp hc
      obtain ⟨i', hi', hdone⟩ := convertChunk_torus hp hq hqh hx hxw hx16 i
      obtain rfl : i' = i₁ := Option.some.inj (hi'.symm.trans hi₁)
      exact hdone a (Or.inr ⟨ha, ha16⟩))
    (by
      rintro _ ⟨i, rfl⟩ c hc c' _ hold i₁ hi₁ a ha ha16
      obtain ⟨q, x, hq, hqh, hx, hxw, hx16, rfl⟩ := (hmem c).mp hc
      obtain ⟨i', hi', hdone⟩ := convertChunk_torus hp hq hqh hx hxw hx16 i
      obtain rfl : i' = i₁ := Option.some.inj (hi'.symm.trans hi₁)
      exact hdone a (Or.inl (hold i rfl a ha ha16)))
    ⟨fresh, rfl⟩
  refine ⟨image, ?_, ?_⟩
  · unfold ca2grey
    simp only [hp.toInt32_width, hp.toInt32_height, harea, Option.bind_some,
      Int.tmod_eq_emod_of_nonneg (Int.natCast_nonneg p.offset),
      Int.tdiv_eq_ediv_of_nonneg (Int.natCast_nonneg p.offset)]
    rw [hp.pictureSize_eq, if_pos ⟨Nat.le_add_left _ _, hp.picture_lt⟩]
    exact himage
  · intro row column hrow hrowh hcolumn hcolumnw
    have hchunk : torusChunk p.width p.height (p.offset % p.width) (p.offset / p.width) row
        (column / 16 * 16) ∈
          chunks p.width p.height (p.offset % p.width) (p.offset / p.width * p.width) :=
      (hmem _).mpr ⟨row, column / 16 * 16, hrow, hrowh, by omega, by omega, by omega, rfl⟩
    have hdst : (torusChunk p.width p.height (p.offset % p.width) (p.offset / p.width) row
        (column / 16 * 16)).dst = column / 16 * 16 + row * p.width := rfl
    have hpixel := hgoals _ hchunk image himage (row * p.width + column) (by omega) (by omega)
    unfold PixelDone at hpixel
    rwa [ediv_row hcolumn hcolumnw, emod_row hcolumn hcolumnw] at hpixel

theorem ca2grey_tooLarge {p : CaPacket} (h : 2 ^ 31 ≤ p.pictureSize) (fresh : Int → BitVec 16) :
    p.ca2grey fresh = none := by
  have hno : ¬(pdpHeaderSize ≤ p.pictureSize ∧ p.pictureSize < 2 ^ 31) := by omega
  simp only [ca2grey, if_neg hno, Option.bind_fun_none]

/-- There is no picture if the first chunk is not inside. -/
theorem ca2grey_outside {p : CaPacket} {s : Int} {c : Chunk}
    (harea : intMul (toInt32 p.width) (toInt32 p.height) = some s)
    (hc : (chunks (toInt32 p.width) (toInt32 p.height) ((p.offset : Int).tmod (toInt32 p.width))
      ((p.offset : Int).tdiv (toInt32 p.width) * toInt32 p.width)).head? = some c)
    (hout : c.dst < 0) (fresh : Int → BitVec 16) : p.ca2grey fresh = none := by
  obtain ⟨rest, hrest⟩ := List.head?_eq_some_iff.mp hc
  have hfirst : p.convertChunk s fresh c = none := if_neg (by omega)
  have hnone : ∀ l : List Chunk, l.foldl (fun image c =>
      image.bind fun image => p.convertChunk s image c) none = none := by
    intro l
    induction l with
    | nil => rfl
    | cons c l ih => exact ih
  unfold ca2grey
  simp only [harea, Option.bind_some, hrest, List.foldl_cons, hfirst]
  split
  · exact hnone rest
  · rfl

end CaPacket

end PureDataPacket
