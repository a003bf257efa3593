/-
# `PureDataPacket.Scaf.Shift` — every pixel once, and moving the picture

The chunks of a picture lie side by side: each pixel is in one of them, whatever the
offset.  `sendPacket` moves the offset before the packet is sent, by a remainder that is
brought back into the packet when it is negative; the picture moves by as much.
-/
import PureDataPacket.Scaf.Picture
import Mathlib.Data.List.Nodup

namespace PureDataPacket

/-! ## The chunks lie side by side -/

theorem counter_nodup {start stop step : Int} (hstep : 0 < step) :
    (counter start stop step).Nodup := by
  refine List.nodup_range.map fun j k heq => ?_
  have hmul : step * (j : Int) = step * (k : Int) := by omega
  exact_mod_cast Int.eq_of_mul_eq_mul_left (by omega) hmul

section Side

variable {w : Int}

theorem quadrant_nodup {ys xs : List Int} (hys : ys.Nodup) (hxs : xs.Nodup)
    (hrows : ∀ y ∈ ys, ∃ q, y = q * w) (hcolumns : ∀ x ∈ xs, 0 ≤ x ∧ x < w) :
    (ys.flatMap fun y => xs.map fun x => x + y).Nodup := by
  refine List.nodup_flatMap.mpr ⟨fun y _ => hxs.map fun a b h => by omega, ?_⟩
  refine List.Pairwise.imp_of_mem ?_ hys
  intro y y' hy hy' hne z hz hz'
  obtain ⟨x, hx, rfl⟩ := List.mem_map.mp hz
  obtain ⟨x', hx', heq⟩ := List.mem_map.mp hz'
  obtain ⟨q, rfl⟩ := hrows y hy
  obtain ⟨q', rfl⟩ := hrows y' hy'
  obtain ⟨h0, hlt⟩ := hcolumns x hx
  obtain ⟨h0', hlt'⟩ := hcolumns x' hx'
  have hq : (q * w + x) / w = (q' * w + x') / w := by
    congr 1
    omega
  rw [ediv_row h0 hlt, ediv_row h0' hlt'] at hq
  exact hne (by rw [hq])

theorem chunks_nodup (hw : 0 < w) {h xoffset yoffset : Int} (hx : 0 ≤ xoffset) (hxw : xoffset < w)
    (hw16 : w % 16 = 0) (hx16 : xoffset % 16 = 0) :
    ((chunks w h xoffset (yoffset * w)).map Chunk.dst).Nodup := by
  have htop : ∀ y, y ∈ counter 0 (h * w - yoffset * w) w ↔
      ∃ q, 0 ≤ q ∧ q < h - yoffset ∧ y = q * w := by
    intro y
    rw [← Int.sub_mul, ← mem_rows hw, Int.zero_mul]
  have hbottom : ∀ y, y ∈ counter (h * w - yoffset * w) (h * w) w ↔
      ∃ q, h - yoffset ≤ q ∧ q < h ∧ y = q * w := by
    intro y
    rw [← Int.sub_mul, ← mem_rows hw]
  have hleft := fun x => mem_columns (a := 0) (b := w - xoffset) rfl x
  have hright := fun x => mem_columns (a := w - xoffset) (b := w) (by omega) x
  have hquadrant : ∀ (ys xs : List Int) (dx dy : Int),
      (ys.flatMap fun y => xs.map fun x =>
        (⟨x + y, (x + xoffset - dx + y + yoffset * w - dy) / 16⟩ : Chunk)).map Chunk.dst =
        ys.flatMap fun y => xs.map fun x => x + y := by
    intro ys xs dx dy
    rw [List.map_flatMap]
    simp only [List.map_map]
    rfl
  have hmem : ∀ (ys xs : List Int) (z : Int), z ∈ (ys.flatMap fun y => xs.map fun x => x + y) →
      (∀ y ∈ ys, ∃ q, y = q * w) → (∀ x ∈ xs, 0 ≤ x ∧ x < w) →
        (z / w) * w ∈ ys ∧ z % w ∈ xs := by
    intro ys xs z hz hys hxs
    obtain ⟨y, hy, hz⟩ := List.mem_flatMap.mp hz
    obtain ⟨x, hx, rfl⟩ := List.mem_map.mp hz
    obtain ⟨q, rfl⟩ := hys y hy
    obtain ⟨h0, hlt⟩ := hxs x hx
    rw [Int.add_comm x, ediv_row h0 hlt, emod_row h0 hlt]
    exact ⟨hy, hx⟩
  have htopRow : ∀ y ∈ counter 0 (h * w - yoffset * w) w, ∃ q, y = q * w := by
    intro y hy
    obtain ⟨q, _, _, rfl⟩ := (htop y).mp hy
    exact ⟨q, rfl⟩
  have hbottomRow : ∀ y ∈ counter (h * w - yoffset * w) (h * w) w, ∃ q, y = q * w := by
    intro y hy
    obtain ⟨q, _, _, rfl⟩ := (hbottom y).mp hy
    exact ⟨q, rfl⟩
  have hleftColumn : ∀ x ∈ counter 0 (w - xoffset) 16, 0 ≤ x ∧ x < w := by
    intro x hx
    have := (hleft x).mp hx
    omega
  have hrightColumn : ∀ x ∈ counter (w - xoffset) w 16, 0 ≤ x ∧ x < w := by
    intro x hx
    have := (hright x).mp hx
    omega
  have hrows : ∀ {y}, y ∈ counter 0 (h * w - yoffset * w) w →
      y ∈ counter (h * w - yoffset * w) (h * w) w → False := by
    intro y hy hy'
    obtain ⟨q, _, hlt, rfl⟩ := (htop _).mp hy
    obtain ⟨q', hle, _, heq⟩ := (hbottom _).mp hy'
    have hqq := Int.eq_of_mul_eq_mul_right (by omega) heq
    omega
  have hcolumns : ∀ {x}, x ∈ counter 0 (w - xoffset) 16 → x ∈ counter (w - xoffset) w 16 →
      False := by
    intro x hx hx'
    have := (hleft x).mp hx
    have := (hright x).mp hx'
    omega
  have hnodup : ∀ start stop : Int, (counter start stop 16).Nodup :=
    fun start stop => counter_nodup (by omega)
  have hnodupRow : ∀ start stop : Int, (counter start stop w).Nodup :=
    fun start stop => counter_nodup hw
  simp only [chunks, List.map_append, hquadrant]
  refine List.Nodup.append (List.Nodup.append (List.Nodup.append
    (quadrant_nodup (hnodupRow _ _) (hnodup _ _) htopRow hleftColumn)
    (quadrant_nodup (hnodupRow _ _) (hnodup _ _) htopRow hrightColumn) ?_)
    (quadrant_nodup (hnodupRow _ _) (hnodup _ _) hbottomRow hleftColumn) ?_)
    (quadrant_nodup (hnodupRow _ _) (hnodup _ _) hbottomRow hrightColumn) ?_
  · intro z hz hz'
    exact hcolumns (hmem _ _ z hz htopRow hleftColumn).2 (hmem _ _ z hz' htopRow hrightColumn).2
  · intro z hz hz'
    rcases List.mem_append.mp hz with hz | hz
    · exact hrows (hmem _ _ z hz htopRow hleftColumn).1 (hmem _ _ z hz' hbottomRow hleftColumn).1
    · exact hrows (hmem _ _ z hz htopRow hrightColumn).1 (hmem _ _ z hz' hbottomRow hleftColumn).1
  · intro z hz hz'
    have hbelow := hmem _ _ z hz' hbottomRow hrightColumn
    rcases List.mem_append.mp hz with hz | hz
    · rcases List.mem_append.mp hz with hz | hz
      · exact hrows (hmem _ _ z hz htopRow hleftColumn).1 hbelow.1
      · exact hrows (hmem _ _ z hz htopRow hrightColumn).1 hbelow.1
    · exact hcolumns (hmem _ _ z hz hbottomRow hleftColumn).2 hbelow.2

end Side

namespace CaPacket

/-- The words that are converted, in turn. -/
def converted (p : CaPacket) : List Chunk :=
  chunks (toInt32 p.width) (toInt32 p.height) ((p.offset : Int).tmod (toInt32 p.width))
    ((p.offset : Int).tdiv (toInt32 p.width) * toInt32 p.width)

theorem ca2grey_eq (p : CaPacket) (fresh : Int → BitVec 16) : p.ca2grey fresh =
    (intMul (toInt32 p.width) (toInt32 p.height)).bind fun s =>
      if pdpHeaderSize ≤ p.pictureSize ∧ p.pictureSize < 2 ^ 31 then
        p.converted.foldl (fun image c => image.bind fun image => p.convertChunk s image c)
          (some fresh)
      else none := rfl

namespace Shown

variable {p : CaPacket}

theorem width_int (hp : p.Shown) : (0 : Int) < p.width := by
  have := hp.width_pos
  omega

theorem height_int (hp : p.Shown) : (0 : Int) < p.height := by
  have := hp.height_pos
  omega

theorem width_mod (hp : p.Shown) : (p.width : Int) % 16 = 0 := by
  have := hp.width_dvd
  omega

theorem xoffset_mod (hp : p.Shown) : (p.offset : Int) % p.width % 16 = 0 := by
  have := hp.offset_dvd
  exact_mod_cast Nat.mod_eq_zero_of_dvd this

theorem yoffset_lt (hp : p.Shown) : (p.offset : Int) / p.width < p.height := by
  apply Int.ediv_lt_of_lt_mul hp.width_int
  rw [Int.mul_comm]
  exact_mod_cast hp.offset_lt

theorem converted_eq (hp : p.Shown) : p.converted =
    chunks p.width p.height (p.offset % p.width) (p.offset / p.width * p.width) := by
  unfold converted
  rw [hp.toInt32_width, hp.toInt32_height, Int.tmod_eq_emod_of_nonneg (Int.natCast_nonneg p.offset),
    Int.tdiv_eq_ediv_of_nonneg (Int.natCast_nonneg p.offset)]

theorem mem_converted (hp : p.Shown) (c : Chunk) : c ∈ p.converted ↔ ∃ q x : Int,
    0 ≤ q ∧ q < p.height ∧ 0 ≤ x ∧ x < p.width ∧ x % 16 = 0 ∧
      c = torusChunk p.width p.height (p.offset % p.width) (p.offset / p.width) q x := by
  rw [hp.converted_eq]
  exact mem_chunks hp.width_int hp.width_mod (Int.emod_nonneg _ (ne_of_gt hp.width_int))
    (Int.emod_lt_of_pos _ hp.width_int) hp.xoffset_mod (by positivity) hp.yoffset_lt c

/-- Every word is inside the packet, and its pixels are inside the picture. -/
theorem converted_inside (hp : p.Shown) {c : Chunk} (hc : c ∈ p.converted) :
    0 ≤ c.src ∧ c.src < p.width * p.height / 16 ∧ 0 ≤ c.dst ∧ c.dst + 16 ≤ p.width * p.height ∧
      c.dst % 16 = 0 := by
  obtain ⟨q, x, hq, hqh, hx, hxw, hx16, rfl⟩ := (hp.mem_converted c).mp hc
  have hw := hp.width_int
  have hw16 := hp.width_mod
  have hrow0 := Int.emod_nonneg (q + p.offset / p.width) (ne_of_gt hp.height_int)
  have hrowh := Int.emod_lt_of_pos (q + p.offset / p.width) hp.height_int
  have hcolumn0 := Int.emod_nonneg (x + p.offset % p.width) (ne_of_gt hw)
  have hcolumnw := Int.emod_lt_of_pos (x + p.offset % p.width) hw
  have hinside := row_lt hrowh hcolumnw hw
  have hlast := row_lt (w := p.width) (x := x + 15) hqh (by omega) hw
  have hstart := Int.mul_nonneg hrow0 (by omega : (0 : Int) ≤ p.width)
  have hfirst : 0 ≤ q * (p.width : Int) := Int.mul_nonneg hq (by omega)
  have hproduct : q * (p.width : Int) % 16 = 0 := by
    rw [Int.mul_emod, hw16, Int.mul_zero, Int.zero_emod]
  have harea : (p.width : Int) * p.height % 16 = 0 := by
    rw [Int.mul_emod, hw16, Int.zero_mul, Int.zero_emod]
  show 0 ≤ (_ / 16 : Int) ∧ (_ / 16 : Int) < _ ∧ 0 ≤ x + q * p.width ∧
    x + q * p.width + 16 ≤ _ ∧ (x + q * p.width) % 16 = 0
  omega

theorem converted_once (hp : p.Shown) {a : Int} (ha : 0 ≤ a) (hlt : a < p.width * p.height) :
    p.converted.countP (fun c => c.dst ≤ a ∧ a < c.dst + 16) = 1 := by
  have hw := hp.width_int
  have hcount : p.converted.countP (fun c => c.dst ≤ a ∧ a < c.dst + 16) =
      (p.converted.map Chunk.dst).count (a / 16 * 16) := by
    rw [List.count, List.countP_map]
    refine List.countP_congr fun c hc => ?_
    have := hp.converted_inside hc
    simp only [decide_eq_true_eq, Function.comp_apply, beq_iff_eq]
    omega
  have hnodup : (p.converted.map Chunk.dst).Nodup := by
    rw [hp.converted_eq]
    exact chunks_nodup hw (Int.emod_nonneg _ (ne_of_gt hw)) (Int.emod_lt_of_pos _ hw) hp.width_mod
      hp.xoffset_mod
  rw [hcount]
  refine List.count_eq_one_of_mem hnodup (List.mem_map.mpr ?_)
  -- the row of the pixel, and the 16 columns it is in
  have hcolumn0 := Int.emod_nonneg a (ne_of_gt hw)
  have hcolumnw := Int.emod_lt_of_pos a hw
  have hrow : a / p.width < p.height := Int.ediv_lt_of_lt_mul hw (by rw [Int.mul_comm]; exact hlt)
  refine ⟨_, (hp.mem_converted _).mpr ⟨a / p.width, a % p.width / 16 * 16,
    Int.ediv_nonneg ha (le_of_lt hw), hrow, by omega, by omega, by omega, rfl⟩, ?_⟩
  have hproduct : a / p.width * (p.width : Int) % 16 = 0 := by
    rw [Int.mul_emod, hp.width_mod, Int.mul_zero, Int.zero_emod]
  have hsplit := Int.ediv_mul_add_emod a p.width
  show a % p.width / 16 * 16 + a / p.width * p.width = a / 16 * 16
  omega

end Shown

/-! ## Moving the picture -/

/-- `shift %= n; if (shift < 0) shift += n`. -/
def wrapShift (shift n : Int) : Int :=
  if shift.tmod n < 0 then shift.tmod n + n else shift.tmod n

/-- `pdp_ca_sendpacket` for a packet that exists: what is sent, if the sums and the product are
`int`s. -/
def sendPacket (p : CaPacket) (horshift vershift : Int) : Option CaPacket :=
  let offset := toInt32 p.offset
  let width := toInt32 p.width
  let height := toInt32 p.height
  let xsum := offset.tmod width + wrapShift horshift width
  let ysum := offset.tdiv width + wrapShift vershift height
  let xoffset := xsum.tmod width
  let yoffset := ysum.tmod height
  if IsInt xsum ∧ IsInt ysum ∧ IsInt (yoffset * width) ∧ IsInt (yoffset * width + xoffset) then
    some { p with offset := ofInt32 (yoffset * width + xoffset) }
  else none

/-- `pdp_ca_horshift16`, for the number that its argument is cut to. -/
def horshift16 (f : Int) : Option Int := intMul 16 f

theorem horshift16_dvd {f horshift : Int} (h : horshift16 f = some horshift) : 16 ∣ horshift :=
  ⟨f, (intMul_eq_some.mp h).2⟩

theorem wrapShift_eq {n : Int} (hn : 0 < n) (shift : Int) : wrapShift shift n = shift % n := by
  have hmod := Int.tmod_eq_emod (a := shift) (b := n)
  have hnonneg := Int.emod_nonneg shift (ne_of_gt hn)
  have hlt := Int.emod_lt_of_pos shift hn
  unfold wrapShift
  split at hmod
  · have hsame : shift.tmod n = shift % n := by simpa using hmod
    rw [hsame, if_neg (by omega)]
  · have habs : (n.natAbs : Int) = n := Int.natAbs_of_nonneg (le_of_lt hn)
    rw [habs] at hmod
    rw [hmod, if_pos (by omega)]
    omega

namespace Shown

variable {p : CaPacket}

theorem sendPacket_eq (hp : p.Shown) (horshift vershift : Int) :
    ∃ row column : Int, row = ((p.offset : Int) / p.width + vershift) % p.height ∧
      column = ((p.offset : Int) % p.width + horshift) % p.width ∧
      0 ≤ row ∧ row < p.height ∧ 0 ≤ column ∧ column < p.width ∧
      p.sendPacket horshift vershift = some { p with offset := ofInt32 (row * p.width + column) } ∧
      (ofInt32 (row * p.width + column) : Int) = row * p.width + column := by
  have hw := hp.width_int
  have hh := hp.height_int
  have harea : (p.width : Int) * p.height < 2 ^ 30 := by
    have := hp.picture_lt
    exact_mod_cast (by omega : p.width * p.height < 2 ^ 30)
  have hwide : (p.width : Int) * 1 ≤ p.width * p.height :=
    Int.mul_le_mul_of_nonneg_left hh (le_of_lt hw)
  have hheight : (p.height : Int) * 64 ≤ p.width * p.height := by
    have hw64 : (64 : Int) ≤ p.width := by
      have := hp.width_dvd
      omega
    rw [Int.mul_comm]
    exact Int.mul_le_mul_of_nonneg_right hw64 (le_of_lt hh)
  have hx0 := Int.emod_nonneg p.offset (ne_of_gt hw)
  have hxw := Int.emod_lt_of_pos p.offset hw
  have hy0 : 0 ≤ (p.offset : Int) / p.width := by positivity
  have hyh := hp.yoffset_lt
  have hhor0 := Int.emod_nonneg horshift (ne_of_gt hw)
  have hhorw := Int.emod_lt_of_pos horshift hw
  have hver0 := Int.emod_nonneg vershift (ne_of_gt hh)
  have hverh := Int.emod_lt_of_pos vershift hh
  have hrow0 := Int.emod_nonneg ((p.offset : Int) / p.width + vershift) (ne_of_gt hh)
  have hrowh := Int.emod_lt_of_pos ((p.offset : Int) / p.width + vershift) hh
  have hcolumn0 := Int.emod_nonneg ((p.offset : Int) % p.width + horshift) (ne_of_gt hw)
  have hcolumnw := Int.emod_lt_of_pos ((p.offset : Int) % p.width + horshift) hw
  have hinside := row_lt hrowh hcolumnw hw
  have hstart := Int.mul_nonneg hrow0 (le_of_lt hw)
  refine ⟨_, _, rfl, rfl, hrow0, hrowh, hcolumn0, hcolumnw, ?_, ?_⟩
  · unfold sendPacket
    simp only [hp.toInt32_offset, hp.toInt32_width, hp.toInt32_height, wrapShift_eq hw,
      wrapShift_eq hh, Int.tmod_eq_emod_of_nonneg (Int.natCast_nonneg p.offset),
      Int.tdiv_eq_ediv_of_nonneg (Int.natCast_nonneg p.offset)]
    rw [Int.tmod_eq_emod_of_nonneg (by omega), Int.tmod_eq_emod_of_nonneg (by omega),
      Int.add_emod_emod, Int.add_emod_emod]
    refine if_pos ⟨⟨?_, ?_⟩, ⟨?_, ?_⟩, ⟨?_, ?_⟩, ?_, ?_⟩
    all_goals omega
  · rw [ofInt32_eq]
    exact Int.emod_eq_of_lt (by omega) (by omega)

/-- The offset stays inside the packet, and the picture moves by the shift. -/
theorem sendPacket_view (hp : p.Shown) (horshift vershift : Int) :
    ∃ p', p.sendPacket horshift vershift = some p' ∧ p'.width = p.width ∧
      p'.height = p.height ∧ p'.offset < p.width * p.height ∧
      (16 ∣ horshift → p'.Shown) ∧ ∀ row column, p'.view row column =
        p.view ((row + vershift) % p.height) ((column + horshift) % p.width) := by
  obtain ⟨row, column, hrow_eq, hcolumn_eq, hrow, hrowh, hcolumn, hcolumnw, hsend, hcast⟩ :=
    hp.sendPacket_eq horshift vershift
  have hw := hp.width_int
  have hinside : row * p.width + column < p.width * p.height := row_lt hrowh hcolumnw hw
  have hlt : ofInt32 (row * p.width + column) < p.width * p.height := by
    exact_mod_cast hcast ▸ hinside
  refine ⟨_, hsend, rfl, rfl, hlt, fun hdvd => ?_, fun y x => ?_⟩
  · refine ⟨hp.width_pos, hp.width_dvd, hp.height_pos, hp.picture_lt, hlt, ?_⟩
    show 16 ∣ ofInt32 (row * p.width + column) % p.width
    have hmod : ((ofInt32 (row * p.width + column) % p.width : Nat) : Int) = column := by
      rw [Int.natCast_emod, hcast]
      exact emod_row hcolumn hcolumnw
    have hcolumn16 : column % 16 = 0 := by
      have := hp.xoffset_mod
      rw [hcolumn_eq, Int.emod_emod_of_dvd _ (Int.dvd_of_emod_eq_zero hp.width_mod)]
      omega
    omega
  · unfold view
    rw [hcast]
    show p.cell ((y + (row * p.width + column) / p.width) % p.height * p.width +
      (x + (row * p.width + column) % p.width) % p.width) = _
    rw [ediv_row hcolumn hcolumnw, emod_row hcolumn hcolumnw, hrow_eq, hcolumn_eq,
      Int.add_emod_emod, Int.add_emod_emod, Int.emod_add_emod, Int.emod_add_emod]
    have hy : y + ((p.offset : Int) / p.width + vershift) = y + vershift + p.offset / p.width := by
      omega
    have hx : x + ((p.offset : Int) % p.width + horshift) = x + horshift + p.offset % p.width := by
      omega
    rw [hy, hx]

end Shown

/-- There is no picture if a word is not inside. -/
theorem ca2grey_beyond {p : CaPacket} {s : Int} {c : Chunk}
    (harea : intMul (toInt32 p.width) (toInt32 p.height) = some s) (hc : c ∈ p.converted)
    (hout : s < c.dst + 16) (fresh : Int → BitVec 16) : p.ca2grey fresh = none := by
  have hnone : ∀ l : List Chunk, l.foldl (fun image c =>
      image.bind fun image => p.convertChunk s image c) none = none := by
    intro l
    induction l with
    | nil => rfl
    | cons c l ih => exact ih
  rw [ca2grey_eq, harea, Option.bind_some]
  split
  swap
  · rfl
  generalize some fresh = image
  generalize p.converted = l at hc ⊢
  induction l generalizing image with
  | nil => cases hc
  | cons c' l ih =>
      rcases List.mem_cons.mp hc with rfl | hc
      · have hfails : (image.bind fun image => p.convertChunk s image c) = none := by
          cases image with
          | none => rfl
          | some image => exact if_neg (by omega)
        rw [List.foldl_cons, hfails]
        exact hnone l
      · exact ih _ hc

/-- The picture of a packet: it is made of words inside the packet, each pixel is written once
and shows its cell; and wherever the packet is moved before it is sent, the picture moves as
much. -/
theorem picture_shift {p : CaPacket} (hp : p.Shown) (fresh : Int → BitVec 16) :
    let w : Int := p.width
    let h : Int := p.height
    (∀ c ∈ p.converted, 0 ≤ c.src ∧ c.src < w * h / 16 ∧ 0 ≤ c.dst ∧ c.dst + 16 ≤ w * h) ∧
      (∀ a, 0 ≤ a → a < w * h →
        p.converted.countP (fun c => c.dst ≤ a ∧ a < c.dst + 16) = 1) ∧
      (∀ f horshift : Int, horshift16 f = some horshift → 16 ∣ horshift) ∧
      ∃ image, p.ca2grey fresh = some image ∧
        (∀ row column : Int, 0 ≤ row → row < h → 0 ≤ column → column < w →
          image (row * w + column) = greyOf (p.cell
            ((row + p.offset / w) % h * w + (column + p.offset % w) % w))) ∧
        ∀ horshift vershift : Int, ∃ p', p.sendPacket horshift vershift = some p' ∧
          p'.offset < p.width * p.height ∧ (16 ∣ horshift → ∀ fresh' : Int → BitVec 16,
            ∃ image', p'.ca2grey fresh' = some image' ∧ ∀ row column : Int, 0 ≤ row → row < h →
              0 ≤ column → column < w → image' (row * w + column) =
                image ((row + vershift) % h * w + (column + horshift) % w)) := by
  intro w h
  obtain ⟨image, himage, hshows⟩ := ca2grey_spec hp fresh
  refine ⟨fun c hc => ?_, fun a ha hlt => hp.converted_once ha hlt, fun f horshift => horshift16_dvd,
    image, himage, hshows, fun horshift vershift => ?_⟩
  · have hinside := hp.converted_inside hc
    exact ⟨hinside.1, hinside.2.1, hinside.2.2.1, hinside.2.2.2.1⟩
  · obtain ⟨p', hsend, hwidth, hheight, hlt, hshown, hview⟩ :=
      hp.sendPacket_view horshift vershift
    refine ⟨p', hsend, hlt, fun hdvd fresh' => ?_⟩
    obtain ⟨image', himage', hshows'⟩ := ca2grey_spec (hshown hdvd) fresh'
    rw [hwidth, hheight] at hshows'
    refine ⟨image', himage', fun row column hrow hrowh hcolumn hcolumnw => ?_⟩
    have hnew : image' (row * w + column) = _ := hshows' row column hrow hrowh hcolumn hcolumnw
    have hold : image ((row + vershift) % h * w + (column + horshift) % w) = _ :=
      hshows _ _ (Int.emod_nonneg _ (ne_of_gt hp.height_int))
        (Int.emod_lt_of_pos _ hp.height_int) (Int.emod_nonneg _ (ne_of_gt hp.width_int))
        (Int.emod_lt_of_pos _ hp.width_int)
    rw [hnew, hold, hview]

/-- Up and to the left from the upper left corner. -/
theorem picture_shift_up_left :
    ∃ p', (⟨64, 4, 0, fun _ => 0⟩ : CaPacket).sendPacket (-16) (-1) = some p' ∧
      p'.offset < 64 * 4 := by
  have hp : (⟨64, 4, 0, fun _ => 0⟩ : CaPacket).Shown := by
    constructor <;> decide
  obtain ⟨-, -, -, _, -, -, hshift⟩ := picture_shift hp fun _ => 0
  obtain ⟨p', hsend, hlt, -⟩ := hshift (-16) (-1)
  exact ⟨p', hsend, hlt⟩

/-- What is too much: a picture that no packet is large enough for, and a shift that is not a
number of words, after which there is no picture. -/
theorem picture_limits :
    (⟨65536, 16384, 0, fun _ => 0⟩ : CaPacket).ca2grey (fun _ => 0) = none ∧
      (⟨64, 4, 0, fun _ => 0⟩ : CaPacket).Shown ∧
      ∃ p', (⟨64, 4, 0, fun _ => 0⟩ : CaPacket).sendPacket 1 0 = some p' ∧
        p'.offset = 1 ∧ p'.ca2grey (fun _ => 0) = none := by
  refine ⟨?_, ?_, ?_⟩
  · exact ca2grey_tooLarge (by decide) _
  · constructor <;> decide
  · refine ⟨⟨64, 4, 1, fun _ => 0⟩, ?_, rfl, ?_⟩
    · unfold sendPacket
      exact if_pos (by decide)
    · -- the last word of the last row is written behind the picture
      exact ca2grey_beyond (s := 256) (c := ⟨255, 12⟩) (by decide) (by decide +kernel)
        (by decide) _

end CaPacket

end PureDataPacket
